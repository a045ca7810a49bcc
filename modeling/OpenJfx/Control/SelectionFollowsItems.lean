import OpenJfx.Control.SelectionShiftRun

namespace OpenJfx.Control

open Data Java.Arrays Java.BitSets Collections.ListChange Collections.ShiftedPositions List

namespace ListViewBitSetSelectionModel

open MultipleSelectionModelBase

variable {T : Type}

structure SelectsAmong (items : List (Option T)) (m : MultipleSelectionModelBase T) : Prop where
  mode : m.selectionMode = .multiple
  atomicity : m.selectedIndices.atomicityCount = 0
  valid : ∀ i ∈ m.selected, i < items.length
  lead : m.selectedIndex = -1 ∧ (m.selectedItem ≠ none → m.selectedItem ∉ items) ∨
    0 ≤ m.selectedIndex ∧ m.selectedIndex < items.length ∧
      m.selectedItem = getModelItem items m.selectedIndex

/-- The changes lead to the new items and remove no selected one. -/
structure SparesSelected (items newItems : List (Option T)) (changes : List (SubChange (Option T)))
    (selected : List Nat) : Prop where
  distinct : items.Nodup
  distinct' : newItems.Nodup
  aligned : Aligned 0 changes items newItems
  ascending : changes.Pairwise fun c d => c.fromIdx < d.fromIdx
  pure : ∀ c ∈ changes, IsPure c
  spares : ∀ c ∈ changes, ∀ i ∈ selected, ∀ item ∈ c.getRemoved, items[i]? ≠ some item

variable [DecidableEq T]

/-- The same items are selected, at their new rows. -/
def Follows (items newItems : List (Option T)) (m : ListViewBitSetSelectionModel T)
    (changes : List (SubChange (Option T))) : Prop :=
  ∃ m', m.onChanged newItems changes = .ok m' ∧
    (∀ j, j ∈ m'.base.selected ↔
      ∃ i ∈ m.base.selected, ∃ item, items[i]? = some item ∧ newItems[j]? = some item) ∧
    ∀ item, 0 ≤ m.base.selectedIndex → items[m.base.selectedIndex.toNat]? = some item →
      0 ≤ m'.base.selectedIndex ∧ newItems[m'.base.selectedIndex.toNat]? = some item

def LeadFollows (selected : List Nat) (lead : Int) (shifts : List Shift) : Prop :=
  (∀ s ∈ shifts, lead < s.position) ∨
    lead.toNat ∈ selected ∧
      max 0 (lead + totalShift Shift.position shifts lead) =
        lead + totalShift Shift.actual shifts lead

def CarriesAlong (newItems : List (Option T)) (m : MultipleSelectionModelBase T)
    (shifts : List Shift) : Prop :=
  if m.selectedIndex = -1 ∧ m.selectedItem ≠ none ∧ m.selectedItem ∈ newItems then
    ∀ i ∈ m.selected, newPosition shifts i = i
  else
    Steady m.selected newItems.length m.selectedIndices.bitsetSize m.selectedIndex shifts ∧
      (0 ≤ m.selectedIndex → LeadFollows m.selected m.selectedIndex shifts)

instance (selected : List Nat) (lead : Int) (shifts : List Shift) :
    Decidable (LeadFollows selected lead shifts) :=
  inferInstanceAs (Decidable (_ ∨ _))

instance (newItems : List (Option T)) (m : MultipleSelectionModelBase T) (shifts : List Shift) :
    Decidable (CarriesAlong newItems m shifts) :=
  inferInstanceAs (Decidable (ite _ _ _))

section

omit [DecidableEq T]

variable {items newItems : List (Option T)} {changes : List (SubChange (Option T))}
  {selected : List Nat} {delta : Int}

theorem moves_shiftsOf (hpure : ∀ c ∈ changes, IsPure c) (hto : ∀ c ∈ changes, 0 ≤ c.fromIdx) :
    ∀ s ∈ shiftsOf delta changes, Moves s := by
  induction changes generalizing delta with
  | nil => simp [shiftsOf]
  | cons c changes ih =>
    intro s hs
    rcases mem_cons.mp hs with rfl | hs
    · rcases (hpure c mem_cons_self).2.2 with ⟨hrem, hlt⟩ | ⟨hrem, heq⟩
      · refine .inl ⟨?_, ?_⟩
        · dsimp only
          omega
        · exact congrArg List.length hrem
      · refine .inr ⟨?_, ?_⟩
        · dsimp only
          omega
        · exact length_pos_iff.mpr hrem
    · exact ih (fun d hd => hpure d (mem_cons_of_mem c hd))
        (fun d hd => hto d (mem_cons_of_mem c hd)) s hs

theorem position_of_mem_shiftsOf {s : Shift} (hs : s ∈ shiftsOf delta changes) :
    ∃ c ∈ changes, s.position = c.fromIdx.toNat := by
  induction changes generalizing delta with
  | nil => exact absurd hs not_mem_nil
  | cons c changes ih =>
    rcases mem_cons.mp hs with rfl | hs
    · exact ⟨c, mem_cons_self, rfl⟩
    · rcases ih hs with ⟨d, hd, hpos⟩
      exact ⟨d, mem_cons_of_mem c hd, hpos⟩

theorem ascending_shiftsOf (hascending : changes.Pairwise fun c d => c.fromIdx < d.fromIdx)
    (hto : ∀ c ∈ changes, 0 ≤ c.fromIdx) : Ascending (shiftsOf delta changes) := by
  induction changes generalizing delta with
  | nil => exact .nil
  | cons c changes ih =>
    rcases pairwise_cons.mp hascending with ⟨hfst, hrest⟩
    refine pairwise_cons.mpr ⟨?_, ih hrest fun d hd => hto d (mem_cons_of_mem c hd)⟩
    intro s hs
    rcases position_of_mem_shiftsOf hs with ⟨d, hd, hpos⟩
    have hlt := hfst d hd
    have hnn := hto c mem_cons_self
    dsimp only
    omega

theorem lt_actual (h : Aligned 0 changes items newItems) {i : Nat}
    (hbef : ∀ s ∈ shiftsOf 0 changes, i < s.position) :
    ∀ s ∈ shiftsOf 0 changes, i < s.actual := by
  cases h with
  | nil => simp [shiftsOf]
  | @cons _ c cs kept added before after hfrom hto htail =>
    have hlt := hbef _ mem_cons_self
    dsimp only at hlt
    have hstart : c.toIdx = ((kept.length + c.getRemovedSize : Nat) : Int) +
        (0 + (c.toIdx - c.fromIdx) - c.getRemovedSize) := by
      omega
    intro s hs
    rcases mem_cons.mp hs with rfl | hs
    · dsimp only
      omega
    · have hle := le_actual htail hstart s hs
      omega

theorem mem_of_mem_removed {p : Int} (h : Aligned p changes items newItems)
    {c : SubChange (Option T)} (hc : c ∈ changes) {item : Option T} (hitem : item ∈ c.getRemoved) :
    item ∈ items := by
  induction h with
  | nil => exact absurd hc not_mem_nil
  | cons kept added hfrom hto htail ih =>
    rcases mem_cons.mp hc with rfl | hc
    · exact mem_append_left _ (mem_append_right _ hitem)
    · exact mem_append_right _ (ih hc)

theorem kept_of_before (h : Aligned 0 changes items newItems) (hdist : items.Nodup) {i : Nat}
    {item : Option T} (hitem : items[i]? = some item)
    (hbef : ∀ s ∈ shiftsOf 0 changes, i < s.position) :
    ∀ c ∈ changes, item ∉ c.getRemoved := by
  cases h with
  | nil => simp
  | @cons _ c cs kept added before after hfrom hto htail =>
    have hlt := hbef _ mem_cons_self
    dsimp only at hlt
    rw [append_assoc] at hitem hdist
    rw [getElem?_append_left (by omega)] at hitem
    have hapart := (nodup_append.mp hdist).2.2 item (mem_of_getElem? hitem)
    intro d hd hrem
    rcases mem_cons.mp hd with rfl | hd
    · exact hapart item (mem_append_left _ hrem) rfl
    · exact hapart item (mem_append_right _ (mem_of_mem_removed htail hd hrem)) rfl

namespace SparesSelected

variable (h : SparesSelected items newItems changes selected)
include h

theorem fromIdx_nonneg : ∀ c ∈ changes, 0 ≤ c.fromIdx :=
  fun c hc => (h.aligned.bounds c hc).1

theorem moves : ∀ s ∈ shiftsOf 0 changes, Moves s := moves_shiftsOf h.pure h.fromIdx_nonneg

theorem ascending_shifts : Ascending (shiftsOf 0 changes) :=
  ascending_shiftsOf h.ascending h.fromIdx_nonneg

theorem position_of_kept {i : Nat} {item : Option T} (hitem : items[i]? = some item)
    (hkept : ∀ c ∈ changes, item ∉ c.getRemoved) :
    Spared (shiftsOf 0 changes) i ∧
      (newPosition (shiftsOf 0 changes) i : Int) =
        i + totalShift Shift.actual (shiftsOf 0 changes) i ∧
      newItems[newPosition (shiftsOf 0 changes) i]? = some item := by
  have hzero : (0 : Int) = (0 : Nat) + 0 := rfl
  rcases newPosition_spec h.aligned hzero hitem hkept with ⟨hspared, htotal, t', hnew, hafter⟩
  simp only [Nat.zero_add, Int.natCast_zero, Int.zero_add] at hspared htotal hnew
  rw [← hnew] at hafter
  exact ⟨hspared, htotal, hafter⟩

theorem position_of_selected {i : Nat} (hi : i ∈ selected) (hvalid : i < items.length) :
    Spared (shiftsOf 0 changes) i ∧
      (newPosition (shiftsOf 0 changes) i : Int) =
        i + totalShift Shift.actual (shiftsOf 0 changes) i ∧
      newItems[newPosition (shiftsOf 0 changes) i]? = some items[i] := by
  have hitem := getElem?_eq_getElem hvalid
  exact h.position_of_kept hitem fun c hc hmem => h.spares c hc i hi _ hmem hitem

theorem mem_iff_of_positions (hvalid : ∀ i ∈ selected, i < items.length) (j : Nat) :
    (∃ i ∈ selected, newPosition (shiftsOf 0 changes) i = j) ↔
      ∃ i ∈ selected, ∃ item, items[i]? = some item ∧ newItems[j]? = some item := by
  constructor
  · rintro ⟨i, hi, rfl⟩
    have hlt := hvalid i hi
    exact ⟨i, hi, items[i], getElem?_eq_getElem hlt, (h.position_of_selected hi hlt).2.2⟩
  · rintro ⟨i, hi, item, hitem, hnew⟩
    refine ⟨i, hi, ?_⟩
    have hlt := hvalid i hi
    have hafter := (h.position_of_selected hi hlt).2.2
    rw [getElem?_eq_getElem hlt] at hitem
    rw [hitem, ← hnew] at hafter
    have hbound : newPosition (shiftsOf 0 changes) i < newItems.length := by
      apply List.getElem?_eq_some_iff.mp (hafter.trans hnew) |>.1
    exact (getElem?_inj hbound h.distinct').mp hafter

end SparesSelected

end

section

variable {items newItems : List (Option T)} {changes : List (SubChange (Option T))}
  {m : MultipleSelectionModelBase T}

variable {c : SubChange (Option T)}

theorem observe_eq (flag : Bool) (hne : newItems ≠ [])
    (hfound : m.selectedIndex = -1 → m.selectedItem ≠ none → m.selectedItem ∉ newItems)
    (hrem : m.selectedIndex ≠ -1 → m.selectedItem ≠ none → m.selectedItem ∉ c.getRemoved) :
    observe newItems (m, flag) c = .ok (m, flag) := by
  rw [observe]
  rw [if_neg hne]
  split
  case isTrue hnone =>
    have hnot : newItems.findIdx? (· = m.selectedItem) = none := by
      apply findIdx?_eq_none_iff.mpr
      intro item hitem
      apply decide_eq_false
      rintro rfl
      exact hfound hnone.1 hnone.2 hitem
    rw [hnot]
    rfl
  case isFalse hsome =>
    rw [if_neg]
    · rfl
    · rintro ⟨-, -, -, hitem, hhead⟩
      apply hrem (fun hidx => hsome ⟨hidx, hitem⟩) hitem
      exact mem_of_head? hhead

omit [DecidableEq T] in
theorem getAddedSize_of_added (hpure : IsPure c) (hlt : c.fromIdx < c.toIdx) :
    c.wasAdded = true ∧ c.getAddedSize = c.toIdx - c.fromIdx := by
  have hadded : c.wasAdded = true := by
    rw [SubChange.wasAdded, SubChange.wasPermutated, SubChange.wasUpdated, hpure.1, hpure.2.1]
    simpa using hlt
  exact ⟨hadded, by rw [SubChange.getAddedSize, if_pos hadded]⟩

theorem updateSubChange_eq (size : Nat) (shifts : List (Int × Int)) (hpure : IsPure c)
    (hfrom : 0 ≤ c.fromIdx) (delta : Int) :
    updateSubChange newItems size (m, shifts) c =
      .ok (m, shifts ++ [shiftPair ⟨c.fromIdx.toNat, (c.fromIdx - delta).toNat,
        (c.toIdx - c.fromIdx).toNat, c.getRemovedSize⟩]) := by
  rw [updateSubChange, shiftPair, Shift.amount]
  rw [Int.toNat_of_nonneg hfrom]
  rcases hpure.2.2 with ⟨hrem, hlt⟩ | ⟨hrem, heq⟩
  · rcases getAddedSize_of_added hpure hlt with ⟨hadded, hsize⟩
    have hnot : c.wasRemoved = false := by
      rw [SubChange.wasRemoved, hrem]
      rfl
    have hzero : c.getRemovedSize = 0 := congrArg List.length hrem
    rw [hadded, hnot, hsize, hzero]
    rw [Int.toNat_of_nonneg (by omega)]
    simp
  · have hnot : c.wasAdded = false := by
      rw [SubChange.wasAdded, heq]
      simp
    have hwas : c.wasRemoved = true := by
      rw [SubChange.wasRemoved]
      simpa using hrem
    rw [hnot, hwas, heq]
    simp

theorem foldlM_updateSubChange (size : Nat) (shifts : List (Int × Int)) (delta : Int)
    (hpure : ∀ c ∈ changes, IsPure c) (hfrom : ∀ c ∈ changes, 0 ≤ c.fromIdx) :
    changes.foldlM (updateSubChange newItems size) (m, shifts) =
      .ok (m, shifts ++ (shiftsOf delta changes).map shiftPair) := by
  induction changes generalizing shifts delta with
  | nil => exact congrArg (fun l => Except.ok (m, l)) (append_nil shifts).symm
  | cons c changes ih =>
    rw [foldlM_cons, updateSubChange_eq size shifts (hpure c mem_cons_self)
      (hfrom c mem_cons_self) delta, ok_bind,
      ih _ _ (fun d hd => hpure d (mem_cons_of_mem c hd))
        fun d hd => hfrom d (mem_cons_of_mem c hd), append_assoc]
    rfl

theorem updateSelection_eq (model : ListViewBitSetSelectionModel T)
    (hpure : ∀ c ∈ changes, IsPure c) (hfrom : ∀ c ∈ changes, 0 ≤ c.fromIdx)
    {base : MultipleSelectionModelBase T}
    (hshift : (if (shiftsOf 0 changes).map shiftPair = [] then pure model.base
      else model.base.shiftSelection newItems ((shiftsOf 0 changes).map shiftPair)) = .ok base) :
    model.updateSelection newItems changes = .ok ⟨base, newItems.length⟩ := by
  rw [updateSelection, foldlM_updateSubChange model.previousModelSize [] 0 hpure hfrom, ok_bind,
    nil_append]
  dsimp only
  split
  case isTrue hnone =>
    rw [if_pos hnone] at hshift
    rw [hshift]
    rfl
  case isFalse hsome =>
    rw [if_neg hsome] at hshift
    rw [hshift]
    rfl

theorem onChanged_eq {model : ListViewBitSetSelectionModel T}
    (hfixed : ∀ c ∈ changes, observe newItems (model.base, true) c = .ok (model.base, true))
    (hpure : ∀ c ∈ changes, IsPure c) (hfrom : ∀ c ∈ changes, 0 ≤ c.fromIdx)
    {base : MultipleSelectionModelBase T}
    (hshift : (if (shiftsOf 0 changes).map shiftPair = [] then pure model.base
      else model.base.shiftSelection newItems ((shiftsOf 0 changes).map shiftPair)) = .ok base) :
    model.onChanged newItems changes = .ok ⟨base, newItems.length⟩ := by
  rw [onChanged, foldlM_eq_of_fixed hfixed]
  exact updateSelection_eq model hpure hfrom hshift

theorem shiftSelection_of_empty (hemp : m.selected = []) (shifts : List (Int × Int)) :
    (if shifts = [] then pure m else m.shiftSelection newItems shifts) = .ok m := by
  split
  · rfl
  · rw [shiftSelection, if_pos]
    · rfl
    · exact congrArg List.length hemp

variable {model : ListViewBitSetSelectionModel T}

omit [DecidableEq T] in
theorem SelectsAmong.lead_nonneg (h : SelectsAmong items m) (hlead : m.selectedIndex ≠ -1) :
    0 ≤ m.selectedIndex ∧ m.selectedItem = getModelItem items m.selectedIndex ∧
      ∃ item, items[m.selectedIndex.toNat]? = some item := by
  rcases h.lead with ⟨hnone, -⟩ | ⟨hnn, hlt, hitem⟩
  · exact absurd hnone hlead
  · have hlt' : m.selectedIndex.toNat < items.length := by omega
    exact ⟨hnn, hitem, items[m.selectedIndex.toNat], getElem?_eq_getElem hlt'⟩

variable {item : Option T}

omit [DecidableEq T] in
theorem lead_kept (hselects : SelectsAmong items m)
    (hspares : SparesSelected items newItems changes m.selected)
    (hlead : LeadFollows m.selected m.selectedIndex (shiftsOf 0 changes))
    (hidx : m.selectedIndex ≠ -1) (hitem : items[m.selectedIndex.toNat]? = some item) :
    ∀ c ∈ changes, item ∉ c.getRemoved := by
  rcases hselects.lead_nonneg hidx with ⟨hnn, -⟩
  rcases hlead with hbef | ⟨hmem, -⟩
  · apply kept_of_before hspares.aligned hspares.distinct hitem
    intro s hs
    have hlt := hbef s hs
    omega
  · exact fun c hc hrem => hspares.spares c hc _ hmem item hrem hitem

omit [DecidableEq T] in
theorem lead_position (hselects : SelectsAmong items m)
    (hspares : SparesSelected items newItems changes m.selected)
    (hlead : LeadFollows m.selected m.selectedIndex (shiftsOf 0 changes))
    (hidx : m.selectedIndex ≠ -1) (hitem : items[m.selectedIndex.toNat]? = some item) :
    newItems[newPosition (shiftsOf 0 changes) m.selectedIndex.toNat]? = some item ∧
      (newPosition (shiftsOf 0 changes) m.selectedIndex.toNat : Int) =
        max 0 (m.selectedIndex +
          totalShift Shift.position (shiftsOf 0 changes) m.selectedIndex) := by
  rcases hselects.lead_nonneg hidx with ⟨hnn, -⟩
  have hkept := lead_kept hselects hspares hlead hidx hitem
  rcases hspares.position_of_kept hitem hkept with ⟨-, htotal, hnew⟩
  refine ⟨hnew, ?_⟩
  rw [Int.toNat_of_nonneg hnn] at htotal
  rcases hlead with hbef | ⟨-, hsame⟩
  · have hactual := lt_actual hspares.aligned (i := m.selectedIndex.toNat) fun s hs => by
      have hlt := hbef s hs
      omega
    rw [totalShift_of_lt fun s hs => by
      have hlt := hactual s hs
      omega] at htotal
    rw [totalShift_of_lt hbef]
    omega
  · rw [hsame]
    exact htotal

theorem shiftSelection_follows (hselects : SelectsAmong items m)
    (hspares : SparesSelected items newItems changes m.selected)
    (hsel : m.selected ≠ []) {s : Shift} {higher : List Shift}
    (hshifts : shiftsOf 0 changes = s :: higher)
    (hsteady : Steady m.selected newItems.length m.selectedIndices.bitsetSize m.selectedIndex
      (s :: higher))
    (hlead : 0 ≤ m.selectedIndex → LeadFollows m.selected m.selectedIndex (s :: higher)) :
    ∃ base, m.shiftSelection newItems ((s :: higher).map shiftPair) = .ok base ∧
      (∀ j, j ∈ base.selected ↔ ∃ i ∈ m.selected, newPosition (s :: higher) i = j) ∧
      (0 ≤ m.selectedIndex →
        base.selectedIndex = newPosition (s :: higher) m.selectedIndex.toNat) := by
  have hmoves := hspares.moves
  have hascending := hspares.ascending_shifts
  have hspared : ∀ i ∈ m.selected, Spared (shiftsOf 0 changes) i :=
    fun i hi => (hspares.position_of_selected hi (hselects.valid i hi)).1
  rw [hshifts] at hmoves hascending hspared
  rcases foldrM_doShift_lead ({ m.selectedIndices with
      bitset := m.selectedIndices.bitset.trimToSize } : SelectedIndicesList).startAtomic
    hmoves hascending m.selectedIndices.bitset.sorted hspared hsteady (Nat.succ_pos _)
    (noted_replicate _) rfl rfl with ⟨bitset, perm, hfold, hsub, hsup⟩
  have hpos : 0 ≤ m.selectedIndex →
      newSelectionLead m.selectedIndex ((s :: higher).map shiftPair) =
          newPosition (s :: higher) m.selectedIndex.toNat ∧
        newPosition (s :: higher) m.selectedIndex.toNat < newItems.length := by
    intro hnn
    have hidx : m.selectedIndex ≠ -1 := by omega
    rcases hselects.lead_nonneg hidx with ⟨-, -, item, hitem⟩
    rw [← hshifts] at hlead ⊢
    rcases lead_position hselects hspares (hlead hnn) hidx hitem with ⟨hnew, htotal⟩
    rw [newSelectionLead_map]
    exact ⟨htotal.symm, (List.getElem?_eq_some_iff.mp hnew).1⟩
  rcases shiftSelection_spec hselects.atomicity hselects.mode hsel hascending hfold
    (fun hle => hpos (by omega)) with ⟨base, hbase, hge, hlt⟩
  refine ⟨base, hbase, ?_, ?_⟩
  · intro j
    rcases Decidable.em ((s.position : Int) ≤ m.selectedIndex) with hle | hnot
    · -- the lead is selected, so that it is never lost
      have hmem : m.selectedIndex.toNat ∈ m.selected := by
        rcases hlead (by omega) with hbef | ⟨hmem, -⟩
        · have hbef' := hbef s mem_cons_self
          omega
        · exact hmem
      rw [(hge hle).1 j]
      constructor
      · rintro (hj | rfl)
        · exact hsub j hj
        · exact ⟨_, hmem, rfl⟩
      · rintro ⟨i, hi, rfl⟩
        rcases hsup i hi with hj | ⟨-, heq⟩
        · exact .inl hj
        · right
          rw [← heq]
          rfl
    · rw [(hlt (by omega)).1]
      constructor
      · exact hsub j
      · rintro ⟨i, hi, rfl⟩
        rcases hsup i hi with hj | ⟨hzero, heq⟩
        · exact hj
        · omega
  · intro hnn
    rcases Decidable.em ((s.position : Int) ≤ m.selectedIndex) with hle | hnot
    · exact (hge hle).2
    · have hbef : ∀ s' ∈ s :: higher, m.selectedIndex < s'.position := by
        intro s' hs'
        rcases mem_cons.mp hs' with rfl | hs'
        · omega
        · have hup := (pairwise_cons.mp hascending).1 s' hs'
          omega
      rw [← (hpos hnn).1, newSelectionLead_map, totalShift_of_lt hbef]
      omega

theorem follows_of_base (hselects : SelectsAmong items model.base)
    (hspares : SparesSelected items newItems changes model.base.selected)
    {base : MultipleSelectionModelBase T} {size : Nat}
    (hok : model.onChanged newItems changes = .ok ⟨base, size⟩)
    (hmem : ∀ j, j ∈ base.selected ↔
      ∃ i ∈ model.base.selected, newPosition (shiftsOf 0 changes) i = j)
    (hlead : ∀ item, 0 ≤ model.base.selectedIndex →
      items[model.base.selectedIndex.toNat]? = some item →
      0 ≤ base.selectedIndex ∧ newItems[base.selectedIndex.toNat]? = some item) :
    Follows items newItems model changes := by
  refine ⟨⟨base, size⟩, hok, fun j => ?_, hlead⟩
  rw [← hspares.mem_iff_of_positions hselects.valid j]
  exact hmem j

theorem follows_of_steady (hselects : SelectsAmong items model.base)
    (hspares : SparesSelected items newItems changes model.base.selected)
    (hne : newItems ≠ [])
    (hfound : model.base.selectedIndex = -1 → model.base.selectedItem ≠ none →
      model.base.selectedItem ∉ newItems)
    (hsteady : Steady model.base.selected newItems.length
      model.base.selectedIndices.bitsetSize model.base.selectedIndex (shiftsOf 0 changes))
    (hlead : 0 ≤ model.base.selectedIndex →
      LeadFollows model.base.selected model.base.selectedIndex (shiftsOf 0 changes)) :
    Follows items newItems model changes := by
  have hfixed : ∀ c ∈ changes,
      observe newItems (model.base, true) c = .ok (model.base, true) := by
    intro c hc
    apply observe_eq true hne hfound
    intro hidx hitem hrem
    rcases hselects.lead_nonneg hidx with ⟨hnn, heq, item, hget⟩
    have hsame : model.base.selectedItem = item := by
      rw [heq, getModelItem, if_pos hnn, hget]
      rfl
    rw [hsame] at hrem
    exact lead_kept hselects hspares (hlead hnn) hidx hget c hc hrem
  -- an unchanged selection is right when there is no shift, or no index and an unmoved lead
  have hstays : (if (shiftsOf 0 changes).map shiftPair = [] then pure model.base
        else model.base.shiftSelection newItems ((shiftsOf 0 changes).map shiftPair)) =
        .ok model.base →
      (∀ i ∈ model.base.selected, newPosition (shiftsOf 0 changes) i = i) →
      (0 ≤ model.base.selectedIndex →
        ∀ s ∈ shiftsOf 0 changes, model.base.selectedIndex < s.position) →
      Follows items newItems model changes := by
    intro hshift hsame hbef
    refine follows_of_base hselects hspares
      (onChanged_eq hfixed hspares.pure hspares.fromIdx_nonneg hshift) (fun j => ?_) ?_
    · constructor
      · exact fun hj => ⟨j, hj, hsame j hj⟩
      · rintro ⟨i, hi, rfl⟩
        rw [hsame i hi]
        exact hi
    · intro item hnn hitem
      have hidx : model.base.selectedIndex ≠ -1 := by omega
      rcases lead_position hselects hspares (hlead hnn) hidx hitem with ⟨hnew, htotal⟩
      rw [totalShift_of_lt (hbef hnn)] at htotal
      rw [show newPosition (shiftsOf 0 changes) model.base.selectedIndex.toNat =
        model.base.selectedIndex.toNat by omega] at hnew
      exact ⟨hnn, hnew⟩
  rcases hshifts : shiftsOf 0 changes with - | ⟨s, higher⟩
  · apply hstays
    · rw [hshifts]
      rfl
    · rw [hshifts]
      exact fun _ _ => rfl
    · rw [hshifts]
      exact fun _ _ hs => absurd hs not_mem_nil
  rcases Decidable.em (model.base.selected = []) with hemp | hsel
  · apply hstays
    · exact shiftSelection_of_empty hemp _
    · rw [hemp]
      exact fun _ hi => absurd hi not_mem_nil
    · intro hnn
      apply (hlead hnn).resolve_right
      rw [hemp]
      exact fun hmem => absurd hmem.1 not_mem_nil
  · have hlead' := hlead
    rw [hshifts] at hsteady hlead'
    rcases shiftSelection_follows hselects hspares hsel hshifts hsteady hlead' with
      ⟨base, hbase, hmem, hidx⟩
    rw [← hshifts] at hbase hmem hidx
    have hshift : (if (shiftsOf 0 changes).map shiftPair = [] then pure model.base
        else model.base.shiftSelection newItems ((shiftsOf 0 changes).map shiftPair)) =
        .ok base := by
      rw [if_neg (by rw [hshifts]; exact cons_ne_nil _ _)]
      exact hbase
    refine follows_of_base hselects hspares
      (onChanged_eq hfixed hspares.pure hspares.fromIdx_nonneg hshift) hmem ?_
    intro item hnn hitem
    rw [hidx hnn]
    exact ⟨Int.natCast_nonneg _,
      (lead_position hselects hspares (hlead hnn) (by omega) hitem).1⟩

theorem onChanged_of_found (hselects : SelectsAmong items model.base)
    (hspares : SparesSelected items newItems changes model.base.selected)
    (hidx : model.base.selectedIndex = -1) (hitem : model.base.selectedItem ≠ none)
    (hfound : model.base.selectedItem ∈ newItems) :
    ∃ base size, model.onChanged newItems changes = .ok ⟨base, size⟩ ∧
      base.selected = model.base.selected := by
  have hnot : model.base.selectedItem ∉ items := by
    rcases hselects.lead with ⟨-, hnot⟩ | ⟨hnn, -⟩
    · exact hnot hitem
    · omega
  have hne : newItems ≠ [] := ne_nil_of_mem hfound
  rcases hspares with ⟨-, -, haligned, -, -, -⟩
  rcases changes with - | ⟨c, cs⟩
  · cases haligned
    exact absurd hfound hnot
  rcases hfind : newItems.findIdx? (· = model.base.selectedItem) with - | newIndex
  · have hnone := findIdx?_eq_none_iff.mp hfind _ hfound
    simp at hnone
  have hat : newItems[newIndex]? = some model.base.selectedItem := by
    rcases findIdx?_eq_some_iff_getElem.mp hfind with ⟨hlt, heq, -⟩
    rw [getElem?_eq_getElem hlt]
    exact congrArg some (of_decide_eq_true heq)
  let base := model.base.setSelectedIndex newItems newIndex
  have hbase : base.selectedItem = model.base.selectedItem := by
    change (model.base.setSelectedIndex newItems newIndex).selectedItem = _
    rw [setSelectedIndex, if_neg (by omega), getModelItem, Int.toNat_natCast, hat]
    rfl
  have hfst : observe newItems (model.base, true) c = .ok (base, false) := by
    rw [observe]
    rw [if_neg hne, if_pos ⟨hidx, hitem⟩, hfind]
    rfl
  have hrest : cs.foldlM (observe newItems) (base, false) = .ok (base, false) := by
    apply foldlM_eq_of_fixed
    intro d hd
    have hlead : base.selectedIndex = newIndex := setSelectedIndex_selectedIndex ..
    apply observe_eq false hne
    · intro hnone
      omega
    · intro _ _ hrem
      rw [hbase] at hrem
      exact hnot (mem_of_mem_removed haligned (mem_cons_of_mem c hd) hrem)
  refine ⟨base, model.previousModelSize, ?_, ?_⟩
  · rw [onChanged, foldlM_cons, hfst, ok_bind, hrest]
    rfl
  · rw [selected, setSelectedIndex_selectedIndices]
    rfl

theorem onChanged_of_empty (hselects : SelectsAmong items model.base)
    (hspares : SparesSelected items [] changes model.base.selected)
    (hsel : model.base.selected = []) :
    ∃ base size, model.onChanged [] changes = .ok ⟨base, size⟩ ∧ base.selected = [] := by
  let P : Nat → MultipleSelectionModelBase T × Bool → Prop := fun _ state =>
    state.2 = true ∧ state.1.selected = [] ∧ state.1.selectedIndices.atomicityCount = 0
  have hloop : ∃ state, changes.foldlM (observe ([] : List (Option T))) (model.base, true) =
      .ok state ∧ P changes.length state := by
    apply foldlM_ok (P := P)
    · exact ⟨rfl, hsel, hselects.atomicity⟩
    · rintro k c - ⟨m, flag⟩ ⟨rfl, hemp, hatomic⟩
      rcases clearSelection_told ([] : List (Option T)) hatomic with ⟨m', hm', htold, hemp'⟩
      refine ⟨(m', true), ?_, rfl, hemp', htold.atomicity.trans hatomic⟩
      rw [observe]
      rw [hm']
      rfl
  rcases hloop with ⟨⟨base, flag⟩, hok, hflag, hemp, -⟩
  refine ⟨base, 0, ?_, hemp⟩
  dsimp only at hflag
  rw [onChanged, hok, hflag]
  exact updateSelection_eq ⟨base, model.previousModelSize⟩ hspares.pure hspares.fromIdx_nonneg
    (shiftSelection_of_empty hemp _)

theorem follows_of_carriesAlong (hselects : SelectsAmong items model.base)
    (hspares : SparesSelected items newItems changes model.base.selected)
    (hcarries : CarriesAlong newItems model.base (shiftsOf 0 changes)) :
    Follows items newItems model changes := by
  rw [CarriesAlong] at hcarries
  split at hcarries
  case isTrue hfound =>
    rcases hfound with ⟨hidx, hitem, hmem⟩
    rcases onChanged_of_found hselects hspares hidx hitem hmem with
      ⟨base, size, hok, hsel⟩
    refine follows_of_base hselects hspares hok (fun j => ?_) fun _ hnn => by omega
    rw [hsel]
    constructor
    · exact fun hj => ⟨j, hj, hcarries j hj⟩
    · rintro ⟨i, hi, rfl⟩
      rw [hcarries i hi]
      exact hi
  case isFalse hnot =>
    rcases hcarries with ⟨hsteady, hlead⟩
    rcases Decidable.em (newItems = []) with rfl | hne
    · have hsel : model.base.selected = [] := by
        apply eq_nil_iff_forall_not_mem.mpr
        intro i hi
        have hnew := (hspares.position_of_selected hi (hselects.valid i hi)).2.2
        cases hnew
      rcases onChanged_of_empty hselects hspares hsel with ⟨base, size, hok, hemp⟩
      refine follows_of_base hselects hspares hok (fun j => ?_) ?_
      · rw [hemp, hsel]
        simp
      · intro item hnn hitem
        have hnew := (lead_position hselects hspares (hlead hnn) (by omega) hitem).1
        cases hnew
    · refine follows_of_steady hselects hspares hne ?_ hsteady hlead
      exact fun hidx hitem hmem => hnot ⟨hidx, hitem, hmem⟩

omit [DecidableEq T] in
theorem move_eq_of_onto {s : Shift} (hmoves : Moves s) {selected : List Nat} {bound : Nat}
    (hbound : ∀ i ∈ selected, i < bound)
    (hspared : ∀ i ∈ selected, s.actual ≤ i → s.actual + s.removed ≤ i)
    (honto : ∀ i ∈ selected, s.move i ∈ selected) : ∀ i ∈ selected, s.move i = i := by
  intro i hi
  rw [Shift.move, if_neg]
  intro hle
  rcases hmoves with ⟨hadded, hrem⟩ | ⟨hadded, hrem⟩
  · -- each of the images is larger than the one before
    have hlarge : ∀ n, ∃ j ∈ selected, s.actual ≤ j ∧ n ≤ j := by
      intro n
      induction n with
      | zero => exact ⟨i, hi, hle, Nat.zero_le i⟩
      | succ n ih =>
        rcases ih with ⟨j, hj, hj', hn⟩
        have hnext := honto j hj
        rw [Shift.move, if_pos hj'] at hnext
        exact ⟨_, hnext, by omega, by omega⟩
    rcases hlarge bound with ⟨j, hj, -, hn⟩
    have hlt := hbound j hj
    omega
  · have hsmall : ∀ n, ∃ j ∈ selected, s.actual ≤ j ∧ j + n ≤ i := by
      intro n
      induction n with
      | zero => exact ⟨i, hi, hle, Nat.le_refl i⟩
      | succ n ih =>
        rcases ih with ⟨j, hj, hj', hn⟩
        have hnext := honto j hj
        have hkept := hspared j hj hj'
        rw [Shift.move, if_pos hj'] at hnext
        exact ⟨_, hnext, by omega, by omega⟩
    rcases hsmall (i + 1) with ⟨j, -, -, hn⟩
    omega

variable {c : SubChange (Option T)}

def onlyShift (c : SubChange (Option T)) : Shift :=
  ⟨c.fromIdx.toNat, (c.fromIdx - 0).toNat, (c.toIdx - c.fromIdx).toNat, c.getRemovedSize⟩

omit [DecidableEq T] in
theorem onlyShift_actual (c : SubChange (Option T)) :
    (onlyShift c).actual = (onlyShift c).position := by
  rw [onlyShift, Int.sub_zero]

omit [DecidableEq T] in
theorem not_mem_of_removed (hspares : SparesSelected items newItems [c] m.selected)
    (hitem : item ∈ newItems) (hmem : item ∈ items) : item ∉ c.getRemoved := by
  intro hrem
  have hdist := hspares.distinct
  have hpure := (hspares.pure c mem_cons_self).2.2
  rcases hspares.aligned with - | ⟨kept, added, hfrom, hto, - | -⟩
  rcases hpure with ⟨hnone, -⟩ | ⟨-, heq⟩
  · rw [hnone] at hrem
    exact not_mem_nil hrem
  · have hadded : added = [] := length_eq_zero_iff.mp (by omega)
    rw [hadded, append_nil] at hitem
    rw [append_assoc, nodup_append, nodup_append] at hdist
    rcases mem_append.mp hitem with hkept | hrest
    · exact hdist.2.2 item hkept item (mem_append_left _ hrem) rfl
    · exact hdist.2.1.2.2 item hrem item hrest rfl

omit [DecidableEq T] in
theorem length_selected_le (m : MultipleSelectionModelBase T) :
    m.selected.length ≤ m.selectedIndices.bitsetSize := by
  have hnd : m.selected.Nodup := m.selectedIndices.bitset.sorted.imp fun hlt => Nat.ne_of_lt hlt
  have hsub : m.selected ⊆ List.range m.selectedIndices.bitsetSize :=
    fun i hi => mem_range.mpr (m.selectedIndices.bitset.fits i hi)
  have hle := (subperm_of_subset hnd hsub).length_le
  rwa [length_range] at hle

omit [DecidableEq T] in
theorem reaches_valid (hselects : SelectsAmong items m)
    (hspares : SparesSelected items newItems [c] m.selected) {i : Nat} (hi : i ∈ m.selected)
    (hreaches : Reaches (onlyShift c) i) :
    Within (64 * BitSet.wordsInUse m.selected) (onlyShift c) i ∧
      target (onlyShift c) i < newItems.length := by
  have hactual := onlyShift_actual c
  have hnew := (hspares.position_of_selected hi (hselects.valid i hi)).2.2
  have hlt : i < 64 * BitSet.wordsInUse m.selected :=
    BitSet.lt_wordsInUse m.selectedIndices.bitset.sorted hi
  refine ⟨?_, ?_⟩
  · rw [Within]
    split
    · exact hlt
    · exact Nat.le_of_lt hlt
  · change newItems[(onlyShift c).move i]? = _ at hnew
    rw [Reaches] at hreaches
    rw [Shift.move, if_pos (by omega)] at hnew
    exact (List.getElem?_eq_some_iff.mp hnew).1

omit [DecidableEq T] in
theorem countP_reaches_le (m : MultipleSelectionModelBase T) (c : SubChange (Option T)) :
    0 + m.selected.countP (Reaches (onlyShift c) ·) ≤ m.selectedIndices.bitsetSize := by
  have hle := length_selected_le m
  have hcnt := countP_le_length (p := (Reaches (onlyShift c) ·)) (l := m.selected)
  omega

omit [DecidableEq T] in
theorem onlyShift_spec (hselects : SelectsAmong items m)
    (hspares : SparesSelected items newItems [c] m.selected) :
    ∃ bitset perm, ([onlyShift c].map shiftPair).foldrM
        (fun pair state => doShift newItems.length state pair)
          (({ m.selectedIndices with bitset := m.selectedIndices.bitset.trimToSize } :
            SelectedIndicesList).startAtomic,
            List.replicate m.selectedIndices.bitsetSize (-1)) =
        .ok ({ m.selectedIndices.startAtomic with bitset }, perm) ∧
      ∀ j, j ∈ bitset.bits ↔
        (∃ i ∈ m.selected, Reaches (onlyShift c) i ∧ target (onlyShift c) i = j) ∨
          j ∈ m.selected ∧ ¬Reaches (onlyShift c) j ∧
            ¬Overwrites (64 * BitSet.wordsInUse m.selected) (onlyShift c) j := by
  rcases doShift_spec ({ m.selectedIndices with
      bitset := m.selectedIndices.bitset.trimToSize } : SelectedIndicesList).startAtomic
    (hspares.moves _ mem_cons_self) (Nat.succ_pos _) (noted_replicate _)
    (fun i hi hreaches => reaches_valid hselects hspares hi hreaches)
    (countP_reaches_le m c) with ⟨bitset, perm, hok, -, hmem, -⟩
  refine ⟨bitset, perm, ?_, hmem⟩
  rw [map_singleton, foldrM_cons, foldrM_nil, pure_eq_ok, ok_bind]
  exact hok

omit [DecidableEq T] in
theorem onlyShift_lead (hspares : SparesSelected items newItems [c] m.selected)
    (hnn : 0 ≤ m.selectedIndex) (hitem : items[m.selectedIndex.toNat]? = some item)
    (hkept : item ∉ c.getRemoved) :
    newSelectionLead m.selectedIndex ([onlyShift c].map shiftPair) =
        newPosition [onlyShift c] m.selectedIndex.toNat ∧
      newItems[newPosition [onlyShift c] m.selectedIndex.toNat]? = some item := by
  rcases hspares.position_of_kept hitem (by simpa using hkept) with ⟨-, htotal, hnew⟩
  refine ⟨?_, hnew⟩
  have hsame : totalShift Shift.position [onlyShift c] m.selectedIndex =
      totalShift Shift.actual [onlyShift c] m.selectedIndex := by
    simp only [totalShift, filter_cons, filter_nil, onlyShift_actual]
  change (newPosition [onlyShift c] m.selectedIndex.toNat : Int) =
    m.selectedIndex.toNat + totalShift Shift.actual [onlyShift c] m.selectedIndex.toNat at htotal
  rw [Int.toNat_of_nonneg hnn] at htotal
  rw [newSelectionLead_map, hsame, ← htotal]
  omega

theorem Follows.base (hfollows : Follows items newItems model changes)
    (hselects : SelectsAmong items model.base)
    (hspares : SparesSelected items newItems changes model.base.selected)
    {base : MultipleSelectionModelBase T} {size : Nat}
    (hok : model.onChanged newItems changes = .ok ⟨base, size⟩) :
    (∀ j, j ∈ base.selected ↔
      ∃ i ∈ model.base.selected, newPosition (shiftsOf 0 changes) i = j) ∧
    ∀ item, 0 ≤ model.base.selectedIndex →
      items[model.base.selectedIndex.toNat]? = some item →
      0 ≤ base.selectedIndex ∧ newItems[base.selectedIndex.toNat]? = some item := by
  rcases hfollows with ⟨m', hm', hmem, hlead⟩
  rw [hok] at hm'
  cases hm'
  refine ⟨fun j => ?_, hlead⟩
  rw [hspares.mem_iff_of_positions hselects.valid j]
  exact hmem j

theorem observe_of_kept (hselects : SelectsAmong items m)
    (hspares : SparesSelected items newItems [c] m.selected) (hne : newItems ≠ [])
    (hfound : m.selectedIndex = -1 → m.selectedItem ≠ none → m.selectedItem ∉ newItems)
    (hlead : ∀ item, 0 ≤ m.selectedIndex → items[m.selectedIndex.toNat]? = some item →
      item ∈ newItems) : ∀ d ∈ [c], observe newItems (m, true) d = .ok (m, true) := by
  intro d hd
  rw [mem_singleton.mp hd]
  apply observe_eq true hne hfound
  intro hidx _ hrem
  rcases hselects.lead_nonneg hidx with ⟨hnn, heq, item, hget⟩
  have hsame : m.selectedItem = item := by
    rw [heq, getModelItem, if_pos hnn, hget]
    rfl
  rw [hsame] at hrem
  exact not_mem_of_removed hspares (hlead item hnn hget) (mem_of_getElem? hget) hrem

omit [DecidableEq T] in
theorem steady_onlyShift (hselects : SelectsAmong items m)
    (hspares : SparesSelected items newItems [c] m.selected)
    (hlost : ∀ i ∈ m.selected, (onlyShift c).position = 0 → 0 < (onlyShift c).removed →
      i = (onlyShift c).removed →
        i + i ≤ 64 * BitSet.wordsInUse m.selected ∧ (i : Int) = m.selectedIndex) :
    Steady m.selected newItems.length m.selectedIndices.bitsetSize m.selectedIndex
      [onlyShift c] := by
  have hactual := onlyShift_actual c
  have hmap : m.selected.map (newPosition []) = m.selected := map_id m.selected
  refine ⟨trivial, fun i hi => ?_, ?_⟩
  · change Carries _ (64 * BitSet.wordsInUse m.selected) (onlyShift c) i ∨
      Loses (64 * BitSet.wordsInUse m.selected) (onlyShift c) i ∧ _
    rcases Decidable.em ((onlyShift c).actual ≤ i) with hle | hlt
    · have hspared := (hspares.position_of_selected hi (hselects.valid i hi)).1.2 hle
      change (onlyShift c).actual + (onlyShift c).removed ≤ i at hspared
      rcases Decidable.em (Reaches (onlyShift c) i) with hreaches | hnot
      · left
        rw [Carries, if_pos hle]
        exact ⟨hreaches, reaches_valid hselects hspares hi hreaches⟩
      · right
        rw [Reaches] at hnot
        rcases hlost i hi (by omega) (by omega) (by omega) with ⟨hlimit, hlead⟩
        refine ⟨⟨by omega, by omega, ?_⟩, hlead⟩
        rw [Overwrites]
        omega
    · left
      rw [Carries, if_neg hlt]
      omega
  · rw [notedAfter, notedAfter, hmap]
    exact countP_reaches_le m c

theorem not_follows_of_empty (hselects : SelectsAmong items model.base)
    (hspares : SparesSelected items newItems [c] model.base.selected)
    (hemp : model.base.selected = []) (hnn : 0 ≤ model.base.selectedIndex)
    (hge : (onlyShift c).position ≤ model.base.selectedIndex)
    (hfixed : newItems ≠ [] → ∀ d ∈ [c],
      observe newItems (model.base, true) d = .ok (model.base, true)) :
    ¬Follows items newItems model [c] := by
  intro hfollows
  have hmoves : Moves (onlyShift c) := hspares.moves _ mem_cons_self
  have hactual := onlyShift_actual c
  rcases hselects.lead_nonneg (by omega) with ⟨-, -, item, hitem⟩
  have hmem : item ∈ newItems := by
    rcases hfollows with ⟨m', -, -, hlead⟩
    exact mem_of_getElem? (hlead item hnn hitem).2
  have hok := onChanged_eq (hfixed (ne_nil_of_mem hmem)) hspares.pure hspares.fromIdx_nonneg
    (shiftSelection_of_empty hemp ((shiftsOf 0 [c]).map shiftPair))
  have hstays := ((hfollows.base hselects hspares hok).2 item hnn hitem).2
  have hkept : item ∉ c.getRemoved :=
    not_mem_of_removed hspares hmem (mem_of_getElem? hitem)
  rcases hspares.position_of_kept hitem (by simpa using hkept) with ⟨hspared, -, hnew⟩
  have hbound := (List.getElem?_eq_some_iff.mp hnew).1
  have hsame := (getElem?_inj hbound hspares.distinct').mp (hnew.trans hstays.symm)
  have hle : (onlyShift c).actual ≤ model.base.selectedIndex.toNat := by omega
  have hspared' := hspared.2 hle
  change (onlyShift c).actual + (onlyShift c).removed ≤
    model.base.selectedIndex.toNat at hspared'
  change (onlyShift c).move model.base.selectedIndex.toNat = _ at hsame
  rw [Shift.move, if_pos hle] at hsame
  rw [Moves] at hmoves
  omega

theorem steady_of_follows (hselects : SelectsAmong items model.base)
    (hspares : SparesSelected items newItems [c] model.base.selected)
    (hsel : model.base.selected ≠ []) (hfollows : Follows items newItems model [c])
    (hkept : ∀ item, 0 ≤ model.base.selectedIndex →
      items[model.base.selectedIndex.toNat]? = some item → item ∉ c.getRemoved)
    (hfixed : newItems ≠ [] → ∀ d ∈ [c],
      observe newItems (model.base, true) d = .ok (model.base, true)) :
    Steady model.base.selected newItems.length model.base.selectedIndices.bitsetSize
        model.base.selectedIndex [onlyShift c] ∧
      (0 ≤ model.base.selectedIndex →
        LeadFollows model.base.selected model.base.selectedIndex [onlyShift c]) := by
  have hactual := onlyShift_actual c
  have hmoves : Moves (onlyShift c) := hspares.moves _ mem_cons_self
  have hne : newItems ≠ [] := by
    rcases exists_mem_of_ne_nil _ hsel with ⟨i, hi⟩
    have hnew := (hspares.position_of_selected hi (hselects.valid i hi)).2.2
    exact ne_nil_of_mem (mem_of_getElem? hnew)
  rcases onlyShift_spec hselects hspares with ⟨bitset, perm, hfold, hbits⟩
  rcases shiftSelection_spec hselects.atomicity hselects.mode hsel
    (pairwise_singleton _ (onlyShift c)) hfold (by
      intro hle
      have hnn : 0 ≤ model.base.selectedIndex := by omega
      rcases hselects.lead_nonneg (by omega) with ⟨-, -, item, hitem⟩
      rcases onlyShift_lead hspares hnn hitem (hkept item hnn hitem) with ⟨hnew, hat⟩
      exact ⟨hnew, (List.getElem?_eq_some_iff.mp hat).1⟩) with ⟨base, hbase, hge, hlt⟩
  have hok : model.onChanged newItems [c] = .ok ⟨base, newItems.length⟩ :=
    onChanged_eq (hfixed hne) hspares.pure hspares.fromIdx_nonneg hbase
  have hmem := (hfollows.base hselects hspares hok).1
  change ∀ j, j ∈ base.selected ↔
    ∃ i ∈ model.base.selected, (onlyShift c).move i = j at hmem
  have hspared : ∀ i ∈ model.base.selected, (onlyShift c).actual ≤ i →
      (onlyShift c).actual + (onlyShift c).removed ≤ i :=
    fun i hi => (hspares.position_of_selected hi (hselects.valid i hi)).1.2
  -- a lead behind the position becomes selected, and so it was
  have hlead : (onlyShift c).position ≤ model.base.selectedIndex →
      model.base.selectedIndex.toNat ∈ model.base.selected := by
    intro hle
    have hnn : 0 ≤ model.base.selectedIndex := by omega
    rcases hselects.lead_nonneg (by omega) with ⟨-, -, item, hitem⟩
    rcases hspares.position_of_kept hitem (by simpa using hkept item hnn hitem) with
      ⟨hspared', -, -⟩
    have hspared'' := hspared'.2
    change (onlyShift c).actual ≤ model.base.selectedIndex.toNat →
      (onlyShift c).actual + (onlyShift c).removed ≤ model.base.selectedIndex.toNat at hspared''
    have hin := ((hge hle).1 _).mpr (.inr rfl)
    rcases (hmem _).mp hin with ⟨i, hi, hmove⟩
    change (onlyShift c).move i = (onlyShift c).move model.base.selectedIndex.toNat at hmove
    have hi' := hspared i hi
    rw [Shift.move, Shift.move, if_pos (show _ ≤ model.base.selectedIndex.toNat by omega)] at hmove
    have hsame : i = model.base.selectedIndex.toNat := by
      split at hmove <;> omega
    rw [← hsame]
    exact hi
  refine ⟨steady_onlyShift hselects hspares ?_, fun hnn => ?_⟩
  · intro i hi hzero hrem heq
    have hfst : 0 ∈ base.selected := by
      refine (hmem 0).mpr ⟨i, hi, ?_⟩
      rw [Shift.move, if_pos (by omega)]
      rw [Moves] at hmoves
      omega
    have hnotBit : 0 ∉ bitset.bits := by
      intro hbit
      rcases (hbits 0).mp hbit with ⟨i', -, hreaches, htarget⟩ | ⟨hbit, -⟩
      · rw [Reaches] at hreaches
        rw [target] at htarget
        omega
      · have hspared' := hspared 0 hbit
        omega
    have hle : ((onlyShift c).position : Int) ≤ model.base.selectedIndex := by
      by_contra hlt'
      rw [(hlt (by omega)).1] at hfst
      exact hnotBit hfst
    have hleads : (i : Int) = model.base.selectedIndex := by
      have hin := (((hge hle).1 0).mp hfst).resolve_left hnotBit
      change 0 = (onlyShift c).move model.base.selectedIndex.toNat at hin
      have hspared' := hspared _ (hlead hle)
      rw [Shift.move, if_pos (by omega)] at hin
      omega
    refine ⟨?_, hleads⟩
    by_contra hlimit
    have hnotReaches : ¬Reaches (onlyShift c) i := by
      rw [Reaches]
      omega
    have hstale : i ∈ bitset.bits := by
      refine (hbits i).mpr (.inr ⟨hi, hnotReaches, ?_⟩)
      rw [Overwrites]
      omega
    rcases (hmem i).mp (((hge hle).1 i).mpr (.inl hstale)) with ⟨i', hi', hmove⟩
    have hfits := BitSet.lt_wordsInUse model.base.selectedIndices.bitset.sorted hi'
    change i' < 64 * BitSet.wordsInUse model.base.selected at hfits
    rw [Shift.move, if_pos (by omega)] at hmove
    rw [Moves] at hmoves
    omega
  · rcases Decidable.em ((onlyShift c).position ≤ model.base.selectedIndex) with hle | hlt'
    · refine .inr ⟨hlead hle, ?_⟩
      rcases hselects.lead_nonneg (by omega) with ⟨-, -, item, hitem⟩
      rcases hspares.position_of_kept hitem (by simpa using hkept item hnn hitem) with
        ⟨-, htotal, -⟩
      rw [← newSelectionLead_map,
        (onlyShift_lead hspares hnn hitem (hkept item hnn hitem)).1]
      rw [Int.toNat_of_nonneg hnn] at htotal
      exact htotal
    · refine .inl fun s hs => ?_
      rw [mem_singleton.mp hs]
      omega

theorem carriesAlong_of_follows (hselects : SelectsAmong items model.base)
    (hspares : SparesSelected items newItems [c] model.base.selected)
    (hfollows : Follows items newItems model [c]) :
    CarriesAlong newItems model.base (shiftsOf 0 [c]) := by
  have hmoves : Moves (onlyShift c) := hspares.moves _ mem_cons_self
  rw [CarriesAlong]
  split
  case isTrue hfound =>
    rcases hfound with ⟨hidx, hitem, hmem⟩
    rcases onChanged_of_found hselects hspares hidx hitem hmem with
      ⟨base, size, hok, hsel⟩
    have honto := (hfollows.base hselects hspares hok).1
    rw [hsel] at honto
    apply move_eq_of_onto hmoves hselects.valid
    · exact fun i hi => (hspares.position_of_selected hi (hselects.valid i hi)).1.2
    · exact fun i hi => (honto _).mpr ⟨i, hi, rfl⟩
  case isFalse hnot =>
    have hinNew : ∀ item, 0 ≤ model.base.selectedIndex →
        items[model.base.selectedIndex.toNat]? = some item → item ∈ newItems := by
      rcases hfollows with ⟨m', -, -, hlead⟩
      exact fun item hnn hitem => mem_of_getElem? (hlead item hnn hitem).2
    have hkept : ∀ item, 0 ≤ model.base.selectedIndex →
        items[model.base.selectedIndex.toNat]? = some item → item ∉ c.getRemoved :=
      fun item hnn hitem => not_mem_of_removed hspares (hinNew item hnn hitem)
        (mem_of_getElem? hitem)
    have hfixed : newItems ≠ [] → ∀ d ∈ [c],
        observe newItems (model.base, true) d = .ok (model.base, true) := by
      intro hne
      apply observe_of_kept hselects hspares hne _ hinNew
      exact fun hidx hitem hmem => hnot ⟨hidx, hitem, hmem⟩
    rcases Decidable.em (model.base.selected = []) with hemp | hsel
    · refine ⟨?_, fun hnn => .inl fun s hs => ?_⟩
      · apply steady_onlyShift hselects hspares
        rw [hemp]
        exact fun _ hi => absurd hi not_mem_nil
      · rw [mem_singleton.mp hs]
        by_contra hge
        rw [Int.not_lt] at hge
        exact not_follows_of_empty hselects hspares hemp hnn hge hfixed hfollows
    · exact steady_of_follows hselects hspares hsel hfollows hkept hfixed

/-- The selection follows the items when every shift carries it along. For a change of one
sub-change it does not follow them otherwise. -/
theorem follows_of_carriesAlong_and_conversely (model : ListViewBitSetSelectionModel T)
    (items newItems : List (Option T)) (changes : List (SubChange (Option T)))
    (hselects : SelectsAmong items model.base)
    (hspares : SparesSelected items newItems changes model.base.selected) :
    (CarriesAlong newItems model.base (shiftsOf 0 changes) →
        Follows items newItems model changes) ∧
      (changes.length = 1 → Follows items newItems model changes →
        CarriesAlong newItems model.base (shiftsOf 0 changes)) := by
  refine ⟨follows_of_carriesAlong hselects hspares, fun hone hfollows => ?_⟩
  rcases length_eq_one_iff.mp hone with ⟨c, rfl⟩
  exact carriesAlong_of_follows hselects hspares hfollows

/-- Two of three items are selected, and the last one is the lead. -/
def lastTwoSelected : ListViewBitSetSelectionModel Nat :=
  ⟨⟨⟨(BitSet.new.set 1).set 2, 0, []⟩, 2, some 12, 2, .multiple⟩, 3⟩

theorem lastTwoSelected_selects :
    SelectsAmong [some 10, some 11, some 12] lastTwoSelected.base where
  mode := rfl
  atomicity := rfl
  valid := by decide
  lead := .inr (by decide)

theorem follows_insertion :
    Follows [some 10, some 11, some 12] [some 10, some 20, some 11, some 12] lastTwoSelected
      [⟨1, 2, some [], [], false⟩] := by
  have hspares : SparesSelected [some 10, some 11, some 12]
      [some 10, some 20, some 11, some 12] [⟨1, 2, some [], [], false⟩]
        lastTwoSelected.base.selected := by
    refine ⟨by decide, by decide, ?_, by decide, by decide, by decide⟩
    exact .cons [some 10] [some 20] rfl rfl (.nil 2 [some 11, some 12])
  exact (follows_of_carriesAlong_and_conversely lastTwoSelected _ _ _ lastTwoSelected_selects
    hspares).1 (by decide)

/-- The item that comes to the first position is not selected any more. -/
theorem removal_not_followed :
    ¬∀ (model : ListViewBitSetSelectionModel Nat) (items newItems : List (Option Nat))
      (changes : List (SubChange (Option Nat))), SelectsAmong items model.base →
        SparesSelected items newItems changes model.base.selected →
          Follows items newItems model changes := by
  intro hall
  have hspares : SparesSelected [some 10, some 11, some 12] [some 11, some 12]
      [⟨0, 0, some [some 10], [], false⟩] lastTwoSelected.base.selected := by
    refine ⟨by decide, by decide, ?_, by decide, by decide, by decide⟩
    exact .cons [] [] rfl rfl (.nil 0 [some 11, some 12])
  have hfollows := hall lastTwoSelected _ _ _ lastTwoSelected_selects hspares
  have hcarries := carriesAlong_of_follows lastTwoSelected_selects hspares hfollows
  revert hcarries
  decide

end

end ListViewBitSetSelectionModel

end OpenJfx.Control
