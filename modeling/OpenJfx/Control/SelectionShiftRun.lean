import OpenJfx.Control.SelectionShift
import Mathlib.Data.List.TakeWhile

namespace OpenJfx.Control

open Java.Arrays Java.BitSets Java.BitSets.BitSet Collections.ShiftedPositions SelectedIndicesList
open List

namespace MultipleSelectionModelBase

def Carries (itemCount limit : Nat) (s : Shift) (i : Nat) : Prop :=
  if s.actual ≤ i then Reaches s i ∧ Within limit s i ∧ target s i < itemCount
  else i < s.position

/-- The first index behind a removal from the first position on is cleared and not set. -/
def Loses (limit : Nat) (s : Shift) (i : Nat) : Prop :=
  s.position = 0 ∧ i = s.removed ∧ Overwrites limit s i

instance (limit : Nat) (s : Shift) (i : Nat) : Decidable (Overwrites limit s i) :=
  inferInstanceAs (Decidable (_ ∧ _))

instance (itemCount limit : Nat) (s : Shift) (i : Nat) : Decidable (Carries itemCount limit s i) :=
  inferInstanceAs (Decidable (ite _ _ _))

instance (limit : Nat) (s : Shift) (i : Nat) : Decidable (Loses limit s i) :=
  inferInstanceAs (Decidable (_ ∧ _))

variable {s : Shift}

theorem not_reaches_of_loses {limit : Nat} {i : Nat} (h : Loses limit s i) :
    ¬Reaches s i := by
  rcases h with ⟨-, rfl, hrem, -⟩
  rintro ⟨-, hzero | hlt⟩
  · omega
  · exact lt_irrefl _ hlt

variable {si : SelectedIndicesList} {perm : List Int}

theorem doShift_carries {itemCount capacity idx : Nat} (hmoves : Moves s)
    (hatomic : 0 < si.atomicityCount) (hnoted : Noted capacity idx perm)
    (hcarries : ∀ i ∈ si.elements,
      Carries itemCount (si.bitsetSize - idx) s i ∨ Loses (si.bitsetSize - idx) s i)
    (hcap : idx + si.elements.countP (Reaches s ·) ≤ capacity) :
    ∃ bitset perm', doShift itemCount (si, perm) (shiftPair s) =
        .ok ({ si with bitset }, perm') ∧
      Noted capacity (idx + si.elements.countP (Reaches s ·)) perm' ∧
      (∀ j, j ∈ bitset.bits ↔
        ∃ i ∈ si.elements, ¬Loses (si.bitsetSize - idx) s i ∧ s.move i = j) ∧
      bitset.words = ensureCapacity si.bitset.words (wordsInUse bitset.bits) := by
  have hcarried : ∀ i ∈ si.elements, Reaches s i →
      s.actual ≤ i ∧ Within (si.bitsetSize - idx) s i ∧ target s i < itemCount := by
    intro i hi hreaches
    have hcarry := (hcarries i hi).resolve_right fun hloses =>
      not_reaches_of_loses hloses hreaches
    rw [Carries] at hcarry
    split at hcarry
    case isTrue hle => exact ⟨hle, hcarry.2⟩
    case isFalse =>
      rw [Reaches] at hreaches
      omega
  rcases doShift_spec si hmoves hatomic hnoted (fun i hi hreaches => (hcarried i hi hreaches).2)
    hcap with ⟨bitset, perm', hok, hnoted', hmem, hwords⟩
  refine ⟨bitset, perm', hok, hnoted', fun j => ?_, hwords⟩
  rw [hmem j]
  constructor
  · rintro (⟨i, hi, hreaches, htarget⟩ | ⟨hj, hreaches, hover⟩)
    · refine ⟨i, hi, fun hloses => not_reaches_of_loses hloses hreaches, ?_⟩
      rw [Shift.move, if_pos (hcarried i hi hreaches).1]
      exact htarget
    · refine ⟨j, hj, fun hloses => hover hloses.2.2, ?_⟩
      have hcarry := (hcarries j hj).resolve_right fun hloses => hover hloses.2.2
      rw [Shift.move, if_neg]
      intro hle
      rw [Carries, if_pos hle] at hcarry
      exact hreaches hcarry.1
  · rintro ⟨i, hi, hkeeps, hmove⟩
    have hcarry := (hcarries i hi).resolve_right hkeeps
    rw [Carries] at hcarry
    rw [Shift.move] at hmove
    split at hcarry
    case isTrue hle =>
      rw [if_pos hle] at hmove
      exact .inl ⟨i, hi, hcarry.1, hmove⟩
    case isFalse hlt =>
      rw [if_neg hlt] at hmove
      subst hmove
      refine .inr ⟨hi, ?_, ?_⟩
      · rw [Reaches]
        omega
      · rw [Overwrites]
        omega

section

variable (selected : List Nat)

def wordsAfter : List Shift → Nat
  | [] => wordsInUse selected
  | s :: higher =>
    ensureCapacity (wordsAfter higher) (wordsInUse (selected.map (newPosition (s :: higher))))

def notedAfter : List Shift → Nat
  | [] => 0
  | s :: higher =>
    notedAfter higher + (selected.map (newPosition higher)).countP (Reaches s ·)

def limitAfter (higher : List Shift) : Nat :=
  64 * wordsAfter selected higher - notedAfter selected higher

def Steady (itemCount capacity : Nat) (lead : Int) : List Shift → Prop
  | [] => True
  | s :: higher =>
    Steady itemCount capacity lead higher ∧
      (∀ i ∈ selected,
        Carries itemCount (limitAfter selected higher) s (newPosition higher i) ∨
          Loses (limitAfter selected higher) s (newPosition higher i) ∧ (i : Int) = lead) ∧
      notedAfter selected (s :: higher) ≤ capacity

instance decidableSteady (itemCount capacity : Nat) (lead : Int) :
    (shifts : List Shift) → Decidable (Steady selected itemCount capacity lead shifts)
  | [] => inferInstanceAs (Decidable True)
  | _ :: higher =>
    have := decidableSteady itemCount capacity lead higher
    inferInstanceAs (Decidable (_ ∧ _))

end

variable {selected : List Nat} {itemCount capacity : Nat} {lead : Int}

def Ascending (shifts : List Shift) : Prop := shifts.Pairwise fun s s' => s.position < s'.position

variable {shifts : List Shift}

theorem pairwise_newPosition (hsel : selected.Pairwise (· < ·))
    (hspared : ∀ i ∈ selected, Spared shifts i) :
    (selected.map (newPosition shifts)).Pairwise (· < ·) := by
  rw [pairwise_map]
  exact hsel.imp_of_mem fun hi hj hlt =>
    newPosition_lt (hspared _ hi) (hspared _ hj) hlt

variable {higher : List Shift}

theorem doShift_next (si : SelectedIndicesList) (hmoves : Moves s) (hatomic : 0 < si.atomicityCount)
    (hsteady : Steady selected itemCount capacity lead (s :: higher))
    (hnoted : Noted capacity (notedAfter selected higher) perm)
    (helems : si.elements = selected.map (newPosition higher))
    (hwords : si.bitset.words = wordsAfter selected higher) :
    ∃ bitset perm', doShift itemCount (si, perm) (shiftPair s) =
        .ok ({ si with bitset }, perm') ∧
      Noted capacity (notedAfter selected (s :: higher)) perm' ∧
      (∀ j, j ∈ bitset.bits ↔ ∃ i ∈ selected,
        ¬Loses (limitAfter selected higher) s (newPosition higher i) ∧
          newPosition (s :: higher) i = j) ∧
      bitset.words = ensureCapacity (wordsAfter selected higher) (wordsInUse bitset.bits) := by
  have hlimit : si.bitsetSize - notedAfter selected higher = limitAfter selected higher := by
    rw [bitsetSize, BitSet.size, hwords]
    rfl
  rcases hsteady with ⟨-, hcarries, hcap⟩
  rcases doShift_carries hmoves hatomic hnoted
    (by
      rw [helems, hlimit]
      intro j hj
      rcases mem_map.mp hj with ⟨i, hi, rfl⟩
      exact (hcarries i hi).imp_right And.left)
    (by
      rw [helems]
      exact hcap) with ⟨bitset, perm', hok, hnoted', hmem, hbitset⟩
  rw [helems] at hnoted' hmem
  rw [hlimit] at hmem
  rw [hwords] at hbitset
  refine ⟨bitset, perm', hok, hnoted', fun j => ?_, hbitset⟩
  rw [hmem j]
  constructor
  · rintro ⟨k, hk, hkeeps, hmove⟩
    rcases mem_map.mp hk with ⟨i, hi, rfl⟩
    exact ⟨i, hi, hkeeps, hmove⟩
  · rintro ⟨i, hi, hkeeps, hmove⟩
    exact ⟨_, mem_map_of_mem hi, hkeeps, hmove⟩

theorem foldrM_doShift (hmoves : ∀ s ∈ shifts, Moves s) (hpositive : ∀ s ∈ shifts, 0 < s.position)
    (hsel : selected.Pairwise (· < ·)) (hspared : ∀ i ∈ selected, Spared shifts i)
    (hsteady : Steady selected itemCount capacity lead shifts) (hatomic : 0 < si.atomicityCount)
    (hnoted : Noted capacity 0 perm) (helems : si.elements = selected)
    (hwords : si.bitset.words = wordsInUse selected) :
    ∃ bitset perm', (shifts.map shiftPair).foldrM
        (fun pair state => doShift itemCount state pair) (si, perm) =
        .ok ({ si with bitset }, perm') ∧
      Noted capacity (notedAfter selected shifts) perm' ∧
      bitset.bits = selected.map (newPosition shifts) ∧
      bitset.words = wordsAfter selected shifts := by
  induction shifts with
  | nil =>
    refine ⟨si.bitset, perm, rfl, hnoted, ?_, hwords⟩
    exact helems.trans (map_id selected).symm
  | cons s higher ih =>
    rcases ih (fun s' hs' => hmoves s' (mem_cons_of_mem s hs'))
      (fun s' hs' => hpositive s' (mem_cons_of_mem s hs'))
      (fun i hi => (hspared i hi).1) hsteady.1 with ⟨bitset, perm', hok, hnoted', hbits, hwords'⟩
    rcases doShift_next { si with bitset } (hmoves s mem_cons_self) hatomic
      hsteady hnoted' hbits hwords' with ⟨bitset', perm'', hok', hnoted'', hmem, hwords''⟩
    have hbits' : bitset'.bits = selected.map (newPosition (s :: higher)) := by
      apply bits_eq_of_mem_iff bitset'.sorted (pairwise_newPosition hsel hspared)
      intro j
      rw [hmem j, mem_map]
      constructor
      · rintro ⟨i, hi, -, hnew⟩
        exact ⟨i, hi, hnew⟩
      · rintro ⟨i, hi, hnew⟩
        have hpos := hpositive s mem_cons_self
        exact ⟨i, hi, fun hloses => absurd hloses.1 (Nat.ne_of_gt hpos), hnew⟩
    refine ⟨bitset', perm'', ?_, hnoted'', hbits', ?_⟩
    · rw [map_cons, foldrM_cons, hok, ok_bind]
      exact hok'
    · rw [hwords'', hbits']
      rfl

theorem foldrM_doShift_lead (si : SelectedIndicesList) (hmoves : ∀ s' ∈ s :: higher, Moves s')
    (hascending : Ascending (s :: higher)) (hsel : selected.Pairwise (· < ·))
    (hspared : ∀ i ∈ selected, Spared (s :: higher) i)
    (hsteady : Steady selected itemCount capacity lead (s :: higher))
    (hatomic : 0 < si.atomicityCount) (hnoted : Noted capacity 0 perm)
    (helems : si.elements = selected) (hwords : si.bitset.words = wordsInUse selected) :
    ∃ bitset perm', ((s :: higher).map shiftPair).foldrM
        (fun pair state => doShift itemCount state pair) (si, perm) =
        .ok ({ si with bitset }, perm') ∧
      (∀ j ∈ bitset.bits, ∃ i ∈ selected, newPosition (s :: higher) i = j) ∧
      ∀ i ∈ selected, newPosition (s :: higher) i ∈ bitset.bits ∨
        s.position = 0 ∧ (i : Int) = lead := by
  rcases pairwise_cons.mp hascending with ⟨hfst, -⟩
  rcases foldrM_doShift (fun s' hs' => hmoves s' (mem_cons_of_mem s hs'))
    (fun s' hs' => Nat.zero_lt_of_lt (hfst s' hs')) hsel
    (fun i hi => (hspared i hi).1) hsteady.1 hatomic hnoted helems hwords with
    ⟨bitset, perm', hok, hnoted', hbits, hwords'⟩
  rcases doShift_next { si with bitset } (hmoves s mem_cons_self) hatomic
    hsteady hnoted' hbits hwords' with ⟨bitset', perm'', hok', -, hmem, -⟩
  refine ⟨bitset', perm'', ?_, fun j hj => ?_, fun i hi => ?_⟩
  · rw [map_cons, foldrM_cons, hok, ok_bind]
    exact hok'
  · rcases (hmem j).mp hj with ⟨i, hi, -, hnew⟩
    exact ⟨i, hi, hnew⟩
  · rcases Decidable.em (Loses (limitAfter selected higher) s (newPosition higher i)) with
      hloses | hkeeps
    · refine .inr ⟨hloses.1, ?_⟩
      rcases hsteady.2.1 i hi with hcarry | ⟨-, hlead⟩
      · have hzero := hloses.1
        rw [Carries] at hcarry
        split at hcarry
        case isTrue => exact absurd hcarry.1 (not_reaches_of_loses hloses)
        case isFalse => omega
      · exact hlead
    · exact .inl ((hmem _).mpr ⟨i, hi, hkeeps, rfl⟩)

theorem sortedShifts_map (hascending : Ascending shifts) :
    sortedShifts (shifts.map shiftPair) = (shifts.map shiftPair).reverse := by
  induction shifts with
  | nil => rfl
  | cons s higher ih =>
    rcases pairwise_cons.mp hascending with ⟨hfst, hrest⟩
    have habove : ∀ p ∈ (higher.map shiftPair).reverse, ¬p.1 ≤ (shiftPair s).1 := by
      intro p hp
      rcases mem_map.mp (mem_reverse.mp hp) with ⟨s', hs', rfl⟩
      have hlt := hfst s' hs'
      rw [shiftPair, shiftPair]
      omega
    have hhigher := ih hrest
    rw [sortedShifts] at hhigher ⊢
    rw [map_cons, insertionSort_cons, hhigher, orderedInsert_eq_take_drop,
      takeWhile_eq_self_iff.mpr fun p hp => decide_eq_true (habove p hp),
      dropWhile_eq_nil_iff.mpr fun p hp => decide_eq_true (habove p hp),
      reverse_cons]

theorem set_spec {s : SelectedIndicesList} (h : s.atomicityCount = 0) {i : Nat}
    (hvalid : i < itemCount) :
    ∃ s', s.set itemCount i = .ok s' ∧ ∀ j, j ∈ s'.elements ↔ j ∈ s.elements ∨ j = i := by
  have hidx : IsValidIndex itemCount i := ⟨Int.natCast_nonneg _, Int.ofNat_lt.mpr hvalid⟩
  rw [SelectedIndicesList.set]
  split
  case isTrue =>
    exact ⟨_, report_nextAdd (s := { s with bitset := s.bitset.set i }) h _ _,
      fun j => BitSet.mem_set⟩
  case isFalse hnot =>
    have hmem : i ∈ s.elements := by
      by_contra hmem
      exact hnot ⟨hidx, decide_eq_false hmem⟩
    refine ⟨s, rfl, fun j => ⟨.inl, ?_⟩⟩
    rintro (hj | rfl)
    · exact hj
    · exact hmem

variable {T : Type} {m : MultipleSelectionModelBase T} {items : List (Option T)}

theorem setSelectedIndex_selectedIndex (items : List (Option T))
    (m : MultipleSelectionModelBase T) (index : Int) :
    (m.setSelectedIndex items index).selectedIndex = index := by
  rw [setSelectedIndex]
  split
  case isTrue heq => exact heq
  case isFalse => rfl

variable [DecidableEq T]

theorem select_spec (h : m.selectedIndices.atomicityCount = 0)
    (hmode : m.selectionMode = .multiple) {row : Nat} (hvalid : row < items.length) :
    ∃ m', m.select items row = .ok m' ∧ (∀ j, j ∈ m'.selected ↔ j ∈ m.selected ∨ j = row) ∧
      m'.selectedIndex = row := by
  have hrow : ∃ s, (m.focus items row).selectRow items row =
      .ok { m.focus items row with selectedIndices := s } ∧
        ∀ j, j ∈ s.elements ↔ j ∈ m.selected ∨ j = row := by
    rw [selectRow]
    split
    case isTrue hmem =>
      refine ⟨m.selectedIndices, rfl, fun j => ⟨.inl, ?_⟩⟩
      rintro (hj | rfl)
      · exact hj
      · exact of_decide_eq_true hmem
    case isFalse =>
      rcases set_spec h hvalid with ⟨s, hs, hmem⟩
      refine ⟨s, ?_, hmem⟩
      rw [if_neg (by rw [focus]; simp [hmode])]
      exact onIndices_eq hs
  rcases hrow with ⟨s, hs, hmem⟩
  rw [select, if_neg (by omega), if_neg (by omega), hs]
  refine ⟨_, rfl, ?_, ?_⟩
  · intro j
    rw [← hmem j, selected]
    split <;> rw [setSelectedIndex_selectedIndices]
  · split <;> exact setSelectedIndex_selectedIndex ..

theorem shiftLead_spec (h : m.selectedIndices.atomicityCount = 0)
    (hmode : m.selectionMode = .multiple) {shifts : List (Int × Int)} (lowest : Int)
    (hasSelectionChanged : Bool) (hlead : m.selectedIndex ≥ lowest ∧ m.selectedIndex > -1)
    {lead : Nat} (hnew : newSelectionLead m.selectedIndex shifts = lead)
    (hvalid : lead < items.length) :
    ∃ m', m.shiftLead items shifts lowest hasSelectionChanged = .ok m' ∧
      (∀ j, j ∈ m'.selected ↔ j ∈ m.selected ∨ j = lead) ∧ m'.selectedIndex = lead := by
  have hidxs := setSelectedIndex_selectedIndices items m lead
  rw [shiftLead, if_pos hlead, hnew]
  split
  case isTrue =>
    rcases set_spec (s := (m.setSelectedIndex items lead).selectedIndices)
      (by rw [hidxs]; exact h) hvalid with ⟨s, hs, hmem⟩
    refine ⟨_, onIndices_eq hs, ?_, setSelectedIndex_selectedIndex ..⟩
    rw [hidxs] at hmem
    exact hmem
  case isFalse =>
    rcases select_spec (m := m.setSelectedIndex items lead) (by rw [hidxs]; exact h)
      (by rw [setSelectedIndex_selectionMode]; exact hmode) hvalid with ⟨m', hm', hmem, hidx⟩
    refine ⟨m', hm', fun j => ?_, hidx⟩
    rw [hmem j, selected, hidxs]
    rfl

theorem newSelectionLead_map (shifts : List Shift) (lead : Int) :
    newSelectionLead lead (shifts.map shiftPair) =
      max 0 (lead + totalShift Shift.position shifts lead) := by
  rw [newSelectionLead, filter_map, map_map]
  rfl

theorem shiftSelection_spec
    (h : m.selectedIndices.atomicityCount = 0) (hmode : m.selectionMode = .multiple)
    (hsel : m.selected ≠ []) (hascending : Ascending (s :: higher)) {bitset : BitSet}
    (hfold : ((s :: higher).map shiftPair).foldrM
      (fun pair state => doShift items.length state pair)
        (({ m.selectedIndices with bitset := m.selectedIndices.bitset.trimToSize } :
          SelectedIndicesList).startAtomic,
          List.replicate m.selectedIndices.bitsetSize (-1)) =
      .ok ({ m.selectedIndices.startAtomic with bitset }, perm)) {lead : Nat}
    (hlead : (s.position : Int) ≤ m.selectedIndex →
      newSelectionLead m.selectedIndex ((s :: higher).map shiftPair) = lead ∧
        lead < items.length) :
    ∃ m', m.shiftSelection items ((s :: higher).map shiftPair) = .ok m' ∧
      ((s.position : Int) ≤ m.selectedIndex →
        (∀ j, j ∈ m'.selected ↔ j ∈ bitset.bits ∨ j = lead) ∧ m'.selectedIndex = lead) ∧
      (m.selectedIndex < s.position →
        m'.selected = bitset.bits ∧ m'.selectedIndex = m.selectedIndex) := by
  have hsize : m.selectedIndices.size ≠ 0 :=
    fun hzero => hsel (length_eq_zero_iff.mp hzero)
  have hsort := sortedShifts_map hascending
  have hload : load (sortedShifts ((s :: higher).map shiftPair))
      (((sortedShifts ((s :: higher).map shiftPair)).length : Int) - 1) = .ok (shiftPair s) := by
    have hlast : (((higher.map shiftPair).reverse ++ [shiftPair s]).length : Int) - 1 =
        ((higher.map shiftPair).reverse.length : Nat) := by
      rw [length_append, length_singleton]
      omega
    rw [hsort, map_cons, reverse_cons, hlast]
    exact load_append _ [] _
  have hperm := sortedShifts_perm ((s :: higher).map shiftPair)
  rw [← foldlM_reverse, ← hsort] at hfold
  let t : MultipleSelectionModelBase T :=
    { m with selectedIndices := { m.selectedIndices with bitset } }
  have hdone : ∃ t', t.shiftLead items (sortedShifts ((s :: higher).map shiftPair)) s.position
      (decide (0 < perm.countP (-1 < ·))) = .ok t' ∧
      ((s.position : Int) ≤ m.selectedIndex →
        (∀ j, j ∈ t'.selected ↔ j ∈ bitset.bits ∨ j = lead) ∧ t'.selectedIndex = lead) ∧
      (m.selectedIndex < s.position →
        t'.selected = bitset.bits ∧ t'.selectedIndex = m.selectedIndex) := by
    rcases Decidable.em (m.selectedIndex < s.position) with hlt | hge
    · refine ⟨t, ?_, fun hle => absurd hle (by omega), fun _ => ⟨rfl, rfl⟩⟩
      rw [shiftLead, if_neg]
      · rfl
      · rintro ⟨hle, -⟩
        exact absurd hle (by exact Int.not_le.mpr hlt)
    · rw [Int.not_lt] at hge
      rcases hlead hge with ⟨hnew, hvalid⟩
      rw [← newSelectionLead_perm hperm] at hnew
      rcases shiftLead_spec (m := t) h hmode s.position _ ⟨hge, by
        change -1 < m.selectedIndex
        omega⟩ hnew hvalid with ⟨t', ht', hmem, hidx⟩
      exact ⟨t', ht', fun _ => ⟨hmem, hidx⟩, fun hlt => absurd hlt (by omega)⟩
  rcases hdone with ⟨t', ht', hge, hlt⟩
  rw [shiftSelection, if_neg hsize]
  dsimp only
  rw [hload]
  dsimp only [shiftPair]
  rw [hfold]
  change ∃ m', (t.shiftLead items _ _ _ >>= _) = _ ∧ _
  rw [ht']
  split
  · exact ⟨_, rfl, hge, hlt⟩
  · exact ⟨_, rfl, hge, hlt⟩

end MultipleSelectionModelBase

end OpenJfx.Control
