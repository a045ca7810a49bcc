import OpenJfx.Control.MultipleSelectionModelBase
import OpenJfx.Control.SelectionReplay
import OpenJfx.Data.Interleaving
import Mathlib.Algebra.BigOperators.Group.List.Basic

namespace OpenJfx.Control

open Java.Arrays Java.BitSets Data Collections.ListChange Collections.ListChangeBuilder
open SelectedIndicesList List

namespace MultipleSelectionModelBase

variable {T : Type} {m m' : MultipleSelectionModelBase T}

def Told (m m' : MultipleSelectionModelBase T) : Prop :=
  m.selectedIndices.Told m'.selectedIndices

theorem Told.trans {m'' : MultipleSelectionModelBase T} (h : m.Told m') (h' : m'.Told m'') :
    m.Told m'' :=
  SelectedIndicesList.Told.trans h h'

@[simp] theorem setSelectedIndex_selectedIndices (items : List (Option T))
    (m : MultipleSelectionModelBase T) (index : Int) :
    (m.setSelectedIndex items index).selectedIndices = m.selectedIndices := by
  rw [setSelectedIndex]
  split <;> rfl

@[simp] theorem setSelectedIndex_selectionMode (items : List (Option T))
    (m : MultipleSelectionModelBase T) (index : Int) :
    (m.setSelectedIndex items index).selectionMode = m.selectionMode := by
  rw [setSelectedIndex]
  split <;> rfl

@[simp] theorem focus_selectedIndices (items : List (Option T))
    (m : MultipleSelectionModelBase T) (index : Int) :
    (m.focus items index).selectedIndices = m.selectedIndices := rfl

variable {s : SelectedIndicesList}

theorem onIndices_eq {call : SelectedIndicesList → Outcome SelectedIndicesList}
    (h : call m.selectedIndices = .ok s) :
    m.onIndices call = .ok { m with selectedIndices := s } := by
  rw [onIndices, h]
  rfl

theorem isSelected_iff {index : Nat} : m.isSelected index = true ↔ index ∈ m.selected := by
  rw [isSelected]
  split
  · exact decide_eq_true_iff
  · rename_i hlarge
    refine iff_of_false Bool.false_ne_true fun hmem => ?_
    exact hlarge (m.selectedIndices.bitset.fits index hmem)

variable {items : List (Option T)}

theorem clearSelection_told (items : List (Option T))
    (h : m.selectedIndices.atomicityCount = 0) :
    ∃ m', m.clearSelection items = .ok m' ∧ m.Told m' ∧ m'.selected = [] := by
  rcases clearAll_told h with ⟨s, hs, htold, hemp⟩
  refine ⟨(({ m with selectedIndices := s } : MultipleSelectionModelBase T).setSelectedIndex items
    (-1)).focus items (-1), ?_, ?_, ?_⟩
  · rw [clearSelection, quietClearSelection, onIndices_eq hs, ok_bind, isAtomic,
      htold.atomicity, h]
    rfl
  · rw [Told, focus_selectedIndices, setSelectedIndex_selectedIndices]
    exact htold
  · rw [selected, focus_selectedIndices, setSelectedIndex_selectedIndices]
    exact hemp

/-- In single mode, the listeners do not hear of the selection that `select` clears. -/
def SelectReported (itemCount : Nat) (m : MultipleSelectionModelBase T) (row : Int) : Prop :=
  m.selectionMode = .multiple ∨ ¬IsValidIndex itemCount row ∨ row.toNat ∈ m.selected ∨
    m.selected = []

theorem clearAll_of_atomic (h : 0 < s.atomicityCount) :
    s.clearAll = .ok { s with bitset := s.bitset.clearAll } := by
  rw [clearAll]
  exact report_of_atomic (s := { s with bitset := s.bitset.clearAll }) h _

theorem told_cleared (hemp : s.elements = []) :
    s.Told { s with bitset := s.bitset.clearAll } :=
  ⟨rfl, [], (append_nil _).symm, congrArg some hemp⟩

variable {row : Int}

theorem selectRow_told (items : List (Option T)) (h : m.selectedIndices.atomicityCount = 0)
    (hrept : m.selectionMode = .multiple ∨ row.toNat ∈ m.selected ∨ m.selected = []) :
    ∃ s, m.selectRow items row = .ok { m with selectedIndices := s } ∧
      m.selectedIndices.Told s := by
  rw [selectRow]
  split
  case isTrue => exact ⟨m.selectedIndices, rfl, .refl _⟩
  case isFalse hnot =>
    split
    case isTrue hsingle =>
      have hemp : m.selectedIndices.elements = [] := by
        rcases hrept with hmode | hmem | hemp
        · rw [hmode] at hsingle
          cases hsingle
        · exact absurd (decide_eq_true hmem) hnot
        · exact hemp
      let t : SelectedIndicesList :=
        { m.selectedIndices with bitset := m.selectedIndices.bitset.clearAll }
      rcases set_told (s := t) items.length h row with ⟨s, hs, htold, -⟩
      refine ⟨s, ?_, (told_cleared hemp).trans htold⟩
      rw [quietClearSelection, onIndices_eq (clearAll_of_atomic (Nat.succ_pos _)), ok_bind]
      exact onIndices_eq (m := { m with selectedIndices := t }) hs
    case isFalse =>
      rcases set_told items.length h row with ⟨s, hs, htold, -⟩
      exact ⟨s, onIndices_eq hs, htold⟩

theorem clearSelectionAt_told (h : m.selectedIndices.atomicityCount = 0) {index : Int}
    (hpos : index.toNat ∉ m.selected ∨
      (m.selected.filter (· < index.toNat)).length = index.toNat) :
    ∃ m', m.clearSelectionAt items index = .ok m' ∧ m.Told m' := by
  rw [clearSelectionAt]
  split
  case isTrue => exact ⟨m, rfl, .refl _⟩
  case isFalse =>
    rcases clear_told h hpos with ⟨s, hs, htold⟩
    rw [onIndices_eq hs, ok_bind]
    split
    case isTrue =>
      rcases clearSelection_told (m := { m with selectedIndices := s }) items
        (htold.atomicity.trans h) with ⟨m', hm', htold', -⟩
      exact ⟨m', hm', htold.trans htold'⟩
    case isFalse => exact ⟨_, rfl, htold⟩

theorem selectAll_told (h : m.selectedIndices.atomicityCount = 0) :
    ∃ m', m.selectAll items = .ok m' ∧ m.Told m' := by
  rw [selectAll]
  split
  case isTrue => exact ⟨m, rfl, .refl _⟩
  case isFalse hmode =>
    rcases clearSelection_told items h with ⟨m₁, hm₁, htold, hemp⟩
    rcases setRange_told (htold.atomicity.trans h) hemp
      (Nat.pos_of_ne_zero fun hzero => hmode (.inr hzero)) with ⟨s, hs, htold'⟩
    rw [hm₁, ok_bind, onIndices_eq hs]
    refine ⟨_, rfl, ?_⟩
    rw [MultipleSelectionModelBase.Told, focus_selectedIndices, setSelectedIndex_selectedIndices]
    exact htold.trans htold'

theorem lastValid_valid {indices : List Int} {index : Int}
    (h : lastValid items indices = some index) :
    IsValidIndex items.length index := by
  have hmem := mem_of_getLast? h
  simpa using of_mem_filter hmem

variable [DecidableEq T]

theorem select_eq (hvalid : IsValidIndex items.length row)
    (hrow : (m.focus items row).selectRow items row =
      .ok { m.focus items row with selectedIndices := s }) :
    ∃ m', m.select items row = .ok m' ∧ m'.selectedIndices = s ∧
      m'.selectionMode = m.selectionMode := by
  have hnn := hvalid.1
  have hlt := hvalid.2
  rw [select, if_neg (by omega), if_neg (by omega), hrow]
  refine ⟨_, rfl, ?_, ?_⟩
  · split
    · exact setSelectedIndex_selectedIndices ..
    · exact setSelectedIndex_selectedIndices ..
  · split
    · exact setSelectedIndex_selectionMode ..
    · exact setSelectedIndex_selectionMode ..

theorem select_told (h : m.selectedIndices.atomicityCount = 0)
    (hrept : SelectReported items.length m row) :
    ∃ m', m.select items row = .ok m' ∧ m.Told m' := by
  by_cases hvalid : IsValidIndex items.length row
  · have hrept' : m.selectionMode = .multiple ∨ row.toNat ∈ m.selected ∨ m.selected = [] :=
      hrept.imp_right fun hrow => hrow.resolve_left (not_not_intro hvalid)
    rcases selectRow_told (m := m.focus items row) items h hrept' with
      ⟨s, hs, htold⟩
    rcases select_eq hvalid hs with ⟨m', hm', rfl, -⟩
    exact ⟨m', hm', htold⟩
  · rw [select]
    split
    case isTrue =>
      rcases clearSelection_told items h with ⟨m', hm', htold, -⟩
      exact ⟨m', hm', htold⟩
    case isFalse =>
      rw [if_pos]
      · exact ⟨m, rfl, .refl _⟩
      · rw [IsValidIndex] at hvalid
        omega

theorem elements_of_set {itemCount index : Nat} (hatomic : 0 < s.atomicityCount)
    (hemp : s.elements = []) (hvalid : index < itemCount) :
    ∃ bitset, s.set itemCount index = .ok { s with bitset } ∧ bitset.bits = [index] := by
  rcases set_of_atomic hatomic hvalid with ⟨bitset, hset, hmem⟩
  refine ⟨bitset, hset, ?_⟩
  refine BitSet.bits_eq_of_mem_iff bitset.sorted (pairwise_singleton _ index) fun j => ?_
  rw [hmem j, hemp, or_iff_right not_mem_nil, mem_singleton]

theorem select_of_atomic (hatomic : 0 < m.selectedIndices.atomicityCount) (hemp : m.selected = [])
    (hvalid : IsValidIndex items.length row) :
    ∃ m' bitset, m.select items row = .ok m' ∧
      m'.selectedIndices = { m.selectedIndices with bitset } ∧ bitset.bits = [row.toNat] := by
  have hrow : ((row.toNat : Nat) : Int) = row := Int.toNat_of_nonneg hvalid.1
  have hlt : row.toNat < items.length := by
    have hlt := hvalid.2
    omega
  have hnot : (m.focus items row).selectedIndices.isSelected row.toNat = false := by
    refine decide_eq_false fun hmem => ?_
    change row.toNat ∈ m.selected at hmem
    rw [hemp] at hmem
    exact not_mem_nil hmem
  have hsel : ∃ bitset : BitSet, (m.focus items row).selectRow items row =
      .ok { m.focus items row with selectedIndices := { m.selectedIndices with bitset } } ∧
        bitset.bits = [row.toNat] := by
    rw [selectRow, if_neg (by rw [hnot]; exact Bool.false_ne_true)]
    split
    case isTrue =>
      let t : SelectedIndicesList :=
        { m.selectedIndices with bitset := m.selectedIndices.bitset.clearAll }
      rcases elements_of_set (s := t) hatomic rfl hlt with ⟨bitset, hset, hbits⟩
      rw [hrow] at hset
      refine ⟨bitset, ?_, hbits⟩
      rw [quietClearSelection, onIndices_eq (clearAll_of_atomic (Nat.succ_pos _)), ok_bind]
      exact onIndices_eq (m := { m.focus items row with selectedIndices := t }) hset
    case isFalse =>
      rcases elements_of_set hatomic hemp hlt with ⟨bitset, hset, hbits⟩
      rw [hrow] at hset
      exact ⟨bitset, onIndices_eq hset, hbits⟩
  rcases hsel with ⟨bitset, hok, hbits⟩
  rcases select_eq hvalid hok with ⟨m', hm', hidxs, -⟩
  exact ⟨m', bitset, hm', hidxs, hbits⟩

/-- The change of `clearAndSelect` is split at the row, which has to be its position then. -/
def SplitReported (selected : List Nat) (row : Nat) : Prop :=
  (selected.filter (· < row)).length = min row (selected.length - 1)

theorem replay_clearAndSelectChange {selected : List Nat} (hsel : selected.Pairwise (· < ·))
    {row : Nat} (hmem : row ∈ selected) (hsplit : SplitReported selected row) :
    (clearAndSelectChange (selected.filter (· ≠ row)) row).foldlM (replaySubChange [row]) selected =
      some [row] := by
  have hne := filter_ne_eq hsel row
  have hwhole := withElement_of_mem hsel hmem
  rw [SplitReported] at hsplit
  rw [withElement] at hwhole
  generalize selected.filter (· < row) = below at hne hwhole hsplit
  generalize selected.filter (row + 1 ≤ ·) = above at hne hwhole
  have hlen : selected.length - 1 = (below ++ above).length := by
    rw [← hwhole, length_append, length_cons, length_append]
    omega
  have hmid : (if (row : Int) ≥ (below ++ above).length then (below ++ above).length
      else (row : Int).toNat) = below.length := by
    split <;> omega
  rw [clearAndSelectChange, hne, hmid, take_left, drop_left]
  have hfst : replaySubChange [row] selected ⟨0, 0, some below, [], false⟩ =
      some (row :: above) := by
    have hlist : [row] = [] ++ [] ++ [row] := rfl
    have hl : selected = [] ++ below ++ (row :: above) := hwhole.symm
    exact replaySubChange_eq hlist hl rfl
  rw [foldlM_cons, hfst]
  change List.foldlM (replaySubChange [row]) (row :: above) _ = _
  split
  case isTrue habove =>
    rw [habove]
    rfl
  case isFalse =>
    have hsnd : replaySubChange [row] (row :: above) ⟨1, 1, some above, [], false⟩ =
        some [row] := by
      have hlist : [row] = [row] ++ [] ++ [] := rfl
      have hl : row :: above = [row] ++ above ++ [] := (append_nil (row :: above)).symm
      exact replaySubChange_eq hlist hl rfl
    rw [foldlM_cons, hsnd]
    rfl

theorem clearAndSelect_told (h : m.selectedIndices.atomicityCount = 0)
    (hrept : row.toNat ∉ m.selected ∨ SplitReported m.selected row.toNat) :
    ∃ m', m.clearAndSelect items row = .ok m' ∧ m.Told m' := by
  rw [clearAndSelect]
  split
  case isTrue =>
    rcases clearSelection_told items h with ⟨m', hm', htold, -⟩
    exact ⟨m', hm', htold⟩
  case isFalse hrow =>
    have hvalid : IsValidIndex items.length row := by
      rw [IsValidIndex]
      omega
    have hnn := hvalid.1
    dsimp only
    split
    case isTrue => exact ⟨m, rfl, .refl _⟩
    case isFalse =>
      let cleared : MultipleSelectionModelBase T := { m with selectedIndices :=
        { m.selectedIndices.startAtomic with bitset := m.selectedIndices.bitset.clearAll } }
      have hclear : m.startAtomic.clearSelection items = .ok cleared := by
        rw [clearSelection, quietClearSelection,
          onIndices_eq (clearAll_of_atomic (Nat.succ_pos _)), ok_bind]
        exact if_pos (decide_eq_true (Nat.succ_pos _))
      rcases select_of_atomic (m := cleared) (Nat.succ_pos _) rfl hvalid with
        ⟨m', bitset, hselect, hidxs, hbits⟩
      let t : SelectedIndicesList := { m.selectedIndices with bitset }
      have ht : m'.stopAtomic.selectedIndices = t := by
        rw [MultipleSelectionModelBase.stopAtomic, hidxs]
        rfl
      rw [hclear, ok_bind, hselect]
      split
      case isTrue hsel =>
        have hmem := isSelected_iff.mp hsel
        refine ⟨_, rfl, ?_⟩
        rw [MultipleSelectionModelBase.callObservers, ht]
        refine told_callObservers rfl rfl ?_
        have hreplay := replay_clearAndSelectChange m.selectedIndices.bitset.sorted hmem
          (hrept.resolve_left (not_not_intro hmem))
        rw [Int.toNat_of_nonneg hnn] at hreplay
        change List.foldlM (replaySubChange bitset.bits) m.selected _ = some bitset.bits
        rw [hbits]
        exact hreplay
      case isFalse hnot =>
        have hnot' : row.toNat ∉ m.selected := fun hmem => hnot (isSelected_iff.mpr hmem)
        refine ⟨_, rfl, ?_⟩
        have hidx : t.indexOf row.toNat = 0 := by
          have helems : t.elements = [row.toNat] := hbits
          rw [indexOf, helems, if_pos mem_cons_self, idxOf_cons_self]
          rfl
        rw [MultipleSelectionModelBase.callObservers, ht, hidx]
        have hprev : m.selected = [] ++ m.selected.filter (· ≠ row.toNat) ++ [] := by
          rw [nil_append, append_nil, eq_comm, filter_eq_self]
          intro i hi
          rw [decide_eq_true_eq]
          rintro rfl
          exact hnot' hi
        have hafter : t.elements = [] ++ [row.toNat] ++ [] := hbits
        exact told_replaced t rfl rfl hprev hafter rfl rfl

theorem setAndSelect_told (h : m.selectedIndices.atomicityCount = 0) {index : Int}
    (hvalid : IsValidIndex items.length index) :
    ∃ m', m.setAndSelect items index = .ok m' ∧ m.Told m' := by
  rcases set_told items.length h index with ⟨s, hs, htold, hmem⟩
  rw [setAndSelect, onIndices_eq hs]
  rcases select_told (m := { m with selectedIndices := s }) (htold.atomicity.trans h)
    (.inr (.inr (.inl (hmem hvalid)))) with ⟨m', hm', htold'⟩
  exact ⟨m', hm', htold.trans htold'⟩

theorem selectEndMost_told (items : List (Option T))
    (h : m.selectedIndices.atomicityCount = 0) (rows : List Int) :
    ∃ m', m.selectEndMost items rows = .ok m' ∧ m.Told m' := by
  rw [selectEndMost]
  split
  case h_1 index hidx => exact setAndSelect_told h (lastValid_valid hidx)
  case h_2 => exact ⟨m, rfl, .refl _⟩

def IndicesReported (itemCount : Nat) (m : MultipleSelectionModelBase T) (row : Int)
    (rows : List Int) : Prop :=
  if rows = [] then SelectReported itemCount m row
  else m.selectionMode = .single ∨
    RunReported m.selected (m.selectedIndices.sortedNewIndices itemCount (row :: rows))

theorem selectIndices_told (h : m.selectedIndices.atomicityCount = 0) {rows : List Int}
    (hrept : IndicesReported items.length m row rows) :
    ∃ m', m.selectIndices items row rows = .ok m' ∧ m.Told m' := by
  rw [IndicesReported] at hrept
  rw [selectIndices]
  split at hrept
  case isTrue hrows =>
    rw [if_pos hrows]
    exact select_told h hrept
  case isFalse hrows =>
    rw [if_neg hrows]
    cases hmode : m.selectionMode with
    | single =>
      rcases clearAll_told h with ⟨s, hs, htold, -⟩
      dsimp only
      rw [quietClearSelection, onIndices_eq hs, ok_bind]
      have hatomic := htold.atomicity.trans h
      rcases selectEndMost_told (m := { m with selectedIndices := s }) items hatomic rows with
        ⟨m₂, hm₂, htold₂⟩
      rw [hm₂, ok_bind]
      split
      case isTrue hrow =>
        rcases setAndSelect_told (htold₂.atomicity.trans hatomic) ⟨hrow.2.1.le, hrow.2.2⟩ with
          ⟨m', hm', htold'⟩
        exact ⟨m', hm', htold.trans (htold₂.trans htold')⟩
      case isFalse => exact ⟨m₂, rfl, htold.trans htold₂⟩
    | multiple =>
      have hrun := hrept.resolve_left (by rw [hmode]; simp)
      rcases setAll_told h row hrows hrun with ⟨s, hs, htold⟩
      dsimp only
      rw [onIndices_eq hs]
      split
      · refine ⟨_, rfl, ?_⟩
        simp only [focus, setSelectedIndex_selectedIndices]
        exact htold
      · exact ⟨_, rfl, htold⟩

theorem foldlM_eq_of_fixed {σ ι : Type} {f : σ → ι → Outcome σ} {s : σ} {l : List ι}
    (hfixed : ∀ i ∈ l, f s i = .ok s) : l.foldlM f s = .ok s := by
  induction l with
  | nil => rfl
  | cons i l ih =>
    rw [foldlM_cons, hfixed i mem_cons_self]
    exact ih fun j hj => hfixed j (mem_cons_of_mem i hj)

theorem clear_eq_of_notMem {index : Nat} (h : index ∉ s.elements) :
    s.clear index = .ok s := by
  rw [clear, if_neg]
  · rfl
  · rw [SelectedIndicesList.isSelected, BitSet.get, decide_eq_true_eq]
    exact h

theorem move_eq_of_notMem {s : Shifting} {itemCount clearIndex setIndex : Nat} (entry : Int)
    (hclear : clearIndex ∉ s.selectedIndices.elements)
    (hset : setIndex ∉ s.selectedIndices.elements) :
    s.move itemCount clearIndex setIndex entry = .ok s := by
  have hnot : s.selectedIndices.isSelected clearIndex = false := decide_eq_false hclear
  rw [Shifting.move, hnot]
  rw [clear_eq_of_notMem hclear, ok_bind, setTo, clear_eq_of_notMem hset]
  rfl

def Unmoved (selected : List Nat) (shift : Int × Int) : Prop :=
  shift.1 < 0 ∨ shift.2 = 0 ∨ ∀ i ∈ selected, (i : Int) < shift.1

theorem doShift_unmoved {itemCount : Nat} (perm : List Int) {shift : Int × Int}
    (h : Unmoved s.elements shift) :
    doShift itemCount (s, perm) shift = .ok (s, perm) := by
  rw [doShift]
  split
  case isTrue => rfl
  case isFalse hshift =>
    have hbelow : ∀ i ∈ s.elements, (i : Int) < shift.1 := by
      rcases h with hneg | hzero | hbelow
      · exact absurd (.inl hneg) hshift
      · exact absurd (.inr hzero) hshift
      · exact hbelow
    have hnot : ∀ i : Nat, shift.1.toNat ≤ i → i ∉ s.elements := by
      intro i hi hmem
      have hlt := hbelow i hmem
      omega
    dsimp only
    split
    case isTrue =>
      rw [foldlM_eq_of_fixed]
      · rw [ok_bind, clear_eq_of_notMem (hnot _ (Nat.le_refl _))]
        rfl
      · intro i hi
        rw [mem_reverse, mem_range'_1] at hi
        exact move_eq_of_notMem _ (hnot i hi.1) (hnot _ (by omega))
    case isFalse =>
      rw [foldlM_eq_of_fixed]
      · rfl
      · intro i hi
        split
        · rfl
        · exact move_eq_of_notMem _ (hnot _ (by omega)) (hnot _ (by omega))

def ShiftReported (itemCount : Nat) (m : MultipleSelectionModelBase T)
    (shifts : List (Int × Int)) : Prop :=
  m.selected = [] ∨ shifts ≠ [] ∧ (∀ shift ∈ shifts, Unmoved m.selected shift) ∧
    (m.selectedIndex < 0 ∨ (∀ shift ∈ shifts, m.selectedIndex < shift.1) ∨
      SelectReported itemCount m (newSelectionLead m.selectedIndex shifts))

theorem sortedShifts_perm (shifts : List (Int × Int)) : (sortedShifts shifts).Perm shifts :=
  perm_insertionSort _ shifts

theorem newSelectionLead_perm {shifts shifts' : List (Int × Int)} (h : shifts.Perm shifts')
    (selectedIndex : Int) :
    newSelectionLead selectedIndex shifts = newSelectionLead selectedIndex shifts' := by
  rw [newSelectionLead, newSelectionLead, ((h.filter _).map Prod.snd).sum_eq]

theorem shiftLead_told (items : List (Option T)) (shifts : List (Int × Int))
    (lowestShiftPosition : Int) (h : m.selectedIndices.atomicityCount = 0)
    (hrept : m.selectedIndex < 0 ∨
      m.selectedIndex < lowestShiftPosition ∨
        SelectReported items.length m (newSelectionLead m.selectedIndex shifts)) :
    ∃ m', m.shiftLead items shifts lowestShiftPosition false = .ok m' ∧ m.Told m' := by
  rw [shiftLead]
  split
  case isTrue hlead =>
    have hselect : SelectReported items.length
        (m.setSelectedIndex items (newSelectionLead m.selectedIndex shifts))
        (newSelectionLead m.selectedIndex shifts) := by
      rw [SelectReported, selected, setSelectedIndex_selectedIndices,
        setSelectedIndex_selectionMode]
      exact (hrept.resolve_left (by omega)).resolve_left (by omega)
    have hatomic : (m.setSelectedIndex items
        (newSelectionLead m.selectedIndex shifts)).selectedIndices.atomicityCount = 0 := by
      rw [setSelectedIndex_selectedIndices]
      exact h
    rcases select_told hatomic hselect with ⟨m', hm', htold⟩
    rw [MultipleSelectionModelBase.Told, setSelectedIndex_selectedIndices] at htold
    exact ⟨m', hm', htold⟩
  case isFalse => exact ⟨m, rfl, .refl _⟩

theorem shiftSelection_told (h : m.selectedIndices.atomicityCount = 0)
    {shifts : List (Int × Int)} (hrept : ShiftReported items.length m shifts) :
    ∃ m', m.shiftSelection items shifts = .ok m' ∧ m.Told m' := by
  rw [shiftSelection]
  split
  case isTrue => exact ⟨m, rfl, .refl _⟩
  case isFalse hsize =>
    have hsel : m.selected ≠ [] := fun hemp => hsize (congrArg List.length hemp)
    rcases hrept.resolve_left hsel with ⟨hshifts, hunmoved, hlead⟩
    have hperm := sortedShifts_perm shifts
    have hpos : 0 < (sortedShifts shifts).length := by
      rw [hperm.length_eq]
      exact length_pos_iff.mpr hshifts
    rcases hlast : (sortedShifts shifts)[(sortedShifts shifts).length - 1]? with
      - | ⟨lowest, amount⟩
    · rw [List.getElem?_eq_none_iff] at hlast
      omega
    · have hmem := hperm.mem_iff.mp (mem_of_getElem? hlast)
      have hload : load (sortedShifts shifts) (((sortedShifts shifts).length : Int) - 1) =
          .ok (lowest, amount) := by
        rw [show (((sortedShifts shifts).length : Int) - 1) =
          (((sortedShifts shifts).length - 1 : Nat) : Int) by omega]
        exact load_eq_ok hlast
      let t : SelectedIndicesList :=
        { m.selectedIndices with bitset := m.selectedIndices.bitset.trimToSize }
      have hfold : (sortedShifts shifts).foldlM (doShift items.length) (t.startAtomic,
          List.replicate m.selectedIndices.bitsetSize (-1)) =
            .ok (t.startAtomic, List.replicate m.selectedIndices.bitsetSize (-1)) :=
        foldlM_eq_of_fixed fun shift hshift =>
          doShift_unmoved _ (hunmoved shift (hperm.mem_iff.mp hshift))
      have hcnt : decide (0 < (List.replicate m.selectedIndices.bitsetSize (-1 : Int)).countP
          (-1 < ·)) = false := by
        rw [countP_replicate]
        rfl
      rcases shiftLead_told (m := { m with selectedIndices := t }) items (sortedShifts shifts)
        lowest h (by
          rw [newSelectionLead_perm hperm]
          exact hlead.imp_right fun hlead => hlead.imp_left fun hlt => hlt _ hmem) with
        ⟨m', hm', htold⟩
      refine ⟨m', ?_, htold.atomicity, htold.fired⟩
      dsimp only
      rw [hload, ok_bind]
      rw [hfold, ok_bind]
      rw [hcnt]
      change (shiftLead items { m with selectedIndices := t } _ _ _ >>= _) = _
      rw [hm']
      rfl

inductive Operation where
  | select (row : Int)
  | selectIndices (row : Int) (rows : List Int)
  | clearSelectionAt (index : Int)
  | clearSelection
  | clearAndSelect (row : Int)
  | selectAll
  | shiftSelection (shifts : List (Int × Int))

def run (items : List (Option T)) (m : MultipleSelectionModelBase T) :
    Operation → Outcome (MultipleSelectionModelBase T)
  | .select row => m.select items row
  | .selectIndices row rows => m.selectIndices items row rows
  | .clearSelectionAt index => m.clearSelectionAt items index
  | .clearSelection => m.clearSelection items
  | .clearAndSelect row => m.clearAndSelect items row
  | .selectAll => m.selectAll items
  | .shiftSelection shifts => m.shiftSelection items shifts

/-- A call on a model with these items, and what is fired during it. -/
structure Call (T : Type) where
  items : List (Option T)
  operation : Operation

def call (m : MultipleSelectionModelBase T) (c : Call T) :
    Outcome (MultipleSelectionModelBase T) :=
  run c.items { m with selectedIndices := { m.selectedIndices with fired := [] } } c.operation

def step (m : MultipleSelectionModelBase T) (c : Call T) : Option (MultipleSelectionModelBase T) :=
  (m.call c).toOption

/-- The call succeeds and what it fires leads from the old rows to the new ones. -/
def Described (m : MultipleSelectionModelBase T) (c : Call T) : Prop :=
  ∃ m', m.call c = .ok m' ∧ replay m'.selectedIndices.fired m.selected = some m'.selected

/-- The rows selected before are such that the event names the right ones. -/
def Reported (m : MultipleSelectionModelBase T) (c : Call T) : Prop :=
  match c.operation with
  | .select row => SelectReported c.items.length m row
  | .selectIndices row rows => IndicesReported c.items.length m row rows
  | .clearSelectionAt index => index.toNat ∉ m.selected ∨
      (m.selected.filter (· < index.toNat)).length = index.toNat
  | .clearSelection => True
  | .clearAndSelect row => row.toNat ∉ m.selected ∨ SplitReported m.selected row.toNat
  | .selectAll => True
  | .shiftSelection shifts => ShiftReported c.items.length m shifts

theorem run_told (h : m.selectedIndices.atomicityCount = 0) (c : Call T)
    (hrept : m.Reported c) :
    ∃ m', run c.items m c.operation = .ok m' ∧ m.Told m' := by
  rcases c with ⟨items, operation⟩
  cases operation with
  | select row => exact select_told h hrept
  | selectIndices row rows => exact selectIndices_told h hrept
  | clearSelectionAt index => exact clearSelectionAt_told h hrept
  | clearSelection =>
    rcases clearSelection_told items h with ⟨m', hm', htold, -⟩
    exact ⟨m', hm', htold⟩
  | clearAndSelect row => exact clearAndSelect_told h hrept
  | selectAll => exact selectAll_told h
  | shiftSelection shifts => exact shiftSelection_told h hrept

theorem call_described (h : m.selectedIndices.atomicityCount = 0) (c : Call T)
    (hrept : m.Reported c) :
    ∃ m', m.call c = .ok m' ∧ m'.selectedIndices.atomicityCount = 0 ∧ m.Described c := by
  rcases run_told (m := { m with selectedIndices := { m.selectedIndices with fired := [] } }) h c
    hrept with ⟨m', hm', hatom, changes, hfired, hreplay⟩
  rw [nil_append] at hfired
  rw [← hfired] at hreplay
  exact ⟨m', hm', hatom.trans h, m', hm', hreplay⟩

theorem described_along_from (calls : List (Call T)) (h : m.selectedIndices.atomicityCount = 0)
    (hrept : EachStep step Reported m calls) : EachStep step Described m calls := by
  induction calls generalizing m with
  | nil => trivial
  | cons c calls ih =>
    rcases call_described h c hrept.1 with ⟨m', hm', hatomic, hdescribed⟩
    refine ⟨hdescribed, fun t ht => ?_⟩
    have heq : step m c = some m' := congrArg Except.toOption hm'
    rw [heq, Option.some.injEq] at ht
    subst ht
    exact ih hatomic (hrept.2 m' heq)

/-- In every run of calls that each report what they do, the changes describe the selection. -/
theorem described_along (selectionMode : SelectionMode) (calls : List (Call T))
    (hreported : EachStep step Reported (new selectionMode) calls) :
    EachStep step Described (new selectionMode) calls :=
  described_along_from calls rfl hreported

section Decidable

instance decidableEndsWithGap : (i : Nat) → (rest : List Nat) → Decidable (EndsWithGap i rest)
  | _, [] => .isFalse id
  | i, [j] => inferInstanceAs (Decidable (i + 1 ≠ j))
  | _, i :: j :: rest => decidableEndsWithGap i (j :: rest)

instance (elements : List Nat) : (newIndices : List Nat) →
    Decidable (RunReported elements newIndices)
  | [] => .isTrue trivial
  | [i] => inferInstanceAs (Decidable ((elements.filter (· < i)).length = i))
  | i :: j :: rest => inferInstanceAs (Decidable (
      (∀ k ∈ elements, k < i ∨ ∀ l ∈ j :: rest, l < k) ∧
        ((i :: j :: rest).IsChain (fun k l => k + 1 = l) ∨ EndsWithGap i (j :: rest))))

instance (itemCount : Nat) (m : MultipleSelectionModelBase T) (row : Int) :
    Decidable (SelectReported itemCount m row) :=
  inferInstanceAs (Decidable (_ ∨ _))

instance (itemCount : Nat) (m : MultipleSelectionModelBase T) (row : Int) (rows : List Int) :
    Decidable (IndicesReported itemCount m row rows) :=
  inferInstanceAs (Decidable (if rows = [] then SelectReported itemCount m row
    else m.selectionMode = .single ∨
      RunReported m.selected (m.selectedIndices.sortedNewIndices itemCount (row :: rows))))

instance (selected : List Nat) (row : Nat) : Decidable (SplitReported selected row) :=
  inferInstanceAs (Decidable (_ = _))

instance (selected : List Nat) (shift : Int × Int) : Decidable (Unmoved selected shift) :=
  inferInstanceAs (Decidable (_ ∨ _))

instance (itemCount : Nat) (m : MultipleSelectionModelBase T) (shifts : List (Int × Int)) :
    Decidable (ShiftReported itemCount m shifts) :=
  inferInstanceAs (Decidable (_ ∨ _))

instance decidableReported (m : MultipleSelectionModelBase T) :
    (c : Call T) → Decidable (m.Reported c)
  | ⟨items, .select row⟩ => inferInstanceAs (Decidable (SelectReported items.length m row))
  | ⟨items, .selectIndices row rows⟩ =>
    inferInstanceAs (Decidable (IndicesReported items.length m row rows))
  | ⟨_, .clearSelectionAt _⟩ => inferInstanceAs (Decidable (_ ∨ _))
  | ⟨_, .clearSelection⟩ => .isTrue trivial
  | ⟨_, .clearAndSelect _⟩ => inferInstanceAs (Decidable (_ ∨ _))
  | ⟨_, .selectAll⟩ => .isTrue trivial
  | ⟨items, .shiftSelection shifts⟩ =>
    inferInstanceAs (Decidable (ShiftReported items.length m shifts))

instance decidableDescribed (m : MultipleSelectionModelBase T) (c : Call T) :
    Decidable (m.Described c) :=
  match hcall : m.call c with
  | .ok m' =>
    decidable_of_iff (replay m'.selectedIndices.fired m.selected = some m'.selected) (by
      constructor
      · intro h
        exact ⟨m', hcall, h⟩
      · rintro ⟨t, ht, h⟩
        rw [hcall, Except.ok.injEq] at ht
        subst ht
        exact h)
  | .error failure => .isFalse (by
      rintro ⟨t, ht, -⟩
      rw [hcall] at ht
      cases ht)

end Decidable

def reportedCalls : List (Call Nat) :=
  [.select 3, .selectIndices 4 [5, 6], .selectIndices 9 [7], .select 0, .clearSelectionAt 0,
    .clearAndSelect 0, .select 5, .shiftSelection [(7, 2), (9, -1)], .clearAndSelect 0, .selectAll,
    .clearSelectionAt 4, .clearSelection].map
    (⟨(List.range 10).map some, ·⟩)

theorem described_along_reportedCalls :
    EachStep step Described (new .multiple : MultipleSelectionModelBase Nat) reportedCalls :=
  described_along .multiple reportedCalls (by decide +kernel)

/-- The removal of the only selected index is fired at that index, and not at the first position
of the list. -/
theorem removal_not_described : ¬∀ (selectionMode : SelectionMode) (calls : List (Call Nat)),
    EachStep step Described (new selectionMode : MultipleSelectionModelBase Nat) calls := by
  intro h
  have hrun := h .multiple
    ([.select 2, .clearSelectionAt 2].map (⟨(List.range 10).map some, ·⟩))
  revert hrun
  decide +kernel

end MultipleSelectionModelBase

end OpenJfx.Control
