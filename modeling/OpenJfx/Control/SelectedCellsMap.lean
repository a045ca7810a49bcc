import OpenJfx.Data.Interleaving
import Mathlib.Data.Finset.Basic

namespace OpenJfx.Control

open Data List

structure TablePosition where
  row : Int
  column : Int
deriving DecidableEq

/-- The selected cells in selection order and the selected columns of the rows. The sorted view of
the list is left out. -/
structure SelectedCellsMap where
  selectedCells : List TablePosition
  selectedCellBitSetMap : Int → Option (Finset Nat)

namespace SelectedCellsMap

def new : SelectedCellsMap := ⟨[], fun _ => none⟩

def mark (map : Int → Option (Finset Nat)) (tp : TablePosition) : Int → Option (Finset Nat) :=
  let bitset := (map tp.row).getD ∅
  Function.update map tp.row
    (some (if 0 ≤ tp.column then insert tp.column.toNat bitset else bitset))

def add (isCellSelectionEnabled : Bool) (s : SelectedCellsMap) (tp : TablePosition) :
    SelectedCellsMap :=
  let isNewBitSet := (s.selectedCellBitSetMap tp.row).isNone
  let bitset := (s.selectedCellBitSetMap tp.row).getD ∅
  let added : SelectedCellsMap := ⟨s.selectedCells ++ [tp], mark s.selectedCellBitSetMap tp⟩
  let withRow : SelectedCellsMap :=
    { s with
      selectedCellBitSetMap := Function.update s.selectedCellBitSetMap tp.row (some bitset) }
  if isCellSelectionEnabled then
    if 0 ≤ tp.column then
      if tp.column.toNat ∈ bitset then withRow else added
    else
      if tp ∈ s.selectedCells then withRow else added
  else
    if isNewBitSet then added else withRow

def addAll (s : SelectedCellsMap) (cells : List TablePosition) : SelectedCellsMap :=
  ⟨s.selectedCells ++ cells, cells.foldl mark s.selectedCellBitSetMap⟩

def setAll (_ : SelectedCellsMap) (cells : List TablePosition) : SelectedCellsMap :=
  ⟨cells, cells.foldl mark fun _ => none⟩

def remove (s : SelectedCellsMap) (tp : TablePosition) : SelectedCellsMap where
  selectedCells := s.selectedCells.erase tp
  selectedCellBitSetMap :=
    match s.selectedCellBitSetMap tp.row with
    | none => s.selectedCellBitSetMap
    | some bitset =>
      let bitset := if 0 ≤ tp.column then bitset.erase tp.column.toNat else bitset
      -- an empty bit set stands for a row that is selected as a whole, but is dropped here
      Function.update s.selectedCellBitSetMap tp.row (if bitset = ∅ then none else some bitset)

def clear (_ : SelectedCellsMap) : SelectedCellsMap := ⟨[], fun _ => none⟩

def isSelected (s : SelectedCellsMap) (row columnIndex : Int) : Bool :=
  if columnIndex < 0 then (s.selectedCellBitSetMap row).isSome
  else decide (columnIndex.toNat ∈ (s.selectedCellBitSetMap row).getD ∅)

inductive Call where
  | add (tp : TablePosition)
  | addAll (cells : List TablePosition)
  | setAll (cells : List TablePosition)
  | remove (tp : TablePosition)
  | clear

def call (isCellSelectionEnabled : Bool) (s : SelectedCellsMap) : Call → SelectedCellsMap
  | .add tp => s.add isCellSelectionEnabled tp
  | .addAll cells => s.addAll cells
  | .setAll cells => s.setAll cells
  | .remove tp => s.remove tp
  | .clear => s.clear

/-- A cell is selected exactly when it is listed, and a row when a position in it is. -/
def Agree (s : SelectedCellsMap) : Prop :=
  ∀ row : Int,
    (∀ column : Int, 0 ≤ column →
      (s.isSelected row column = true ↔ ⟨row, column⟩ ∈ s.selectedCells)) ∧
    (s.isSelected row (-1) = true ↔ ∃ tp ∈ s.selectedCells, tp.row = row)

def Removable (s : SelectedCellsMap) (tp : TablePosition) : Prop :=
  (0 ≤ tp.column → s.selectedCells.count tp ≤ 1) ∧
    ((∃ other ∈ s.selectedCells.erase tp, other.row = tp.row) →
      ∃ cell ∈ s.selectedCells.erase tp, cell.row = tp.row ∧ 0 ≤ cell.column)

def Allowed (s : SelectedCellsMap) : Call → Prop
  | .remove tp => s.Removable tp
  | .add _ | .addAll _ | .setAll _ | .clear => True

structure Marks (map : Int → Option (Finset Nat)) (cells : List TablePosition) : Prop where
  column (row : Int) (n : Nat) : n ∈ (map row).getD ∅ ↔ ⟨row, n⟩ ∈ cells
  row (row : Int) : (map row).isSome ↔ ∃ tp ∈ cells, tp.row = row

theorem isSelected_natCast (s : SelectedCellsMap) (row : Int) (n : Nat) :
    s.isSelected row n = true ↔ n ∈ (s.selectedCellBitSetMap row).getD ∅ := by
  simp [isSelected]

theorem agree_iff_marks {s : SelectedCellsMap} :
    s.Agree ↔ Marks s.selectedCellBitSetMap s.selectedCells := by
  constructor
  · intro h
    refine ⟨?_, ?_⟩
    · intro row n
      rw [← isSelected_natCast]
      exact (h row).1 n (Int.natCast_nonneg n)
    · intro row
      have hrow := (h row).2
      simpa [isSelected] using hrow
  · intro h row
    refine ⟨?_, ?_⟩
    · intro column hcol
      lift column to Nat using hcol
      rw [isSelected_natCast]
      exact h.column row column
    · simpa [isSelected] using h.row row

section

variable {map : Int → Option (Finset Nat)} {cells : List TablePosition} {tp : TablePosition}

theorem marks_nil : Marks (fun _ => none) [] := by
  constructor <;> simp

theorem Marks.withRow (h : Marks map cells) (hrow : ∃ other ∈ cells, other.row = tp.row) :
    Marks (Function.update map tp.row (some ((map tp.row).getD ∅))) cells := by
  have hsome : (map tp.row).isSome := (h.row tp.row).mpr hrow
  have hsame : Function.update map tp.row (some ((map tp.row).getD ∅)) = map := by
    rcases Option.isSome_iff_exists.mp hsome with ⟨bitset, hbitset⟩
    rw [hbitset, Option.getD_some, ← hbitset]
    exact Function.update_eq_self tp.row map
  rw [hsame]
  exact h

theorem mem_mark (row : Int) (n : Nat) :
    n ∈ (mark map tp row).getD ∅ ↔ n ∈ (map row).getD ∅ ∨ tp = ⟨row, n⟩ := by
  rcases tp with ⟨r, c⟩
  by_cases hrow : row = r
  · subst hrow
    simp only [mark, Function.update_self, Option.getD_some, TablePosition.mk.injEq, true_and]
    split
    · have hcol : n = c.toNat ↔ c = n := by omega
      rw [Finset.mem_insert, hcol, or_comm]
    · have hne : c ≠ n := by omega
      simp [hne]
  · simp [mark, hrow, Ne.symm hrow]

theorem isSome_mark (row : Int) : (mark map tp row).isSome ↔ (map row).isSome ∨ tp.row = row := by
  by_cases hrow : row = tp.row
  · subst hrow
    simp [mark]
  · simp [mark, hrow, Ne.symm hrow]

theorem Marks.mark (h : Marks map cells) : Marks (mark map tp) (cells ++ [tp]) := by
  constructor
  · intro row n
    rw [mem_mark, h.column row n, mem_append, mem_singleton, @eq_comm _ tp]
  · intro row
    rw [isSome_mark, h.row row]
    simp

theorem Marks.foldl_mark (h : Marks map cells) (added : List TablePosition) :
    Marks (added.foldl SelectedCellsMap.mark map) (cells ++ added) := by
  induction added generalizing map cells with
  | nil => simpa using h
  | cons tp added ih => simpa using ih h.mark

end

section

variable {s : SelectedCellsMap} {tp : TablePosition}

theorem agree_new : new.Agree := agree_iff_marks.mpr marks_nil

theorem Agree.add (h : s.Agree) (isCellSelectionEnabled : Bool) :
    (s.add isCellSelectionEnabled tp).Agree := by
  have hmarks := agree_iff_marks.mp h
  have hadded : Agree ⟨s.selectedCells ++ [tp], mark s.selectedCellBitSetMap tp⟩ :=
    agree_iff_marks.mpr hmarks.mark
  have hwithRow (hrow : ∃ other ∈ s.selectedCells, other.row = tp.row) :
      Agree ⟨s.selectedCells, Function.update s.selectedCellBitSetMap tp.row
        (some ((s.selectedCellBitSetMap tp.row).getD ∅))⟩ :=
    agree_iff_marks.mpr (hmarks.withRow hrow)
  simp only [SelectedCellsMap.add]
  split_ifs with _ hcol hset hlisted hnew
  · apply hwithRow
    exact ⟨_, (hmarks.column tp.row tp.column.toNat).mp hset, rfl⟩
  · exact hadded
  · exact hwithRow ⟨tp, hlisted, rfl⟩
  · exact hadded
  · exact hadded
  · apply hwithRow
    rw [← hmarks.row, Option.isSome_iff_ne_none]
    simpa using hnew

theorem Agree.addAll (h : s.Agree) (cells : List TablePosition) : (s.addAll cells).Agree :=
  agree_iff_marks.mpr ((agree_iff_marks.mp h).foldl_mark cells)

theorem agree_setAll (s : SelectedCellsMap) (cells : List TablePosition) : (s.setAll cells).Agree :=
  agree_iff_marks.mpr (marks_nil.foldl_mark cells)

def rest (s : SelectedCellsMap) (tp : TablePosition) : Finset Nat :=
  let bitset := (s.selectedCellBitSetMap tp.row).getD ∅
  if 0 ≤ tp.column then bitset.erase tp.column.toNat else bitset

theorem mem_rest (n : Nat) :
    n ∈ s.rest tp ↔ n ∈ (s.selectedCellBitSetMap tp.row).getD ∅ ∧ tp.column ≠ n := by
  simp only [rest]
  split
  · have hcol : n ≠ tp.column.toNat ↔ tp.column ≠ n := by omega
    rw [Finset.mem_erase, hcol, and_comm]
  · have hcol : tp.column ≠ n := by omega
    simp [hcol]

theorem remove_row (s : SelectedCellsMap) (tp : TablePosition) :
    (s.remove tp).selectedCellBitSetMap tp.row =
      if s.rest tp = ∅ then none else some (s.rest tp) := by
  rcases hbits : s.selectedCellBitSetMap tp.row with _ | bitset
  · simp [remove, rest, hbits]
  · simp [remove, rest, hbits]

theorem remove_of_ne {row : Int} (hrow : row ≠ tp.row) :
    (s.remove tp).selectedCellBitSetMap row = s.selectedCellBitSetMap row := by
  rcases hbits : s.selectedCellBitSetMap tp.row with _ | bitset
  · simp [remove, hbits]
  · simp [remove, hbits, hrow]

theorem getD_remove (s : SelectedCellsMap) (tp : TablePosition) :
    ((s.remove tp).selectedCellBitSetMap tp.row).getD ∅ = s.rest tp := by
  rw [remove_row]
  split
  · rename_i hemp
    simp [hemp]
  · rfl

theorem isSome_remove (s : SelectedCellsMap) (tp : TablePosition) :
    ((s.remove tp).selectedCellBitSetMap tp.row).isSome ↔ ∃ n, n ∈ s.rest tp := by
  rw [remove_row]
  split
  · rename_i hemp
    simp [hemp]
  · rename_i hne
    exact iff_of_true rfl (Finset.nonempty_iff_ne_empty.mpr hne)

theorem Marks.mem_rest_iff (h : Marks s.selectedCellBitSetMap s.selectedCells)
    (honce : 0 ≤ tp.column → s.selectedCells.count tp ≤ 1) (n : Nat) :
    n ∈ s.rest tp ↔ ⟨tp.row, n⟩ ∈ s.selectedCells.erase tp := by
  rw [mem_rest, h.column]
  by_cases hsame : tp = ⟨tp.row, n⟩
  · have hcol : tp.column = n := by rw [hsame]
    have hgone : tp ∉ s.selectedCells.erase tp := by
      rw [← count_eq_zero, count_erase_self]
      omega
    rw [← hsame]
    exact iff_of_false (fun hmem => hmem.2 hcol) hgone
  · have hcol : tp.column ≠ n := fun hn => hsame (by rw [← hn])
    rw [mem_erase_of_ne (Ne.symm hsame), and_iff_left hcol]

theorem mem_erase_of_row_ne {cells : List TablePosition} {other : TablePosition}
    (hrow : other.row ≠ tp.row) : other ∈ cells.erase tp ↔ other ∈ cells :=
  mem_erase_of_ne (fun hsame => hrow (by rw [hsame]))

theorem exists_cell_iff {cells : List TablePosition} {row : Int} :
    (∃ cell ∈ cells, cell.row = row ∧ 0 ≤ cell.column) ↔ ∃ n : Nat, ⟨row, n⟩ ∈ cells := by
  constructor
  · rintro ⟨⟨r, c⟩, hmem, rfl, hcol⟩
    lift c to Nat using hcol
    exact ⟨c, hmem⟩
  · rintro ⟨n, hmem⟩
    exact ⟨_, hmem, rfl, Int.natCast_nonneg n⟩

theorem Agree.remove (h : s.Agree) (hremovable : s.Removable tp) : (s.remove tp).Agree := by
  have hmarks := agree_iff_marks.mp h
  have hrest := hmarks.mem_rest_iff hremovable.1
  apply agree_iff_marks.mpr
  constructor
  · intro row n
    by_cases hrow : row = tp.row
    · subst hrow
      rw [getD_remove]
      exact hrest n
    · rw [remove_of_ne hrow, hmarks.column]
      exact (mem_erase_of_row_ne hrow).symm
  · intro row
    by_cases hrow : row = tp.row
    · subst hrow
      rw [isSome_remove]
      constructor
      · rintro ⟨n, hn⟩
        exact ⟨_, (hrest n).mp hn, rfl⟩
      · intro hother
        rcases exists_cell_iff.mp (hremovable.2 hother) with ⟨n, hn⟩
        exact ⟨n, (hrest n).mpr hn⟩
    · rw [remove_of_ne hrow, hmarks.row]
      constructor
      · rintro ⟨other, hmem, rfl⟩
        exact ⟨other, (mem_erase_of_row_ne hrow).mpr hmem, rfl⟩
      · rintro ⟨other, hmem, rfl⟩
        exact ⟨other, (mem_erase_of_row_ne hrow).mp hmem, rfl⟩

theorem removable_of_agree (hafter : (s.remove tp).Agree) : s.Removable tp := by
  have hmarks := agree_iff_marks.mp hafter
  constructor
  · intro hcol
    by_contra hcnt
    have hlisted : tp ∈ s.selectedCells.erase tp := by
      rw [← count_pos_iff, count_erase_self]
      omega
    have hsame : tp = ⟨tp.row, tp.column.toNat⟩ := by
      rw [Int.toNat_of_nonneg hcol]
    have hset : tp.column.toNat ∈ s.rest tp := by
      rw [← getD_remove, hmarks.column, ← hsame]
      exact hlisted
    exact ((mem_rest _).mp hset).2 (Int.toNat_of_nonneg hcol).symm
  · intro hother
    rcases (isSome_remove s tp).mp ((hmarks.row tp.row).mpr hother) with ⟨n, hn⟩
    apply exists_cell_iff.mpr
    refine ⟨n, ?_⟩
    rw [← getD_remove, hmarks.column] at hn
    exact hn

theorem agree_call_iff (isCellSelectionEnabled : Bool) (c : Call) (h : s.Agree) :
    (s.call isCellSelectionEnabled c).Agree ↔ s.Allowed c := by
  cases c with
  | add tp => exact iff_of_true (h.add isCellSelectionEnabled) trivial
  | addAll cells => exact iff_of_true (h.addAll cells) trivial
  | setAll cells => exact iff_of_true (agree_setAll s cells) trivial
  | remove tp => exact ⟨removable_of_agree, h.remove⟩
  | clear => exact iff_of_true agree_new trivial

end

/-- The list and the map agree after each call of a run exactly when every removal of the run is
of a cell listed at most once, and leaves a cell in its row if it leaves any position there. -/
theorem agree_along_iff (isCellSelectionEnabled : Bool) (calls : List Call) :
    (∀ before, before <+: calls → Agree (before.foldl (call isCellSelectionEnabled) new)) ↔
      EachStep (fun s c => some (s.call isCellSelectionEnabled c)) Allowed new calls :=
  holds_along_iff (fun _ c h => agree_call_iff isCellSelectionEnabled c h) calls new agree_new

theorem row_lost : ¬∀ (isCellSelectionEnabled : Bool) (calls : List Call) (before : List Call),
    before <+: calls → Agree (before.foldl (call isCellSelectionEnabled) new) := by
  intro h
  have hrow := (h true [.add ⟨0, -1⟩, .add ⟨0, 3⟩, .remove ⟨0, 3⟩] _ prefix_rfl 0).2
  have hselected := hrow.mpr ⟨⟨0, -1⟩, by decide, rfl⟩
  revert hselected
  decide

end SelectedCellsMap

end OpenJfx.Control
