import Mathlib.Data.List.Infix

namespace OpenJfx.Java.BinarySearch

inductive SearchResult
  | found (index : Nat)
  | insertAt (index : Nat)

/-- The loop on the window `[low, high)`. The probe tells on which side of the
key an entry lies: `lt` when it lies before it, `gt` when it lies after it. -/
def searchLoop (probe : Nat → Ordering) : Nat → Nat → Nat → SearchResult
  | 0, low, _ => .insertAt low
  | fuel + 1, low, high =>
    if low < high then
      let mid := (low + (high - 1)) / 2
      match probe mid with
      | .lt => searchLoop probe fuel (mid + 1) high
      | .gt => searchLoop probe fuel low mid
      | .eq => .found mid
    else .insertAt low

/-- Search the entries `0, ..., size - 1`. Every round shrinks the window, so
`size` rounds are enough. -/
def binarySearch (probe : Nat → Ordering) (size : Nat) : SearchResult :=
  searchLoop probe size 0 size

/-- The entries that lie before the key come first, those after it last. -/
def Ordered (probe : Nat → Ordering) (size : Nat) : Prop :=
  ∀ i j, i ≤ j → j < size →
    (probe j = .lt → probe i = .lt) ∧ (probe i = .gt → probe j = .gt)

/-- A result is within bounds, and a hit really matches. -/
def SearchResult.InRange (probe : Nat → Ordering) (size : Nat) : SearchResult → Prop
  | .found index => index < size ∧ probe index = .eq
  | .insertAt index => index ≤ size

/-- An insertion point separates the entries before the key from those after it. -/
def SearchResult.Splits (probe : Nat → Ordering) (size : Nat) : SearchResult → Prop
  | .found _ => True
  | .insertAt index =>
    (∀ i, i < index → probe i = .lt) ∧ ∀ i, index ≤ i → i < size → probe i = .gt

theorem searchLoop_inRange (probe : Nat → Ordering) (size : Nat) :
    ∀ fuel low high, low ≤ high → high ≤ size →
      (searchLoop probe fuel low high).InRange probe size := by
  intro fuel
  induction fuel with
  | zero =>
    intro low high hlow hhigh
    exact Nat.le_trans hlow hhigh
  | succ fuel ih =>
    intro low high hlow hhigh
    rw [searchLoop]
    by_cases hlt : low < high
    · rw [if_pos hlt]
      cases hprobe : probe ((low + (high - 1)) / 2) with
      | lt =>
        simp only [hprobe]
        exact ih _ _ (by omega) hhigh
      | gt =>
        simp only [hprobe]
        exact ih _ _ (by omega) (by omega)
      | eq =>
        simp only [hprobe]
        exact ⟨by omega, hprobe⟩
    · rw [if_neg hlt]
      exact Nat.le_trans hlow hhigh

theorem searchLoop_splits (probe : Nat → Ordering) (size : Nat) (hord : Ordered probe size) :
    ∀ fuel low high, low ≤ high → high ≤ size → high - low ≤ fuel →
      (∀ i, i < low → probe i = .lt) → (∀ i, high ≤ i → i < size → probe i = .gt) →
      (searchLoop probe fuel low high).Splits probe size := by
  intro fuel
  induction fuel with
  | zero =>
    intro low high hlow hhigh hfuel hbef hafter
    exact ⟨hbef, fun i hi hsize => hafter i (by omega) hsize⟩
  | succ fuel ih =>
    intro low high hlow hhigh hfuel hbef hafter
    rw [searchLoop]
    by_cases hlt : low < high
    · rw [if_pos hlt]
      cases hprobe : probe ((low + (high - 1)) / 2) with
      | lt =>
        simp only [hprobe]
        refine ih _ _ (by omega) hhigh (by omega) ?_ hafter
        intro i hi
        exact (hord i _ (by omega) (by omega)).1 hprobe
      | gt =>
        simp only [hprobe]
        refine ih _ _ (by omega) (by omega) (by omega) hbef ?_
        intro i hi hsize
        exact (hord _ i hi hsize).2 hprobe
      | eq =>
        simp only [hprobe]
        trivial
    · rw [if_neg hlt]
      exact ⟨hbef, fun i hi hsize => hafter i (by omega) hsize⟩

theorem binarySearch_inRange (probe : Nat → Ordering) (size : Nat) :
    (binarySearch probe size).InRange probe size :=
  searchLoop_inRange probe size size 0 size (Nat.zero_le _) (Nat.le_refl _)

theorem binarySearch_splits (probe : Nat → Ordering) (size : Nat) (hord : Ordered probe size) :
    (binarySearch probe size).Splits probe size :=
  searchLoop_splits probe size hord size 0 size (Nat.zero_le _) (Nat.le_refl _) (by omega)
    (fun i hi => absurd hi (Nat.not_lt_zero i)) (fun i hi hsize => absurd hi (by omega))

end OpenJfx.Java.BinarySearch
