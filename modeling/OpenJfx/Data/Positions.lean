import Mathlib.Data.List.Perm.Basic
import Mathlib.Order.Basic

namespace OpenJfx.Data.Positions

open List

/-- The places at which the flag is set, in order. -/
def positions : Int → List Bool → List Int
  | _, [] => []
  | start, true :: flags => start :: positions (start + 1) flags
  | start, false :: flags => positions (start + 1) flags

@[simp] theorem positions_nil (start : Int) : positions start [] = [] := rfl

theorem positions_append (f g : List Bool) (start : Int) :
    positions start (f ++ g) = positions start f ++ positions (start + f.length) g := by
  induction f generalizing start with
  | nil => simp
  | cons b f ih =>
    have hstart : start + 1 + (f.length : Int) = start + ((b :: f).length : Int) := by
      simp only [length_cons]
      omega
    cases b <;> simp [positions, ih, hstart]

theorem mem_positions_iff {flags : List Bool} {start k : Int} :
    k ∈ positions start flags ↔ ∃ i : Nat, flags[i]? = some true ∧ k = start + i := by
  induction flags generalizing start with
  | nil => simp
  | cons b flags ih =>
    have htail : k ∈ positions (start + 1) flags ↔
        ∃ i : Nat, (b :: flags)[i + 1]? = some true ∧ k = start + ((i + 1 : Nat) : Int) := by
      rw [ih]
      refine exists_congr fun i => and_congr Iff.rfl ?_
      constructor <;> intro h <;> omega
    constructor
    · intro hk
      cases b with
      | true =>
        rcases mem_cons.mp hk with rfl | hk
        · exact ⟨0, rfl, by simp⟩
        · obtain ⟨i, hi⟩ := htail.mp hk
          exact ⟨i + 1, hi⟩
      | false =>
        obtain ⟨i, hi⟩ := htail.mp hk
        exact ⟨i + 1, hi⟩
    · rintro ⟨i, hi, rfl⟩
      cases i with
      | zero =>
        obtain rfl : b = true := by simpa using hi
        simp [positions]
      | succ i =>
        have := htail.mpr ⟨i, hi, rfl⟩
        cases b with
        | true => exact mem_cons_of_mem _ this
        | false => exact this

theorem bounds_of_mem_positions {flags : List Bool} {start k : Int}
    (h : k ∈ positions start flags) : start ≤ k ∧ k < start + flags.length := by
  obtain ⟨i, hi, rfl⟩ := mem_positions_iff.mp h
  have := (List.getElem?_eq_some_iff.mp hi).1
  omega

theorem pairwise_positions (flags : List Bool) (start : Int) :
    (positions start flags).Pairwise (· < ·) := by
  induction flags generalizing start with
  | nil => exact List.Pairwise.nil
  | cons b flags ih =>
    cases b with
    | false => exact ih (start + 1)
    | true =>
      refine pairwise_cons.mpr ⟨?_, ih (start + 1)⟩
      intro k hk
      have := bounds_of_mem_positions hk
      omega

theorem length_positions (flags : List Bool) (start : Int) :
    (positions start flags).length = flags.count true := by
  induction flags generalizing start with
  | nil => rfl
  | cons b flags ih =>
    cases b <;> simp [positions, ih]

variable {α : Type}

theorem length_positions_map (p : α → Bool) (l : List α) (start : Int) :
    (positions start (l.map p)).length = l.countP p := by
  rw [length_positions, count_eq_countP, countP_map]
  congr 1
  funext x
  simp

theorem length_positions_le (flags : List Bool) (start : Int) :
    (positions start flags).length ≤ flags.length := by
  rw [length_positions]
  exact count_le_length

theorem map_add_positions (flags : List Bool) (start delta : Int) :
    (positions start flags).map (· + delta) = positions (start + delta) flags := by
  induction flags generalizing start with
  | nil => rfl
  | cons b flags ih =>
    have hstart : start + 1 + delta = start + delta + 1 := by omega
    cases b <;> simp [positions, ih, hstart]

def select {α : Type} : List Bool → List α → List α
  | true :: flags, x :: l => x :: select flags l
  | false :: flags, _ :: l => select flags l
  | _, _ => []

theorem select_append {f : List Bool} {l : List α} (h : f.length = l.length) (g : List Bool)
    (m : List α) : select (f ++ g) (l ++ m) = select f l ++ select g m := by
  induction f generalizing l with
  | nil =>
    obtain rfl := length_eq_zero_iff.mp h.symm
    rfl
  | cons b f ih =>
    obtain ⟨x, l, rfl⟩ := exists_cons_of_length_eq_add_one h.symm
    rw [length_cons, length_cons, Nat.add_right_cancel_iff] at h
    cases b with
    | false => exact ih h
    | true => exact congrArg (x :: ·) (ih h)

theorem select_append_append {f g : List Bool} {l m : List α} (hf : f.length = l.length)
    (hg : g.length = m.length) (h : List Bool) (n : List α) :
    select (f ++ g ++ h) (l ++ m ++ n) = select f l ++ (select g m ++ select h n) := by
  rw [append_assoc, append_assoc, select_append hf, select_append hg]

theorem length_select {f : List Bool} {l : List α} (h : f.length = l.length) :
    (select f l).length = f.count true := by
  induction f generalizing l with
  | nil => cases l <;> rfl
  | cons b f ih =>
    obtain ⟨x, l, rfl⟩ := exists_cons_of_length_eq_add_one h.symm
    rw [length_cons, length_cons, Nat.add_right_cancel_iff] at h
    cases b with
    | false | true => simpa [select] using ih h

theorem select_map (p : α → Bool) (l : List α) : select (l.map p) l = l.filter p := by
  induction l with
  | nil => rfl
  | cons x l ih =>
    rw [map_cons, filter_cons]
    cases p x with
    | false => exact ih
    | true => exact congrArg (x :: ·) ih

theorem eq_of_mem_iff {l l' : List Int} (h : l.Pairwise (· < ·)) (h' : l'.Pairwise (· < ·))
    (hmem : ∀ k, k ∈ l ↔ k ∈ l') : l = l' := by
  have hnd : ∀ {l : List Int}, l.Pairwise (· < ·) → l.Nodup :=
    fun h => h.imp fun hlt => Int.ne_of_lt hlt
  have hperm : l.Perm l' := (perm_ext_iff_of_nodup (hnd h) (hnd h')).mpr hmem
  exact hperm.eq_of_pairwise (fun a b _ _ hab hba => absurd hba (by omega)) h h'

end OpenJfx.Data.Positions
