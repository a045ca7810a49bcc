import Mathlib.Data.List.Basic

namespace OpenJfx.Data

variable {α : Type}

/-- `depth i` is where position `i` is on the path, and the chain starts at the bottom of
the path with position `k`. `step i rest gap` says whether the entry `gap` above the
first entry of `rest`, where position `i + 1` is, may take position `i`. -/
structure IsChain (step : Nat → List α → Nat → Prop) (fits : Nat → α → Prop) (path : List α)
    (k : Nat) (depth : Nat → Nat) : Prop where
  start : depth k = 0
  up : ∀ i, i < k → depth (i + 1) < depth i ∧
    step i (path.drop (depth (i + 1))) (depth i - depth (i + 1))
  fit : ∀ i, i ≤ k → ∃ a, path[depth i]? = some a ∧ fits i a

def HasChain (step : Nat → List α → Nat → Prop) (fits : Nat → α → Prop) (path : List α)
    (k : Nat) : Prop :=
  ∃ depth, IsChain step fits path k depth

variable {step step' : Nat → List α → Nat → Prop} {fits fits' : Nat → α → Prop} {path : List α}
  {k : Nat}

theorem HasChain.imp (h : HasChain step fits path k)
    (hstep : ∀ i rest gap, i < k → step i rest gap → step' i rest gap)
    (hfits : ∀ i a, i ≤ k → fits i a → fits' i a) : HasChain step' fits' path k := by
  rcases h with ⟨depth, hstart, hup, hfit⟩
  refine ⟨depth, hstart, fun i hi => ⟨(hup i hi).1, hstep _ _ _ hi (hup i hi).2⟩, fun i hi => ?_⟩
  rcases hfit i hi with ⟨a, ha, hfits'⟩
  exact ⟨a, ha, hfits i a hi hfits'⟩

theorem IsChain.depth_le {depth : Nat → Nat} (h : IsChain step fits path k depth) {i j : Nat}
    (hij : i ≤ j) (hj : j ≤ k) : depth j ≤ depth i := by
  induction j with
  | zero =>
    obtain rfl := Nat.le_zero.mp hij
    exact Nat.le_refl _
  | succ j ih =>
    rcases Nat.lt_or_eq_of_le hij with hlt | rfl
    · have hup := (h.up j hj).1
      exact Nat.le_trans (Nat.le_of_lt hup) (ih (Nat.lt_succ_iff.mp hlt) (by omega))
    · exact Nat.le_refl _

theorem hasChain_zero : HasChain step fits path 0 ↔ ∃ a, path[0]? = some a ∧ fits 0 a := by
  constructor
  · rintro ⟨depth, hstart, -, hfit⟩
    have hzero := hfit 0 (Nat.le_refl 0)
    rwa [hstart] at hzero
  · intro h
    refine ⟨fun _ => 0, rfl, fun i hi => absurd hi (Nat.not_lt_zero i), fun i hi => ?_⟩
    rw [Nat.le_zero.mp hi]
    exact h

theorem hasChain_succ : HasChain step fits path (k + 1) ↔
    (∃ a, path[0]? = some a ∧ fits (k + 1) a) ∧
      ∃ gap, 0 < gap ∧ step k path gap ∧ HasChain step fits (path.drop gap) k := by
  constructor
  · rintro ⟨depth, h⟩
    have hup := h.up k (Nat.lt_succ_self k)
    have hfit := h.fit (k + 1) (Nat.le_refl _)
    rw [h.start] at hup hfit
    refine ⟨hfit, depth k, hup.1, hup.2, fun i => depth i - depth k, Nat.sub_self _, ?_, ?_⟩
    · intro i hi
      have hle : depth k ≤ depth (i + 1) := h.depth_le hi (Nat.le_succ k)
      have hi' := h.up i (by omega)
      refine ⟨by omega, ?_⟩
      rw [List.drop_drop, Nat.add_sub_cancel' hle, Nat.sub_sub_sub_cancel_right hle]
      exact hi'.2
    · intro i hi
      have hle := h.depth_le hi (Nat.le_succ k)
      rw [List.getElem?_drop, Nat.add_sub_cancel' hle]
      exact h.fit i (by omega)
  · rintro ⟨hfit, gap, hpos, hstep, depth, h⟩
    refine ⟨fun i => if i = k + 1 then 0 else depth i + gap, if_pos rfl, ?_, ?_⟩
    · intro i hi
      simp only [Nat.ne_of_lt hi, if_false, Nat.add_right_cancel_iff]
      by_cases hik : i = k
      · subst hik
        rw [h.start]
        simpa using ⟨hpos, hstep⟩
      · have hi' := h.up i (by omega)
        rw [List.drop_drop] at hi'
        rw [if_neg hik, Nat.add_sub_add_right, Nat.add_comm (depth (i + 1))]
        exact ⟨by omega, hi'.2⟩
    · intro i hi
      by_cases hik : i = k + 1
      · subst hik
        rw [if_pos rfl]
        exact hfit
      · rw [if_neg hik, Nat.add_comm, ← List.getElem?_drop]
        exact h.fit i (by omega)

end OpenJfx.Data
