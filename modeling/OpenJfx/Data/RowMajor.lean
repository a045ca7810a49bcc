import Mathlib.Data.List.Basic

namespace OpenJfx.Data.RowMajor

open List

variable {α : Type} {w height : Nat}

theorem mul_add_le_mul {a b x : Nat} (hab : a < b) (hx : x ≤ w) :
    a * w + x ≤ b * w := by
  have hmul := Nat.mul_le_mul_right w (Nat.succ_le_of_lt hab)
  rw [Nat.succ_mul] at hmul
  omega

theorem mul_add_lt_mul {a b x : Nat} (hab : a < b) (hx : x < w) :
    a * w + x < b * w := by
  have hmul := mul_add_le_mul hab (Nat.succ_le_of_lt hx)
  omega

theorem div_eq {y x : Nat} (hx : x < w) : (y * w + x) / w = y := by
  rw [Nat.add_comm, Nat.add_mul_div_right _ _ (by omega), Nat.div_eq_of_lt hx, Nat.zero_add]

theorem mod_eq {y x : Nat} (hx : x < w) : (y * w + x) % w = x := by
  rw [Nat.add_comm, Nat.add_mul_mod_self_right, Nat.mod_eq_of_lt hx]

theorem place_inj {y x y' x' : Nat} (hx : x < w) (hx' : x' < w) :
    y * w + x = y' * w + x' ↔ y = y' ∧ x = x' := by
  constructor
  · intro h
    have hdiv := congrArg (· / w) h
    have hmod := congrArg (· % w) h
    simp only [div_eq hx, div_eq hx', mod_eq hx, mod_eq hx'] at hdiv hmod
    exact ⟨hdiv, hmod⟩
  · rintro ⟨rfl, rfl⟩
    rfl

/-- The lines from below are those from above in the opposite order. -/
structure Mirrored (width height : Nat) (below above : List α) : Prop where
  length_below : below.length = height * width
  length_above : above.length = height * width
  rows : ∀ y < height, ∀ x < width,
    below[(height - 1 - y) * width + x]? = above[y * width + x]?

theorem Mirrored.replicate (value : α) :
    Mirrored w height (List.replicate (height * w) value)
      (List.replicate (height * w) value) where
  length_below := length_replicate
  length_above := length_replicate
  rows := by
    intro y hy x hx
    have habove := mul_add_lt_mul hy hx
    have hbelow := mul_add_lt_mul (a := height - 1 - y) (b := height) (by omega) hx
    rw [getElem?_replicate, getElem?_replicate, if_pos hbelow, if_pos habove]

theorem Mirrored.set {below above : List α} (h : Mirrored w height below above) {y x : Nat}
    (hy : y < height) (hx : x < w) (value : α) :
    Mirrored w height (below.set ((height - 1 - y) * w + x) value)
      (above.set (y * w + x) value) where
  length_below := by rw [length_set, h.length_below]
  length_above := by rw [length_set, h.length_above]
  rows := by
    intro y' hy' x' hx'
    have habove := mul_add_lt_mul hy hx
    have hbelow := mul_add_lt_mul (a := height - 1 - y) (b := height) (by omega) hx
    have hrow : height - 1 - y = height - 1 - y' ↔ y = y' := by omega
    rw [getElem?_set, getElem?_set, h.length_below, h.length_above, if_pos hbelow,
      if_pos habove, h.rows y' hy' x' hx']
    simp only [place_inj hx hx', hrow]

end OpenJfx.Data.RowMajor
