import Mathlib.Data.List.Basic

namespace OpenJfx.Data

open List

/-- `root` gives the root that an index leads to, and `height` grows on the way to it. -/
structure RootMap (map : List Nat) (root height : Nat → Nat) (bound : Nat) : Prop where
  next (a : Nat) (h : a < map.length) : ∃ b, map[a]? = some b ∧ b < map.length ∧
    root b = root a ∧ (b ≠ a → height a < height b)
  root_lt (a : Nat) (h : a < map.length) : root a < map.length
  isRoot (a : Nat) (h : a < map.length) : map[root a]? = some (root a)
  root_self (a : Nat) (h : map[a]? = some a) : root a = a
  height_le (a : Nat) (h : a < map.length) : height a ≤ bound

namespace RootMap

variable {map : List Nat} {root height : Nat → Nat} {bound : Nat}

theorem range (n : Nat) : RootMap (List.range n) id (fun _ => 0) 0 := by
  constructor
  · intro a h
    rw [length_range] at h
    exact ⟨a, by simp [h], by simpa using h, rfl, fun hne => absurd rfl hne⟩
  · intro a h
    exact h
  · intro a h
    rw [length_range] at h
    simp [h]
  · intro a _
    rfl
  · intro a _
    exact Nat.le_refl 0

theorem mono (h : RootMap map root height bound) {bound' : Nat} (hle : bound ≤ bound') :
    RootMap map root height bound' :=
  ⟨h.next, h.root_lt, h.isRoot, h.root_self, fun a ha => Nat.le_trans (h.height_le a ha) hle⟩

theorem lt_of_isRoot {a : Nat} (h : map[a]? = some a) : a < map.length := by
  rcases List.getElem?_eq_some_iff.mp h with ⟨hlt, -⟩
  exact hlt

theorem set (h : RootMap map root height bound) {a b : Nat} (ha : map[a]? = some a)
    (hb : map[b]? = some b) (hne : a ≠ b) :
    RootMap (map.set b a) (fun c => if root c = b then a else root c)
      (Function.update height a (max (height a) (height b + 1))) (bound + 1) := by
  have haLt := lt_of_isRoot ha
  have hbLt := lt_of_isRoot hb
  have hrootA := h.root_self a ha
  have hrootB := h.root_self b hb
  have hset : ∀ c, c ≠ b → (map.set b a)[c]? = map[c]? := fun c hc =>
    getElem?_set_ne (Ne.symm hc)
  have hsetB : (map.set b a)[b]? = some a := getElem?_set_self hbLt
  constructor
  · intro c hc
    rw [length_set] at hc ⊢
    by_cases hcb : c = b
    · subst hcb
      refine ⟨a, hsetB, haLt, ?_, ?_⟩
      · simp [hrootA, hrootB, hne]
      · intro _
        rw [Function.update_self, Function.update_of_ne (Ne.symm hne)]
        exact Nat.lt_of_lt_of_le (Nat.lt_succ_self _) (Nat.le_max_right _ _)
    · rcases h.next c hc with ⟨d, hd, hdLt, hroot, hht⟩
      refine ⟨d, (hset c hcb).trans hd, hdLt, ?_, ?_⟩
      · simp only [hroot]
      · intro hdc
        have hlt := hht hdc
        have hca : c ≠ a := by
          rintro rfl
          rw [ha, Option.some.injEq] at hd
          exact hdc hd.symm
        rw [Function.update_of_ne hca]
        by_cases hda : d = a
        · subst hda
          rw [Function.update_self]
          exact Nat.lt_of_lt_of_le hlt (Nat.le_max_left _ _)
        · rw [Function.update_of_ne hda]
          exact hlt
  · intro c hc
    rw [length_set] at hc ⊢
    split
    · exact haLt
    · exact h.root_lt c hc
  · intro c hc
    rw [length_set] at hc
    split
    · rw [hset a hne]
      exact ha
    · rename_i hcb
      rw [hset _ hcb]
      exact h.isRoot c hc
  · intro c hc
    by_cases hcb : c = b
    · rw [hcb, hsetB, Option.some.injEq] at hc
      exact absurd hc hne
    · rw [hset c hcb] at hc
      have hroot := h.root_self c hc
      simp [hroot, hcb]
  · intro c hc
    rw [length_set] at hc
    by_cases hca : c = a
    · subst hca
      rw [Function.update_self]
      have hle := h.height_le c hc
      have hle' := h.height_le b hbLt
      omega
    · rw [Function.update_of_ne hca]
      exact Nat.le_succ_of_le (h.height_le c hc)

end RootMap

end OpenJfx.Data
