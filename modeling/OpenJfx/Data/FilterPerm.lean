import Mathlib.Data.List.Perm.Basic
import Mathlib.Data.List.Nodup

namespace OpenJfx.Data

open List

variable {α K : Type}

theorem filter_append_filter_perm {p q : α → Bool} {l : List α}
    (h : ∀ x ∈ l, p x = true → q x = false) :
    (l.filter p ++ l.filter q).Perm (l.filter fun x => p x || q x) := by
  induction l with
  | nil => exact .nil
  | cons x l ih =>
    have ih := ih fun y hy => h y (mem_cons_of_mem x hy)
    cases hp : p x with
    | true =>
      have hq := h x mem_cons_self hp
      simp only [filter_cons, hp, hq]
      exact ih.cons x
    | false =>
      cases hq : q x with
      | true =>
        simp only [filter_cons, hp, hq]
        exact perm_middle.trans (ih.cons x)
      | false =>
        simpa only [filter_cons, hp, hq, Bool.false_or, Bool.false_eq_true, if_false]
          using ih

theorem flatMap_filter_perm [DecidableEq K] (f : α → Option K) (l : List α) {keys : List K}
    (hkeys : keys.Nodup) :
    (keys.flatMap fun k => l.filter fun x => f x = some k).Perm
      (l.filter fun x => f x ∈ keys.map some) := by
  induction keys with
  | nil => simp
  | cons k keys ih =>
    rw [nodup_cons] at hkeys
    have hsplit : ∀ x, (decide (f x = some k) || decide (f x ∈ keys.map some)) =
        decide (f x ∈ (k :: keys).map some) := by
      intro x
      rw [map_cons, ← Bool.decide_or]
      simp only [mem_cons]
    have happend := filter_append_filter_perm (p := fun x => decide (f x = some k))
      (q := fun x => decide (f x ∈ keys.map some)) (l := l) fun x _ hx => by
        rw [decide_eq_true_eq] at hx
        simp [hx, hkeys.1]
    simp only [hsplit] at happend
    exact ((ih hkeys.2).append_left _).trans happend

end OpenJfx.Data
