import Mathlib.Data.List.Basic

namespace OpenJfx.Data

open List

variable {O E : Type}

/-- Lists with owners, and pointers from the elements back to the owners of their lists. -/
structure Ownership (O E : Type) where
  lists : O → List E
  owner : E → Option O

namespace Ownership

structure Consistent (w : Ownership O E) : Prop where
  listed : ∀ o, ∀ e ∈ w.lists o, w.owner e = some o
  unlisted : ∀ e, (∀ o, e ∉ w.lists o) → w.owner e = none

variable {w : Ownership O E}

theorem consistent_iff :
    w.Consistent ↔ ∀ e o, w.owner e = some o ↔ e ∈ w.lists o := by
  constructor
  · intro h e o
    refine ⟨fun howner => ?_, h.listed o e⟩
    by_contra hmem
    have hnone : w.owner e = none := by
      refine h.unlisted e fun o' hmem' => hmem ?_
      have hsome := h.listed o' e hmem'
      rw [howner, Option.some.injEq] at hsome
      exact hsome ▸ hmem'
    rw [howner] at hnone
    cases hnone
  · intro h
    refine ⟨fun o e hmem => (h e o).mpr hmem, fun e hmem => ?_⟩
    cases howner : w.owner e with
    | none => rfl
    | some o => exact absurd ((h e o).mp howner) (hmem o)

variable [DecidableEq O]

def relist (w : Ownership O E) (o : O) (list : List E) (owner : E → Option O) : Ownership O E :=
  ⟨Function.update w.lists o list, owner⟩

theorem relist_lists_self (w : Ownership O E) (o : O) (list : List E) (owner : E → Option O) :
    (w.relist o list owner).lists o = list :=
  Function.update_self ..

theorem relist_lists_of_ne (w : Ownership O E) {o o' : O} (h : o' ≠ o) (list : List E)
    (owner : E → Option O) : (w.relist o list owner).lists o' = w.lists o' :=
  Function.update_of_ne h ..

theorem relist_consistent_iff (h : w.Consistent) (o : O) (list : List E) :
    (w.relist o list w.owner).Consistent ↔ ∀ e, e ∈ list ↔ e ∈ w.lists o := by
  rw [consistent_iff] at h ⊢
  constructor
  · intro h' e
    have howner := h' e o
    rw [relist_lists_self] at howner
    exact howner.symm.trans (h e o)
  · intro hlist e o'
    by_cases ho : o' = o
    · subst ho
      rw [relist_lists_self, hlist]
      exact h e o'
    · rw [relist_lists_of_ne w ho]
      exact h e o'

variable [DecidableEq E]

def claim (o : O) (added : List E) (owner : E → Option O) (e : E) : Option O :=
  if e ∈ added then some o else owner e

theorem claim_consistent_iff (h : w.Consistent) {o : O} {list added : List E}
    (hadded : ∀ e ∈ added, e ∈ list) (hlist : ∀ e ∈ list, e ∈ added ∨ e ∈ w.lists o) :
    (w.relist o list (claim o added w.owner)).Consistent ↔
      (∀ e ∈ added, ∀ o', o' ≠ o → e ∉ w.lists o') ∧ ∀ e ∈ w.lists o, e ∈ list := by
  rw [consistent_iff] at h ⊢
  constructor
  · intro h'
    constructor
    · intro e he o' ho hmem
      have hclaim := (h' e o').mpr ((relist_lists_of_ne w ho list _).symm ▸ hmem)
      change (if e ∈ added then some o else w.owner e) = some o' at hclaim
      rw [if_pos he, Option.some.injEq] at hclaim
      exact ho hclaim.symm
    · intro e hmem
      rw [← relist_lists_self w o list (claim o added w.owner), ← h']
      change (if e ∈ added then some o else w.owner e) = some o
      split
      · rfl
      · exact (h e o).mpr hmem
  · rintro ⟨hothers, hkept⟩ e o'
    change (if e ∈ added then some o else w.owner e) = some o' ↔ _
    by_cases ho : o' = o
    · subst ho
      rw [relist_lists_self]
      constructor
      · split
        · next he => exact fun _ => hadded e he
        · exact fun howner => hkept e ((h e o').mp howner)
      · intro hmem
        split
        · rfl
        · next he => exact (h e o').mpr ((hlist e hmem).resolve_left he)
    · rw [relist_lists_of_ne w ho]
      split
      · next he =>
          refine iff_of_false (fun hsome => ho ?_) (hothers e he o' ho)
          exact (Option.some.inj hsome).symm
      · exact h e o'

def release (o : O) (removed : List E) (owner : E → Option O) (e : E) : Option O :=
  if e ∈ removed ∧ owner e = some o then none else owner e

theorem release_consistent_iff (h : w.Consistent) {o : O} {list removed : List E}
    (hlist : ∀ e, e ∈ w.lists o ↔ e ∈ list ∨ e ∈ removed) :
    (w.relist o list (release o removed w.owner)).Consistent ↔ ∀ e ∈ removed, e ∉ list := by
  rw [consistent_iff] at h ⊢
  constructor
  · intro h' e he hmem
    have hrelease := (h' e o).mpr ((relist_lists_self w o list _).symm ▸ hmem)
    change (if e ∈ removed ∧ w.owner e = some o then none else w.owner e) = some o at hrelease
    rw [if_pos ⟨he, (h e o).mpr ((hlist e).mpr (.inr he))⟩] at hrelease
    cases hrelease
  · intro hgone e o'
    change (if e ∈ removed ∧ w.owner e = some o then none else w.owner e) = some o' ↔ _
    by_cases ho : o' = o
    · subst ho
      rw [relist_lists_self]
      by_cases he : e ∈ removed
      · have howner := (h e o').mpr ((hlist e).mpr (.inr he))
        rw [if_pos ⟨he, howner⟩]
        exact iff_of_false nofun (hgone e he)
      · rw [if_neg fun hpair => he hpair.1, h, hlist]
        exact or_iff_left he
    · rw [relist_lists_of_ne w ho]
      split
      · next hpair =>
          refine iff_of_false nofun fun hmem => ho ?_
          have howner := (h e o').mpr hmem
          rw [hpair.2] at howner
          exact (Option.some.inj howner).symm
      · exact h e o'

omit [DecidableEq O] in
theorem foldl_claim (o : O) (added : List E) (owner : E → Option O) :
    added.foldl (fun owner e => Function.update owner e (some o)) owner = claim o added owner := by
  induction added generalizing owner with
  | nil =>
    funext e
    rw [claim, if_neg not_mem_nil]
    rfl
  | cons x added ih =>
    rw [foldl_cons, ih]
    funext e
    by_cases he : e ∈ added
    · rw [claim, claim, if_pos he, if_pos (mem_cons_of_mem x he)]
    · by_cases hx : e = x
      · subst hx
        rw [claim, claim, if_neg he, if_pos mem_cons_self, Function.update_self]
      · rw [claim, claim, if_neg he, Function.update_of_ne hx,
          if_neg fun hmem => (mem_cons.mp hmem).elim hx he]

theorem foldl_release (o : O) (removed : List E) (owner : E → Option O) :
    removed.foldl
      (fun owner e => if owner e = some o then Function.update owner e none else owner) owner =
      release o removed owner := by
  induction removed generalizing owner with
  | nil =>
    funext e
    rfl
  | cons x removed ih =>
    rw [foldl_cons, ih]
    funext e
    by_cases hx : e = x
    · subst hx
      by_cases howner : owner e = some o
      · simp [release, howner]
      · simp [release, howner]
    · have hsame : (if owner x = some o then Function.update owner x none else owner) e =
          owner e := by
        split
        · exact Function.update_of_ne hx _ _
        · rfl
      simp only [release, hsame, mem_cons, hx, false_or]

end Ownership

end OpenJfx.Data
