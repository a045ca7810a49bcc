import Mathlib.Data.Nat.Init
import Mathlib.Data.List.Basic

/-!
Loops without a bound. A turn goes on with a new state or ends with a result. What a loop gives is
the result of a run that is long enough, if there is one.
-/

namespace OpenJfx.Data.TurnLoop

variable {σ ρ : Type}

inductive Turn (σ ρ : Type) where
  | goesOn (state : σ)
  | ends (result : ρ)

def run (turn : σ → Turn σ ρ) : Nat → σ → Option ρ
  | 0, _ => none
  | turns + 1, s =>
    match turn s with
    | .goesOn s' => run turn turns s'
    | .ends result => some result

def Ends (turn : σ → Turn σ ρ) (s : σ) (result : ρ) : Prop :=
    ∃ turns, run turn turns s = some result

variable {turn : σ → Turn σ ρ} {s s' : σ} {result : ρ}

theorem run_goesOn (h : turn s = .goesOn s') (turns : Nat) :
    run turn (turns + 1) s = run turn turns s' := by
  rw [run, h]

theorem run_ends (h : turn s = .ends result) (turns : Nat) :
    run turn (turns + 1) s = some result := by
  rw [run, h]

theorem Ends.of_ends (h : turn s = .ends result) : Ends turn s result := ⟨1, run_ends h 0⟩

theorem Ends.of_goesOn (h : turn s = .goesOn s') (hends : Ends turn s' result) :
    Ends turn s result := by
  obtain ⟨turns, hrun⟩ := hends
  exact ⟨turns + 1, (run_goesOn h turns).trans hrun⟩

theorem ends_of_bound {P : Nat → σ → Prop} {Q : ρ → Prop}
    (hturn : ∀ bound s, P bound s → (∃ result, turn s = .ends result ∧ Q result) ∨
      ∃ bound' s', turn s = .goesOn s' ∧ bound' < bound ∧ P bound' s') :
    ∀ bound s, P bound s → ∃ result, Ends turn s result ∧ Q result := by
  intro bound
  induction bound using Nat.strong_induction_on with
  | _ bound ih =>
    intro s hs
    rcases hturn bound s hs with ⟨result, hres, hQ⟩ | ⟨bound', s', hs', hlt, hP⟩
    · exact ⟨result, .of_ends hres, hQ⟩
    · obtain ⟨result, hres, hQ⟩ := ih bound' hlt s' hP
      exact ⟨result, .of_goesOn hs' hres, hQ⟩

inductive Reaches (turn : σ → Turn σ ρ) (s : σ) : σ → Prop
  | refl : Reaches turn s s
  | step {s' s'' : σ} : Reaches turn s s' → turn s' = .goesOn s'' → Reaches turn s s''

theorem Reaches.head {s'' : σ} (h : turn s = .goesOn s') (hreaches : Reaches turn s' s'') :
    Reaches turn s s'' := by
  induction hreaches with
  | refl => exact .step .refl h
  | step _ hstep ih => exact .step ih hstep

theorem Reaches.eq_or_head {t : σ} (hreaches : Reaches turn s t) :
    t = s ∨ ∃ s', turn s = .goesOn s' ∧ Reaches turn s' t := by
  induction hreaches with
  | refl => exact .inl rfl
  | @step t t' _ hstep ih =>
    rcases ih with rfl | ⟨s', hs', hreaches'⟩
    · exact .inr ⟨t', hstep, .refl⟩
    · exact .inr ⟨s', hs', hreaches'.step hstep⟩

def along (turn : σ → Turn σ ρ) (good : σ → Bool) : Nat → σ → Bool
  | 0, _ => false
  | turns + 1, s => good s &&
      match turn s with
      | .goesOn s' => along turn good turns s'
      | .ends _ => true

theorem Reaches.good {t : σ} (hreaches : Reaches turn s t) (good : σ → Bool) (turns : Nat)
    (h : along turn good turns s = true) : good t = true := by
  induction turns generalizing s with
  | zero => cases h
  | succ turns ih =>
    rw [along, Bool.and_eq_true] at h
    rcases hreaches.eq_or_head with rfl | ⟨s', hs', hreaches'⟩
    · exact h.1
    · have hrest := h.2
      rw [hs'] at hrest
      exact ih hreaches' hrest

/-- The rule for loops whose turns are good as long as every state on the way meets a
condition. -/
theorem ends_of_meets {Inv Meets : σ → Prop} {Q : ρ → Prop} (bound : σ → Nat)
    (hturn : ∀ s, Inv s → Meets s → (∃ result, turn s = .ends result ∧ Q result) ∨
      ∃ s', turn s = .goesOn s' ∧ bound s' < bound s ∧ Inv s')
    (hs : Inv s) (hmeets : ∀ s', Reaches turn s s' → Meets s') :
    ∃ result, Ends turn s result ∧ Q result := by
  apply ends_of_bound (P := fun b s => bound s = b ∧ Inv s ∧ ∀ s', Reaches turn s s' → Meets s')
    _ (bound s) s ⟨rfl, hs, hmeets⟩
  rintro _ s ⟨rfl, hinv, hall⟩
  rcases hturn s hinv (hall s .refl) with hends | ⟨s', hs', hlt, hinv'⟩
  · exact .inl hends
  · exact .inr ⟨_, s', hs', hlt, rfl, hinv', fun t ht => hall t (ht.head hs')⟩

end OpenJfx.Data.TurnLoop

namespace OpenJfx.Data

open List

variable {ε σ ι : Type} {f : σ → ι → Except ε σ} {P : Nat → σ → Prop}

theorem foldlM_ok_from (k : Nat) (l : List ι) (s : σ) (hs : P k s)
    (hstep : ∀ j i, l[j]? = some i → ∀ s, P (k + j) s →
      ∃ s', f s i = .ok s' ∧ P (k + j + 1) s') :
    ∃ s', l.foldlM f s = .ok s' ∧ P (k + l.length) s' := by
  induction l generalizing k s with
  | nil => exact ⟨s, rfl, hs⟩
  | cons i l ih =>
    rcases hstep 0 i rfl s hs with ⟨t, ht, hPt⟩
    have hrest : ∀ j i', l[j]? = some i' → ∀ s, P (k + 1 + j) s →
        ∃ s', f s i' = .ok s' ∧ P (k + 1 + j + 1) s' := by
      intro j i' hi' s hPs
      have hnext := hstep (j + 1) i' (by simpa using hi') s
      rw [show k + (j + 1) = k + 1 + j by omega] at hnext
      exact hnext hPs
    rcases ih (k + 1) t hPt hrest with ⟨s', hs', hPs'⟩
    refine ⟨s', ?_, ?_⟩
    · rw [foldlM_cons, ht]
      exact hs'
    · rw [length_cons, show k + (l.length + 1) = k + 1 + l.length by omega]
      exact hPs'

variable {l : List ι}

theorem foldlM_ok {s : σ} (hs : P 0 s)
    (hstep : ∀ k i, l[k]? = some i → ∀ s, P k s → ∃ s', f s i = .ok s' ∧ P (k + 1) s') :
    ∃ s', l.foldlM f s = .ok s' ∧ P l.length s' := by
  have hrounds := foldlM_ok_from (P := P) 0 l s hs (by simpa using hstep)
  simpa using hrounds

theorem foldlM_keeps {Q : σ → Prop} {s s' : σ}
    (hstep : ∀ i ∈ l, ∀ s s', Q s → f s i = .ok s' → Q s') (hs : Q s)
    (hloop : l.foldlM f s = .ok s') : Q s' := by
  induction l generalizing s with
  | nil => exact Except.ok.inj hloop ▸ hs
  | cons i l ih =>
    rw [foldlM_cons] at hloop
    cases hround : f s i with
    | error failure =>
      rw [hround] at hloop
      cases hloop
    | ok t =>
      rw [hround] at hloop
      exact ih (fun j hj => hstep j (mem_cons_of_mem i hj))
        (hstep i mem_cons_self s t hs hround) hloop

theorem mapM_ok {α : Type} {f : ι → Except ε α} (h : ∀ i ∈ l, ∃ a, f i = .ok a) :
    ∃ as, l.mapM f = .ok as ∧ as.length = l.length := by
  induction l with
  | nil => exact ⟨[], rfl, rfl⟩
  | cons i l ih =>
    obtain ⟨a, ha⟩ := h i mem_cons_self
    obtain ⟨as, has, hlen⟩ := ih fun j hj => h j (mem_cons_of_mem i hj)
    refine ⟨a :: as, ?_, congrArg (· + 1) hlen⟩
    rw [mapM_cons, ha, has]
    rfl

theorem foldl_eq_of_fixed {f : σ → ι → σ} {s : σ} (h : ∀ i ∈ l, f s i = s) :
    l.foldl f s = s := by
  induction l with
  | nil => rfl
  | cons i l ih =>
    rw [foldl_cons, h i mem_cons_self]
    exact ih fun j hj => h j (mem_cons_of_mem i hj)

section Yields

variable {α β : Type} {E : ε → Prop} {P Q : α → Prop}

/-- A calculation fails in a way that is allowed, or gives what has a property. -/
inductive Yields (E : ε → Prop) (P : α → Prop) : Except ε α → Prop
  | ok {a : α} (h : P a) : Yields E P (.ok a)
  | error {failure : ε} (h : E failure) : Yields E P (.error failure)

variable {x : Except ε α}

theorem Yields.imp (h : Yields E P x) (himp : ∀ a, P a → Q a) :
    Yields E Q x := by
  cases h with
  | ok ha => exact .ok (himp _ ha)
  | error he => exact .error he

theorem Yields.bind {Q : β → Prop} {f : α → Except ε β} (h : Yields E P x)
    (hf : ∀ a, P a → Yields E Q (f a)) : Yields E Q (x >>= f) := by
  cases h with
  | ok ha => exact hf _ ha
  | error he => exact .error he

theorem Yields.mapError {ε' : Type} {E' : ε' → Prop} {f : ε → ε'} (h : Yields E P x)
    (hf : ∀ e, E e → E' (f e)) : Yields E' P (x.mapError f) := by
  cases h with
  | ok ha => exact .ok ha
  | error he => exact .error (hf _ he)

theorem Yields.map {Q : β → Prop} {f : α → β} (h : Yields E P x) (hf : ∀ a, P a → Q (f a)) :
    Yields E Q (x.map f) := by
  cases h with
  | ok ha => exact .ok (hf _ ha)
  | error he => exact .error he

theorem Yields.of_ok {a : α} (h : Yields E P x) (hx : x = .ok a) : P a := by
  subst hx
  cases h with
  | ok ha => exact ha

theorem Yields.of_error {e : ε} (h : Yields E P x) (hx : x = .error e) : E e := by
  subst hx
  cases h with
  | error he => exact he

end Yields

section Related

variable {α β α' β' : Type} {R : α → β → Prop} {S : α' → β' → Prop}

/-- Two calculations fail in the same way, or succeed with related results. -/
inductive Related (R : α → β → Prop) : Except ε α → Except ε β → Prop
  | ok {a : α} {b : β} (h : R a b) : Related R (.ok a) (.ok b)
  | error (failure : ε) : Related R (.error failure) (.error failure)

theorem Related.refl {R : α → α → Prop} (hR : ∀ a, R a a) (x : Except ε α) : Related R x x := by
  cases x with
  | error failure => exact .error failure
  | ok a => exact .ok (hR a)

variable {x : Except ε α} {y : Except ε β}

theorem Related.imp {R' : α → β → Prop} (h : Related R x y) (himp : ∀ a b, R a b → R' a b) :
    Related R' x y := by
  cases h with
  | ok hab => exact .ok (himp _ _ hab)
  | error failure => exact .error failure

theorem Related.bind {f : α → Except ε α'} {g : β → Except ε β'} (h : Related R x y)
    (hfg : ∀ a b, R a b → Related S (f a) (g b)) :
    Related S (x >>= f) (y >>= g) := by
  cases h with
  | ok hab => exact hfg _ _ hab
  | error failure => exact .error failure

theorem Related.mapError {ε' : Type} (h : Related R x y) (f : ε → ε') :
    Related R (x.mapError f) (y.mapError f) := by
  cases h with
  | ok hab => exact .ok hab
  | error failure => exact .error (f failure)

theorem Related.foldlM {l : List ι} {f : α → ι → Except ε α} {g : β → ι → Except ε β}
    (hstep : ∀ i ∈ l, ∀ a b, R a b → Related R (f a i) (g b i)) {a : α} {b : β} (h : R a b) :
    Related R (l.foldlM f a) (l.foldlM g b) := by
  induction l generalizing a b with
  | nil => exact .ok h
  | cons i l ih =>
    refine (hstep i mem_cons_self a b h).bind fun a b hab => ?_
    exact ih (fun j hj => hstep j (mem_cons_of_mem i hj)) hab

end Related

theorem bind_eq_ok {α β : Type} {x : Except ε α} {f : α → Except ε β} {b : β} :
    (x >>= f) = .ok b ↔ ∃ a, x = .ok a ∧ f a = .ok b := by
  cases x with
  | error failure => exact iff_of_false nofun nofun
  | ok a => exact ⟨fun h => ⟨a, rfl, h⟩, fun ⟨_, ha, h⟩ => Except.ok.inj ha ▸ h⟩

end OpenJfx.Data
