import OpenJfx.Data.Loop

/-!
Calculations on a state of which some part must not show. States that differ in that part only look
alike, and a calculation is oblivious to it if runs from states that look alike end alike.
-/

namespace OpenJfx.Data

variable {σ ε α β ι : Type} {Alike : σ → σ → Prop}

/-- Runs from states that look alike fail in the same way, or give the same value and states that
look alike. -/
def Oblivious (Alike : σ → σ → Prop) (x : StateT σ (Except ε) α) : Prop :=
  ∀ s s', Alike s s' → Related (fun r r' => r.1 = r'.1 ∧ Alike r.2 r'.2) (x.run s) (x.run s')

namespace Oblivious

theorem pure (a : α) : Oblivious Alike (Pure.pure a : StateT σ (Except ε) α) :=
  fun _ _ h => .ok ⟨rfl, h⟩

theorem throw (e : ε) : Oblivious Alike (MonadExcept.throw e : StateT σ (Except ε) α) :=
  fun _ _ _ => .error e

theorem lift (x : Except ε α) : Oblivious Alike (StateT.lift x : StateT σ (Except ε) α) := by
  intro s s' h
  cases x with
  | ok a => exact .ok ⟨rfl, h⟩
  | error e => exact .error e

theorem bind {x : StateT σ (Except ε) α} {f : α → StateT σ (Except ε) β}
    (hx : Oblivious Alike x) (hf : ∀ a, Oblivious Alike (f a)) : Oblivious Alike (x >>= f) := by
  intro s s' h
  apply (hx s s' h).bind
  rintro ⟨a, t⟩ ⟨a', t'⟩ ⟨rfl, ht⟩
  exact hf a t t' ht

theorem throw_bind (e : ε) (f : α → StateT σ (Except ε) β) :
    Oblivious Alike (MonadExcept.throw e >>= f) :=
  fun _ _ _ => .error e

theorem ite {x y : StateT σ (Except ε) α} (p : Prop) [Decidable p] (hx : Oblivious Alike x)
    (hy : Oblivious Alike y) : Oblivious Alike (if p then x else y) := by
  split_ifs
  · exact hx
  · exact hy

theorem foldlM {l : List ι} {f : β → ι → StateT σ (Except ε) β}
    (hf : ∀ b i, Oblivious Alike (f b i)) (b : β) : Oblivious Alike (l.foldlM f b) := by
  induction l generalizing b with
  | nil => exact pure b
  | cons i l ih =>
    exact (hf b i).bind ih

end Oblivious

end OpenJfx.Data
