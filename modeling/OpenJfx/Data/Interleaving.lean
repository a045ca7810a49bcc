import Mathlib.Data.List.Infix

namespace OpenJfx.Data

variable {σ ι : Type*}

/-- The state after a sequence of steps, if each of them is possible when its turn comes. -/
def runSteps (step : σ → ι → Option σ) (s : σ) (steps : List ι) : Option σ :=
  steps.foldlM step s

variable {step : σ → ι → Option σ} {s t : σ}

@[simp]
theorem runSteps_nil : runSteps step s [] = some s := rfl

theorem runSteps_append (before after : List ι) :
    runSteps step s (before ++ after) =
      (runSteps step s before).bind fun m => runSteps step m after :=
  List.foldlM_append

theorem runSteps_append_of {before after : List ι} {m : σ}
    (hbef : runSteps step s before = some m) (hafter : runSteps step m after = some t) :
    runSteps step s (before ++ after) = some t := by
  rw [runSteps_append, hbef]
  exact hafter

variable {steps : List ι}

theorem runSteps_cons_of {i : ι} {m : σ} (hstep : step s i = some m)
    (hsteps : runSteps step m steps = some t) : runSteps step s (i :: steps) = some t := by
  rw [runSteps, List.foldlM_cons, hstep]
  exact hsteps

theorem runSteps_singleton (i : ι) : runSteps step s [i] = step s i := by
  simp [runSteps]

theorem runSteps_concat_iff {i : ι} :
    runSteps step s (steps ++ [i]) = some t ↔
      ∃ m, runSteps step s steps = some m ∧ step m i = some t := by
  rw [runSteps_append, Option.bind_eq_some_iff]
  simp only [runSteps_singleton]

theorem runSteps_induction {P : List ι → σ → Prop} (hstart : P [] s)
    (hstep : ∀ steps m i t, runSteps step s steps = some m → P steps m → step m i = some t →
      P (steps ++ [i]) t) :
    ∀ steps t, runSteps step s steps = some t → P steps t := by
  intro steps
  induction steps using List.reverseRecOn with
  | nil =>
    intro t ht
    cases ht
    exact hstart
  | append_singleton steps i ih =>
    intro t ht
    rcases runSteps_concat_iff.mp ht with ⟨m, hm, hi⟩
    exact hstep steps m i t hm (ih m hm) hi

/-- Every step of a run meets a condition in the state in which it is made. -/
def EachStep (step : σ → ι → Option σ) (condition : σ → ι → Prop) : σ → List ι → Prop
  | _, [] => True
  | s, i :: steps => condition s i ∧ ∀ t, step s i = some t → EachStep step condition t steps

instance decidableEachStep {step : σ → ι → Option σ} {condition : σ → ι → Prop}
    [∀ s i, Decidable (condition s i)] :
    (s : σ) → (steps : List ι) → Decidable (EachStep step condition s steps)
  | _, [] => isTrue trivial
  | s, i :: steps =>
    match hstep : step s i with
    | none => decidable_of_iff (condition s i) (by simp [EachStep, hstep])
    | some t =>
      have : Decidable (EachStep step condition t steps) := decidableEachStep t steps
      decidable_of_iff (condition s i ∧ EachStep step condition t steps)
        (by simp [EachStep, hstep])

variable {condition : σ → ι → Prop}

theorem runSteps_cons_iff {i : ι} :
    runSteps step s (i :: steps) = some t ↔
      ∃ m, step s i = some m ∧ runSteps step m steps = some t := by
  exact Option.bind_eq_some_iff

theorem runSteps_keeps {P : σ → Prop}
    (hstep : ∀ s i t, P s → condition s i → step s i = some t → P t) :
    ∀ (steps : List ι) (s t : σ), P s → EachStep step condition s steps →
      runSteps step s steps = some t → P t := by
  intro steps
  induction steps with
  | nil =>
    intro s t hs _ ht
    cases ht
    exact hs
  | cons i steps ih =>
    rintro s t hs ⟨hi, hrest⟩ ht
    rcases runSteps_cons_iff.mp ht with ⟨m, hm, hmt⟩
    exact ih m t (hstep s i m hs hi hm) (hrest m hm) hmt

theorem holds_along_iff {next : σ → ι → σ} {P : σ → Prop}
    (hnext : ∀ s i, P s → (P (next s i) ↔ condition s i)) :
    ∀ (steps : List ι) (s : σ), P s →
      ((∀ before, before <+: steps → P (before.foldl next s)) ↔
        EachStep (fun s i => some (next s i)) condition s steps) := by
  intro steps
  induction steps with
  | nil =>
    intro s hs
    refine iff_of_true ?_ trivial
    intro before hbef
    rw [List.prefix_nil.mp hbef]
    exact hs
  | cons i steps ih =>
    intro s hs
    constructor
    · intro hall
      have hi : P (next s i) := hall [i] (by simp)
      refine ⟨(hnext s i hs).mp hi, ?_⟩
      rintro t ht
      cases ht
      apply (ih (next s i) hi).mp
      intro before hbef
      exact hall (i :: before) (List.prefix_cons_inj i |>.mpr hbef)
    · rintro ⟨hi, hrest⟩ before hbef
      have hkept : P (next s i) := (hnext s i hs).mpr hi
      rcases before with _ | ⟨j, before⟩
      · exact hs
      · rcases List.cons_prefix_cons.mp hbef with ⟨rfl, hpre⟩
        exact (ih (next s j) hkept).mpr (hrest _ rfl) before hpre

end OpenJfx.Data
