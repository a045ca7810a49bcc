import OpenJfx.Data.Interleaving
import Mathlib.Data.List.Count

namespace OpenJfx.Concurrent

open List

namespace TaskUpdates

open Data

/-- The properties of a task that the background thread updates. -/
inductive Property
  | message
  | title
  | value
  deriving DecidableEq

def Value (V : Type) : Property → Type
  | .message => String
  | .title => String
  | .value => V

variable {V : Type}

/-- The message and the title are empty strings at first, and the value is null. -/
def initial (V : Type) : (p : Property) → Option (Value V p)
  | .message => some ""
  | .title => some ""
  | .value => none

end TaskUpdates

open TaskUpdates Data

/-- The coalesced updates of a `Task` and the runnables that they hand to the FX thread. -/
structure TaskUpdates (V : Type) where
  /-- `messageUpdate`, `titleUpdate` and `valueUpdate`. -/
  pending : (p : Property) → Option (Value V p)
  property : (p : Property) → Option (Value V p)
  queue : List Property
  /-- The background thread has found null in a reference and has still to call `runLater`. -/
  posting : Option Property
  /-- The FX thread is in a runnable that has taken an update and has still to set it. -/
  setting : Option ((p : Property) × Option (Value V p))

namespace TaskUpdates

variable {V : Type}

def new (V : Type) : TaskUpdates V where
  pending := fun _ => none
  property := initial V
  queue := []
  posting := none
  setting := none

/-- `AtomicReference.getAndSet` on the reference of a property. -/
def getAndSet (task : TaskUpdates V) (p : Property) (v : Option (Value V p)) :
    Option (Value V p) × TaskUpdates V :=
  (task.pending p, { task with pending := Function.update task.pending p v })

def set (task : TaskUpdates V) (p : Property) (v : Option (Value V p)) : TaskUpdates V :=
  { task with property := Function.update task.property p v }

def update (isFxApplicationThread : Bool) (p : Property) (task : TaskUpdates V)
    (v : Option (Value V p)) : TaskUpdates V :=
  if isFxApplicationThread then task.set p v
  else
    match task.getAndSet p v with
    | (none, task) => { task with posting := some p }
    | (some _, task) => task

def updateMessage (isFxApplicationThread : Bool) (task : TaskUpdates V) (message : Option String) :
    TaskUpdates V :=
  update isFxApplicationThread .message task message

def updateTitle (isFxApplicationThread : Bool) (task : TaskUpdates V) (title : Option String) :
    TaskUpdates V :=
  update isFxApplicationThread .title task title

def updateValue (isFxApplicationThread : Bool) (task : TaskUpdates V) (value : Option V) :
    TaskUpdates V :=
  update isFxApplicationThread .value task value

inductive Call (V : Type)
  | updateMessage (message : Option String)
  | updateTitle (title : Option String)
  | updateValue (value : Option V)

def Call.run (task : TaskUpdates V) : Call V → TaskUpdates V
  | .updateMessage message => task.updateMessage false message
  | .updateTitle title => task.updateTitle false title
  | .updateValue value => task.updateValue false value

inductive Step (V : Type)
  /-- The background thread enters a call and exchanges the reference. -/
  | call (call : Call V)
  /-- It posts the runnable, if the reference was null. -/
  | runLater
  /-- The FX thread starts the first runnable of the queue, which exchanges its reference. -/
  | take
  /-- The runnable sets the property. -/
  | set

def step (task : TaskUpdates V) : Step V → Option (TaskUpdates V)
  | .call call =>
    match task.posting with
    | none => some (call.run task)
    | some _ => none
  | .runLater =>
    match task.posting with
    | some p => some { task with queue := task.queue ++ [p], posting := none }
    | none => none
  | .take =>
    match task.setting, task.queue with
    | none, p :: queue =>
      match task.getAndSet p none with
      | (v, task) => some { task with queue := queue, setting := some ⟨p, v⟩ }
    | _, _ => none
  | .set =>
    match task.setting with
    | some ⟨p, v⟩ => some { task.set p v with setting := none }
    | none => none

/-- The calls have returned and all runnables have run. -/
def Idle (task : TaskUpdates V) : Prop :=
  task.queue = [] ∧ task.posting = none ∧ task.setting = none

def Call.argument (p : Property) (call : Call V) : Option (Option (Value V p)) :=
  match p, call with
  | .message, .updateMessage message => some message
  | .title, .updateTitle title => some title
  | .value, .updateValue value => some value
  | _, _ => none

def Step.call? : Step V → Option (Call V)
  | .call made => some made
  | .runLater | .take | .set => none

/-- The calls that have been made in a run. -/
def calls (steps : List (Step V)) : List (Call V) := steps.filterMap Step.call?

def arguments (p : Property) (calls : List (Call V)) : List (Option (Value V p)) :=
  calls.filterMap (Call.argument p)

/-- Whether the calls lose only values that later ones overwrite, in a given run. -/
def LosesOnlyOverwritten (steps : List (Step V)) : Prop :=
  (∀ task, runSteps step (new V) steps = some task → task.Idle →
    ∀ p v, (arguments p (calls steps)).getLast? = some v → task.property p = v) ∧
  ∀ moment, moment <+: steps → ∀ task, runSteps step (new V) moment = some task →
    ∀ p, task.property p = initial V p ∨ task.property p ∈ arguments p (calls moment)

theorem Call.run_eq (call : Call V) : ∃ p v, (∀ task : TaskUpdates V,
    call.run task = update false p task v) ∧ call.argument p = some v ∧
      ∀ q, q ≠ p → call.argument q = none := by
  cases call with
  | updateMessage message =>
    refine ⟨.message, message, fun _ => rfl, rfl, ?_⟩
    intro q hq
    cases q <;> first | rfl | exact absurd rfl hq
  | updateTitle title =>
    refine ⟨.title, title, fun _ => rfl, rfl, ?_⟩
    intro q hq
    cases q <;> first | rfl | exact absurd rfl hq
  | updateValue value =>
    refine ⟨.value, value, fun _ => rfl, rfl, ?_⟩
    intro q hq
    cases q <;> first | rfl | exact absurd rfl hq

/-- The runnables of a property that have still to take its update. -/
def outstanding (task : TaskUpdates V) (p : Property) : Nat :=
  task.queue.count p + if task.posting = some p then 1 else 0

/-- The properties once the runnable that is running has returned. -/
def latest (task : TaskUpdates V) : (p : Property) → Option (Value V p) :=
  match task.setting with
  | some ⟨p, v⟩ => Function.update task.property p v
  | none => task.property

variable {task : TaskUpdates V}

theorem latest_of_setting_eq_none (h : task.setting = none) :
    task.latest = task.property := by
  rw [latest, h]

/-- What relates a property to the arguments that have been passed for it. -/
structure Tracks (task : TaskUpdates V) (p : Property) (args : List (Option (Value V p))) :
    Prop where
  last_of_pending : ∀ v, task.pending p = some v → args.getLast? = some (some v)
  outstanding_of_pending : task.pending p ≠ none → 0 < task.outstanding p
  outstanding_le_one : none ∉ args → task.outstanding p ≤ 1
  pending_of_outstanding : none ∉ args → 0 < task.outstanding p → task.pending p ≠ none
  property_mem : task.property p = initial V p ∨ task.property p ∈ args
  latest_mem : task.latest p = initial V p ∨ task.latest p ∈ args
  latest_eq : task.outstanding p = 0 → ∀ v, args.getLast? = some v → v = none ∨ none ∉ args →
    task.latest p = v

theorem new_tracks (p : Property) : (new V).Tracks p [] where
  last_of_pending := by
    intro v hv
    cases hv
  outstanding_of_pending := fun h => absurd rfl h
  outstanding_le_one := fun _ => Nat.zero_le 1
  pending_of_outstanding := fun _ h => absurd h (Nat.lt_irrefl 0)
  property_mem := .inl rfl
  latest_mem := .inl rfl
  latest_eq := by
    intro _ v hv
    cases hv

variable {task' : TaskUpdates V} {p : Property}

variable {args : List (Option (Value V p))}

theorem Tracks.congr (h : task.Tracks p args) (hpend : task'.pending p = task.pending p)
    (houtstanding : task'.outstanding p = task.outstanding p)
    (hprop : task'.property p = task.property p ∨ task'.property p = task.latest p)
    (hlatest : task'.latest p = task.latest p) : task'.Tracks p args where
  last_of_pending := hpend ▸ h.last_of_pending
  outstanding_of_pending := by
    rw [hpend, houtstanding]
    exact h.outstanding_of_pending
  outstanding_le_one := houtstanding ▸ h.outstanding_le_one
  pending_of_outstanding := by
    rw [hpend, houtstanding]
    exact h.pending_of_outstanding
  property_mem := by
    rcases hprop with hprop | hprop
    · rw [hprop]
      exact h.property_mem
    · rw [hprop]
      exact h.latest_mem
  latest_mem := hlatest ▸ h.latest_mem
  latest_eq := by
    rw [houtstanding, hlatest]
    exact h.latest_eq

theorem update_pending (task : TaskUpdates V) (p : Property) (v : Option (Value V p)) :
    (update false p task v).pending = Function.update task.pending p v := by
  simp only [update, getAndSet]
  cases task.pending p <;> rfl

theorem update_property (task : TaskUpdates V) (p : Property) (v : Option (Value V p)) :
    (update false p task v).property = task.property := by
  simp only [update, getAndSet]
  cases task.pending p <;> rfl

theorem update_queue (task : TaskUpdates V) (p : Property) (v : Option (Value V p)) :
    (update false p task v).queue = task.queue := by
  simp only [update, getAndSet]
  cases task.pending p <;> rfl

theorem update_setting (task : TaskUpdates V) (p : Property) (v : Option (Value V p)) :
    (update false p task v).setting = task.setting := by
  simp only [update, getAndSet]
  cases task.pending p <;> rfl

theorem update_posting (task : TaskUpdates V) (p : Property) (v : Option (Value V p)) :
    (update false p task v).posting = if task.pending p = none then some p else task.posting := by
  simp only [update, getAndSet]
  cases task.pending p <;> rfl

theorem update_latest (task : TaskUpdates V) (p : Property) (v : Option (Value V p)) :
    (update false p task v).latest = task.latest := by
  rw [latest, latest, update_setting, update_property]

theorem update_outstanding (task : TaskUpdates V) (p : Property) (v : Option (Value V p))
    (hposting : task.posting = none) :
    (update false p task v).outstanding p =
      task.outstanding p + if task.pending p = none then 1 else 0 := by
  rw [outstanding, outstanding, update_queue, update_posting, hposting]
  split <;> simp

theorem update_outstanding_of_ne (task : TaskUpdates V) {q : Property} (v : Option (Value V p))
    (hposting : task.posting = none) (hq : q ≠ p) :
    (update false p task v).outstanding q = task.outstanding q := by
  rw [outstanding, outstanding, update_queue, update_posting, hposting]
  split
  · simp [hq.symm]
  · simp

theorem update_outstanding_pos (h : task.Tracks p args) (v : Option (Value V p))
    (hposting : task.posting = none) :
    0 < (update false p task v).outstanding p := by
  rw [update_outstanding task p v hposting]
  split
  · exact Nat.succ_pos _
  · next hpend => exact h.outstanding_of_pending hpend

theorem Tracks.update (h : task.Tracks p args) (v : Option (Value V p))
    (hposting : task.posting = none) :
    (update false p task v).Tracks p (args ++ [v]) where
  last_of_pending := by
    intro w hw
    rw [update_pending, Function.update_self] at hw
    rw [getLast?_concat, hw]
  outstanding_of_pending := fun _ => update_outstanding_pos h v hposting
  outstanding_le_one := by
    intro hargs
    have hargs : none ∉ args := fun hmem => hargs (mem_append_left _ hmem)
    rw [update_outstanding task p v hposting]
    split
    · next hpend =>
        -- Without null arguments, no runnable is under way while the reference is null.
        have hzero : ¬0 < task.outstanding p := fun hpos =>
          h.pending_of_outstanding hargs hpos hpend
        omega
    · exact h.outstanding_le_one hargs
  pending_of_outstanding := by
    intro hargs _ hpend
    rw [update_pending, Function.update_self] at hpend
    exact hargs (mem_append_right _ (mem_singleton.mpr hpend.symm))
  property_mem := by
    rw [update_property]
    exact h.property_mem.imp_right (mem_append_left [v])
  latest_mem := by
    rw [update_latest]
    exact h.latest_mem.imp_right (mem_append_left [v])
  latest_eq := by
    have hpos := update_outstanding_pos h v hposting
    omega

/-- The FX thread has started the runnable of a property. -/
def taken (task : TaskUpdates V) (p : Property) (queue : List Property) : TaskUpdates V :=
  { task with pending := Function.update task.pending p none, queue := queue,
              setting := some ⟨p, task.pending p⟩ }

theorem taken_latest (task : TaskUpdates V) (p : Property) (queue : List Property) :
    (task.taken p queue).latest = Function.update task.property p (task.pending p) := rfl

theorem taken_pending_self (task : TaskUpdates V) (p : Property) (queue : List Property) :
    (task.taken p queue).pending p = none :=
  Function.update_self ..

theorem step_cases {made : Step V} (h : step task made = some task') :
    (∃ call, made = .call call ∧ task.posting = none ∧ task' = call.run task) ∨
    (∃ p, made = .runLater ∧ task.posting = some p ∧
      task' = { task with queue := task.queue ++ [p], posting := none }) ∨
    (∃ p queue, made = .take ∧ task.setting = none ∧ task.queue = p :: queue ∧
      task' = task.taken p queue) ∨
    (made = .set ∧ task' = { task with property := task.latest, setting := none }) := by
  cases made with
  | call call =>
    simp only [step] at h
    split at h
    · next hposting => exact .inl ⟨call, rfl, hposting, (Option.some.inj h).symm⟩
    · cases h
  | runLater =>
    simp only [step] at h
    split at h
    · next p hposting => exact .inr (.inl ⟨p, rfl, hposting, (Option.some.inj h).symm⟩)
    · cases h
  | take =>
    simp only [step] at h
    split at h
    · next p queue hsetting hqueue =>
        exact .inr (.inr (.inl ⟨p, queue, rfl, hsetting, hqueue, (Option.some.inj h).symm⟩))
    · cases h
  | set =>
    simp only [step] at h
    split at h
    · next p v hsetting =>
        refine .inr (.inr (.inr ⟨rfl, ?_⟩))
        rw [latest, hsetting]
        exact (Option.some.inj h).symm
    · cases h

theorem runLater_outstanding (hposting : task.posting = some p) (q : Property) :
    ({ task with queue := task.queue ++ [p], posting := none } : TaskUpdates V).outstanding q =
      task.outstanding q := by
  simp only [outstanding, hposting, count_append, count_singleton, Option.some.injEq,
    beq_iff_eq, reduceCtorEq, if_false, Nat.add_zero]

theorem Tracks.take {queue : List Property} (h : task.Tracks p args)
    (hqueue : task.queue = p :: queue) :
    (task.taken p queue).Tracks p args := by
  have houtstanding : task.outstanding p = (task.taken p queue).outstanding p + 1 := by
    rw [outstanding, hqueue, count_cons_self]
    exact Nat.add_right_comm ..
  have hpos : 0 < task.outstanding p := houtstanding ▸ Nat.succ_pos _
  constructor
  case last_of_pending =>
    intro v hv
    rw [taken_pending_self] at hv
    cases hv
  case outstanding_of_pending =>
    intro hpend
    rw [taken_pending_self] at hpend
    exact absurd rfl hpend
  case outstanding_le_one =>
    intro hargs
    have hle := h.outstanding_le_one hargs
    omega
  case pending_of_outstanding =>
    intro hargs hleft
    have hle := h.outstanding_le_one hargs
    omega
  case property_mem => exact h.property_mem
  case latest_mem =>
    right
    rw [taken_latest, Function.update_self]
    cases hpend : task.pending p with
    | none =>
      by_contra hargs
      exact h.pending_of_outstanding hargs hpos hpend
    | some v => exact mem_of_getLast? (h.last_of_pending v hpend)
  case latest_eq =>
    intro _ v hv hnull
    rw [taken_latest, Function.update_self]
    cases hpend : task.pending p with
    | none =>
      rcases hnull with rfl | hargs
      · rfl
      · exact absurd hpend (h.pending_of_outstanding hargs hpos)
    | some w =>
      rw [h.last_of_pending w hpend] at hv
      exact Option.some.inj hv

theorem calls_concat (steps : List (Step V)) (made : Step V) :
    calls (steps ++ [made]) = calls steps ++ made.call?.toList := by
  rw [calls, filterMap_append]
  cases made <;> rfl

theorem arguments_concat (p : Property) (cs : List (Call V)) (call : Call V) :
    arguments p (cs ++ [call]) = arguments p cs ++ (call.argument p).toList := by
  rw [arguments, filterMap_append, filterMap_cons]
  cases call.argument p <;> rfl

theorem step_tracks {steps : List (Step V)} {made : Step V}
    (h : ∀ p, task.Tracks p (arguments p (calls steps))) (hstep : step task made = some task') :
    ∀ p, task'.Tracks p (arguments p (calls (steps ++ [made]))) := by
  intro q
  rw [calls_concat]
  rcases step_cases hstep with ⟨call, rfl, hposting, rfl⟩ | ⟨p, rfl, hposting, rfl⟩ |
    ⟨p, queue, rfl, hsetting, hqueue, rfl⟩ | ⟨rfl, rfl⟩
  · change (call.run task).Tracks q (arguments q (calls steps ++ [call]))
    rcases call.run_eq with ⟨p, v, hrun, hargument, hother⟩
    rw [arguments_concat, hrun]
    by_cases hq : q = p
    · subst hq
      rw [hargument]
      exact (h q).update v hposting
    · rw [hother q hq, Option.toList_none, append_nil]
      refine (h q).congr ?_ (update_outstanding_of_ne task v hposting hq) (.inl ?_) ?_
      · rw [update_pending, Function.update_of_ne hq]
      · rw [update_property]
      · rw [update_latest]
  · rw [Step.call?, Option.toList_none, append_nil]
    exact (h q).congr rfl (runLater_outstanding hposting q) (.inl rfl) rfl
  · rw [Step.call?, Option.toList_none, append_nil]
    by_cases hq : q = p
    · subst hq
      exact (h q).take hqueue
    · refine (h q).congr (Function.update_of_ne hq _ _) ?_ (.inl rfl) ?_
      · rw [outstanding, outstanding, hqueue, count_cons_of_ne (Ne.symm hq)]
        rfl
      · rw [latest_of_setting_eq_none hsetting]
        exact Function.update_of_ne hq _ _
  · rw [Step.call?, Option.toList_none, append_nil]
    exact (h q).congr rfl rfl (.inr rfl) rfl

theorem run_tracks (steps : List (Step V)) (task : TaskUpdates V)
    (h : runSteps step (new V) steps = some task) :
    ∀ p, task.Tracks p (arguments p (calls steps)) := by
  refine runSteps_induction (P := fun steps task => ∀ p, task.Tracks p (arguments p (calls steps)))
    (fun p => new_tracks p) ?_ steps task h
  intro steps task made task' _ hmade hstep
  exact step_tracks hmade hstep

theorem Tracks.property_of_idle (h : task.Tracks p args) (hidle : task.Idle)
    {v : Option (Value V p)} (hv : args.getLast? = some v) (hnull : v = none ∨ none ∉ args) :
    task.property p = v := by
  rcases hidle with ⟨hqueue, hposting, hsetting⟩
  have hzero : task.outstanding p = 0 := by
    rw [outstanding, hqueue, hposting]
    rfl
  have hlatest := h.latest_eq hzero v hv hnull
  rwa [latest_of_setting_eq_none hsetting] at hlatest

theorem exists_run_of_call (hposting : task.posting = none) (p : Property) (v : Option (Value V p))
    {call : Call V} (hcall : ∀ task : TaskUpdates V, call.run task = update false p task v) :
    ∃ steps, calls steps = [call] ∧ runSteps step task steps =
      some { task with
        pending := Function.update task.pending p v
        queue := task.queue ++ if task.pending p = none then [p] else [] } := by
  have hstep : step task (.call call) = some (update false p task v) := by
    simp only [step, hposting, hcall]
  cases hpend : task.pending p with
  | none =>
    refine ⟨[.call call, .runLater], rfl, ?_⟩
    refine runSteps_cons_of hstep ?_
    rw [runSteps_singleton]
    simp [step, update, getAndSet, hpend, hposting]
  | some w =>
    refine ⟨[.call call], rfl, ?_⟩
    rw [runSteps_singleton, hstep]
    simp [update, getAndSet, hpend]

theorem calls_append (before after : List (Step V)) :
    calls (before ++ after) = calls before ++ calls after :=
  filterMap_append

theorem exists_run_of_calls (cs : List (Call V)) :
    ∃ steps task, calls steps = cs ∧ runSteps step (new V) steps = some task ∧
      task.posting = none ∧ task.setting = none ∧ ∀ p,
        task.pending p = (arguments p cs).getLast?.join ∧
        (arguments p cs ≠ [] → 1 ≤ task.queue.count p) ∧
        (none ∈ (arguments p cs).dropLast → 2 ≤ task.queue.count p) := by
  induction cs using List.reverseRecOn with
  | nil => exact ⟨[], new V, rfl, rfl, rfl, rfl, fun p => ⟨rfl, fun h => absurd rfl h, nofun⟩⟩
  | append_singleton cs call ih =>
    rcases ih with ⟨before, task, hbef, hrun, hposting, hsetting, hargs⟩
    rcases call.run_eq with ⟨p, v, hcall, hargument, hother⟩
    rcases exists_run_of_call hposting p v hcall with ⟨after, hafter, hrun'⟩
    refine ⟨before ++ after, _, ?_, runSteps_append_of hrun hrun', hposting, hsetting, ?_⟩
    · rw [calls_append, hbef, hafter]
    intro q
    rw [arguments_concat]
    rcases hargs q with ⟨hpend, hone, htwo⟩
    by_cases hq : q = p
    · subst hq
      dsimp only
      rw [hargument, Option.toList_some, Function.update_self, getLast?_concat,
        dropLast_concat, count_append]
      refine ⟨rfl, fun _ => ?_, fun hnull => ?_⟩
      · by_cases hnil : arguments q cs = []
        · -- The first call for the property finds the reference null.
          have hnone : task.pending q = none := by
            rw [hpend, hnil]
            rfl
          rw [if_pos hnone, count_singleton_self]
          exact Nat.le_add_left 1 _
        · exact Nat.le_add_right_of_le (hone hnil)
      · have hnil : arguments q cs ≠ [] := ne_nil_of_mem hnull
        rw [← dropLast_append_getLast hnil, mem_append, mem_singleton] at hnull
        rcases hnull with hnull | hnull
        · exact Nat.le_add_right_of_le (htwo hnull)
        · -- The last argument has put null where the call finds it.
          have hnone : task.pending q = none := by
            rw [hpend, getLast?_eq_some_getLast hnil, ← hnull]
            rfl
          rw [if_pos hnone, count_singleton_self]
          exact Nat.add_le_add_right (hone hnil) 1
    · have hcnt : List.count q (if task.pending p = none then [p] else []) = 0 := by
        split
        · exact count_eq_zero.mpr fun h => hq (mem_singleton.mp h)
        · exact count_nil
      dsimp only
      rw [hother q hq, Option.toList_none, append_nil, Function.update_of_ne hq,
        count_append, hcnt]
      exact ⟨hpend, hone, htwo⟩

theorem exists_run_of_queue (task : TaskUpdates V) (hposting : task.posting = none)
    (hsetting : task.setting = none) :
    ∃ steps task', calls steps = [] ∧ runSteps step task steps = some task' ∧ task'.Idle ∧ ∀ p,
      (task.queue.count p = 0 → task'.property p = task.property p) ∧
      (1 ≤ task.queue.count p → task.pending p = none → task'.property p = none) ∧
      (2 ≤ task.queue.count p → task'.property p = none) := by
  rcases hqueue : task.queue with _ | ⟨p, queue⟩
  · exact ⟨[], task, rfl, rfl, ⟨hqueue, hposting, hsetting⟩, fun p =>
      ⟨fun _ => rfl, fun h => absurd h (by simp), fun h => absurd h (by simp)⟩⟩
  · let after : TaskUpdates V :=
      { task with pending := Function.update task.pending p none, queue := queue,
                  property := Function.update task.property p (task.pending p) }
    have hrun : runSteps step task [.take, .set] = some after := by
      refine runSteps_cons_of (m := task.taken p queue) ?_ ?_
      · simp only [step, hsetting, hqueue]
        rfl
      · rw [runSteps_singleton]
        simp only [step, taken, set, after, hsetting]
    have hlt : after.queue.length < task.queue.length := by
      rw [hqueue]
      exact Nat.lt_succ_self _
    rcases exists_run_of_queue after hposting hsetting with
      ⟨steps, task', hcalls, hrun', hidle, hprop⟩
    refine ⟨[.take, .set] ++ steps, task', ?_, runSteps_append_of hrun hrun', hidle, ?_⟩
    · rw [calls_append, hcalls]
      rfl
    intro q
    rcases hprop q with ⟨hzero, hone, htwo⟩
    by_cases hq : q = p
    · subst hq
      rw [count_cons_self]
      have hpend : after.pending q = none := Function.update_self ..
      refine ⟨fun h => absurd h (Nat.succ_ne_zero _), fun _ hnull => ?_, fun h => ?_⟩
      · by_cases hcnt : queue.count q = 0
        · rw [hzero hcnt]
          exact (Function.update_self ..).trans hnull
        · exact hone (Nat.pos_of_ne_zero hcnt) hpend
      · exact hone (Nat.le_of_succ_le_succ h) hpend
    · rw [count_cons_of_ne (Ne.symm hq)]
      have hpend : after.pending q = task.pending q := Function.update_of_ne hq _ _
      have hsame : after.property q = task.property q := Function.update_of_ne hq _ _
      exact ⟨fun h => (hzero h).trans hsame, fun h hnull => hone h (hpend.trans hnull), htwo⟩
termination_by task.queue.length

/-- Where null has been passed, the last argument is null. -/
def NullsOverwrittenByNull (cs : List (Call V)) : Prop :=
  ∀ p v, (arguments p cs).getLast? = some (some v) → none ∉ arguments p cs

/-- The updates lose a value that nothing overwrites exactly when null has been passed for a
property before a last argument other than null. -/
theorem losesOnlyOverwritten_iff (cs : List (Call V)) :
    (∀ steps, calls steps = cs → LosesOnlyOverwritten steps) ↔ NullsOverwrittenByNull cs := by
  constructor
  · intro h p v hv hnull
    rcases exists_run_of_calls cs with ⟨before, task, hbefore, hrun, hposting, hsetting, hargs⟩
    rcases exists_run_of_queue task hposting hsetting with
      ⟨after, task', hafter, hrun', hidle, hproperty⟩
    have hcalls : calls (before ++ after) = cs := by
      rw [calls_append, hbefore, hafter, append_nil]
    have hlast := (h (before ++ after) hcalls).1 task' (runSteps_append_of hrun hrun') hidle p
      (some v) (hcalls ▸ hv)
    have hnil : arguments p cs ≠ [] := ne_nil_of_mem hnull
    rw [← dropLast_append_getLast hnil, mem_append, mem_singleton] at hnull
    rw [getLast?_eq_some_getLast hnil, Option.some.injEq] at hv
    rw [hv] at hnull
    have htwo := (hargs p).2.2 (hnull.resolve_right nofun)
    rw [(hproperty p).2.2 htwo] at hlast
    cases hlast
  · rintro h steps rfl
    refine ⟨?_, fun moment _ task h p => (run_tracks moment task h p).property_mem⟩
    intro task hrun hidle p v hv
    refine (run_tracks steps task hrun p).property_of_idle hidle hv ?_
    cases v with
    | none => exact .inl rfl
    | some v => exact .inr (h p v hv)

theorem message_after_null_lost : ¬∀ (cs : List (Call Unit)) (steps : List (Step Unit)),
    calls steps = cs → LosesOnlyOverwritten steps := by
  intro h
  have hlost := (h [.updateMessage none, .updateMessage (some "b")]
    [.call (.updateMessage none), .runLater, .call (.updateMessage (some "b")), .runLater,
      .take, .set, .take, .set] rfl).1 _ rfl ⟨rfl, rfl, rfl⟩ .message (some "b") rfl
  cases hlost

end TaskUpdates

end OpenJfx.Concurrent
