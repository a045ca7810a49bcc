import OpenJfx.Data.Interleaving

namespace OpenJfx.Concurrent

open Data List

/-- `Worker.State`. -/
inductive State
  | ready
  | scheduled
  | running
  | succeeded
  | cancelled
  | failed
  deriving DecidableEq

def State.IsTerminal (state : State) : Prop :=
  state = .succeeded ∨ state = .failed ∨ state = .cancelled

namespace TaskState

/-- What `java.util.concurrent.FutureTask` has recorded. -/
inductive Future
  | pending
  | completed
  | cancelled
  deriving DecidableEq

inductive Phase
  | notStarted
  /-- It is in `TaskCallable.call` and has not yet posted the first runnable. -/
  | entered
  /-- It is in the `call` of the task. -/
  | calling
  /-- That has returned a result, or has thrown. -/
  | returned
  | threw
  /-- `isCancelled` has returned false. -/
  | succeeding
  /-- `TaskCallable.call` is over, and `FutureTask` has still to record how. -/
  | finishing
  | done
  deriving DecidableEq

end TaskState

/-- The state property of a `Task` between its worker thread and the FX thread. -/
structure TaskState where
  state : State
  running : Bool
  future : TaskState.Future
  phase : TaskState.Phase
  queue : List (List State)
  /-- What the runnable on the FX thread has still to set. -/
  current : List State

namespace TaskState

def new : TaskState where
  state := .ready
  running := false
  future := .pending
  phase := .notStarted
  queue := []
  current := []

/-- The listeners and handlers that are called here may call `cancel`, which is then the next
step of the FX thread. -/
def setState (task : TaskState) (value : State) : TaskState :=
  if task.state ≠ .cancelled then
    { task with state := value, running := value = .scheduled || value = .running }
  else task

def runLater (task : TaskState) (runnable : List State) : TaskState :=
  { task with queue := task.queue ++ [runnable] }

/-- `FutureTask.cancel`, which returns true exactly when nothing has been recorded yet. -/
def Future.cancel : Future → Bool × Future
  | .pending => (true, .cancelled)
  | .completed => (false, .completed)
  | .cancelled => (false, .cancelled)

/-- `FutureTask.set` and `FutureTask.setException`. -/
def Future.complete : Future → Future
  | .pending => .completed
  | .completed => .completed
  | .cancelled => .cancelled

def cancel (isFxApplicationThread : Bool) (task : TaskState) : TaskState :=
  match task.future.cancel with
  | (flag, future) =>
    let task := { task with future := future }
    if flag then
      if isFxApplicationThread then task.setState .cancelled
      else task.runLater [.cancelled]
    else task

inductive Step
  /-- The worker thread enters `FutureTask.run`. -/
  | start
  | postRunning
  | cancelInCall
  | callReturns
  | callThrows
  | checkCancelled
  | postSucceeded
  | postFailed
  | complete
  /-- The FX thread starts the first runnable of the queue, or sets the next state. -/
  | dequeue
  | setNext
  | cancel
  deriving DecidableEq

def workerStep (task : TaskState) : Step → Option TaskState
  | .start =>
    if task.phase = .notStarted then
      -- A future that has been cancelled does not call its callable.
      if task.future = .pending then some { task with phase := .entered }
      else some { task with phase := .done }
    else none
  | .postRunning =>
    if task.phase = .entered then
      some { task.runLater [.scheduled, .running] with phase := .calling }
    else none
  | .cancelInCall => if task.phase = .calling then some (task.cancel false) else none
  | .callReturns => if task.phase = .calling then some { task with phase := .returned } else none
  | .callThrows => if task.phase = .calling then some { task with phase := .threw } else none
  | .checkCancelled =>
    if task.phase = .returned then
      if task.future ≠ .cancelled then some { task with phase := .succeeding }
      else some { task with phase := .finishing }
    else none
  | .postSucceeded =>
    if task.phase = .succeeding then
      some { task.runLater [.succeeded] with phase := .finishing }
    else none
  | .postFailed =>
    if task.phase = .threw then some { task.runLater [.failed] with phase := .finishing }
    else none
  | .complete =>
    if task.phase = .finishing then
      some { task with future := task.future.complete, phase := .done }
    else none
  | .dequeue | .setNext | .cancel => none

def fxStep (task : TaskState) : Step → Option TaskState
  | .dequeue =>
    match task.current, task.queue with
    | [], runnable :: queue => some { task with current := runnable, queue := queue }
    | _, _ => none
  | .setNext =>
    match task.current with
    | value :: current => some { task.setState value with current := current }
    | [] => none
  | .cancel => some (task.cancel true)
  | _ => none

def step (task : TaskState) (made : Step) : Option TaskState :=
  task.workerStep made <|> task.fxStep made

/-- Whatever comes after a terminal state, it stays. -/
def TerminalIsFinal (steps : List Step) : Prop :=
  ∀ moment later, moment <+: later → later <+: steps →
    ∀ before after, runSteps step new moment = some before → runSteps step new later = some after →
      before.state.IsTerminal → after.state = before.state

/-- `cancel` is not called between the transition to succeeded or failed and the moment when the
future records its result. -/
def NoLateCancel (steps : List Step) : Prop :=
  ∀ moment, moment ++ [.cancel] <+: steps → ∀ task, runSteps step new moment = some task →
    task.state = .succeeded ∨ task.state = .failed → task.future ≠ .pending

variable {task task' : TaskState} {made : Step}

theorem step_cases (h : task.step made = some task') :
    task.workerStep made = some task' ∨ task.fxStep made = some task' := by
  rw [step, Option.orElse_eq_orElse, Option.orElse_eq_or, Option.or_eq_some_iff] at h
  exact h.imp_right And.right

theorem fxStep_cases (h : task.fxStep made = some task') :
    (∃ runnable queue, task.current = [] ∧ task.queue = runnable :: queue ∧
      task' = { task with current := runnable, queue := queue }) ∨
    (∃ value current, task.current = value :: current ∧
      task' = { task.setState value with current := current }) ∨
    (made = .cancel ∧ task' = task.cancel true) := by
  unfold fxStep at h
  split at h
  · split at h
    · next runnable queue hcur hqueue =>
        exact .inl ⟨runnable, queue, hcur, hqueue, (Option.some.inj h).symm⟩
    · cases h
  · split at h
    · next value current hcur =>
        exact .inr (.inl ⟨value, current, hcur, (Option.some.inj h).symm⟩)
    · cases h
  · exact .inr (.inr ⟨rfl, (Option.some.inj h).symm⟩)
  · cases h

def ahead (task : TaskState) : List State := task.current ++ task.queue.flatten

theorem runLater_ahead (task : TaskState) (runnable : List State) :
    (task.runLater runnable).ahead = task.ahead ++ runnable := by
  simp [ahead, runLater]

theorem setState_ahead (task : TaskState) (value : State) :
    (task.setState value).ahead = task.ahead := by
  unfold setState
  split <;> rfl

theorem setState_phase (task : TaskState) (value : State) :
    (task.setState value).phase = task.phase := by
  unfold setState
  split <;> rfl

theorem setState_future (task : TaskState) (value : State) :
    (task.setState value).future = task.future := by
  unfold setState
  split <;> rfl

theorem setState_queue (task : TaskState) (value : State) :
    (task.setState value).queue = task.queue := by
  unfold setState
  split <;> rfl

theorem setState_state (task : TaskState) (value : State) :
    (task.setState value).state = if task.state = .cancelled then .cancelled else value := by
  unfold setState
  by_cases h : task.state = .cancelled
  · rw [if_pos h, if_neg (not_not.mpr h), h]
  · rw [if_neg h, if_pos h]

theorem cancel_of_pending (h : task.future = .pending) (isFxApplicationThread : Bool) :
    task.cancel isFxApplicationThread =
      if isFxApplicationThread then { task with future := .cancelled }.setState .cancelled
      else { task with future := .cancelled }.runLater [.cancelled] := by
  simp only [cancel, h, Future.cancel, if_true]

theorem cancel_of_ne_pending (h : task.future ≠ .pending) (isFxApplicationThread : Bool) :
    task.cancel isFxApplicationThread = task := by
  rcases task with ⟨state, running, future, phase, queue, current⟩
  cases future with
  | pending => exact absurd rfl h
  | completed => rfl
  | cancelled => rfl

/-- The states in the runnables that the worker thread has posted when it comes to a phase. -/
def postings : Phase → List (List State)
  | .notStarted | .entered => [[]]
  | .calling | .returned | .threw =>
    [[.scheduled, .running], [.scheduled, .running, .cancelled]]
  | .succeeding => [[.scheduled, .running]]
  | .finishing | .done =>
    [[], [.scheduled, .running], [.scheduled, .running, .cancelled],
      [.scheduled, .running, .succeeded], [.scheduled, .running, .failed],
      [.scheduled, .running, .cancelled, .failed]]

/-- The states that the FX thread has set, or has passed over after a cancellation. -/
structure HasRun (task : TaskState) (ran : List State) : Prop where
  posted : ran ++ task.ahead ∈ postings task.phase
  future : .cancelled ∈ ran ++ task.ahead → task.future = .cancelled
  state : task.state = .cancelled ∨ .cancelled ∉ ran ∧ task.state = ran.getLast?.getD .ready

def Posts (task task' : TaskState) (runnable : List State) : Prop :=
  task'.state = task.state ∧ task'.ahead = task.ahead ++ runnable ∧
    ∀ l ∈ postings task.phase, (.cancelled ∈ l → task.future = .cancelled) →
      l ++ runnable ∈ postings task'.phase ∧
        (.cancelled ∈ l ++ runnable → task'.future = .cancelled)

theorem posts_nil {phase : Phase}
    (h : ∀ l ∈ postings task.phase, (.cancelled ∈ l → task.future = .cancelled) →
      l ∈ postings phase) : Posts task { task with phase := phase } [] := by
  refine ⟨rfl, (append_nil _).symm, ?_⟩
  intro l hl hfuture
  rw [append_nil]
  exact ⟨h l hl hfuture, hfuture⟩

theorem posts_runLater {phase : Phase} {runnable : List State} (hrunnable : .cancelled ∉ runnable)
    (h : ∀ l ∈ postings task.phase, l ++ runnable ∈ postings phase) :
    Posts task { task.runLater runnable with phase := phase } runnable := by
  refine ⟨rfl, runLater_ahead task runnable, ?_⟩
  intro l hl hfuture
  refine ⟨h l hl, fun hmem => hfuture ?_⟩
  exact (mem_append.mp hmem).resolve_right hrunnable

theorem cancelInCall_posts (hphase : task.phase = .calling) :
    ∃ runnable, Posts task (task.cancel false) runnable := by
  by_cases hpend : task.future = .pending
  · rw [cancel_of_pending hpend, if_neg Bool.false_ne_true]
    refine ⟨[.cancelled], rfl, runLater_ahead _ _, ?_⟩
    intro l hl hfuture
    refine ⟨?_, fun _ => rfl⟩
    change l ++ [.cancelled] ∈ postings task.phase
    rw [hphase] at hl ⊢
    -- The future records a cancellation only once.
    rw [hpend] at hfuture
    rcases mem_pair.mp hl with rfl | rfl
    · decide
    · cases hfuture (by decide)
  · rw [cancel_of_ne_pending hpend]
    exact ⟨[], posts_nil fun l hl _ => hl⟩

theorem workerStep_posts (h : task.workerStep made = some task') :
    ∃ runnable, Posts task task' runnable := by
  cases made with
  | start =>
    simp only [workerStep] at h
    split at h
    · next hphase =>
        split at h
        · cases h
          refine ⟨[], posts_nil ?_⟩
          rw [hphase]
          exact fun l hl _ => hl
        · cases h
          refine ⟨[], posts_nil ?_⟩
          rw [hphase]
          intro l hl _
          rw [mem_singleton.mp hl]
          decide
    · cases h
  | postRunning | postSucceeded | postFailed =>
    simp only [workerStep] at h
    split at h
    · next hphase =>
        cases h
        refine ⟨_, posts_runLater (by decide) ?_⟩
        rw [hphase]
        decide
    · cases h
  | cancelInCall =>
    simp only [workerStep] at h
    split at h
    · next hphase =>
        cases h
        exact cancelInCall_posts hphase
    · cases h
  | callReturns | callThrows =>
    simp only [workerStep] at h
    split at h
    · next hphase =>
        cases h
        refine ⟨[], posts_nil ?_⟩
        rw [hphase]
        exact fun l hl _ => hl
    · cases h
  | checkCancelled =>
    simp only [workerStep] at h
    split at h
    · next hphase =>
        split at h
        · next hfuture =>
            cases h
            refine ⟨[], posts_nil ?_⟩
            rw [hphase]
            intro l hl hcanc
            rcases mem_pair.mp hl with rfl | rfl
            · decide
            · exact absurd (hcanc (by decide)) hfuture
        · cases h
          refine ⟨[], posts_nil ?_⟩
          rw [hphase]
          intro l hl _
          rcases mem_pair.mp hl with rfl | rfl <;> decide
    · cases h
  | complete =>
    simp only [workerStep] at h
    split at h
    · next hphase =>
        cases h
        refine ⟨[], rfl, (append_nil _).symm, ?_⟩
        intro l hl hfuture
        rw [hphase] at hl
        rw [append_nil]
        refine ⟨hl, fun hmem => ?_⟩
        rw [hfuture hmem]
        rfl
    · cases h
  | dequeue | setNext | cancel => cases h

variable {ran : List State}

theorem workerStep_hasRun (h : task.HasRun ran) (hstep : task.workerStep made = some task') :
    task'.HasRun ran := by
  rcases workerStep_posts hstep with ⟨runnable, hst, hahead, hposts⟩
  rcases hposts (ran ++ task.ahead) h.posted h.future with ⟨hposted, hfuture⟩
  rw [append_assoc, ← hahead] at hposted hfuture
  exact ⟨hposted, hfuture, hst ▸ h.state⟩

theorem setNext_hasRun {current : List State} {value : State} (h : task.HasRun ran)
    (hcur : task.current = value :: current) :
    ({ task.setState value with current := current } : TaskState).HasRun (ran ++ [value]) := by
  have hahead : (ran ++ [value]) ++
      ({ task.setState value with current := current } : TaskState).ahead = ran ++ task.ahead := by
    simp [ahead, hcur, setState_queue]
  constructor
  case posted =>
    rw [hahead]
    exact (setState_phase task value).symm ▸ h.posted
  case future =>
    rw [hahead]
    exact (setState_future task value).symm ▸ h.future
  case state =>
    rw [setState_state, getLast?_concat]
    by_cases hcanc : task.state = .cancelled
    · exact .inl (if_pos hcanc)
    · rw [if_neg hcanc]
      by_cases hval : value = .cancelled
      · exact .inl hval
      · have hran := (h.state.resolve_left hcanc).1
        refine .inr ⟨fun hmem => ?_, rfl⟩
        rcases mem_append.mp hmem with hmem | hmem
        · exact hran hmem
        · exact hval (mem_singleton.mp hmem).symm

theorem cancel_hasRun (h : task.HasRun ran) :
    (task.cancel true).HasRun ran := by
  by_cases hpend : task.future = .pending
  · rw [cancel_of_pending hpend, if_pos rfl]
    constructor
    case posted =>
      rw [setState_phase, setState_ahead]
      exact h.posted
    case future =>
      intro _
      rw [setState_future]
    case state =>
      rw [setState_state, ite_self]
      exact .inl rfl
  · rw [cancel_of_ne_pending hpend]
    exact h

theorem fxStep_hasRun (h : task.HasRun ran) (hstep : task.fxStep made = some task') :
    ∃ ran, task'.HasRun ran := by
  rcases fxStep_cases hstep with ⟨runnable, queue, hcur, hqueue, rfl⟩ |
    ⟨value, current, hcur, rfl⟩ | ⟨-, rfl⟩
  · have hahead : ({ task with current := runnable, queue := queue } : TaskState).ahead =
        task.ahead := by
      rw [ahead, ahead, hcur, hqueue, flatten_cons, nil_append]
    refine ⟨ran, ?_, ?_, h.state⟩
    · rw [hahead]
      exact h.posted
    · rw [hahead]
      exact h.future
  · exact ⟨ran ++ [value], setNext_hasRun h hcur⟩
  · exact ⟨ran, cancel_hasRun h⟩

theorem run_hasRun (steps : List Step) (task : TaskState)
    (h : runSteps step new steps = some task) : ∃ ran, task.HasRun ran := by
  refine runSteps_induction (P := fun _ task => ∃ ran, task.HasRun ran) ?_ ?_ steps task h
  · exact ⟨[], ⟨by decide, by decide, .inr (by decide)⟩⟩
  · rintro _ task made task' _ ⟨ran, hran⟩ hstep
    rcases step_cases hstep with hstep | hstep
    · exact ⟨ran, workerStep_hasRun hran hstep⟩
    · exact fxStep_hasRun hran hstep

theorem eq_posting_of_mem_inits (phase : Phase) : ∀ l ∈ postings phase, ∀ ran ∈ l.inits,
    .cancelled ∉ ran → ran.getLast?.getD .ready = .succeeded ∨ ran.getLast?.getD .ready = .failed →
      ran = l := by
  cases phase <;> decide

theorem HasRun.ahead_eq_nil (h : task.HasRun ran)
    (hst : task.state = .succeeded ∨ task.state = .failed) : task.ahead = [] := by
  have hran : .cancelled ∉ ran ∧ task.state = ran.getLast?.getD .ready := by
    refine h.state.resolve_left fun hcanc => ?_
    rw [hcanc] at hst
    exact hst.elim nofun nofun
  rw [hran.2] at hst
  have hinit : ran ∈ (ran ++ task.ahead).inits :=
    (mem_inits _ _).mpr (prefix_append _ _)
  exact self_eq_append_right.mp (eq_posting_of_mem_inits _ _ h.posted ran hinit hran.1 hst)

theorem step_state_of_isTerminal (h : task.HasRun ran) (hterm : task.state.IsTerminal)
    (hcancel : made = .cancel → task.state = .succeeded ∨ task.state = .failed →
      task.future ≠ .pending) (hstep : task.step made = some task') : task'.state = task.state := by
  rcases step_cases hstep with hstep | hstep
  · rcases workerStep_posts hstep with ⟨_, hst, -⟩
    exact hst
  by_cases hcanc : task.state = .cancelled
  · have hset : ∀ value, (task.setState value).state = task.state := by
      intro value
      rw [setState_state, if_pos hcanc, hcanc]
    rcases fxStep_cases hstep with ⟨_, _, _, _, rfl⟩ | ⟨value, _, _, rfl⟩ | ⟨-, rfl⟩
    · rfl
    · exact hset value
    · by_cases hpend : task.future = .pending
      · rw [cancel_of_pending hpend, if_pos rfl, setState_state, ite_self, hcanc]
      · rw [cancel_of_ne_pending hpend]
  · have hst : task.state = .succeeded ∨ task.state = .failed := by
      rcases hterm with hst | hst | hst
      · exact .inl hst
      · exact .inr hst
      · exact absurd hst hcanc
    have hahead := h.ahead_eq_nil hst
    rcases fxStep_cases hstep with ⟨_, _, _, _, rfl⟩ | ⟨value, current, hcur, rfl⟩ | ⟨rfl, rfl⟩
    · rfl
    · rw [ahead, hcur] at hahead
      cases hahead
    · rw [cancel_of_ne_pending (hcancel rfl hst)]

/-- A terminal state is final exactly in the runs without a late `cancel`. -/
theorem terminalIsFinal_iff (steps : List Step) :
    TerminalIsFinal steps ↔ NoLateCancel steps := by
  constructor
  · intro h moment hmoment task hrun hstate hpending
    have hcancel : runSteps step new (moment ++ [.cancel]) = some (task.cancel true) :=
      runSteps_concat_iff.mpr ⟨task, hrun, rfl⟩
    have hterminal : task.state.IsTerminal := hstate.elim .inl fun hfailed => .inr (.inl hfailed)
    have hfinal := h moment _ (prefix_append _ _) hmoment task _ hrun hcancel hterminal
    rw [cancel_of_pending hpending, if_pos rfl, setState_state, ite_self] at hfinal
    rw [← hfinal] at hstate
    exact hstate.elim nofun nofun
  · rintro h moment later ⟨after, rfl⟩ hlater before last hbefore hlast hterminal
    induction after using List.reverseRecOn generalizing last with
    | nil =>
      rw [append_nil, hbefore] at hlast
      cases hlast
      rfl
    | append_singleton after made ih =>
      rw [← append_assoc] at hlast hlater
      rcases runSteps_concat_iff.mp hlast with ⟨task, htask, hstep⟩
      have hstate := ih ((prefix_append _ _).trans hlater) task htask
      rcases run_hasRun _ task htask with ⟨ran, hran⟩
      rw [← hstate] at hterminal ⊢
      refine step_state_of_isTerminal hran hterminal ?_ hstep
      rintro rfl
      exact h _ hlater task htask

/-- The FX thread has run the succeeding runnable and calls `cancel` before the future has
recorded the result. -/
theorem succeeded_then_cancelled : ¬∀ steps, TerminalIsFinal steps := by
  intro h
  have hfinal := h
    [.start, .postRunning, .callReturns, .checkCancelled, .postSucceeded, .dequeue, .setNext,
      .setNext, .dequeue, .setNext, .cancel]
    [.start, .postRunning, .callReturns, .checkCancelled, .postSucceeded, .dequeue, .setNext,
      .setNext, .dequeue, .setNext] _ (prefix_append _ [.cancel]) (prefix_refl _)
    _ _ rfl rfl (.inl rfl)
  cases hfinal

end TaskState

end OpenJfx.Concurrent
