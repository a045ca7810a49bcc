import OpenJfx.Concurrent.TaskState

/-!
`ScheduledService` between the FX thread, the timer thread and the threads that run its tasks.
The FX thread is a stack of what it has still to do. Whenever a state changes, code of the
application is called, which may call the service again.

Durations and the clock are left open: whether a task waits for the delay timer is up to the
environment. Assertions are off.
-/

namespace OpenJfx.Concurrent.ScheduledService

open Concurrent.TaskState (Future)

structure Timer where
  task : Option Nat
  waiting : Bool

inductive Runnable
  /-- The states that the callable of a task posts. -/
  | states (t : Nat) (values : List State)
  | delayed (task : Option Nat)

inductive Frame
  /-- Event handlers, and the method named for the state, which a subclass may override. -/
  | handlers
  /-- The end of the `try` block around a listener. -/
  | caught
  | setState (t : Nat) (value : State)
  | setRunning (t : Nat) (value : State)
  | stopping
  /-- The rest of the block of `Service.restart` that cancels the task. -/
  | dropping
  | reset
  | start
  | resetting
  | executing
  /-- The two statements of the runnable of a timer task. -/
  | executeTaskNow (task : Option Nat)
  | clearDelayTask
  | succeeded
  | failed
  /-- The rest of `ScheduledService.succeeded`. -/
  | iterating (wasCancelled : Bool)
  /-- The second statement of `cancelFromReadyState`. -/
  | setCancelled
  deriving DecidableEq

def Runnable.frames : Runnable → List Frame
  | .states t values => values.map (.setState t)
  | .delayed task => [.executeTaskNow task, .clearDelayTask]

structure System where
  /-- The tasks, in the order in which they have been created. -/
  tasks : List TaskState
  task : Option Nat
  state : State
  /-- The task to whose state the state of the service is bound. -/
  bound : Option Nat
  stop : Bool
  freshStart : Bool
  delayTask : Option Nat
  restartOnFailure : Bool
  maximumFailureCount : Int
  currentFailureCount : Int
  timers : List Timer
  /-- What has been handed to the executor. -/
  submitted : List Nat
  queue : List Runnable
  stack : List Frame
  /-- `cancel` has returned, and neither `reset` nor `restart` has been called since. -/
  cancelled : Bool

inductive Call
  | start
  | restart
  | reset
  | cancel

inductive Action
  /-- The application calls the service, in a handler or while the FX thread is idle. -/
  | call (c : Call)
  | configure (restartOnFailure : Bool) (maximumFailureCount : Int)
  /-- A handler throws. -/
  | throws
  /-- The FX thread goes on with the top of its stack, or takes the next runnable. -/
  | next (pauses : Bool)
  | poll
  | timer (d : Nat)
  | worker (t : Nat) (made : TaskState.Step)

/-- An exception goes up to the code of the application or to the end of a `try` block. -/
def unwind : List Frame → List Frame
  | [] => []
  | .handlers :: stack => .handlers :: stack
  | .caught :: stack => stack
  | _ :: stack => unwind stack

namespace System

def init : System where
  tasks := []
  task := none
  state := .ready
  bound := none
  stop := false
  freshStart := true
  delayTask := none
  restartOnFailure := true
  maximumFailureCount := 2147483647
  currentFailureCount := 0
  timers := []
  submitted := []
  queue := []
  stack := []
  cancelled := false

def push (s : System) (frames : List Frame) : System := { s with stack := frames ++ s.stack }

def throw (s : System) : System := { s with stack := unwind s.stack }

/-- The method of `ScheduledService` that the listener of the state calls. -/
def hook : State → List Frame
  | .succeeded => [.succeeded]
  | .failed => [.failed]
  | _ => []

def fire (s : System) (value : State) : System :=
  s.push (.handlers :: hook value ++ [.handlers, .caught])

def setServiceState (s : System) (value : State) : System :=
  if s.bound.isSome then s.throw
  else if s.state = value then s
  else { s with state := value }.fire value

def setTaskState (s : System) (t : Nat) (value : State) : System :=
  match s.tasks[t]? with
  | none => s
  | some task =>
    if task.state = .cancelled then s
    else
      let s := { s with tasks := s.tasks.set t { task with state := value } }
      let s := s.push [.setRunning t value]
      if s.bound = some t ∧ s.state ≠ value then { s with state := value }.fire value else s

def taskCancel (s : System) (t : Nat) : System :=
  match s.tasks[t]? with
  | none => s
  | some task =>
    let (flag, future) := task.future.cancel
    let s := { s with tasks := s.tasks.set t { task with future := future } }
    if flag then s.setTaskState t .cancelled else s

def serviceCancel (s : System) : System :=
  match s.task with
  | none =>
    if s.state = .cancelled ∨ s.state = .succeeded then s else s.setServiceState .cancelled
  | some t => s.taskCancel t

def cancel (s : System) : System := (s.push [.stopping]).serviceCancel

/-- What follows when `Service.cancel` has returned. -/
def stopped (s : System) : System :=
  { s with
    stop := true
    timers :=
      match s.delayTask with
      | some d => s.timers.modify d fun timer => { timer with waiting := false }
      | none => s.timers
    delayTask := none
    cancelled := true }

def superReset (s : System) : System :=
  if s.state = .scheduled ∨ s.state = .running then s.throw
  else { s with task := none, bound := none }.setServiceState .ready

def reset (s : System) : System := ({ s with cancelled := false }.push [.resetting]).superReset

def restart (s : System) : System :=
  let s := { s with cancelled := false }
  match s.task with
  | some t => (s.push [.dropping, .reset, .start]).taskCancel t
  | none => (s.push [.start]).reset

def start (s : System) : System :=
  if s.state ≠ .ready then s.throw
  else
    let t := s.tasks.length
    let s := { s with tasks := s.tasks ++ [TaskState.new], task := some t, bound := some t }
    (s.push [.executing]).setTaskState t .scheduled

/-- What is handed to the executor when the task is null never runs a task. -/
def executeTaskNow (s : System) (task : Option Nat) : System :=
  { s with freshStart := false, submitted := s.submitted ++ task.toList }

def executeTask (s : System) (task : Option Nat) (pauses : Bool) : System :=
  if pauses then
    { s with delayTask := some s.timers.length, timers := s.timers ++ [⟨task, true⟩] }
  else s.executeTaskNow task

def succeeded (s : System) : System := (s.push [.iterating s.stop]).superReset

/-- The service is started again after one more failure. -/
def restartsAfterFailure (s : System) : Bool :=
  s.restartOnFailure && s.currentFailureCount + 1 < s.maximumFailureCount

def failed (s : System) : System :=
  let restarts := s.restartsAfterFailure
  let s := { s with currentFailureCount := s.currentFailureCount + 1 }
  if restarts then (s.push [.start]).superReset else s

/-- The FX thread goes on with a frame that it has taken from its stack. -/
def resume (s : System) (pauses : Bool) : Frame → System
  | .handlers | .caught => s
  | .setState t value => s.setTaskState t value
  | .setRunning t value =>
    { s with
      tasks := s.tasks.modify t fun task =>
        { task with running := value = State.scheduled || value = State.running } }.push
      [.handlers]
  | .stopping => s.stopped
  | .dropping => { s with task := none, bound := none }.setServiceState .cancelled
  | .reset => s.reset
  | .start => s.start
  | .resetting => { s with stop := false, currentFailureCount := 0, freshStart := true }
  | .executing => s.executeTask s.task pauses
  | .executeTaskNow task => s.executeTaskNow task
  | .clearDelayTask => { s with delayTask := none }
  | .succeeded => s.succeeded
  | .failed => s.failed
  | .iterating wasCancelled =>
    -- `cancelFromReadyState` or `start`
    if wasCancelled then (s.push [.setCancelled]).setServiceState .scheduled else s.start
  | .setCancelled => s.setServiceState .cancelled

/-- Code of the application runs on the FX thread, or can be run. -/
def inApplication (s : System) : Bool :=
  match s.stack with
  | [] => true
  | .handlers :: _ => true
  | _ => false

def call (s : System) : Call → System
  | .start => s.start
  | .restart => s.restart
  | .reset => s.reset
  | .cancel => s.cancel

def step (s : System) : Action → Option System
  | .call c => if s.inApplication then some (s.call c) else none
  | .configure restartOnFailure maximumFailureCount =>
    if s.inApplication then some { s with restartOnFailure, maximumFailureCount } else none
  | .throws =>
    match s.stack with
    | .handlers :: stack => some { s with stack }.throw
    | _ => none
  | .next pauses =>
    match s.stack with
    | f :: stack => some ({ s with stack }.resume pauses f)
    | [] => none
  | .poll =>
    match s.stack, s.queue with
    | [], r :: queue => some ({ s with queue }.push r.frames)
    | _, _ => none
  | .timer d =>
    match s.timers[d]? with
    | some ⟨task, true⟩ =>
      some { s with
        timers := s.timers.set d ⟨task, false⟩
        queue := s.queue ++ [.delayed task] }
    | _ => none
  | .worker t made =>
    if made = .start ∧ t ∉ s.submitted then none
    else do
      let task ← s.tasks[t]?
      let task ← { task with queue := [] }.workerStep made
      some { s with
        tasks := s.tasks.set t { task with queue := [] }
        queue := s.queue ++ task.queue.map (.states t) }

def steps (s : System) (actions : List Action) : Option System := actions.foldlM step s

def Begins (s : System) (t : Nat) : Prop :=
  ∃ s' task, s.step (.worker t .start) = some s' ∧ s'.tasks[t]? = some task ∧
    task.phase = .entered

/-- After a cancel no body begins until `reset` or `restart` is called. -/
def StopsAfterCancel (s : System) : Prop := s.cancelled = true → ∀ t, ¬s.Begins t

def Fresh (s : System) (t : Nat) : Prop :=
  ∃ task, s.tasks[t]? = some task ∧ task.phase = .notStarted ∧ task.future = .pending

/-- Nothing takes a cancel back: not `failed`, which does not look at `stop`; nor `reset`, which
clears it when one of its handlers has cancelled, while a task or `succeeded` is still to come.
Handlers of `cancel` do not call `reset` or `restart`, handlers of `succeeded` do not call `start`
after a cancel, and `restart` does not lose a task that its own handlers have started. -/
def Safe (s : System) : Action → Prop
  | .call .start => ¬(s.cancelled = true ∧ s.state = .ready)
  | .call .reset => .stopping ∉ s.stack
  | .call .restart => .stopping ∉ s.stack
  | .next _ =>
    match s.stack with
    | .failed :: _ =>
      ¬(s.cancelled = true ∧ s.restartsAfterFailure = true ∧ s.state ≠ .scheduled ∧
        s.state ≠ .running)
    | .resetting :: stack =>
      s.cancelled = true → .succeeded ∉ stack ∧
        ∀ t task, s.bound = some t → s.tasks[t]? = some task → task.state = .cancelled
    | .dropping :: _ => ∀ t, s.task = some t → ¬s.Fresh t
    | _ => True
  | _ => True

end System

/-- The states of runs whose actions all meet the condition. -/
inductive Reached (condition : System → Action → Prop) : System → Prop
  | init : Reached condition .init
  | step {s s' : System} (a : Action) (h : Reached condition s) (met : condition s a)
      (result : s.step a = some s') : Reached condition s'

end OpenJfx.Concurrent.ScheduledService
