import OpenJfx.Monocle.RunnableQueue
import Mathlib.Data.List.Nodup

/-!
Nested event loops on Monocle: `com.sun.glass.ui.EventLoop` over the stack of run loops of
`RunnableProcessor`. What the event thread has called and not yet returned from is part of the
state.
-/

namespace OpenJfx.Monocle.NestedEventLoops

open Java.Arrays (Outcome)

inductive LoopState
  | idle
  | active
  | leaving
  deriving DecidableEq

structure EventLoop (V : Type) where
  state : LoopState
  returnValue : Option V

/-- What is posted: a runnable of the application, or the one that `enter()` posts at its end. -/
inductive Runnable (R : Type)
  | user (r : R)
  | leaveInnermost

structure RunLoopControl (L : Type) where
  active : Bool
  release : Option L

/-- A call of `runLoop`: its control, the object whose `enter()` has made the call, and whether a
runnable is running in it. The call from `run()` has no such object. -/
structure Frame (L : Type) where
  control : Nat
  loop : Option L
  running : Bool

/-- The objects and the calls of the event thread, the innermost one first. -/
structure Machine (L R V : Type) where
  loops : L → EventLoop V
  stack : List L
  nestedEventLoopCounter : Nat
  controls : List (RunLoopControl L)
  activeRunLoops : List Nat
  queue : RunnableQueue (Runnable R)
  frames : List (Frame L)

inductive Failure
  | illegalState (message : String)
  | assertion (message : String)
  | noSuchElement
  | queue (failure : OpenJfx.Java.Arrays.Failure)

abbrev Call := Except Failure

inductive Action (L R V : Type)
  | post (r : R)
  | enter (l : L)
  | leave (l : L) (v : V)
  | finish
  | next
  | exit

/-- What is to be seen of the actions from outside. -/
inductive Event (L R V : Type)
  | posted (r : Runnable R)
  | started (r : Runnable R)
  | entered (l : L)
  | left (l : L) (v : V)
  | returned (l : L) (v : Option V)

namespace Machine

variable {L R V : Type}

def runLoop (m : Machine L R V) (loop : Option L) : Machine L R V :=
  { m with
    controls := m.controls ++ [⟨true, none⟩]
    activeRunLoops := m.controls.length :: m.activeRunLoops
    frames := ⟨m.controls.length, loop, false⟩ :: m.frames }

def init : Machine L R V :=
  runLoop ⟨fun _ => ⟨.idle, none⟩, [], 0, [], [], .new, []⟩ none

def invokeLater (m : Machine L R V) (r : Runnable R) : Call (Machine L R V) :=
  match m.queue.postRunnable r with
  | .ok queue => .ok { m with queue }
  | .error failure => .error (.queue failure)

def leaveNestedEventLoop (m : Machine L R V) (retValue : L) : Call (Machine L R V) :=
  if m.nestedEventLoopCounter = 0 then .error (.illegalState "Not in a nested event loop")
  else
    match m.activeRunLoops with
    | current :: activeRunLoops =>
      .ok { m with
        activeRunLoops
        controls := m.controls.modify current fun _ => ⟨false, some retValue⟩ }
    | [] => .error .noSuchElement

/-- A runnable is running, and not waiting for a nested loop. -/
def running (m : Machine L R V) : Bool := m.frames.head?.any (·.running)

def setRunning (m : Machine L R V) (running : Bool) : Machine L R V :=
  match m.frames with
  | frame :: frames => { m with frames := { frame with running } :: frames }
  | [] => m

/-- The condition of the innermost run loop. -/
def controlActive (m : Machine L R V) : Bool :=
  m.frames.head?.any fun frame => m.controls[frame.control]?.any (·.active)

section

variable [DecidableEq L]

def setLoop (m : Machine L R V) (l : L) (loop : EventLoop V) : Machine L R V :=
  { m with loops := Function.update m.loops l loop }

def enter (m : Machine L R V) (l : L) : Call (Machine L R V) :=
  if (m.loops l).state ≠ .idle then .error (.illegalState "The event loop object isn't idle")
  else
    let m := m.setLoop l { m.loops l with state := .active }
    let m := { m with
      stack := l :: m.stack
      nestedEventLoopCounter := m.nestedEventLoopCounter + 1 }
    .ok (m.runLoop (some l))

def leave (m : Machine L R V) (l : L) (v : V) : Call (Machine L R V) :=
  if (m.loops l).state ≠ .active then .error (.illegalState "The event loop object isn't active")
  else
    let m := m.setLoop l ⟨.leaving, some v⟩
    if m.stack.head? = some l then m.leaveNestedEventLoop l else .ok m

def innermostLeaving (m : Machine L R V) : Option L :=
  m.stack.head?.filter fun l => (m.loops l).state = .leaving

/-- The runnable that `enter()` posts. -/
def leaveInnermost (m : Machine L R V) : Call (Machine L R V) :=
  match m.innermostLeaving with
  | some loop => m.leaveNestedEventLoop loop
  | none => .ok m

def popLoop (m : Machine L R V) (l : L) : Machine L R V :=
  { m.setLoop l ⟨.idle, none⟩ with stack := m.stack.tail }

def finallyBlock (m : Machine L R V) (l : L) :
    Call (Machine L R V × List (Event L R V)) := do
  let m := m.popLoop l
  match m.innermostLeaving with
  | some _ => do
    let m ← m.invokeLater .leaveInnermost
    .ok (m, [.posted .leaveInnermost])
  | none => .ok (m, [])

/-- The innermost run loop has ended, and the call of `enter()` returns. -/
def exit (m : Machine L R V) : Call (Machine L R V × List (Event L R V)) :=
  match m.frames with
  | [] => .error .noSuchElement
  | ⟨_, none, _⟩ :: frames => .ok ({ m with frames }, [])
  | ⟨control, some l, _⟩ :: frames =>
    let ret := m.controls[control]?.bind (·.release)
    let m := { m with frames, nestedEventLoopCounter := m.nestedEventLoopCounter - 1 }
    if ret ≠ some l then .error (.assertion "Internal inconsistency - wrong EventLoop")
    else if m.stack.head? ≠ some l then
      .error (.assertion "Internal inconsistency - corrupted event loops stack")
    else if (m.loops l).state ≠ .leaving then
      .error (.assertion "The event loop isn't leaving")
    else do
      let result := (m.loops l).returnValue
      let (m, events) ← m.finallyBlock l
      .ok (m, events ++ [.returned l result])

/-- The innermost run loop takes the next runnable; the one that `enter()` posts runs to its end
at once. -/
def next (m : Machine L R V) : Call (Machine L R V × List (Event L R V)) :=
  match m.queue.getNextRunnable with
  | .error failure => .error (.queue failure)
  | .ok (none, _) => .error (.queue .nullPointer)
  | .ok (some (.user r), queue) =>
    .ok (({ m with queue } : Machine L R V).setRunning true, [.started (.user r)])
  | .ok (some .leaveInnermost, queue) => do
    let m ← leaveInnermost { m with queue }
    .ok (m, [.started .leaveInnermost])

def step (m : Machine L R V) : Action L R V → Call (Machine L R V × List (Event L R V))
  | .post r => do
    let m ← m.invokeLater (.user r)
    .ok (m, [.posted (.user r)])
  | .enter l => do
    let m ← m.enter l
    .ok (m, [.entered l])
  | .leave l v => do
    let m ← m.leave l v
    .ok (m, [.left l v])
  | .finish => .ok (m.setRunning false, [])
  | .next => m.next
  | .exit => m.exit

/-- What can happen next: a runnable runs on or the run loop goes on; runnables are posted at any
time. Loops that are entered are idle, and loops that are left are active. -/
def Enabled (m : Machine L R V) : Action L R V → Prop
  | .post _ => True
  | .enter l => m.running = true ∧ (m.loops l).state = .idle
  | .leave l _ => m.running = true ∧ (m.loops l).state = .active
  | .finish => m.running = true
  | .next => m.running = false ∧ m.controlActive = true ∧ 0 < m.queue.count
  | .exit => m.running = false ∧ m.controlActive = false

end

end Machine

/-- The runs of the event thread, with what is to be seen of them. -/
inductive Run {L R V : Type} [DecidableEq L] : Machine L R V → List (Event L R V) → Prop
  | init : Run .init []
  | step {m m' : Machine L R V} {past events : List (Event L R V)} (a : Action L R V)
      (run : Run m past) (enabled : m.Enabled a) (result : m.step a = .ok (m', events)) :
      Run m' (past ++ events)

open scoped List
open List

variable {L R V : Type}

/-- What the event thread is to be: the loops that have been entered, the innermost one first, each
with the value it has been left with; and the runnables that have not been started yet. -/
structure Spec (L R V : Type) where
  entered : List (L × Option V)
  pending : List (Runnable R)

/-- What the specification allows: runnables start in the order in which they are posted, a loop
is entered that is not entered already, it is left once, and then its `enter()` returns the value,
as soon as it is the innermost one. -/
inductive Spec.Allows : Spec L R V → Event L R V → Spec L R V → Prop
  | posted (entered : List (L × Option V)) (pending : List (Runnable R)) (r : Runnable R) :
      Allows ⟨entered, pending⟩ (.posted r) ⟨entered, pending ++ [r]⟩
  | started (entered : List (L × Option V)) (pending : List (Runnable R)) (r : Runnable R) :
      Allows ⟨entered, r :: pending⟩ (.started r) ⟨entered, pending⟩
  | entered (entered : List (L × Option V)) (pending : List (Runnable R)) (l : L)
      (new : l ∉ entered.map Prod.fst) :
      Allows ⟨entered, pending⟩ (.entered l) ⟨(l, none) :: entered, pending⟩
  | left (inner outer : List (L × Option V)) (pending : List (Runnable R)) (l : L) (v : V) :
      Allows ⟨inner ++ (l, none) :: outer, pending⟩ (.left l v)
        ⟨inner ++ (l, some v) :: outer, pending⟩
  | returned (entered : List (L × Option V)) (pending : List (Runnable R)) (l : L) (v : V) :
      Allows ⟨(l, some v) :: entered, pending⟩ (.returned l (some v)) ⟨entered, pending⟩

inductive Spec.Run : Spec L R V → List (Event L R V) → Spec L R V → Prop
  | nil (s : Spec L R V) : Run s [] s
  | cons {s s' s'' : Spec L R V} {e : Event L R V} {events : List (Event L R V)}
      (h : Allows s e s') (rest : Run s' events s'') : Run s (e :: events) s''

namespace Event

def posted? : Event L R V → Option (Runnable R)
  | .posted r => some r
  | _ => none

def started? : Event L R V → Option (Runnable R)
  | .started r => some r
  | _ => none

def entered? : Event L R V → Option L
  | .entered l => some l
  | _ => none

def returned? : Event L R V → Option L
  | .returned l _ => some l
  | _ => none

/-- The value that is given to `leave` of the loop `l`. -/
def leftWith? [DecidableEq L] (l : L) : Event L R V → Option V
  | .left l' v => if l' = l then some v else none
  | _ => none

end Event

section

variable {s s' s'' : Spec L R V} {e : Event L R V} {events : List (Event L R V)}

theorem Spec.Run.single (h : Spec.Allows s e s') : Spec.Run s [e] s' :=
  .cons h (.nil s')

theorem Spec.Run.append {events' : List (Event L R V)}
    (h : Spec.Run s events s') (h' : Spec.Run s' events' s'') :
    Spec.Run s (events ++ events') s'' := by
  induction h with
  | nil => exact h'
  | cons hallows _ ih => exact .cons hallows (ih h')

theorem Spec.Run.split {events' : List (Event L R V)} (h : Spec.Run s (events ++ events') s'') :
    ∃ s', Spec.Run s events s' ∧ Spec.Run s' events' s'' := by
  induction events generalizing s with
  | nil => exact ⟨s, .nil s, h⟩
  | cons e events ih =>
    rcases h with _ | ⟨hallows, hrest⟩
    rcases ih hrest with ⟨s', hrun, hrun'⟩
    exact ⟨s', .cons hallows hrun, hrun'⟩

theorem Spec.Run.posted_eq (h : Spec.Run s events s') :
    s.pending ++ events.filterMap Event.posted? =
      events.filterMap Event.started? ++ s'.pending := by
  induction h with
  | nil => rw [filterMap_nil, filterMap_nil, append_nil, nil_append]
  | cons hallows _ ih =>
    cases hallows with
    | posted entered pending r =>
      change pending ++ r :: _ = _
      rw [append_cons]
      exact ih
    | started entered pending r => exact congrArg (r :: ·) ih
    | entered => exact ih
    | left => exact ih
    | returned => exact ih

theorem Spec.Allows.nodup (h : Spec.Allows s e s') (hnd : (s.entered.map Prod.fst).Nodup) :
    (s'.entered.map Prod.fst).Nodup := by
  cases h with
  | posted => exact hnd
  | started => exact hnd
  | entered entered pending l new => exact nodup_cons.mpr ⟨new, hnd⟩
  | left inner outer pending l v =>
    rw [map_append] at hnd ⊢
    exact hnd
  | returned => exact (nodup_cons.mp hnd).2

theorem Spec.Run.nodup (h : Spec.Run s events s') (hnd : (s.entered.map Prod.fst).Nodup) :
    (s'.entered.map Prod.fst).Nodup := by
  induction h with
  | nil => exact hnd
  | cons hallows _ ih => exact ih (hallows.nodup hnd)

end

theorem append_cons_eq_append_cons {α : Type} {front back front' back' : List α} {x y : α}
    (h : front ++ x :: back = front' ++ y :: back') :
    (∃ mid, front' = front ++ x :: mid ∧ back = mid ++ y :: back') ∨
      (front = front' ∧ x = y ∧ back = back') ∨
      ∃ mid, front = front' ++ y :: mid ∧ back' = mid ++ x :: back := by
  rcases append_eq_append_iff.mp h with ⟨mid, rfl, hmid⟩ | ⟨mid, rfl, hmid⟩
  · rcases cons_eq_append_iff.mp hmid with ⟨rfl, heq⟩ | ⟨mid, rfl, rfl⟩
    · cases heq
      exact .inr (.inl ⟨(append_nil _).symm, rfl, rfl⟩)
    · exact .inl ⟨mid, rfl, rfl⟩
  · rcases cons_eq_append_iff.mp hmid with ⟨rfl, heq⟩ | ⟨mid, rfl, rfl⟩
    · cases heq
      exact .inr (.inl ⟨append_nil _, rfl, rfl⟩)
    · exact .inr (.inr ⟨mid, rfl, rfl⟩)

section

variable [DecidableEq L] {s s' : Spec L R V} {e : Event L R V} {events : List (Event L R V)}
  {l : L} {inner outer : List (L × Option V)} {o : Option V}

theorem Spec.Allows.inside (h : Spec.Allows s e s') (hnd : (s.entered.map Prod.fst).Nodup)
    (hentered : s.entered = inner ++ (l, o) :: outer) (hnot : e.returned? ≠ some l) :
    ∃ inner' o' outer', s'.entered = inner' ++ (l, o') :: outer' ∧
      (inner.map Prod.fst ++ e.entered?.toList).Perm
        (e.returned?.toList ++ inner'.map Prod.fst) ∧
      o'.toList = o.toList ++ (e.leftWith? l).toList := by
  cases h with
  | posted | started => exact ⟨inner, o, outer, hentered, by simp [Event.entered?, Event.returned?],
      by simp [Event.leftWith?]⟩
  | entered entered pending l' new =>
    refine ⟨(l', none) :: inner, o, outer, congrArg ((l', none) :: ·) hentered, ?_,
      (append_nil _).symm⟩
    exact perm_append_singleton l' (inner.map Prod.fst)
  | left front back pending l' v =>
    have hsame : ∀ {x : L}, x ≠ l → (Event.left x v : Event L R V).leftWith? l = none :=
      fun hne => if_neg hne
    rw [map_append, map_cons, nodup_middle, nodup_cons,
      mem_append] at hnd
    rcases append_cons_eq_append_cons hentered with ⟨mid, rfl, rfl⟩ | ⟨rfl, heq, rfl⟩ |
      ⟨mid, rfl, rfl⟩
    · have hne : l' ≠ l := by
        rintro rfl
        exact hnd.1 (.inr (by simp))
      refine ⟨front ++ (l', some v) :: mid, o, outer, by simp, ?_, ?_⟩
      · simp [Event.entered?, Event.returned?]
      · rw [hsame hne]
        exact (append_nil _).symm
    · cases heq
      refine ⟨front, some v, back, rfl, ?_, ?_⟩
      · simp [Event.entered?, Event.returned?]
      · simp [Event.leftWith?]
    · have hne : l' ≠ l := by
        rintro rfl
        exact hnd.1 (.inl (by simp))
      refine ⟨inner, o, mid ++ (l', some v) :: back, by simp, ?_, ?_⟩
      · simp [Event.entered?, Event.returned?]
      · rw [hsame hne]
        exact (append_nil _).symm
  | returned entered pending l' v =>
    rcases inner with _ | ⟨x, inner⟩
    · cases hentered
      exact absurd rfl hnot
    · cases hentered
      refine ⟨inner, o, outer, rfl, ?_, (append_nil _).symm⟩
      change (l' :: inner.map Prod.fst ++ []).Perm (l' :: inner.map Prod.fst)
      rw [append_nil]

theorem Spec.Run.inside (h : Spec.Run s events s') :
    ∀ {inner outer : List (L × Option V)} {o : Option V}, (s.entered.map Prod.fst).Nodup →
      s.entered = inner ++ (l, o) :: outer → (∀ e ∈ events, e.returned? ≠ some l) →
      ∃ inner' o' outer', s'.entered = inner' ++ (l, o') :: outer' ∧
        (inner.map Prod.fst ++ events.filterMap Event.entered?).Perm
          (events.filterMap Event.returned? ++ inner'.map Prod.fst) ∧
        o'.toList = o.toList ++ events.filterMap (Event.leftWith? l) := by
  induction h with
  | nil =>
    intro inner outer o _ hentered _
    exact ⟨inner, o, outer, hentered, by simp, by simp⟩
  | @cons s s₁ s' e events hallows _ ih =>
    intro inner outer o hnd hentered hnot
    rcases hallows.inside hnd hentered (hnot e mem_cons_self) with
      ⟨inner₁, o₁, outer₁, hentered₁, hperm₁, ho₁⟩
    rcases ih (hallows.nodup hnd) hentered₁
      (fun d hd => hnot d (mem_cons_of_mem e hd)) with
      ⟨inner', o', outer', hentered', hperm', ho'⟩
    refine ⟨inner', o', outer', hentered', ?_, ?_⟩
    · have hcons : ∀ {β : Type} (f : Event L R V → Option β),
          (e :: events).filterMap f = (f e).toList ++ events.filterMap f := by
        intro β f
        rw [filterMap_cons]
        rcases f e with _ | x
        · rfl
        · rfl
      rw [hcons, hcons]
      calc inner.map Prod.fst ++ (e.entered?.toList ++ events.filterMap Event.entered?)
          = inner.map Prod.fst ++ e.entered?.toList ++ events.filterMap Event.entered? :=
            (append_assoc _ _ _).symm
        _ ~ e.returned?.toList ++ inner₁.map Prod.fst ++ events.filterMap Event.entered? :=
            hperm₁.append_right _
        _ = e.returned?.toList ++ (inner₁.map Prod.fst ++ events.filterMap Event.entered?) :=
            append_assoc _ _ _
        _ ~ e.returned?.toList ++ (events.filterMap Event.returned? ++ inner'.map Prod.fst) :=
            hperm'.append_left _
        _ = e.returned?.toList ++ events.filterMap Event.returned? ++ inner'.map Prod.fst :=
            (append_assoc _ _ _).symm
    · rw [ho', ho₁, filterMap_cons, append_assoc]
      rcases e.leftWith? l with _ | v
      · rfl
      · rfl

theorem Spec.Run.enter_returns {before inside after : List (Event L R V)} {w : Option V}
    (h : Spec.Run ⟨[], []⟩ (before ++ .entered l :: (inside ++ .returned l w :: after)) s')
    (hnot : ∀ e ∈ inside, e.returned? ≠ some l) :
    ∃ v, w = some v ∧ inside.filterMap (Event.leftWith? l) = [v] ∧
      (inside.filterMap Event.entered?).Perm (inside.filterMap Event.returned?) := by
  rcases h.split with ⟨s₁, hbef, _ | ⟨hentered, hrest⟩⟩
  have hnd := hentered.nodup (hbef.nodup nodup_nil)
  rcases hrest.split with ⟨s₂, hinside, _ | ⟨hreturned, -⟩⟩
  rcases hentered with _ | _ | ⟨entered, pending, _, new⟩
  rcases hinside.inside hnd (show _ = [] ++ (l, none) :: entered from rfl) hnot with
    ⟨inner', o', outer', heq, hperm, ho⟩
  have hnd' := hinside.nodup hnd
  rcases hreturned with _ | _ | _ | _ | ⟨rest, pending', _, v⟩
  have hinner : inner' = [] := by
    rcases inner' with _ | ⟨x, inner'⟩
    · rfl
    · cases heq
      rw [map_cons, nodup_cons] at hnd'
      exact absurd (by simp) hnd'.1
  subst hinner
  cases heq
  exact ⟨v, rfl, ho.symm, by simpa using hperm⟩

end

end OpenJfx.Monocle.NestedEventLoops
