import Mathlib.Data.List.Pairwise
import Mathlib.Data.List.Sort

/-!
`com.sun.glass.ui.InvokeLaterDispatcher` between the threads that call `invokeLater` and the event
thread, which enters and leaves nested event loops. The native system runs what is submitted to it
in order, also in a loop that is being left.
-/

namespace OpenJfx.Glass.InvokeLaterDispatcher

/-- Where the thread of the dispatcher stands in `run()`. -/
inductive Position
  | taking
  /-- A runnable has been taken, and `leavingNestedEventLoop` is read next. -/
  | testing (r : Nat)
  | deferring
  /-- No loop was being left, and the runnable is submitted next. -/
  | submitting (r : Nat)
  /-- The future of the runnable has been submitted. -/
  | waiting (r : Nat)

inductive LoopStatus
  | running
  /-- `leaveNestedEventLoop` has been called, by a runnable or by a native event handler. -/
  | leftBy (r : Option Nat)

/-- What the event thread has begun: code that it runs, and nested loops. -/
inductive Frame
  | runnable (r : Nat)
  | handler
  | loop (status : LoopStatus)

def Frame.runnable? : Frame → Option Nat
  | .runnable r => some r
  | _ => none

def Frame.isLoop : Frame → Bool
  | .loop _ => true
  | _ => false

/-- The dispatcher, what it has submitted to the native system, and the event thread with its
innermost frame first. Runnables are named by the order of the calls of `invokeLater`. -/
structure System where
  posted : Nat
  deque : List Nat
  position : Position
  nestedEventLoopEntered : Bool
  leavingNestedEventLoop : Bool
  submitted : List Nat
  done : List Nat
  stack : List Frame

inductive Action
  | invokeLater
  -- the thread of the dispatcher
  | take
  | test
  | resume
  | submit
  | wake
  -- the event thread
  | start
  | handle
  | finish
  | enter
  | leave
  | returns

namespace System

def init : System :=
  { posted := 0
    deque := []
    position := .taking
    nestedEventLoopEntered := false
    leavingNestedEventLoop := false
    submitted := []
    done := []
    stack := [] }

/-- The event thread is in a native loop, the outermost one or a nested one. -/
def inLoop (s : System) : Bool := s.stack.head?.all Frame.isLoop

def step (s : System) : Action → Option System
  | .invokeLater => some { s with posted := s.posted + 1, deque := s.deque ++ [s.posted] }
  | .take =>
    match s.position, s.deque with
    | .taking, r :: deque => some { s with position := .testing r, deque }
    | _, _ => none
  | .test =>
    match s.position with
    | .testing r =>
      if s.leavingNestedEventLoop then
        some { s with position := .deferring, deque := r :: s.deque }
      else some { s with position := .submitting r }
    | _ => none
  | .resume =>
    match s.position with
    | .deferring =>
      if s.leavingNestedEventLoop then none else some { s with position := .taking }
    | _ => none
  | .submit =>
    match s.position with
    | .submitting r => some { s with position := .waiting r, submitted := s.submitted ++ [r] }
    | _ => none
  | .wake =>
    match s.position with
    | .waiting r =>
      if r ∈ s.done ∨ s.nestedEventLoopEntered then
        some { s with position := .taking, nestedEventLoopEntered := false }
      else none
    | _ => none
  | .start =>
    match s.submitted with
    | r :: submitted =>
      if s.inLoop then some { s with submitted, stack := .runnable r :: s.stack } else none
    | [] => none
  | .handle => if s.inLoop then some { s with stack := .handler :: s.stack } else none
  | .finish =>
    match s.stack with
    | .runnable r :: stack => some { s with stack, done := r :: s.done }
    | .handler :: stack => some { s with stack }
    | _ => none
  -- `notifyEnteringNestedEventLoop`, and the native loop begins
  | .enter =>
    if s.inLoop then none
    else some { s with nestedEventLoopEntered := true, stack := .loop .running :: s.stack }
  -- `notifyLeavingNestedEventLoop`, and the native loop is told to end
  | .leave =>
    match s.stack with
    | code :: .loop .running :: stack =>
      if s.inLoop then none
      else some { s with
        leavingNestedEventLoop := true
        stack := code :: .loop (.leftBy code.runnable?) :: stack }
    | _ => none
  -- the native loop has ended, and `notifyLeftNestedEventLoop` follows
  | .returns =>
    match s.stack with
    | .loop (.leftBy _) :: stack => some { s with leavingNestedEventLoop := false, stack }
    | _ => none

def steps (s : System) (actions : List Action) : Option System := actions.foldlM step s

/-- The run can be continued to a state with the property. -/
def Continues (s : System) (property : System → Prop) : Prop :=
  ∃ actions s', s.steps actions = some s' ∧ property s'

/-- No runnable has been started inside a loop that an earlier one has left. -/
def NotEarly (s : System) : Prop :=
  ∀ above x rest, s.stack = above ++ .loop (.leftBy (some x)) :: rest →
    ∀ y, .runnable y ∈ above → y ≤ x

def Safe (s : System) : Action → Prop
  | .leave =>
    ∀ x rest, s.stack = .runnable x :: rest →
      s.submitted = [] ∧ ∀ r, s.position ≠ .submitting r
  | .enter => ∀ x, .loop (.leftBy (some x)) ∉ s.stack
  | _ => True

end System

/-- The states of runs whose actions all meet the condition. -/
inductive Reached (condition : System → Action → Prop) : System → Prop
  | init : Reached condition .init
  | step {s s' : System} (a : Action) (h : Reached condition s) (met : condition s a)
      (result : s.step a = some s') : Reached condition s'

open InvokeLaterDispatcher.System List

variable {s s' : System} {a : Action}

def LastInLoop (s : System) : Prop :=
  ∀ above x rest, s.stack = above ++ .loop (.leftBy (some x)) :: rest →
    (∀ f ∈ above, f.isLoop = false) ∧ s.leavingNestedEventLoop = true ∧ s.submitted = [] ∧
      (∀ r, s.position ≠ .submitting r) ∧ ∀ y, .runnable y ∈ above → y ≤ x

theorem LastInLoop.notEarly (h : LastInLoop s) : s.NotEarly :=
  fun above x rest heq => (h above x rest heq).2.2.2.2

theorem lastInLoop_of_none (h : ∀ x, .loop (.leftBy (some x)) ∉ s.stack) : LastInLoop s := by
  intro above x rest heq
  exact absurd (heq ▸ mem_append_right above mem_cons_self) (h x)

theorem LastInLoop.waits (h : LastInLoop s) (hstack : s'.stack = s.stack)
    (hleaving : s'.leavingNestedEventLoop = s.leavingNestedEventLoop)
    (hsubm : s.submitted = [] → (∀ r, s.position ≠ .submitting r) → s'.submitted = [])
    (hposition : s.leavingNestedEventLoop = true → (∀ r, s.position ≠ .submitting r) →
      ∀ r, s'.position ≠ .submitting r) : LastInLoop s' := by
  intro above x rest heq
  rw [hstack] at heq
  rcases h above x rest heq with ⟨hcode, hleft, hnone, hpos, hearly⟩
  exact ⟨hcode, hleaving.trans hleft, hsubm hnone hpos, hposition hleft hpos, hearly⟩

variable {f : Frame}

theorem LastInLoop.push (h : LastInLoop s) (hf : f.isLoop = false) (hnone : ∀ y, f ≠ .runnable y)
    (hstack : s'.stack = f :: s.stack)
    (hleaving : s'.leavingNestedEventLoop = s.leavingNestedEventLoop)
    (hsubm : s'.submitted = s.submitted) (hposition : s'.position = s.position) :
    LastInLoop s' := by
  intro above x rest heq
  rw [hstack] at heq
  rcases cons_eq_append_iff.mp heq with ⟨rfl, heq⟩ | ⟨above, rfl, heq⟩
  · cases heq
    cases hf
  · rcases h above x rest (List.cons.inj heq).2 with ⟨hcode, hleft, hemp, hpos, hearly⟩
    refine ⟨?_, hleaving.trans hleft, hsubm.trans hemp, hposition ▸ hpos, ?_⟩
    · intro g hg
      rcases mem_cons.mp hg with rfl | hg
      · exact hf
      · exact hcode g hg
    · intro y hy
      rcases mem_cons.mp hy with hy | hy
      · exact absurd hy.symm (hnone y)
      · exact hearly y hy

theorem LastInLoop.pop (h : LastInLoop s) (hstack : s.stack = f :: s'.stack)
    (hleaving : s'.leavingNestedEventLoop = s.leavingNestedEventLoop)
    (hsubm : s'.submitted = s.submitted) (hposition : s'.position = s.position) :
    LastInLoop s' := by
  intro above x rest heq
  have heq' : s.stack = (f :: above) ++ .loop (.leftBy (some x)) :: rest := by
    rw [hstack, heq]
    rfl
  rcases h _ x rest heq' with ⟨hcode, hleft, hemp, hpos, hearly⟩
  exact ⟨fun g hg => hcode g (mem_cons_of_mem f hg), hleaving.trans hleft,
    hsubm.trans hemp, hposition ▸ hpos, fun y hy => hearly y (mem_cons_of_mem f hy)⟩

theorem LastInLoop.outer (h : LastInLoop s) {inner outer : List Frame} {status : LoopStatus}
    (hstack : s.stack = inner ++ .loop status :: outer) (x : Nat) :
    .loop (.leftBy (some x)) ∉ outer := by
  intro hmem
  rcases append_of_mem hmem with ⟨above, rest, rfl⟩
  have heq : s.stack = (inner ++ .loop status :: above) ++ .loop (.leftBy (some x)) :: rest := by
    rw [hstack, append_assoc]
    rfl
  have hcode := (h _ x rest heq).1 (.loop status)
    (mem_append_right inner mem_cons_self)
  cases hcode

theorem LastInLoop.leave (h : LastInLoop s) {code : Frame} {stack : List Frame}
    (hstack : s.stack = code :: .loop .running :: stack) (hcode : code.isLoop = false)
    (hsafe : s.Safe .leave) :
    LastInLoop { s with
      leavingNestedEventLoop := true
      stack := code :: .loop (.leftBy code.runnable?) :: stack } := by
  have houter := h.outer (show s.stack = [code] ++ .loop .running :: stack from hstack)
  intro above x rest heq
  rcases above with _ | ⟨f, _ | ⟨g, above⟩⟩
  · rw [(List.cons.inj heq).1] at hcode
    cases hcode
  · obtain rfl : code = f := (List.cons.inj heq).1
    have hx : code.runnable? = some x :=
      LoopStatus.leftBy.inj (Frame.loop.inj (List.cons.inj (List.cons.inj heq).2).1)
    rcases code with y | _ | status
    · cases hx
      rcases hsafe x _ hstack with ⟨hemp, hpos⟩
      refine ⟨?_, rfl, hemp, hpos, ?_⟩
      · intro f hf
        rw [mem_singleton.mp hf]
        rfl
      · intro y hy
        cases mem_singleton.mp hy
        exact Nat.le_refl x
    · cases hx
    · cases hx
  · have htail := (List.cons.inj (List.cons.inj heq).2).2
    exact absurd (htail ▸ mem_append_right above mem_cons_self) (houter x)

theorem step_lastInLoop (h : LastInLoop s) (hsafe : s.Safe a) (hstep : s.step a = some s') :
    LastInLoop s' := by
  cases a with
  | invokeLater =>
    cases hstep
    exact h.waits rfl rfl (fun hnone _ => hnone) fun _ hpos => hpos
  | take =>
    rw [step] at hstep
    split at hstep
    · cases hstep
      exact h.waits rfl rfl (fun hnone _ => hnone) fun _ _ _ heq => nomatch heq
    · cases hstep
  | test =>
    rw [step] at hstep
    split at hstep
    · split at hstep
      · cases hstep
        exact h.waits rfl rfl (fun hnone _ => hnone) fun _ _ _ heq => nomatch heq
      · rename_i hnot
        cases hstep
        exact h.waits rfl rfl (fun hnone _ => hnone) fun hleft => absurd hleft hnot
    · cases hstep
  | resume =>
    rw [step] at hstep
    split at hstep
    · split at hstep
      · cases hstep
      · cases hstep
        exact h.waits rfl rfl (fun hnone _ => hnone) fun _ _ _ heq => nomatch heq
    · cases hstep
  | submit =>
    rw [step] at hstep
    split at hstep
    · rename_i r hposition
      cases hstep
      exact h.waits rfl rfl (fun _ hpos => absurd hposition (hpos r))
        fun _ _ _ heq => nomatch heq
    · cases hstep
  | wake =>
    rw [step] at hstep
    split at hstep
    · split at hstep
      · cases hstep
        exact h.waits rfl rfl (fun hnone _ => hnone) fun _ _ _ heq => nomatch heq
      · cases hstep
    · cases hstep
  | start =>
    rw [step] at hstep
    split at hstep
    · rename_i r submitted hsubm
      split at hstep
      · cases hstep
        refine lastInLoop_of_none fun x hmem => ?_
        rcases mem_cons.mp hmem with heq | hmem
        · cases heq
        · rcases append_of_mem hmem with ⟨above, rest, heq⟩
          have hnone := (h above x rest heq).2.2.1
          rw [hsubm] at hnone
          cases hnone
      · cases hstep
    · cases hstep
  | handle =>
    rw [step] at hstep
    split at hstep
    · cases hstep
      exact h.push (f := .handler) rfl (fun y heq => nomatch heq) rfl rfl rfl rfl
    · cases hstep
  | finish =>
    rw [step] at hstep
    split at hstep
    · rename_i r stack hstack
      cases hstep
      exact h.pop hstack rfl rfl rfl
    · rename_i stack hstack
      cases hstep
      exact h.pop hstack rfl rfl rfl
    · cases hstep
  | enter =>
    rw [step] at hstep
    split at hstep
    · cases hstep
    · cases hstep
      refine lastInLoop_of_none fun x hmem => ?_
      rcases mem_cons.mp hmem with heq | hmem
      · cases heq
      · exact hsafe x hmem
  | leave =>
    rw [step] at hstep
    split at hstep
    · rename_i code stack hstack
      split at hstep
      · cases hstep
      · rename_i hcode
        cases hstep
        rw [inLoop, hstack] at hcode
        exact h.leave hstack (Bool.not_eq_true _ ▸ hcode) hsafe
    · cases hstep
  | returns =>
    rw [step] at hstep
    split at hstep
    · rename_i by_ stack hstack
      cases hstep
      refine lastInLoop_of_none fun x hmem => ?_
      exact h.outer (show s.stack = [] ++ .loop (.leftBy by_) :: stack from hstack) x hmem
    · cases hstep

theorem reached_lastInLoop (h : Reached Safe s) : LastInLoop s := by
  induction h with
  | init => exact lastInLoop_of_none fun x hmem => not_mem_nil hmem
  | step a _ hsafe hstep ih => exact step_lastInLoop ih hsafe hstep

def held : Position → List Nat
  | .testing r => [r]
  | .submitting r => [r]
  | _ => []

def System.unstarted (s : System) : List Nat := s.submitted ++ held s.position ++ s.deque

def Frame.named? : Frame → Option Nat
  | .runnable r => some r
  | .loop (.leftBy r) => r
  | _ => none

def Alternates : List Frame → Prop
  | [] => True
  | f :: rest => f.isLoop = !rest.head?.all Frame.isLoop ∧ Alternates rest

/-- Runnables are started in the order of the calls of `invokeLater`, and loops are entered and
left by code that runs in a loop. -/
structure Ordered (s : System) : Prop where
  sorted : s.unstarted.Pairwise (· < ·)
  unstarted_lt : ∀ r ∈ s.unstarted, r < s.posted
  begun_lt : ∀ f ∈ s.stack, ∀ x ∈ f.named?, x < s.posted ∧ ∀ r ∈ s.unstarted, x < r
  alternates : Alternates s.stack

theorem Ordered.same (h : Ordered s) (hunst : s'.unstarted = s.unstarted)
    (hposted : s'.posted = s.posted)
    (hbegun : ∀ f ∈ s'.stack, ∀ x ∈ f.named?, ∃ g ∈ s.stack, x ∈ g.named?)
    (halternates : Alternates s'.stack) : Ordered s' where
  sorted := hunst ▸ h.sorted
  unstarted_lt := by
    rw [hunst, hposted]
    exact h.unstarted_lt
  begun_lt := by
    intro f hf x hx
    rcases hbegun f hf x hx with ⟨g, hg, hx⟩
    rw [hunst, hposted]
    exact h.begun_lt g hg x hx
  alternates := halternates

theorem Ordered.waits (h : Ordered s) (hunst : s'.unstarted = s.unstarted)
    (hposted : s'.posted = s.posted) (hstack : s'.stack = s.stack) : Ordered s' :=
  h.same hunst hposted (fun f hf _ hx => ⟨f, hstack ▸ hf, hx⟩) (hstack ▸ h.alternates)

theorem Ordered.push (h : Ordered s) (hunst : s'.unstarted = s.unstarted)
    (hposted : s'.posted = s.posted) (hstack : s'.stack = f :: s.stack) (hf : f.named? = none)
    (hloop : f.isLoop = !s.inLoop) : Ordered s' := by
  refine h.same hunst hposted ?_ (hstack ▸ ⟨hloop, h.alternates⟩)
  intro g hg x hx
  rw [hstack] at hg
  rcases mem_cons.mp hg with rfl | hg
  · rw [hf] at hx
    cases hx
  · exact ⟨g, hg, hx⟩

theorem Ordered.pop (h : Ordered s) (hunst : s'.unstarted = s.unstarted)
    (hposted : s'.posted = s.posted) (hstack : s.stack = f :: s'.stack) : Ordered s' := by
  have halternates := h.alternates
  rw [hstack] at halternates
  refine h.same hunst hposted ?_ halternates.2
  intro g hg x hx
  exact ⟨g, hstack ▸ mem_cons_of_mem f hg, hx⟩

theorem step_ordered (h : Ordered s) (hstep : s.step a = some s') : Ordered s' := by
  cases a with
  | invokeLater =>
    cases hstep
    have hunst : System.unstarted { s with
        posted := s.posted + 1, deque := s.deque ++ [s.posted] } =
        s.unstarted ++ [s.posted] := (append_assoc _ _ _).symm
    have hmem : ∀ r ∈ s.unstarted ++ [s.posted], r ∈ s.unstarted ∨ r = s.posted :=
      fun r hr => (mem_append.mp hr).imp_right mem_singleton.mp
    refine ⟨?_, ?_, ?_, h.alternates⟩
    · rw [hunst, pairwise_append]
      refine ⟨h.sorted, pairwise_singleton _ _, fun r hr r' hr' => ?_⟩
      rw [mem_singleton.mp hr']
      exact h.unstarted_lt r hr
    · rw [hunst]
      intro r hr
      rcases hmem r hr with hr | rfl
      · exact Nat.lt_succ_of_lt (h.unstarted_lt r hr)
      · exact Nat.lt_succ_self _
    · rw [hunst]
      intro f hf x hx
      rcases h.begun_lt f hf x hx with ⟨hposted, hlt⟩
      refine ⟨Nat.lt_succ_of_lt hposted, fun r hr => ?_⟩
      rcases hmem r hr with hr | rfl
      · exact hlt r hr
      · exact hposted
  | take =>
    rw [step] at hstep
    split at hstep
    · rename_i r deque hpos hdeque
      cases hstep
      refine h.waits ?_ rfl rfl
      rw [unstarted, unstarted, hpos, hdeque, append_assoc, append_assoc]
      rfl
    · cases hstep
  | test =>
    rw [step] at hstep
    split at hstep
    · rename_i r hpos
      split at hstep
      · cases hstep
        refine h.waits ?_ rfl rfl
        rw [unstarted, unstarted, hpos, append_assoc, append_assoc]
        rfl
      · cases hstep
        refine h.waits ?_ rfl rfl
        rw [unstarted, unstarted, hpos]
        rfl
    · cases hstep
  | resume =>
    rw [step] at hstep
    split at hstep
    · rename_i hpos
      split at hstep
      · cases hstep
      · cases hstep
        refine h.waits ?_ rfl rfl
        rw [unstarted, unstarted, hpos]
        rfl
    · cases hstep
  | submit =>
    rw [step] at hstep
    split at hstep
    · rename_i r hpos
      cases hstep
      refine h.waits ?_ rfl rfl
      rw [unstarted, unstarted, hpos]
      exact congrArg (· ++ s.deque) (append_nil _)
    · cases hstep
  | wake =>
    rw [step] at hstep
    split at hstep
    · rename_i r hpos
      split at hstep
      · cases hstep
        refine h.waits ?_ rfl rfl
        rw [unstarted, unstarted, hpos]
        rfl
      · cases hstep
    · cases hstep
  | start =>
    rw [step] at hstep
    split at hstep
    · rename_i r submitted hsubm
      split at hstep
      · rename_i hloop
        cases hstep
        have hunst : s.unstarted =
            r :: (submitted ++ held s.position ++ s.deque) := by
          rw [unstarted, hsubm]
          rfl
        have hsort := pairwise_cons.mp (hunst ▸ h.sorted)
        have hrest : ∀ r' ∈ submitted ++ held s.position ++ s.deque, r' ∈ s.unstarted :=
          fun r' hr' => hunst ▸ mem_cons_of_mem r hr'
        have hr := h.unstarted_lt r (hunst ▸ mem_cons_self)
        refine ⟨hsort.2, fun r' hr' => h.unstarted_lt r' (hrest r' hr'), ?_,
          (congrArg (!·) hloop).symm, h.alternates⟩
        intro f hf x hx
        rcases mem_cons.mp hf with rfl | hf
        · cases hx
          exact ⟨hr, hsort.1⟩
        · rcases h.begun_lt f hf x hx with ⟨hposted, hlt⟩
          exact ⟨hposted, fun r' hr' => hlt r' (hrest r' hr')⟩
      · cases hstep
    · cases hstep
  | handle =>
    rw [step] at hstep
    split at hstep
    · rename_i hloop
      cases hstep
      exact h.push (f := .handler) rfl rfl rfl rfl (by rw [hloop]; rfl)
    · cases hstep
  | finish =>
    rw [step] at hstep
    split at hstep
    · rename_i r stack hstack
      cases hstep
      exact h.pop rfl rfl hstack
    · rename_i stack hstack
      cases hstep
      exact h.pop rfl rfl hstack
    · cases hstep
  | enter =>
    rw [step] at hstep
    split at hstep
    · cases hstep
    · rename_i hloop
      cases hstep
      exact h.push (f := .loop .running) rfl rfl rfl rfl
        (by rw [Bool.eq_false_iff.mpr hloop]; rfl)
  | leave =>
    rw [step] at hstep
    split at hstep
    · rename_i code stack hstack
      split at hstep
      · cases hstep
      · cases hstep
        have halternates := h.alternates
        rw [hstack] at halternates
        refine h.same rfl rfl ?_ halternates
        intro f hf x hx
        rw [hstack]
        rcases mem_cons.mp hf with rfl | hf
        · exact ⟨f, mem_cons_self, hx⟩
        · rcases mem_cons.mp hf with rfl | hf
          · refine ⟨code, mem_cons_self, ?_⟩
            rcases code with y | _ | status
            · exact hx
            · cases hx
            · cases hx
          · exact ⟨f, mem_cons_of_mem _ (mem_cons_of_mem _ hf), hx⟩
    · cases hstep
  | returns =>
    rw [step] at hstep
    split at hstep
    · rename_i by_ stack hstack
      cases hstep
      exact h.pop rfl rfl hstack
    · cases hstep

theorem reached_ordered {condition : System → Action → Prop} (h : Reached condition s) :
    Ordered s := by
  induction h with
  | init =>
    exact ⟨List.Pairwise.nil, (fun _ hr => nomatch hr), (fun _ hf => nomatch hf), trivial⟩
  | step a _ _ hstep ih => exact step_ordered ih hstep

theorem Continues.step {s₁ : System} {property : System → Prop} (hstep : s.step a = some s₁)
    (h : s₁.Continues property) : s.Continues property := by
  rcases h with ⟨actions, s', hsteps, hprop⟩
  refine ⟨a :: actions, s', ?_, hprop⟩
  rw [steps, foldlM_cons, hstep]
  exact hsteps

theorem continues_refl {property : System → Prop} (h : property s) : s.Continues property :=
  ⟨[], s, rfl, h⟩

theorem not_notEarly {r x : Nat} {rest : List Frame}
    (hstack : s.stack = .runnable r :: .loop (.leftBy (some x)) :: rest) (hlt : x < r) :
    ¬s.NotEarly := by
  intro h
  have := h [.runnable r] x rest hstack r mem_cons_self
  omega

section

variable {code : Frame} {rest : List Frame} {r x : Nat}

theorem start_continues {submitted : List Nat} (hcode : code.isLoop = false)
    (hstack : s.stack = code :: .loop (.leftBy (some x)) :: rest)
    (hsubm : s.submitted = r :: submitted) (hlt : x < r) :
    s.Continues fun s => ¬s.NotEarly := by
  rcases s with
    ⟨posted, deque, position, entered, leaving, submitted', done, stack⟩
  cases hstack
  cases hsubm
  rcases code with y | _ | status
  · exact Continues.step (a := .finish) rfl
      (Continues.step (a := .start) rfl (continues_refl (not_notEarly rfl hlt)))
  · exact Continues.step (a := .finish) rfl
      (Continues.step (a := .start) rfl (continues_refl (not_notEarly rfl hlt)))
  · cases hcode

theorem submit_continues (hcode : code.isLoop = false)
    (hstack : s.stack = code :: .loop (.leftBy (some x)) :: rest)
    (hsubm : s.submitted = []) (hpos : s.position = .submitting r) (hlt : x < r) :
    s.Continues fun s => ¬s.NotEarly := by
  have hstep : s.step .submit = some { s with position := .waiting r, submitted := [r] } := by
    rw [step, hpos, hsubm]
    rfl
  exact Continues.step hstep (start_continues hcode hstack rfl hlt)

theorem test_continues (hcode : code.isLoop = false)
    (hstack : s.stack = code :: .loop (.leftBy (some x)) :: rest)
    (hsubm : s.submitted = []) (hleaving : s.leavingNestedEventLoop = false)
    (hpos : s.position = .testing r) (hlt : x < r) :
    s.Continues fun s => ¬s.NotEarly := by
  have hstep : s.step .test = some { s with position := .submitting r } := by
    rw [step, hpos, hleaving]
    rfl
  exact Continues.step hstep (submit_continues hcode hstack hsubm rfl hlt)

theorem take_continues {deque : List Nat} (hcode : code.isLoop = false)
    (hstack : s.stack = code :: .loop (.leftBy (some x)) :: rest)
    (hsubm : s.submitted = []) (hleaving : s.leavingNestedEventLoop = false)
    (hpos : s.position = .taking) (hdeque : s.deque = r :: deque) (hlt : x < r) :
    s.Continues fun s => ¬s.NotEarly := by
  have hstep : s.step .take = some { s with position := .testing r, deque } := by
    rw [step, hpos, hdeque]
  exact Continues.step hstep (test_continues hcode hstack hsubm hleaving rfl hlt)

theorem taking_continues (hcode : code.isLoop = false)
    (hstack : s.stack = code :: .loop (.leftBy (some x)) :: rest)
    (hsubm : s.submitted = []) (hleaving : s.leavingNestedEventLoop = false)
    (hpos : s.position = .taking) (hposted : x < s.posted) (hlt : ∀ r ∈ s.deque, x < r) :
    s.Continues fun s => ¬s.NotEarly := by
  have hstep : s.step .invokeLater =
    some { s with posted := s.posted + 1, deque := s.deque ++ [s.posted] } := rfl
  refine Continues.step hstep ?_
  have hnext : ∃ r deque, s.deque ++ [s.posted] = r :: deque ∧ x < r := by
    rcases hdeque : s.deque with _ | ⟨r, deque⟩
    · exact ⟨s.posted, [], rfl, hposted⟩
    · exact ⟨r, deque ++ [s.posted], rfl, hlt r (hdeque ▸ mem_cons_self)⟩
  rcases hnext with ⟨r, deque, hdeque, hlt⟩
  exact take_continues hcode hstack hsubm hleaving hpos hdeque hlt

theorem left_continues (hposted : x < s.posted) (hlt : ∀ r ∈ s.unstarted, x < r)
    (hcode : code.isLoop = false) (hstack : s.stack = code :: .loop (.leftBy (some x)) :: rest)
    (hsubm : s.submitted = []) (hleaving : s.leavingNestedEventLoop = false)
    (hentered : s.nestedEventLoopEntered = true) :
    s.Continues fun s => ¬s.NotEarly := by
  have hdeque : ∀ r ∈ s.deque, x < r := fun r hr => hlt r (mem_append_right _ hr)
  have hheld : ∀ r ∈ held s.position, x < r :=
    fun r hr => hlt r (mem_append_left _ (mem_append_right _ hr))
  cases hpos : s.position with
  | taking => exact taking_continues hcode hstack hsubm hleaving hpos hposted hdeque
  | testing r =>
    exact test_continues hcode hstack hsubm hleaving hpos
      (hheld r (by rw [hpos]; exact mem_cons_self))
  | deferring =>
    have hstep : s.step .resume = some { s with position := .taking } := by
      rw [step, hpos, hleaving]
      rfl
    exact Continues.step hstep
      (taking_continues hcode hstack hsubm hleaving rfl hposted hdeque)
  | submitting r =>
    exact submit_continues hcode hstack hsubm hpos
      (hheld r (by rw [hpos]; exact mem_cons_self))
  | waiting r =>
    have hstep : s.step .wake =
        some { s with position := .taking, nestedEventLoopEntered := false } := by
      rw [step, hpos, hentered]
      exact if_pos (.inr rfl)
    exact Continues.step hstep
      (taking_continues hcode hstack hsubm hleaving rfl hposted hdeque)

end

theorem leave_continues (h : Ordered s) (hstep : s.step .leave = some s')
    (hnotSafe : ¬s.Safe .leave) : s'.Continues fun s => ¬s.NotEarly := by
  have hnotSafe : ∃ x rest, s.stack = .runnable x :: rest ∧
      ¬(s.submitted = [] ∧ ∀ r, s.position ≠ .submitting r) := by
    by_contra hnone
    exact hnotSafe fun x rest hstack => by_contra fun hnot => hnone ⟨x, rest, hstack, hnot⟩
  rcases hnotSafe with ⟨x, rest, hstack, hsubmitting⟩
  have hlt := (h.begun_lt (.runnable x) (hstack ▸ mem_cons_self) x rfl).2
  rw [step, hstack] at hstep
  split at hstep
  · rename_i code stack heq
    cases heq
    rw [inLoop, hstack] at hstep
    cases hstep
    rcases hsubm : s.submitted with _ | ⟨r, submitted⟩
    · rw [hsubm] at hsubmitting
      have hpos : ∃ r, s.position = .submitting r := by
        by_contra hnone
        exact hsubmitting ⟨rfl, fun r hr => hnone ⟨r, hr⟩⟩
      rcases hpos with ⟨r, hpos⟩
      refine submit_continues (show (Frame.runnable x).isLoop = false from rfl) rfl rfl hpos
        (hlt r ?_)
      rw [unstarted, hpos]
      exact mem_append_left _ (mem_append_right _ mem_cons_self)
    · refine start_continues (show (Frame.runnable x).isLoop = false from rfl) rfl rfl (hlt r ?_)
      rw [unstarted, hsubm]
      exact mem_append_left _ (mem_append_left _ mem_cons_self)
  · cases hstep

theorem enter_continues (h : Ordered s) (hlast : LastInLoop s) (hstep : s.step .enter = some s')
    (hnotSafe : ¬s.Safe .enter) : s'.Continues fun s => ¬s.NotEarly := by
  have hnotSafe : ∃ x, .loop (.leftBy (some x)) ∈ s.stack := by
    by_contra hnone
    exact hnotSafe fun x hx => hnone ⟨x, hx⟩
  rcases hnotSafe with ⟨x, hx⟩
  rcases append_of_mem hx with ⟨above, rest, hstack⟩
  rcases hlast above x rest hstack with ⟨hcode, hleaving, hsubm, -, -⟩
  rcases h.begun_lt _ hx x rfl with ⟨hposted, hlt⟩
  have halternates := h.alternates
  rw [step] at hstep
  split at hstep
  · cases hstep
  · rename_i hnot
    rcases s with ⟨posted, deque, position, entered, leaving, submitted, done, stack⟩
    cases hstack
    rcases above with _ | ⟨code, _ | ⟨f, above⟩⟩
    · exact absurd rfl hnot
    · cases hstep
      refine Continues.step (a := .handle) rfl (Continues.step (a := .leave) rfl
        (Continues.step (a := .finish) rfl (Continues.step (a := .returns) rfl ?_)))
      exact left_continues hposted hlt (hcode code mem_cons_self) rfl hsubm rfl rfl
    · have hloop : code.isLoop = !f.isLoop := halternates.1
      rw [hcode code mem_cons_self,
        hcode f (mem_cons_of_mem _ mem_cons_self)] at hloop
      cases hloop

/-- In every run of safe steps no runnable is started before the loop returns that an earlier one
has left; and after a step that is not safe it can happen. -/
theorem safe_exact (s : System) (h : Reached Safe s) :
    s.NotEarly ∧ ∀ s' a, s.step a = some s' → ¬s.Safe a →
      s'.Continues fun s => ¬s.NotEarly := by
  refine ⟨(reached_lastInLoop h).notEarly, fun s' a hstep hnotSafe => ?_⟩
  cases a with
  | leave => exact leave_continues (reached_ordered h) hstep hnotSafe
  | enter => exact enter_continues (reached_ordered h) (reached_lastInLoop h) hstep hnotSafe
  | _ => exact absurd trivial hnotSafe

theorem safe_exact_nested :
    ∃ s, Reached Safe s ∧
      s.stack = [.runnable 1, .loop (.leftBy (some 1)), .runnable 0] ∧ s.NotEarly := by
  have h : Reached Safe System.init := .init
  have h := Reached.step .invokeLater h trivial rfl
  have h := Reached.step .take h trivial rfl
  have h := Reached.step .test h trivial rfl
  have h := Reached.step .submit h trivial rfl
  have h := Reached.step .start h trivial rfl
  have h := Reached.step .enter h (fun x hx => nomatch mem_singleton.mp hx) rfl
  have h := Reached.step .invokeLater h trivial rfl
  have h := Reached.step .wake h trivial rfl
  have h := Reached.step .take h trivial rfl
  have h := Reached.step .test h trivial rfl
  have h := Reached.step .submit h trivial rfl
  have h := Reached.step .start h trivial rfl
  have h := Reached.step .leave h (fun x rest _ => ⟨rfl, fun r hr => nomatch hr⟩) rfl
  exact ⟨_, h, rfl, (safe_exact _ h).1⟩

/-- A native event handler enters a loop while nothing is submitted. The dispatcher then does not
wait for the first runnable, which leaves the loop, and the second one runs before the loop
returns. -/
theorem lastRunnable_fails :
    ∃ s, Reached (fun _ _ => True) s ∧
      s.stack = [.runnable 1, .loop (.leftBy (some 0)), .handler] ∧ ¬s.NotEarly := by
  have h : Reached (fun _ _ => True) System.init := .init
  have h := Reached.step .handle h trivial rfl
  have h := Reached.step .enter h trivial rfl
  have h := Reached.step .invokeLater h trivial rfl
  have h := Reached.step .invokeLater h trivial rfl
  have h := Reached.step .take h trivial rfl
  have h := Reached.step .test h trivial rfl
  have h := Reached.step .submit h trivial rfl
  have h := Reached.step .wake h trivial rfl
  have h := Reached.step .take h trivial rfl
  have h := Reached.step .test h trivial rfl
  have h := Reached.step .submit h trivial rfl
  have h := Reached.step .start h trivial rfl
  have h := Reached.step .leave h trivial rfl
  have h := Reached.step .finish h trivial rfl
  have h := Reached.step .start h trivial rfl
  exact ⟨_, h, rfl, not_notEarly rfl Nat.zero_lt_one⟩

def System.starts (s : System) : Action → Option Nat
  | .start => s.submitted.head?
  | _ => none

/-- The runnables that a run starts, in order. -/
def System.started (s : System) : List Action → List Nat
  | [] => []
  | a :: actions => (s.starts a).toList ++ (s.step a).elim [] (started · actions)

theorem step_conserves (hstep : s.step a = some s') :
    s.posted ≤ s'.posted ∧ (s.starts a).toList ++ s'.unstarted =
      s.unstarted ++ List.range' s.posted (s'.posted - s.posted) := by
  cases a with
  | invokeLater =>
    cases hstep
    simp [starts, unstarted]
  -- in every other step a runnable moves on towards the event thread, or none moves
  | _ => grind [step, starts, unstarted, held]

theorem steps_conserve {actions : List Action} (hsteps : s.steps actions = some s') :
    s.posted ≤ s'.posted ∧ s.started actions ++ s'.unstarted =
      s.unstarted ++ List.range' s.posted (s'.posted - s.posted) := by
  induction actions generalizing s with
  | nil =>
    cases hsteps
    simp [started]
  | cons a actions ih =>
    rw [steps, foldlM_cons] at hsteps
    obtain ⟨s₁, hstep, hrest⟩ := Option.bind_eq_some_iff.mp hsteps
    obtain ⟨hle, hone⟩ := step_conserves hstep
    obtain ⟨hle', hmore⟩ := ih hrest
    refine ⟨hle.trans hle', ?_⟩
    have hposted : s'.posted - s.posted = s₁.posted - s.posted + (s'.posted - s₁.posted) := by
      omega
    rw [started, hstep, Option.elim_some, append_assoc, hmore, ← append_assoc, hone, append_assoc,
      hposted, ← range'_append_1, Nat.add_sub_cancel' hle]

/-- Whatever the threads do, no runnable is lost, started twice or overtaken by a later one. -/
theorem started_inOrder {actions : List Action} (hsteps : System.init.steps actions = some s) :
    System.init.started actions ++ s.unstarted = List.range s.posted := by
  have hconserved := (steps_conserve hsteps).2
  rwa [show System.init.unstarted = [] from rfl, nil_append, show System.init.posted = 0 from rfl,
    Nat.sub_zero, ← List.range_eq_range'] at hconserved

theorem started_inOrder_nested :
    System.init.started [.invokeLater, .take, .test, .submit, .start, .enter, .invokeLater,
      .invokeLater, .wake, .take, .test, .submit, .start] ++ [2] = [0, 1, 2] :=
  started_inOrder (s := ⟨3, [2], .waiting 1, false, false, [], [],
    [.runnable 1, .loop .running, .runnable 0]⟩) rfl

end OpenJfx.Glass.InvokeLaterDispatcher
