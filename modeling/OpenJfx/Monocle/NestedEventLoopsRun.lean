import OpenJfx.Monocle.NestedEventLoops

namespace OpenJfx.Monocle.NestedEventLoops

open Monocle.RunnableQueue List

variable {L R V : Type}

inductive RunLoops (controls : List (RunLoopControl L)) :
    List (L × Option V) → List (Frame L) → List Nat → Prop
  | application {c : Nat} {running : Bool} (control : controls[c]? = some ⟨true, none⟩) :
      RunLoops controls [] [⟨c, none, running⟩] [c]
  | active {entered : List (L × Option V)} {frames : List (Frame L)} {active : List Nat} {c : Nat}
      {running : Bool} {l : L} {v : Option V} (outer : RunLoops controls entered frames active)
      (control : controls[c]? = some ⟨true, none⟩) (below : ∀ f ∈ frames, f.control < c) :
      RunLoops controls ((l, v) :: entered) (⟨c, some l, running⟩ :: frames) (c :: active)
  | left {entered : List (L × Option V)} {frames : List (Frame L)} {active : List Nat} {c : Nat}
      {running : Bool} {l : L} {v : V} (outer : RunLoops controls entered frames active)
      (control : controls[c]? = some ⟨false, some l⟩) (below : ∀ f ∈ frames, f.control < c) :
      RunLoops controls ((l, some v) :: entered) (⟨c, some l, running⟩ :: frames) active

def InnermostLeft (s : Spec L R V) : Prop := ∃ l v outer, s.entered = (l, some v) :: outer

structure Objects (loops : L → EventLoop V) (entered : List (L × Option V)) : Prop where
  active : ∀ l, (l, none) ∈ entered → loops l = ⟨.active, none⟩
  leaving : ∀ l v, (l, some v) ∈ entered → loops l = ⟨.leaving, some v⟩
  idle : ∀ l, l ∉ entered.map Prod.fst → loops l = ⟨.idle, none⟩

structure Simulates (m : Machine L R V) (s : Spec L R V) : Prop where
  queue : m.queue.Holds s.pending
  stack : m.stack = s.entered.map Prod.fst
  nodup : (s.entered.map Prod.fst).Nodup
  counter : m.nestedEventLoopCounter = s.entered.length
  objects : Objects m.loops s.entered
  runLoops : RunLoops m.controls s.entered m.frames m.activeRunLoops

/-- Where the innermost loop has been left and its run loop is still active, the runnable is posted
that tells the run loop to end. -/
structure Refines (m : Machine L R V) (s : Spec L R V) : Prop extends Simulates m s where
  leaver : InnermostLeft s → m.controlActive = true → .leaveInnermost ∈ s.pending

section

variable {controls : List (RunLoopControl L)} {entered : List (L × Option V)}
  {frames : List (Frame L)} {active : List Nat}

theorem RunLoops.control_lt (h : RunLoops controls entered frames active) :
    ∀ f ∈ frames, f.control < controls.length := by
  induction h with
  | application control =>
    intro f hf
    rw [mem_singleton.mp hf]
    exact (List.getElem?_eq_some_iff.mp control).1
  | active _ control _ ih | left _ control _ ih =>
    intro f hf
    rcases mem_cons.mp hf with rfl | hf
    · exact (List.getElem?_eq_some_iff.mp control).1
    · exact ih f hf

theorem RunLoops.congr (h : RunLoops controls entered frames active)
    {controls' : List (RunLoopControl L)}
    (hsame : ∀ f ∈ frames, controls'[f.control]? = controls[f.control]?) :
    RunLoops controls' entered frames active := by
  induction h with
  | application control =>
    exact .application ((hsame _ mem_cons_self).trans control)
  | active _ control below ih =>
    exact .active (ih fun f hf => hsame f (mem_cons_of_mem _ hf))
      ((hsame _ mem_cons_self).trans control) below
  | left _ control below ih =>
    exact .left (ih fun f hf => hsame f (mem_cons_of_mem _ hf))
      ((hsame _ mem_cons_self).trans control) below

theorem RunLoops.enter (h : RunLoops controls entered frames active) (l : L) :
    RunLoops (controls ++ [⟨true, none⟩]) ((l, none) :: entered)
      (⟨controls.length, some l, false⟩ :: frames) (controls.length :: active) := by
  refine .active (h.congr fun f hf => ?_) ?_ h.control_lt
  · exact getElem?_append_left (h.control_lt f hf)
  · rw [getElem?_concat_length]

theorem RunLoops.setRunning {f : Frame L}
    (h : RunLoops controls entered (f :: frames) active) (running : Bool) :
    RunLoops controls entered ({ f with running } :: frames) active := by
  cases h with
  | application control => exact .application control
  | active outer control below => exact .active outer control below
  | left outer control below => exact .left outer control below

theorem RunLoops.leave {inner outer : List (L × Option V)} {l : L} (v : V) :
    ∀ {frames : List (Frame L)} {active : List Nat},
      RunLoops controls (inner ++ (l, none) :: outer) frames active →
      RunLoops controls (inner ++ (l, some v) :: outer) frames active := by
  induction inner with
  | nil =>
    intro frames active h
    cases h with
    | active outer control below => exact .active outer control below
  | cons e inner ih =>
    intro frames active h
    cases h with
    | active outer control below => exact .active (ih outer) control below
    | left outer control below => exact .left (ih outer) control below

def GoesOn (controls : List (RunLoopControl L)) (frames : List (Frame L)) : Prop :=
  frames.head?.any (fun frame => controls[frame.control]?.any (·.active)) = true

theorem goesOn_cons {f : Frame L} :
    GoesOn controls (f :: frames) ↔ controls[f.control]?.any (·.active) = true := Iff.rfl

theorem RunLoops.goesOn {l : L} (h : RunLoops controls ((l, none) :: entered) frames active) :
    GoesOn controls frames := by
  cases h with
  | active outer control below =>
    rw [goesOn_cons, control]
    rfl

theorem RunLoops.release {l : L} {o : Option V}
    (h : RunLoops controls ((l, o) :: entered) frames active) (hgoes : GoesOn controls frames) :
    ∃ c rest, active = c :: rest ∧
      ¬GoesOn (controls.modify c fun _ => ⟨false, some l⟩) frames ∧
      ∀ v, RunLoops (controls.modify c fun _ => ⟨false, some l⟩) ((l, some v) :: entered) frames
        rest := by
  cases h with
  | @active _ _ rest c running _ _ outer control below =>
    have hmodify : (controls.modify c fun _ => ⟨false, some l⟩)[c]? = some ⟨false, some l⟩ := by
      rw [getElem?_modify_eq, control]
      rfl
    refine ⟨c, rest, rfl, ?_, fun v => .left (outer.congr fun f hf => ?_) hmodify below⟩
    · rw [goesOn_cons, hmodify]
      exact Bool.false_ne_true
    · exact getElem?_modify_ne _ _ (Nat.ne_of_gt (below f hf))
  | left outer control below =>
    rw [goesOn_cons, control] at hgoes
    cases hgoes

end

section

variable {m : Machine L R V} {s : Spec L R V} {l : L} {v : V}
  {loops : L → EventLoop V} {entered : List (L × Option V)}

theorem refines_init : Refines (Machine.init : Machine L R V) ⟨[], []⟩ where
  queue := holds_new
  stack := rfl
  nodup := nodup_nil
  counter := rfl
  objects := ⟨fun l hl => (nomatch hl), fun l v hl => (nomatch hl), fun l _ => rfl⟩
  runLoops := .application rfl
  leaver := by
    rintro ⟨l, v, outer, heq⟩
    cases heq

theorem mem_keys {x : Option V} (h : (l, x) ∈ entered) : l ∈ entered.map Prod.fst :=
  mem_map_of_mem h

theorem Objects.idle_iff (h : Objects loops entered) :
    (loops l).state = .idle ↔ l ∉ entered.map Prod.fst := by
  constructor
  · intro hidle hmem
    rcases mem_map.mp hmem with ⟨⟨l', _ | v⟩, hl, rfl⟩
    · rw [h.active _ hl] at hidle
      cases hidle
    · rw [h.leaving _ v hl] at hidle
      cases hidle
  · intro hl
    rw [h.idle l hl]

theorem Objects.active_iff (h : Objects loops entered) :
    (loops l).state = .active ↔ (l, none) ∈ entered := by
  constructor
  · intro hactive
    rcases Classical.em (l ∈ entered.map Prod.fst) with hmem | hmem
    · rcases mem_map.mp hmem with ⟨⟨l', _ | v⟩, hl, rfl⟩
      · exact hl
      · rw [h.leaving _ v hl] at hactive
        cases hactive
    · rw [h.idle l hmem] at hactive
      cases hactive
  · intro hl
    rw [h.active l hl]

theorem invokeLater_simulates (h : Simulates m s) (r : Runnable R) :
    ∃ m', m.invokeLater r = .ok m' ∧ Simulates m' { s with pending := s.pending ++ [r] } ∧
      m'.controlActive = m.controlActive := by
  rcases postRunnable_spec h.queue r with ⟨queue, hpost, hholds⟩
  exact ⟨{ m with queue }, by rw [Machine.invokeLater, hpost], { h with queue := hholds }, rfl⟩

theorem setRunning_refines (h : Refines m s) (running : Bool) :
    Refines (m.setRunning running) s := by
  rcases m with ⟨loops, stack, counter, controls, activeRunLoops, queue, _ | ⟨f, frames⟩⟩
  · exact h
  · exact
      { h with
        runLoops := h.runLoops.setRunning running
        leaver := h.leaver }

end

section

variable [DecidableEq L] {m m' : Machine L R V} {s : Spec L R V} {l : L} {v : V}
  {loops : L → EventLoop V} {entered inner outer : List (L × Option V)}

theorem Objects.update {entered' : List (L × Option V)} (h : Objects loops entered)
    (hother : ∀ l' x, l' ≠ l → ((l', x) ∈ entered' ↔ (l', x) ∈ entered)) (loop : EventLoop V)
    (hactive : (l, none) ∈ entered' → loop = ⟨.active, none⟩)
    (hleaving : ∀ v, (l, some v) ∈ entered' → loop = ⟨.leaving, some v⟩)
    (hidle : l ∉ entered'.map Prod.fst → loop = ⟨.idle, none⟩) :
    Objects (Function.update loops l loop) entered' := by
  have hkeys : ∀ l', l' ≠ l → l' ∉ entered'.map Prod.fst → l' ∉ entered.map Prod.fst := by
    intro l' hne hnot hmem
    rcases mem_map.mp hmem with ⟨⟨_, x⟩, hx, rfl⟩
    exact hnot (mem_keys ((hother _ x hne).mpr hx))
  refine ⟨fun l' hl' => ?_, fun l' v hl' => ?_, fun l' hl' => ?_⟩
  · rcases Decidable.em (l' = l) with rfl | hne
    · rw [Function.update_self, hactive hl']
    · rw [Function.update_of_ne hne, h.active l' ((hother l' none hne).mp hl')]
  · rcases Decidable.em (l' = l) with rfl | hne
    · rw [Function.update_self, hleaving v hl']
    · rw [Function.update_of_ne hne, h.leaving l' v ((hother l' _ hne).mp hl')]
  · rcases Decidable.em (l' = l) with rfl | hne
    · rw [Function.update_self, hidle hl']
    · rw [Function.update_of_ne hne, h.idle l' (hkeys l' hne hl')]

theorem Objects.enter (h : Objects loops entered) (hnew : l ∉ entered.map Prod.fst) :
    Objects (Function.update loops l ⟨.active, none⟩) ((l, none) :: entered) := by
  refine h.update ?_ _ (fun _ => rfl) ?_ ?_
  · intro l' x hne
    rw [mem_cons, Prod.mk.injEq]
    exact or_iff_right fun heq => hne heq.1
  · intro v hv
    rcases mem_cons.mp hv with heq | hmem
    · cases heq
    · exact absurd (mem_keys hmem) hnew
  · intro hnot
    exact absurd mem_cons_self hnot

theorem Objects.leave (h : Objects loops (inner ++ (l, none) :: outer))
    (hnd : ((inner ++ (l, none) :: outer).map Prod.fst).Nodup) (v : V) :
    Objects (Function.update loops l ⟨.leaving, some v⟩) (inner ++ (l, some v) :: outer) := by
  rw [map_append, map_cons, nodup_middle, nodup_cons, mem_append] at hnd
  have hnot : ∀ x, (l, x) ∈ inner ++ (l, some v) :: outer → x = some v := by
    intro x hx
    rcases mem_append.mp hx with hinner | hrest
    · exact absurd (.inl (mem_keys hinner)) hnd.1
    · rcases mem_cons.mp hrest with heq | houter
      · exact (Prod.mk.inj heq).2
      · exact absurd (.inr (mem_keys houter)) hnd.1
  refine h.update ?_ _ ?_ ?_ ?_
  · intro l' x hne
    rw [mem_append, mem_append]
    exact or_congr_right (by simp [hne])
  · exact fun hmem => nomatch hnot none hmem
  · intro w hmem
    rw [hnot _ hmem]
  · intro hmem
    exact absurd (mem_keys (mem_append_right inner mem_cons_self)) hmem

theorem Objects.exit {o : Option V} (h : Objects loops ((l, o) :: entered))
    (hnew : l ∉ entered.map Prod.fst) :
    Objects (Function.update loops l ⟨.idle, none⟩) entered := by
  refine h.update ?_ _ ?_ ?_ fun _ => rfl
  · intro l' x hne
    rw [mem_cons, Prod.mk.injEq]
    exact (or_iff_right fun heq => hne heq.1).symm
  · exact fun hmem => absurd (mem_keys hmem) hnew
  · exact fun v hmem => absurd (mem_keys hmem) hnew

/-- A step that does not fail and that the specification allows. -/
def Leads (s : Spec L R V) (result : Call (Machine L R V × List (Event L R V))) : Prop :=
  ∃ m events s', result = .ok (m, events) ∧ Spec.Run s events s' ∧ Refines m s'

theorem post_leads (h : Refines m s) (r : R) : Leads s (m.step (.post r)) := by
  rcases invokeLater_simulates h.toSimulates (.user r) with ⟨m', hpost, h', hactive⟩
  refine ⟨m', [.posted (.user r)], _, ?_, .single (.posted _ _ _), { h' with leaver := ?_ }⟩
  · rw [Machine.step, hpost]
    rfl
  · intro hleft hgoes
    rw [hactive] at hgoes
    exact mem_append_left _ (h.leaver hleft hgoes)

theorem enter_eq (h : Refines m s) (hidle : (m.loops l).state = .idle) :
    m.enter l = .ok (Machine.runLoop { m.setLoop l ⟨.active, none⟩ with
      stack := l :: m.stack
      nestedEventLoopCounter := m.nestedEventLoopCounter + 1 } (some l)) := by
  rw [Machine.enter, h.objects.idle l (h.objects.idle_iff.mp hidle)]
  rfl

theorem enter_leads (h : Refines m s) (hidle : (m.loops l).state = .idle) :
    Leads s (m.step (.enter l)) := by
  have hnew := h.objects.idle_iff.mp hidle
  refine ⟨Machine.runLoop { m.setLoop l ⟨.active, none⟩ with
      stack := l :: m.stack
      nestedEventLoopCounter := m.nestedEventLoopCounter + 1 } (some l),
    [.entered l], ⟨(l, none) :: s.entered, s.pending⟩, ?_, .single (.entered _ _ _ hnew),
    ⟨⟨h.queue, ?_, ?_, ?_, h.objects.enter hnew, h.runLoops.enter l⟩, ?_⟩⟩
  · rw [Machine.step, enter_eq h hidle]
    rfl
  · exact congrArg (l :: ·) h.stack
  · exact nodup_cons.mpr ⟨hnew, h.nodup⟩
  · exact congrArg (· + 1) h.counter
  · rintro ⟨l', v, outer, heq⟩
    cases heq

omit [DecidableEq L] in
theorem leaveNestedEventLoop_spec {o : Option V} (hcounter : m.nestedEventLoopCounter ≠ 0)
    (h : RunLoops m.controls ((l, o) :: outer) m.frames m.activeRunLoops)
    (hgoes : m.controlActive = true) :
    ∃ controls rest, m.leaveNestedEventLoop l =
        .ok { m with controls, activeRunLoops := rest } ∧
      ¬GoesOn controls m.frames ∧ ∀ v, RunLoops controls ((l, some v) :: outer) m.frames rest := by
  rcases h.release hgoes with ⟨c, rest, hactive, hends, hloops⟩
  refine ⟨_, rest, ?_, hends, hloops⟩
  rw [Machine.leaveNestedEventLoop, if_neg hcounter, hactive]

theorem leave_eq (hactive : (m.loops l).state = .active) (v : V) :
    m.leave l v =
      if m.stack.head? = some l then (m.setLoop l ⟨.leaving, some v⟩).leaveNestedEventLoop l
      else .ok (m.setLoop l ⟨.leaving, some v⟩) := by
  rw [Machine.leave, if_neg (not_not_intro hactive)]
  rfl

theorem leave_leads (h : Refines m s) (hactive : (m.loops l).state = .active) (v : V) :
    Leads s (m.step (.leave l v)) := by
  rcases append_of_mem (h.objects.active_iff.mp hactive) with ⟨inner, outer, hsplit⟩
  rcases s with ⟨entered, pending⟩
  obtain rfl : entered = inner ++ (l, none) :: outer := hsplit
  have hstack := h.stack
  have hkeys : (inner ++ (l, some v) :: outer).map Prod.fst =
      (inner ++ (l, none) :: outer).map Prod.fst := by
    rw [map_append, map_append]
    rfl
  have hlen : (inner ++ (l, some v) :: outer).length =
      (inner ++ (l, none) :: outer).length := by
    rw [length_append, length_append]
    rfl
  have hobjects := h.objects.leave h.nodup v
  rcases inner with _ | ⟨⟨l', o⟩, inner⟩
  · have hcounter : (m.setLoop l ⟨.leaving, some v⟩).nestedEventLoopCounter ≠ 0 := by
      have := h.counter
      change m.nestedEventLoopCounter ≠ 0
      rw [this]
      exact Nat.succ_ne_zero _
    rcases leaveNestedEventLoop_spec (m := m.setLoop l ⟨.leaving, some v⟩) hcounter h.runLoops
      h.runLoops.goesOn with ⟨controls, rest, hleave, hends, hloops⟩
    refine ⟨{ m.setLoop l ⟨.leaving, some v⟩ with controls, activeRunLoops := rest },
      [.left l v], ⟨(l, some v) :: outer, pending⟩, ?_, .single (.left [] outer _ l v),
      ⟨⟨h.queue, hstack, h.nodup, h.counter, hobjects, hloops v⟩, ?_⟩⟩
    · have hhead : m.stack.head? = some l := congrArg List.head? hstack
      rw [Machine.step, leave_eq hactive, if_pos hhead, hleave]
      rfl
    · exact fun _ hgoes => absurd hgoes hends
  · have hne : m.stack.head? ≠ some l := by
      rw [hstack]
      intro heq
      have heq : l' = l := Option.some.inj heq
      have hnd := h.nodup
      rw [cons_append, map_cons, nodup_cons, heq] at hnd
      exact hnd.1 (mem_keys (mem_append_right inner mem_cons_self))
    refine ⟨m.setLoop l ⟨.leaving, some v⟩, [.left l v],
      ⟨(l', o) :: inner ++ (l, some v) :: outer, pending⟩, ?_,
      .single (.left ((l', o) :: inner) outer _ l v), ⟨⟨h.queue, ?_, ?_, ?_, hobjects, ?_⟩, ?_⟩⟩
    · rw [Machine.step, leave_eq hactive, if_neg hne]
      rfl
    · exact hstack.trans hkeys.symm
    · exact hkeys ▸ h.nodup
    · exact h.counter.trans hlen.symm
    · exact h.runLoops.leave v
    · rintro ⟨l'', w, rest, heq⟩ hgoes
      cases heq
      exact h.leaver ⟨_, _, _, rfl⟩ hgoes

theorem finish_leads (h : Refines m s) : Leads s (m.step .finish) :=
  ⟨m.setRunning false, [], s, rfl, .nil s, setRunning_refines h false⟩

omit [DecidableEq L] in
theorem innermostLeaving_eq (h : Simulates m s) :
    m.innermostLeaving = match s.entered with
      | (l, some _) :: _ => some l
      | _ => none := by
  rw [Machine.innermostLeaving, h.stack]
  rcases hentered : s.entered with _ | ⟨⟨l, _ | v⟩, outer⟩
  · rfl
  · have := h.objects.active l (hentered ▸ mem_cons_self)
    rw [map_cons, head?_cons, Option.filter_some, this]
    rfl
  · have := h.objects.leaving l v (hentered ▸ mem_cons_self)
    rw [map_cons, head?_cons, Option.filter_some, this]
    rfl

theorem next_leads (h : Refines m s) (hgoes : m.controlActive = true)
    (hcnt : 0 < m.queue.count) : Leads s (m.step .next) := by
  rcases s with ⟨entered, _ | ⟨r, pending⟩⟩
  · have := h.queue.count
    rw [this] at hcnt
    exact absurd hcnt (Nat.lt_irrefl 0)
  · rcases getNextRunnable_spec h.queue with ⟨queue, hnext, hholds⟩
    have hsim : Simulates { m with queue } ⟨entered, pending⟩ :=
      { h.toSimulates with queue := hholds }
    rw [Machine.step, Machine.next, hnext]
    rcases r with r | _
    · refine ⟨_, [.started (.user r)], ⟨entered, pending⟩, rfl, .single (.started _ _ _),
        setRunning_refines ⟨hsim, fun hleft hgoes => ?_⟩ true⟩
      rcases mem_cons.mp (h.leaver hleft hgoes) with heq | hmem
      · cases heq
      · exact hmem
    · have hinner := innermostLeaving_eq hsim
      dsimp only
      rw [Machine.leaveInnermost, hinner]
      rcases entered with _ | ⟨⟨l, _ | v⟩, outer⟩
      · refine ⟨_, [.started .leaveInnermost], ⟨[], pending⟩, rfl, .single (.started _ _ _),
          ⟨hsim, ?_⟩⟩
        rintro ⟨l, v, outer, heq⟩
        cases heq
      · refine ⟨_, [.started .leaveInnermost], ⟨(l, none) :: outer, pending⟩, rfl,
          .single (.started _ _ _), ⟨hsim, ?_⟩⟩
        rintro ⟨l, v, outer, heq⟩
        cases heq
      · have hcounter : m.nestedEventLoopCounter ≠ 0 := by
          rw [h.counter]
          exact Nat.succ_ne_zero _
        rcases leaveNestedEventLoop_spec (m := { m with queue }) hcounter h.runLoops hgoes with
          ⟨controls, rest, hleave, hends, hloops⟩
        dsimp only
        rw [hleave]
        exact ⟨_, [.started .leaveInnermost], ⟨(l, some v) :: outer, pending⟩, rfl,
          .single (.started _ _ _), { hsim with
            runLoops := hloops v
            leaver := fun _ hgoes => absurd hgoes hends }⟩

theorem finallyBlock_spec {o : Option V} {pending : List (Runnable R)}
    (h : Simulates (m.popLoop l) ⟨outer, pending⟩) :
    ∃ m' events s', m.finallyBlock l = .ok (m', events) ∧
      (∀ _ : Event L R V, Spec.Run ⟨(l, o) :: outer, pending⟩ events
        ⟨(l, o) :: outer, s'.pending⟩) ∧ s'.entered = outer ∧ Refines m' s' := by
  have hinner := innermostLeaving_eq h
  rw [Machine.finallyBlock, hinner]
  rcases outer with _ | ⟨⟨l', _ | v⟩, outer⟩
  · refine ⟨_, [], ⟨[], pending⟩, rfl, fun _ => .nil _, rfl, ⟨h, ?_⟩⟩
    rintro ⟨l'', w, rest, heq⟩
    cases heq
  · refine ⟨_, [], ⟨(l', none) :: outer, pending⟩, rfl, fun _ => .nil _, rfl, ⟨h, ?_⟩⟩
    rintro ⟨l'', w, rest, heq⟩
    cases heq
  · rcases invokeLater_simulates h .leaveInnermost with ⟨m', hpost, h', -⟩
    rw [hpost]
    refine ⟨m', [.posted .leaveInnermost], _, rfl, fun _ => .single (.posted _ _ _), rfl,
      ⟨h', fun _ _ => ?_⟩⟩
    exact mem_append_right _ mem_cons_self

theorem exit_leads (h : Refines m s) (hends : m.controlActive = false) :
    Leads s (m.step .exit) := by
  rcases m with ⟨loops, stack, counter, controls, activeRunLoops, queue, frames⟩
  rcases s with ⟨entered, pending⟩
  have hstops : ¬GoesOn controls frames := fun hgoes => Bool.false_ne_true (hends.symm.trans hgoes)
  have hloops := h.runLoops
  cases hloops with
  | application control | active _ control _ =>
    rw [goesOn_cons, control] at hstops
    exact absurd rfl hstops
  | @left entered frames _ c running l v houter control below =>
    have hstack : stack = l :: entered.map Prod.fst := h.stack
    have hcounter : counter = entered.length + 1 := h.counter
    have hobj : loops l = ⟨.leaving, some v⟩ := h.objects.leaving l v mem_cons_self
    have hst : (loops l).state = .leaving := congrArg EventLoop.state hobj
    have hval : (loops l).returnValue = some v := congrArg EventLoop.returnValue hobj
    have hnd : l ∉ entered.map Prod.fst ∧ (entered.map Prod.fst).Nodup :=
      nodup_cons.mp h.nodup
    let m₁ : Machine L R V :=
      ⟨loops, stack, counter - 1, controls, activeRunLoops, queue, frames⟩
    have hcore : Simulates (m₁.popLoop l) ⟨entered, pending⟩ :=
      ⟨h.queue, congrArg List.tail hstack, hnd.2, congrArg (· - 1) hcounter,
        h.objects.exit hnd.1, houter⟩
    rcases finallyBlock_spec (o := some v) hcore with ⟨m', events, s', hfinally, hrun, rfl, h'⟩
    refine ⟨m', events ++ [.returned l (some v)], s', ?_,
      (hrun (.returned l none)).append (.single (.returned _ _ _ _)), h'⟩
    have hhead : stack.head? = some l := congrArg List.head? hstack
    rw [Machine.step, Machine.exit]
    dsimp only at control ⊢
    rw [control, Option.bind_some, if_neg (not_not_intro rfl), if_neg (not_not_intro hhead),
      if_neg (not_not_intro hst), hval, hfinally]
    rfl

theorem step_leads (h : Refines m s) {a : Action L R V} (henabled : m.Enabled a) :
    Leads s (m.step a) := by
  cases a with
  | post r => exact post_leads h r
  | enter l => exact enter_leads h henabled.2
  | leave l v => exact leave_leads h henabled.2 v
  | finish => exact finish_leads h
  | next => exact next_leads h henabled.2.1 henabled.2.2
  | exit => exact exit_leads h henabled.2

theorem run_refines {events : List (Event L R V)} (h : Run m events) :
    ∃ s, Spec.Run ⟨[], []⟩ events s ∧ Refines m s := by
  induction h with
  | init => exact ⟨⟨[], []⟩, .nil _, refines_init⟩
  | step a run enabled result ih =>
    rcases ih with ⟨s, hrun, hrefines⟩
    rcases step_leads hrefines enabled with ⟨m', events, s', hstep, hrun', hrefines'⟩
    rw [hstep] at result
    cases result
    exact ⟨s', hrun.append hrun', hrefines'⟩

theorem next_ends (h : Refines m s) {rest : List (Runnable R)}
    (hpend : s.pending = .leaveInnermost :: rest) (hleft : m.innermostLeaving = some l)
    (hgoes : m.controlActive = true) :
    ∃ m' events, m.step .next = .ok (m', events) ∧ m'.controlActive = false := by
  have hholds := h.queue
  rw [hpend] at hholds
  rcases getNextRunnable_spec hholds with ⟨queue, hnext, -⟩
  have hinner := innermostLeaving_eq h.toSimulates
  rw [hleft] at hinner
  rcases s with ⟨_ | ⟨⟨l', _ | v⟩, outer⟩, pending⟩
  · cases hinner
  · cases hinner
  · cases hinner
    have hcounter : m.nestedEventLoopCounter ≠ 0 := by
      rw [h.counter]
      exact Nat.succ_ne_zero _
    rcases leaveNestedEventLoop_spec (m := { m with queue }) hcounter h.runLoops hgoes with
      ⟨controls, rest, hleave, hends, -⟩
    refine ⟨{ m with queue, controls, activeRunLoops := rest }, [.started .leaveInnermost], ?_,
      Bool.not_eq_true _ ▸ hends⟩
    have hleft' : ({ m with queue } : Machine L R V).innermostLeaving = some l := hleft
    rw [Machine.step, Machine.next, hnext]
    dsimp only
    rw [Machine.leaveInnermost, hleft']
    dsimp only
    rw [hleave]
    rfl

/-- In every run of the event thread nothing fails that can happen next, the assertions of
`enter()` among it. What is posted is started once and in order; `enter()` returns the one value
that is given to `leave()` of its loop, after the loops entered inside have returned; and where the
innermost loop has been left while its run loop is still active, the runnable is posted that ends
the run loop. -/
theorem run_unwinds {events : List (Event L R V)} (h : Run m events) :
    (∀ a, m.Enabled a → ∃ result, m.step a = .ok result) ∧
      ∃ pending, m.queue.Holds pending ∧
        events.filterMap Event.posted? = events.filterMap Event.started? ++ pending ∧
        (∀ before inside after l w,
          events = before ++ .entered l :: (inside ++ .returned l w :: after) →
          (∀ e ∈ inside, e.returned? ≠ some l) →
          ∃ v, w = some v ∧ inside.filterMap (Event.leftWith? l) = [v] ∧
            (inside.filterMap Event.entered?).Perm (inside.filterMap Event.returned?)) ∧
        ∀ l, m.innermostLeaving = some l → m.controlActive = true →
          .leaveInnermost ∈ pending ∧
            ∀ rest, pending = .leaveInnermost :: rest →
              ∃ m' events, m.step .next = .ok (m', events) ∧ m'.controlActive = false := by
  rcases run_refines h with ⟨s, hrun, hrefines⟩
  refine ⟨fun a ha => ?_, s.pending, hrefines.queue, hrun.posted_eq, ?_, ?_⟩
  · rcases step_leads hrefines ha with ⟨m', events, s', hstep, -⟩
    exact ⟨_, hstep⟩
  · rintro before inside after l w rfl hnot
    exact hrun.enter_returns hnot
  · intro l hleft hgoes
    refine ⟨hrefines.leaver ?_ hgoes, fun rest hpending => next_ends hrefines hpending hleft hgoes⟩
    have hinner := innermostLeaving_eq hrefines.toSimulates
    rw [hleft] at hinner
    rcases s with ⟨_ | ⟨⟨l', _ | v⟩, outer⟩, pending⟩
    · cases hinner
    · cases hinner
    · exact ⟨l', v, outer, rfl⟩

end

theorem run_unwinds_twoLoops :
    ∃ (m : Machine Bool Unit Nat) (events : List (Event Bool Unit Nat)), Run m events ∧
      [.returned true (some 2), .started .leaveInnermost, .returned false (some 1)] <:+ events ∧
        ∃ pending, m.queue.Holds pending ∧
          events.filterMap Event.posted? = events.filterMap Event.started? ++ pending := by
  have first : Run (_ : Machine Bool Unit Nat) _ := .step (.post ()) .init trivial rfl
  have first := Run.step .next first ⟨rfl, rfl, by decide⟩ rfl
  have outer := Run.step (.enter false) first ⟨rfl, rfl⟩ rfl
  have outer := Run.step (.post ()) outer trivial rfl
  have outer := Run.step .next outer ⟨rfl, rfl, by decide⟩ rfl
  have inner := Run.step (.enter true) outer ⟨rfl, rfl⟩ rfl
  have inner := Run.step (.post ()) inner trivial rfl
  have inner := Run.step .next inner ⟨rfl, rfl, by decide⟩ rfl
  have left := Run.step (.leave false 1) inner ⟨rfl, rfl⟩ rfl
  have left := Run.step (.leave true 2) left ⟨rfl, rfl⟩ rfl
  have left := Run.step .finish left rfl rfl
  have left := Run.step .exit left ⟨rfl, rfl⟩ rfl
  have left := Run.step .finish left rfl rfl
  have left := Run.step .next left ⟨rfl, rfl, by decide⟩ rfl
  have left := Run.step .exit left ⟨rfl, rfl⟩ rfl
  rcases run_unwinds left with ⟨-, pending, hholds, hposted, -⟩
  exact ⟨_, _, left, ⟨[.posted (.user ()), .started (.user ()), .entered false, .posted (.user ()),
    .started (.user ()), .entered true, .posted (.user ()), .started (.user ()), .left false 1,
    .left true 2, .posted .leaveInnermost], rfl⟩, pending, hholds, hposted⟩

end OpenJfx.Monocle.NestedEventLoops
