import OpenJfx.Concurrent.ScheduledService

namespace OpenJfx.Concurrent.ScheduledService

open Concurrent.TaskState (Future)
open ScheduledService.System List

namespace Frame

/-- What goes on with `start` when its turn comes. -/
def starts : Frame → Bool
  | .start => true
  | .iterating wasCancelled => !wasCancelled
  | _ => false

/-- What comes from a runnable of a task. -/
def delivers : Frame → Bool
  | .setState _ _ => true
  | .succeeded => true
  | _ => false

/-- What can be going on inside of `cancel`. -/
def inCancel : Frame → Bool
  | .handlers | .caught | .setRunning _ _ | .stopping => true
  | _ => false

/-- What only notifies, and can lie on top of anything. -/
def notifies : Frame → Bool
  | .handlers | .caught | .setRunning _ _ => true
  | _ => false

def Above (f g : Frame) : Prop :=
  (f.delivers = true → g.starts = false) ∧ (g = .stopping → f.inCancel = true)

theorem above_of_notifies {f : Frame} (h : f.notifies = true) (g : Frame) : Above f g := by
  cases f <;> first
    | exact absurd h Bool.false_ne_true
    | exact ⟨fun htrue => absurd htrue Bool.false_ne_true, fun _ => rfl⟩

theorem starts_of_notifies {f : Frame} (h : f.notifies = true) : f.starts = false := by
  cases f <;> first
    | exact absurd h Bool.false_ne_true
    | rfl

end Frame

structure Inv (s : System) : Prop where
  follows : s.task = s.bound
  followed : ∀ t, s.bound = some t →
    s.state ≠ .ready ∧ ∃ task, s.tasks[t]? = some task ∧ task.state = s.state
  fresh : ∀ t, s.Fresh t → s.bound = some t ∧ s.state = .scheduled
  posted : ∀ t values, .states t values ∈ s.queue →
    t < s.tasks.length ∧ ¬s.Fresh t ∧ .ready ∉ values
  setting : ∀ t value, .setState t value ∈ s.stack →
    t < s.tasks.length ∧ ¬s.Fresh t ∧ value ≠ .ready
  ordered : s.stack.Pairwise Frame.Above
  cancelling : .stopping ∈ s.stack → s.state ≠ .ready ∧ ∀ t, ¬s.Fresh t
  quiet : s.cancelled = true → (∀ t, ¬s.Fresh t) ∧
    (s.state = .ready → ∀ f ∈ s.stack, f.starts = false)
  -- `reset` has cleared the flag after a cancel by one of its handlers.
  cleared : s.cancelled = true → s.stop = false → .succeeded ∉ s.stack ∧
    ∀ t task, s.bound = some t → s.tasks[t]? = some task → task.state = .cancelled

variable {s : System}

theorem inv_init : Inv .init where
  follows := rfl
  followed _ h := nomatch h
  fresh _ h := by
    obtain ⟨task, htask, -⟩ := h
    cases htask
  posted _ _ h := nomatch h
  setting _ _ h := nomatch h
  ordered := List.Pairwise.nil
  cancelling h := nomatch h
  quiet h := nomatch h
  cleared h := nomatch h

theorem Inv.sub (h : Inv s) {stack : List Frame} (hsub : stack.Sublist s.stack) :
    Inv { s with stack } where
  follows := h.follows
  followed := h.followed
  fresh := h.fresh
  posted := h.posted
  setting t value hmem := h.setting t value (hsub.subset hmem)
  ordered := h.ordered.sublist hsub
  cancelling hmem := h.cancelling (hsub.subset hmem)
  quiet hcanc :=
    ⟨(h.quiet hcanc).1, fun hready f hf => (h.quiet hcanc).2 hready f (hsub.subset hf)⟩
  cleared hcanc hstop :=
    ⟨fun hmem => (h.cleared hcanc hstop).1 (hsub.subset hmem),
      (h.cleared hcanc hstop).2⟩

theorem unwind_sublist (stack : List Frame) : (unwind stack).Sublist stack := by
  induction stack with
  | nil => exact List.Sublist.refl _
  | cons f stack ih =>
    cases f with
    | handlers => exact List.Sublist.refl _
    | caught => exact sublist_cons_self _ _
    | _ => exact ih.cons _

theorem Inv.throw (h : Inv s) : Inv s.throw := h.sub (unwind_sublist s.stack)

theorem Inv.push (h : Inv s) {frames : List Frame} (hordered : frames.Pairwise Frame.Above)
    (habove : ∀ f ∈ frames, ∀ g ∈ s.stack, Frame.Above f g)
    (hsetting : ∀ t value, .setState t value ∈ frames →
      t < s.tasks.length ∧ ¬s.Fresh t ∧ value ≠ .ready)
    (hcancelling : .stopping ∈ frames → s.state ≠ .ready ∧ ∀ t, ¬s.Fresh t)
    (hquiet : s.cancelled = true → s.state = .ready → ∀ f ∈ frames, f.starts = false)
    (hcleared : s.cancelled = true → s.stop = false → .succeeded ∉ frames) :
    Inv (s.push frames) where
  follows := h.follows
  followed := h.followed
  fresh := h.fresh
  posted := h.posted
  setting t value hmem := (mem_append.mp hmem).elim (hsetting t value) (h.setting t value)
  ordered := pairwise_append.mpr ⟨hordered, h.ordered, habove⟩
  cancelling hmem := (mem_append.mp hmem).elim hcancelling h.cancelling
  quiet hcanc := by
    refine ⟨(h.quiet hcanc).1, fun hready f hf => ?_⟩
    rcases mem_append.mp hf with hf | hf
    · exact hquiet hcanc hready f hf
    · exact (h.quiet hcanc).2 hready f hf
  cleared hcanc hstop := by
    refine ⟨fun hmem => ?_, (h.cleared hcanc hstop).2⟩
    rcases mem_append.mp hmem with hmem | hmem
    · exact hcleared hcanc hstop hmem
    · exact (h.cleared hcanc hstop).1 hmem

theorem Inv.pushNotifies (h : Inv s) (frames : List Frame)
    (hframes : ∀ f ∈ frames, f.notifies = true) : Inv (s.push frames) := by
  have habove : ∀ f ∈ frames, ∀ g, Frame.Above f g :=
    fun f hf g => Frame.above_of_notifies (hframes f hf) g
  refine h.push ?_ (fun f hf g _ => habove f hf g) ?_ ?_ ?_ ?_
  · exact pairwise_of_forall_mem_list fun f hf g _ => habove f hf g
  · exact fun t value hmem => nomatch hframes _ hmem
  · exact fun hmem => nomatch hframes _ hmem
  · exact fun _ _ f hf => Frame.starts_of_notifies (hframes f hf)
  · exact fun _ _ hmem => nomatch hframes _ hmem

theorem Inv.pushOne (h : Inv s) {f : Frame} (hdelivers : f.delivers = false)
    (hf : f ≠ .stopping) (hstopping : .stopping ∉ s.stack)
    (hquiet : s.cancelled = true → s.state = .ready → f.starts = false) : Inv (s.push [f]) := by
  refine h.push (pairwise_singleton _ _) ?_ ?_ ?_ ?_ ?_
  · intro g hg i hi
    rw [mem_singleton.mp hg]
    refine ⟨fun htrue => absurd (hdelivers ▸ htrue) Bool.false_ne_true, fun heq => ?_⟩
    exact absurd (heq ▸ hi) hstopping
  · intro t value hmem
    rw [← mem_singleton.mp hmem] at hdelivers
    cases hdelivers
  · exact fun hmem => absurd (mem_singleton.mp hmem).symm hf
  · intro hcanc hready g hg
    rw [mem_singleton.mp hg]
    exact hquiet hcanc hready
  · intro _ _ hmem
    rw [← mem_singleton.mp hmem] at hdelivers
    cases hdelivers

theorem Inv.fire (h : Inv s) {value : State}
    (hdeliv : hook value ≠ [] → .stopping ∉ s.stack)
    (hsucceeded : value = .succeeded → (∀ f ∈ s.stack, f.starts = false) ∧
      (s.cancelled = true → s.stop = true)) : Inv (s.fire value) := by
  have hbelow := h.pushNotifies [.handlers, .caught] (by decide)
  have hstopping : .stopping ∉ s.stack → .stopping ∉ (s.push [.handlers, .caught]).stack := by
    simp [System.push]
  have hplain : hook value = [] → Inv (s.fire value) := by
    intro hhook
    rw [System.fire, hhook]
    exact h.pushNotifies _ (by decide)
  cases value with
  | succeeded =>
    obtain ⟨hstarts, hstop⟩ := hsucceeded rfl
    have hhook : Inv ((s.push [.handlers, .caught]).push [.succeeded]) := by
      refine hbelow.push (pairwise_singleton _ _) ?_ ?_ ?_ ?_ ?_
      · intro f hf g hg
        refine ⟨fun _ => ?_, fun heq => absurd (heq ▸ hg) (hstopping (hdeliv (by decide)))⟩
        rcases mem_append.mp hg with hg | hg
        · rcases mem_pair.mp hg with rfl | rfl <;> rfl
        · exact hstarts g hg
      · exact fun _ _ hmem => nomatch mem_singleton.mp hmem
      · exact fun hmem => nomatch mem_singleton.mp hmem
      · intro _ _ f hf
        rw [mem_singleton.mp hf]
        rfl
      · exact fun hcanc hfalse => absurd ((hstop hcanc).symm.trans hfalse) (by decide)
    exact hhook.pushNotifies [.handlers] (by decide)
  | failed =>
    have hhook : Inv ((s.push [.handlers, .caught]).push [.failed]) :=
      hbelow.pushOne rfl (by decide) (hstopping (hdeliv (by decide))) fun _ _ => rfl
    exact hhook.pushNotifies [.handlers] (by decide)
  | ready | scheduled | running | cancelled => exact hplain rfl

theorem Inv.withState (h : Inv s) (hbound : s.bound = none) {value : State}
    (hready : value = .ready → .stopping ∉ s.stack ∧
      (s.cancelled = true → ∀ f ∈ s.stack, f.starts = false)) :
    Inv { s with state := value } where
  follows := h.follows
  followed _ ht := nomatch hbound.symm.trans ht
  fresh t ht := nomatch hbound.symm.trans (h.fresh t ht).1
  posted := h.posted
  setting := h.setting
  ordered := h.ordered
  cancelling hmem := ⟨fun heq => (hready heq).1 hmem, (h.cancelling hmem).2⟩
  quiet hcanc := ⟨(h.quiet hcanc).1, fun heq => (hready heq).2 hcanc⟩
  cleared := h.cleared

theorem Inv.setServiceState (h : Inv s) {value : State} (hhook : hook value = [])
    (hready : value = .ready → .stopping ∉ s.stack ∧
      (s.cancelled = true → ∀ f ∈ s.stack, f.starts = false)) :
    Inv (s.setServiceState value) := by
  unfold System.setServiceState
  split
  · exact h.throw
  · next hbound =>
      split
      · exact h
      · have hnone : s.bound = none := Option.not_isSome_iff_eq_none.mp hbound
        refine (h.withState hnone hready).fire (absurd hhook) fun heq => ?_
        rw [heq] at hhook
        exact nomatch hhook

theorem fresh_set {t : Nat} {task : TaskState} {s' : System} {task' : TaskState}
    (htask : s.tasks[t]? = some task) (hs' : s'.tasks = s.tasks.set t task')
    (hkept : task'.phase = .notStarted → task'.future = .pending →
      task.phase = .notStarted ∧ task.future = .pending) {r : Nat} (hfresh : s'.Fresh r) :
    s.Fresh r := by
  obtain ⟨other, hother, hphase, hfuture⟩ := hfresh
  rw [hs'] at hother
  by_cases hr : r = t
  · subst hr
    rw [getElem?_set_self (List.getElem?_eq_some_iff.mp htask).1] at hother
    cases hother
    exact ⟨task, htask, hkept hphase hfuture⟩
  · rw [getElem?_set_ne (Ne.symm hr)] at hother
    exact ⟨other, hother, hphase, hfuture⟩

section

variable {t : Nat} {task : TaskState} {value : State}

theorem Inv.withTaskState (h : Inv s) (htask : s.tasks[t]? = some task) (hval : value ≠ .ready)
    (hcanc : task.state ≠ .cancelled) (hsched : s.Fresh t → value = .scheduled) :
    Inv { s with
      tasks := s.tasks.set t { task with state := value }
      state := if s.bound = some t then value else s.state } := by
  have hlt : t < s.tasks.length := (List.getElem?_eq_some_iff.mp htask).1
  have hfresh : ∀ {s' : System}, s'.tasks = s.tasks.set t { task with state := value } →
      ∀ r, s'.Fresh r → s.Fresh r :=
    fun hs' _ hr => fresh_set htask hs' (fun hphase hfuture => ⟨hphase, hfuture⟩) hr
  have hother : ∀ {r}, r ≠ t → (s.tasks.set t { task with state := value })[r]? = s.tasks[r]? :=
    fun hr => getElem?_set_ne (Ne.symm hr)
  constructor
  · exact h.follows
  · intro r hr
    by_cases hrt : r = t
    · subst hrt
      rw [if_pos (show s.bound = some r from hr)]
      exact ⟨hval, _, getElem?_set_self hlt, rfl⟩
    · have hne : s.bound ≠ some t := fun heq => hrt (Option.some.inj (hr.symm.trans heq))
      rw [if_neg hne]
      obtain ⟨hready, other, hget, hst⟩ := h.followed r hr
      exact ⟨hready, other, (hother hrt).trans hget, hst⟩
  · intro r hr
    obtain ⟨hbound, hst⟩ := h.fresh r (hfresh rfl r hr)
    refine ⟨hbound, ?_⟩
    by_cases heq : s.bound = some t
    · obtain rfl : r = t := Option.some.inj (hbound.symm.trans heq)
      rw [if_pos heq]
      exact hsched (hfresh rfl r hr)
    · rw [if_neg heq]
      exact hst
  · intro r values hmem
    obtain ⟨hr, hnot, hready⟩ := h.posted r values hmem
    exact ⟨by simpa using hr, fun hr => hnot (hfresh rfl r hr), hready⟩
  · intro r other hmem
    obtain ⟨hr, hnot, hready⟩ := h.setting r other hmem
    exact ⟨by simpa using hr, fun hr => hnot (hfresh rfl r hr), hready⟩
  · exact h.ordered
  · intro hmem
    refine ⟨?_, fun r hr => (h.cancelling hmem).2 r (hfresh rfl r hr)⟩
    by_cases heq : s.bound = some t
    · rw [if_pos heq]
      exact hval
    · rw [if_neg heq]
      exact (h.cancelling hmem).1
  · intro hquiet
    refine ⟨fun r hr => (h.quiet hquiet).1 r (hfresh rfl r hr), fun hready => ?_⟩
    by_cases heq : s.bound = some t
    · rw [if_pos heq] at hready
      exact absurd hready hval
    · rw [if_neg heq] at hready
      exact (h.quiet hquiet).2 hready
  · intro hquiet hstop
    refine ⟨(h.cleared hquiet hstop).1, fun r other hr hget => ?_⟩
    by_cases hrt : r = t
    · subst hrt
      exact absurd ((h.cleared hquiet hstop).2 r task hr htask) hcanc
    · exact (h.cleared hquiet hstop).2 r other hr ((hother hrt).symm.trans hget)

theorem Inv.setTaskState (h : Inv s) (hval : value ≠ .ready)
    (hsched : s.Fresh t → value = .scheduled)
    (hdeliv : hook value ≠ [] → .stopping ∉ s.stack ∧ ∀ f ∈ s.stack, f.starts = false) :
    Inv (s.setTaskState t value) := by
  unfold System.setTaskState
  split
  · exact h
  · next task htask =>
      split
      · exact h
      · next hcanc =>
          have hset := h.withTaskState htask hval hcanc hsched
          have hpush := hset.pushNotifies [.setRunning t value] (by simp [Frame.notifies])
          dsimp only
          split
          · next hfollows =>
              rw [if_pos (show s.bound = some t from hfollows.1)] at hpush
              refine hpush.fire ?_ ?_
              · intro heq
                simpa [System.push] using (hdeliv heq).1
              · intro heq
                refine ⟨?_, fun hquiet => ?_⟩
                · intro f hf
                  rcases mem_append.mp hf with hf | hf
                  · rw [mem_singleton.mp hf]
                    rfl
                  · exact (hdeliv (by simp [heq, hook])).2 f hf
                · by_contra hstop
                  have hcleared := h.cleared hquiet (Bool.eq_false_iff.mpr hstop)
                  exact hcanc (hcleared.2 t task hfollows.1 htask)
          · next hfollows =>
              have hsame : (if s.bound = some t then value else s.state) = s.state := by
                by_cases hbound : s.bound = some t
                · rw [if_pos hbound]
                  by_contra hne
                  exact hfollows ⟨hbound, Ne.symm hne⟩
                · exact if_neg hbound
              rw [hsame] at hpush
              exact hpush

theorem Inv.withTask (h : Inv s) {task' : TaskState} (htask : s.tasks[t]? = some task)
    (hst : task'.state = task.state)
    (hkept : task'.phase = .notStarted → task'.future = .pending →
      task.phase = .notStarted ∧ task.future = .pending) :
    Inv { s with tasks := s.tasks.set t task' } := by
  have hlt : t < s.tasks.length := (List.getElem?_eq_some_iff.mp htask).1
  have hfresh : ∀ {s' : System}, s'.tasks = s.tasks.set t task' → ∀ r, s'.Fresh r → s.Fresh r :=
    fun hs' _ hr => fresh_set htask hs' hkept hr
  have hget : ∀ {r : Nat} {other : TaskState}, (s.tasks.set t task')[r]? = some other →
      ∃ other' : TaskState, s.tasks[r]? = some other' ∧ other.state = other'.state := by
    intro r other hother
    by_cases hrt : r = t
    · subst hrt
      rw [getElem?_set_self hlt] at hother
      cases hother
      exact ⟨task, htask, hst⟩
    · rw [getElem?_set_ne (Ne.symm hrt)] at hother
      exact ⟨other, hother, rfl⟩
  constructor
  · exact h.follows
  · intro r hr
    obtain ⟨hready, other, hother, hsame⟩ := h.followed r hr
    obtain ⟨other', hother'⟩ : ∃ other', (s.tasks.set t task')[r]? = some other' := by
      have hrlt := (List.getElem?_eq_some_iff.mp hother).1
      exact ⟨_, getElem?_eq_getElem (by simpa using hrlt)⟩
    obtain ⟨other'', hget', hst'⟩ := hget hother'
    cases hother.symm.trans hget'
    exact ⟨hready, other', hother', hst'.trans hsame⟩
  · exact fun r hr => h.fresh r (hfresh rfl r hr)
  · intro r values hmem
    obtain ⟨hr, hnot, hready⟩ := h.posted r values hmem
    exact ⟨by simpa using hr, fun hr => hnot (hfresh rfl r hr), hready⟩
  · intro r other hmem
    obtain ⟨hr, hnot, hready⟩ := h.setting r other hmem
    exact ⟨by simpa using hr, fun hr => hnot (hfresh rfl r hr), hready⟩
  · exact h.ordered
  · intro hmem
    exact ⟨(h.cancelling hmem).1, fun r hr => (h.cancelling hmem).2 r (hfresh rfl r hr)⟩
  · exact fun hquiet => ⟨fun r hr => (h.quiet hquiet).1 r (hfresh rfl r hr), (h.quiet hquiet).2⟩
  · intro hquiet hstop
    refine ⟨(h.cleared hquiet hstop).1, fun r other hr hother => ?_⟩
    obtain ⟨other', hother', hsame⟩ := hget hother
    exact hsame.trans ((h.cleared hquiet hstop).2 r other' hr hother')

end

theorem future_cancel (future : Future) : future.cancel.2 ≠ .pending := by
  cases future <;> decide

def reached (s : System) (t : Nat) (task : TaskState) : System :=
  { s with tasks := s.tasks.set t { task with future := task.future.cancel.2 } }

section

variable {t : Nat} {task : TaskState}

theorem Inv.reached (h : Inv s) (htask : s.tasks[t]? = some task) : Inv (reached s t task) :=
  h.withTask htask rfl fun _ hpend => absurd hpend (future_cancel task.future)

theorem not_fresh_reached (htask : s.tasks[t]? = some task) : ¬(reached s t task).Fresh t := by
  rintro ⟨task', htask', -, hpend⟩
  rw [ScheduledService.reached] at htask'
  rw [getElem?_set_self (List.getElem?_eq_some_iff.mp htask).1] at htask'
  cases htask'
  exact future_cancel task.future hpend

theorem taskCancel_eq (htask : s.tasks[t]? = some task) :
    s.taskCancel t =
      if task.future.cancel.1 then (reached s t task).setTaskState t .cancelled
      else reached s t task := by
  rw [System.taskCancel, htask]
  rfl

theorem setServiceState_eq {value : State} (hbound : s.bound = none) (hne : s.state ≠ value) :
    s.setServiceState value = { s with state := value }.fire value := by
  rw [System.setServiceState, hbound, if_neg (by decide), if_neg hne]

theorem Inv.taskCancel (h : Inv s) (t : Nat) : Inv (s.taskCancel t) := by
  rcases htask : s.tasks[t]? with _ | task
  · rw [System.taskCancel, htask]
    exact h
  · rw [taskCancel_eq htask]
    split
    · refine (h.reached htask).setTaskState (by decide) ?_ (absurd rfl)
      exact fun hfresh => absurd hfresh (not_fresh_reached htask)
    · exact h.reached htask

theorem Inv.pushStopping (h : Inv s) (hready : s.state ≠ .ready) (hfresh : ∀ t, ¬s.Fresh t) :
    Inv (s.push [.stopping]) := by
  refine h.push (pairwise_singleton _ _) ?_ ?_ (fun _ => ⟨hready, hfresh⟩) ?_ ?_
  · intro f hf g _
    rw [mem_singleton.mp hf]
    exact ⟨fun htrue => absurd htrue Bool.false_ne_true, fun _ => rfl⟩
  · exact fun _ _ hmem => nomatch mem_singleton.mp hmem
  · exact fun _ heq => absurd heq hready
  · exact fun _ _ hmem => nomatch mem_singleton.mp hmem

theorem Inv.cancel (h : Inv s) : Inv s.cancel := by
  rw [System.cancel, serviceCancel]
  rcases htask : s.task with _ | t
  · have hbound : s.bound = none := h.follows.symm.trans htask
    have hfresh : ∀ r, ¬s.Fresh r := fun r hr => nomatch hbound.symm.trans (h.fresh r hr).1
    rw [show (s.push [.stopping]).task = none from htask]
    dsimp only
    split
    · next hover =>
        refine h.pushStopping (fun hready => ?_) hfresh
        rcases hover with hover | hover
        · exact nomatch hready.symm.trans hover
        · exact nomatch hready.symm.trans hover
    · next hover =>
        have hst : Inv { s with state := .cancelled } :=
          h.withState hbound fun heq => nomatch heq
        have hpush := hst.pushStopping (fun heq => nomatch heq) hfresh
        rw [setServiceState_eq (s := s.push [.stopping]) hbound fun heq => hover (.inl heq)]
        exact hpush.fire (absurd rfl) fun heq => nomatch heq
  · have hbound : s.bound = some t := h.follows.symm.trans htask
    rw [show (s.push [.stopping]).task = some t from htask]
    obtain ⟨hready, task, hget, -⟩ := h.followed t hbound
    have hfresh : ∀ r, ¬(ScheduledService.reached s t task).Fresh r := by
      intro r hr
      obtain rfl : r = t :=
        Option.some.inj (((h.reached hget).fresh r hr).1.symm.trans hbound)
      exact not_fresh_reached hget hr
    have hpush := (h.reached hget).pushStopping hready hfresh
    change Inv ((s.push [.stopping]).taskCancel t)
    rw [taskCancel_eq (show (s.push [.stopping]).tasks[t]? = some task from hget)]
    split
    · refine hpush.setTaskState (fun heq => nomatch heq) ?_ (absurd rfl)
      exact fun hr => absurd hr (hfresh t)
    · exact hpush

theorem Inv.stopped (h : Inv s) (hready : s.state ≠ .ready) (hfresh : ∀ t, ¬s.Fresh t) :
    Inv s.stopped where
  follows := h.follows
  followed := h.followed
  fresh := h.fresh
  posted := h.posted
  setting := h.setting
  ordered := h.ordered
  cancelling := h.cancelling
  quiet _ := ⟨hfresh, fun heq => absurd heq hready⟩
  cleared _ hstop := nomatch hstop

theorem Inv.called (h : Inv s) : Inv { s with cancelled := false } where
  follows := h.follows
  followed := h.followed
  fresh := h.fresh
  posted := h.posted
  setting := h.setting
  ordered := h.ordered
  cancelling := h.cancelling
  quiet hcanc := nomatch hcanc
  cleared hcanc := nomatch hcanc

theorem Inv.unbound (h : Inv s) (hfresh : ∀ t, ¬s.Fresh t) :
    Inv { s with task := none, bound := none } where
  follows := rfl
  followed _ ht := nomatch ht
  fresh t ht := absurd ht (hfresh t)
  posted := h.posted
  setting := h.setting
  ordered := h.ordered
  cancelling := h.cancelling
  quiet := h.quiet
  cleared hcanc hstop := ⟨(h.cleared hcanc hstop).1, fun _ _ ht => nomatch ht⟩

theorem Inv.superReset (h : Inv s) (hstopping : .stopping ∉ s.stack)
    (hstarts : s.cancelled = true → s.state ≠ .scheduled → s.state ≠ .running →
      ∀ f ∈ s.stack, f.starts = false) :
    Inv s.superReset := by
  unfold System.superReset
  split
  · exact h.throw
  · next hst =>
      obtain ⟨hsched, hrunning⟩ := not_or.mp hst
      have hfresh : ∀ t, ¬s.Fresh t := fun t ht => hsched (h.fresh t ht).2
      exact (h.unbound hfresh).setServiceState rfl
        fun _ => ⟨hstopping, fun hcanc => hstarts hcanc hsched hrunning⟩

theorem Inv.reset (h : Inv s) (hstopping : .stopping ∉ s.stack) : Inv s.reset := by
  have hpush : Inv ({ s with cancelled := false }.push [.resetting]) :=
    h.called.pushOne rfl (by decide) hstopping fun heq => nomatch heq
  refine hpush.superReset ?_ fun hcanc => nomatch hcanc
  simpa [System.push] using hstopping

theorem Inv.restart (h : Inv s) (hstopping : .stopping ∉ s.stack) : Inv s.restart := by
  unfold System.restart
  dsimp only
  split
  · have hstart : Inv ({ s with cancelled := false }.push [.start]) :=
      h.called.pushOne rfl (by decide) hstopping fun heq => nomatch heq
    have hreset : Inv (({ s with cancelled := false }.push [.start]).push [.reset]) :=
      hstart.pushOne rfl (by decide) (by simpa [System.push] using hstopping)
        fun heq => nomatch heq
    have hdropping : Inv ((({ s with cancelled := false }.push [.start]).push [.reset]).push
        [.dropping]) :=
      hreset.pushOne rfl (by decide) (by simpa [System.push] using hstopping)
        fun heq => nomatch heq
    exact hdropping.taskCancel _
  · have hstart : Inv ({ s with cancelled := false }.push [.start]) :=
      h.called.pushOne rfl (by decide) hstopping fun heq => nomatch heq
    exact hstart.reset (by simpa [System.push] using hstopping)

theorem Inv.created (h : Inv s) (hready : s.state = .ready) (hcanc : s.cancelled = false) :
    Inv { s with
      tasks := s.tasks ++ [{ TaskState.new with state := .scheduled }]
      task := some s.tasks.length
      bound := some s.tasks.length
      state := .scheduled } := by
  have hget : ∀ {r : Nat}, r < s.tasks.length →
      (s.tasks ++ [{ TaskState.new with state := .scheduled }])[r]? = s.tasks[r]? :=
    fun hr => getElem?_append_left hr
  have hnew : (s.tasks ++ [{ TaskState.new with state := .scheduled }])[s.tasks.length]? =
      some { TaskState.new with state := .scheduled } := by simp
  have hfresh : ∀ r, ¬s.Fresh r := fun r hr => nomatch hready.symm.trans (h.fresh r hr).2
  have hold : ∀ {s' : System},
      s'.tasks = s.tasks ++ [{ TaskState.new with state := .scheduled }] →
      ∀ r, r < s.tasks.length → ¬s'.Fresh r := by
    rintro s' hs' r hr ⟨task, htask, hphase, hfuture⟩
    rw [hs', hget hr] at htask
    exact hfresh r ⟨task, htask, hphase, hfuture⟩
  constructor
  · rfl
  · intro r hr
    cases hr
    exact ⟨(fun heq => nomatch heq), _, hnew, rfl⟩
  · intro r hr
    obtain ⟨task, htask, hphase, hfuture⟩ := id hr
    have hlt := (List.getElem?_eq_some_iff.mp htask).1
    rw [length_append] at hlt
    rcases Nat.lt_succ_iff_lt_or_eq.mp hlt with hlt | rfl
    · exact absurd hr (hold rfl r hlt)
    · exact ⟨rfl, rfl⟩
  · intro r values hmem
    obtain ⟨hr, -, hvals⟩ := h.posted r values hmem
    exact ⟨by simpa using Nat.lt_succ_of_lt hr, hold rfl r hr, hvals⟩
  · intro r value hmem
    obtain ⟨hr, -, hval⟩ := h.setting r value hmem
    exact ⟨by simpa using Nat.lt_succ_of_lt hr, hold rfl r hr, hval⟩
  · exact h.ordered
  · exact fun hmem => absurd hready (h.cancelling hmem).1
  · exact fun hquiet => nomatch hcanc.symm.trans hquiet
  · exact fun hquiet => nomatch hcanc.symm.trans hquiet

theorem Inv.start (h : Inv s) (hquiet : s.cancelled = true → s.state ≠ .ready) : Inv s.start := by
  unfold System.start
  split
  · exact h.throw
  · next hready =>
      have hready : s.state = .ready := not_not.mp hready
      have hcanc : s.cancelled = false :=
        Bool.eq_false_iff.mpr fun heq => hquiet heq hready
      have hstopping : .stopping ∉ s.stack := fun hmem => (h.cancelling hmem).1 hready
      have hcreated := (h.created hready hcanc).pushOne (f := .executing) rfl (by decide)
        hstopping fun _ heq => nomatch heq
      have hsetting := hcreated.pushNotifies [.setRunning s.tasks.length .scheduled]
        (by simp [Frame.notifies])
      have hfire : Inv (System.fire _ .scheduled) :=
        hsetting.fire (absurd rfl) fun heq => nomatch heq
      have heq : (({ s with
          tasks := s.tasks ++ [TaskState.new]
          task := some s.tasks.length
          bound := some s.tasks.length }.push [.executing]).setTaskState
            s.tasks.length .scheduled) =
          ((({ s with
            tasks := s.tasks ++ [{ TaskState.new with state := .scheduled }]
            task := some s.tasks.length
            bound := some s.tasks.length
            state := .scheduled }.push [.executing]).push
              [.setRunning s.tasks.length .scheduled]).fire .scheduled) := by
        simp [System.setTaskState, System.push, TaskState.new, hready]
      rw [heq]
      exact hfire

theorem workerStep_spec {made : TaskState.Step} {task' : TaskState}
    (hstep : { task with queue := [] }.workerStep made = some task') :
    task'.state = task.state ∧ task'.phase ≠ .notStarted ∧ ∀ r ∈ task'.queue, .ready ∉ r := by
  rcases task with ⟨state, running, future, phase, queue, current⟩
  cases made with
  | dequeue => cases hstep
  | setNext => cases hstep
  | cancel => cases hstep
  | cancelInCall =>
    simp only [TaskState.workerStep] at hstep
    split at hstep
    · next hphase =>
        cases hstep
        cases future <;>
          simp [TaskState.cancel, TaskState.Future.cancel, TaskState.runLater, hphase]
    · cases hstep
  | start | checkCancelled =>
    simp only [TaskState.workerStep] at hstep
    split at hstep
    · split at hstep <;> (cases hstep; simp)
    · cases hstep
  | _ =>
    simp only [TaskState.workerStep] at hstep
    split at hstep
    · cases hstep
      simp [TaskState.runLater]
    · cases hstep

end

theorem Inv.unseen (h : Inv s) (freshStart restartOnFailure : Bool) (delayTask : Option Nat)
    (maximumFailureCount currentFailureCount : Int) (timers : List Timer) (submitted : List Nat) :
    Inv { s with
      freshStart, restartOnFailure, delayTask, maximumFailureCount, currentFailureCount, timers,
      submitted } :=
  ⟨h.follows, h.followed, h.fresh, h.posted, h.setting, h.ordered, h.cancelling, h.quiet,
    h.cleared⟩

theorem Inv.post (h : Inv s) {runnables : List Runnable}
    (hposted : ∀ t values, .states t values ∈ runnables →
      t < s.tasks.length ∧ ¬s.Fresh t ∧ .ready ∉ values) :
    Inv { s with queue := s.queue ++ runnables } :=
  { h with
    posted := fun t values hmem =>
      (mem_append.mp hmem).elim (h.posted t values) (hposted t values) }

section

variable {f : Frame} {stack : List Frame}

theorem Inv.pop (h : Inv s) (hstack : s.stack = f :: stack) :
    Inv { s with stack } ∧ (∀ g ∈ stack, Frame.Above f g) ∧
      (f.inCancel = false → .stopping ∉ stack) ∧
      (f.starts = true → s.cancelled = true → s.state ≠ .ready) := by
  have hordered := h.ordered
  rw [hstack, pairwise_cons] at hordered
  refine ⟨h.sub (hstack ▸ sublist_cons_self f stack), hordered.1, ?_, ?_⟩
  · intro hnot hmem
    exact nomatch hnot.symm.trans ((hordered.1 _ hmem).2 rfl)
  · intro hstarts hcanc hready
    have hnot := (h.quiet hcanc).2 hready f (hstack ▸ mem_cons_self)
    exact nomatch hnot.symm.trans hstarts

theorem Inv.succeeded (h : Inv { s with stack }) (hstack : s.stack = .succeeded :: stack)
    (hs : Inv s) (hstopping : .stopping ∉ stack) (hstarts : ∀ g ∈ stack, g.starts = false) :
    Inv { s with stack }.succeeded := by
  have hstop : s.cancelled = true → s.stop = true := by
    intro hcanc
    by_contra hstop
    exact (hs.cleared hcanc (Bool.eq_false_iff.mpr hstop)).1 (hstack ▸ mem_cons_self)
  have hpush : Inv ({ s with stack }.push [.iterating s.stop]) := by
    refine h.pushOne rfl (by simp) hstopping fun hcanc _ => ?_
    rw [hstop hcanc]
    rfl
  refine hpush.superReset (by simpa [System.push] using hstopping) fun hcanc _ _ g hg => ?_
  rcases mem_cons.mp hg with rfl | hg
  · rw [Frame.starts, hstop hcanc]
    rfl
  · exact hstarts g hg

theorem Inv.failed (h : Inv s) (hstopping : .stopping ∉ s.stack)
    (hsafe : ¬(s.cancelled = true ∧ s.restartsAfterFailure = true ∧ s.state ≠ .scheduled ∧
      s.state ≠ .running)) : Inv s.failed := by
  have hcnt : Inv { s with currentFailureCount := s.currentFailureCount + 1 } := h.unseen ..
  unfold System.failed
  dsimp only
  split
  · next hrestarts =>
      have hpush : Inv ({ s with
          currentFailureCount := s.currentFailureCount + 1 }.push [.start]) := by
        refine hcnt.pushOne rfl (by decide) hstopping fun hcanc hready => ?_
        refine absurd ⟨hcanc, hrestarts, ?_, ?_⟩ hsafe
        · rw [hready]
          exact fun heq => nomatch heq
        · rw [hready]
          exact fun heq => nomatch heq
      refine hpush.superReset (by simpa [System.push] using hstopping) ?_
      exact fun hcanc hsched hrunning =>
        absurd ⟨hcanc, hrestarts, hsched, hrunning⟩ hsafe
  · exact hcnt

theorem Inv.setRunning (h : Inv s) (t : Nat) (running : Bool) :
    Inv { s with tasks := s.tasks.modify t fun task => { task with running } } := by
  rcases htask : s.tasks[t]? with _ | task
  · rw [modify_eq_self (List.getElem?_eq_none_iff.mp htask)]
    exact h
  · have hset : (s.tasks.modify t fun task => { task with running }) =
        s.tasks.set t { task with running } := by
      rw [modify_eq_set_getElem?, htask]
      rfl
    rw [hset]
    exact h.withTask htask rfl fun hphase hfuture => ⟨hphase, hfuture⟩

theorem Inv.resume (h : Inv s) (hstack : s.stack = f :: stack) (pauses : Bool)
    (hsafe : s.Safe (.next pauses)) : Inv ({ s with stack }.resume pauses f) := by
  obtain ⟨hrest, habove, houtside, hstarts⟩ := h.pop hstack
  rw [System.Safe, hstack] at hsafe
  cases f with
  | handlers => exact hrest
  | caught => exact hrest
  | setState t value =>
    obtain ⟨-, hfresh, hval⟩ := h.setting t value (hstack ▸ mem_cons_self)
    exact hrest.setTaskState hval (fun hr => absurd hr hfresh) fun _ =>
      ⟨houtside rfl, fun g hg => (habove g hg).1 rfl⟩
  | setRunning t value =>
    exact (hrest.setRunning t _).pushNotifies [.handlers] (by decide)
  | stopping =>
    obtain ⟨hready, hfresh⟩ := h.cancelling (hstack ▸ mem_cons_self)
    exact hrest.stopped hready hfresh
  | dropping =>
    have hfresh : ∀ t, ¬s.Fresh t :=
      fun t ht => hsafe t (h.follows.trans (h.fresh t ht).1) ht
    exact (hrest.unbound hfresh).setServiceState rfl fun heq => nomatch heq
  | reset => exact hrest.reset (houtside rfl)
  | start => exact hrest.start (hstarts rfl)
  | resetting =>
    have hcleared : Inv { s with stack, stop := false } :=
      { hrest with cleared := fun hcanc _ => hsafe hcanc }
    exact hcleared.unseen ..
  | executing =>
    change Inv (System.executeTask _ _ _)
    unfold System.executeTask System.executeTaskNow
    split
    · exact hrest.unseen ..
    · exact hrest.unseen ..
  | executeTaskNow task | clearDelayTask => exact hrest.unseen ..
  | succeeded => exact hrest.succeeded hstack h (houtside rfl) fun g hg => (habove g hg).1 rfl
  | failed => exact hrest.failed (houtside rfl) hsafe
  | iterating wasCancelled =>
    cases wasCancelled with
    | true =>
      have hpush : Inv ({ s with stack }.push [.setCancelled]) :=
        hrest.pushOne rfl (by decide) (houtside rfl) fun _ _ => rfl
      exact hpush.setServiceState rfl fun heq => nomatch heq
    | false => exact hrest.start (hstarts rfl)
  | setCancelled => exact hrest.setServiceState rfl fun heq => nomatch heq

end

theorem Inv.call (h : Inv s) {c : Call} (hsafe : s.Safe (.call c)) : Inv (s.call c) := by
  cases c with
  | start => exact h.start fun hcanc hready => hsafe ⟨hcanc, hready⟩
  | restart => exact h.restart hsafe
  | reset => exact h.reset hsafe
  | cancel => exact h.cancel

theorem Inv.poll (h : Inv s) (hstack : s.stack = []) {r : Runnable} {queue : List Runnable}
    (hqueue : s.queue = r :: queue) : Inv ({ s with queue }.push r.frames) := by
  have hrest : Inv { s with queue } :=
    { h with posted := fun t values hmem =>
        h.posted t values (hqueue ▸ mem_cons_of_mem r hmem) }
  have hframes : ∀ f ∈ r.frames, f.starts = false ∧ f ≠ .stopping ∧ f ≠ .succeeded := by
    intro f hf
    cases r with
    | states t values =>
      obtain ⟨value, -, rfl⟩ := mem_map.mp hf
      exact ⟨rfl, (fun heq => nomatch heq), (fun heq => nomatch heq)⟩
    | delayed task =>
      rcases mem_pair.mp hf with rfl | rfl
      · exact ⟨rfl, (fun heq => nomatch heq), (fun heq => nomatch heq)⟩
      · exact ⟨rfl, (fun heq => nomatch heq), (fun heq => nomatch heq)⟩
  refine hrest.push ?_ ?_ ?_ ?_ ?_ ?_
  · refine pairwise_of_forall_mem_list fun f _ g hg => ⟨fun _ => (hframes g hg).1, ?_⟩
    exact fun heq => absurd heq (hframes g hg).2.1
  · intro f _ g hg
    exact absurd (hstack ▸ hg) not_mem_nil
  · intro t value hmem
    cases r with
    | states t' values =>
      obtain ⟨value', hval, heq⟩ := mem_map.mp hmem
      cases heq
      obtain ⟨hlt, hfresh, hready⟩ := h.posted t values (hqueue ▸ mem_cons_self)
      exact ⟨hlt, hfresh, fun heq => hready (heq ▸ hval)⟩
    | delayed task => simp [Runnable.frames] at hmem
  · exact fun hmem => absurd rfl (hframes _ hmem).2.1
  · exact fun _ _ f hf => (hframes f hf).1
  · exact fun _ _ hmem => absurd rfl (hframes _ hmem).2.2

theorem Inv.worker (h : Inv s) {t : Nat} {task task' : TaskState} {made : TaskState.Step}
    (htask : s.tasks[t]? = some task)
    (hstep : { task with queue := [] }.workerStep made = some task') :
    Inv { s with
      tasks := s.tasks.set t { task' with queue := [] }
      queue := s.queue ++ task'.queue.map (.states t) } := by
  obtain ⟨hst, hphase, hqueue⟩ := workerStep_spec hstep
  have hset : Inv { s with tasks := s.tasks.set t { task' with queue := [] } } :=
    h.withTask htask hst fun hphase' => absurd hphase' hphase
  refine hset.post fun r values hmem => ?_
  obtain ⟨posted, hposted, heq⟩ := mem_map.mp hmem
  cases heq
  have hlt := (List.getElem?_eq_some_iff.mp htask).1
  refine ⟨by simpa using hlt, ?_, hqueue values hposted⟩
  rintro ⟨other, hother, hnot, -⟩
  rw [getElem?_set_self hlt] at hother
  cases hother
  exact hphase hnot

theorem step_inv {s' : System} {a : Action} (h : Inv s) (hsafe : s.Safe a)
    (hstep : s.step a = some s') : Inv s' := by
  cases a with
  | call c =>
    simp only [step] at hstep
    split at hstep
    · cases hstep
      exact h.call hsafe
    · cases hstep
  | configure restartOnFailure maximumFailureCount =>
    simp only [step] at hstep
    split at hstep
    · cases hstep
      exact h.unseen ..
    · cases hstep
  | throws =>
    simp only [step] at hstep
    split at hstep
    · next stack hstack =>
        cases hstep
        exact (h.pop hstack).1.throw
    · cases hstep
  | next pauses =>
    simp only [step] at hstep
    split at hstep
    · next f stack hstack =>
        cases hstep
        exact h.resume hstack pauses hsafe
    · cases hstep
  | poll =>
    simp only [step] at hstep
    split at hstep
    · next r queue hstack hqueue =>
        cases hstep
        exact h.poll hstack hqueue
    · cases hstep
  | timer d =>
    simp only [step] at hstep
    split at hstep
    · next task htimer =>
        cases hstep
        have hpost : Inv { s with queue := s.queue ++ [.delayed task] } := by
          refine h.post fun t values hmem => ?_
          exact nomatch mem_singleton.mp hmem
        exact hpost.unseen ..
    · cases hstep
  | worker t made =>
    simp only [step] at hstep
    split at hstep
    · cases hstep
    · simp only [Option.bind_eq_bind, Option.bind_eq_some_iff] at hstep
      obtain ⟨task, htask, task', hworker, heq⟩ := hstep
      cases heq
      exact h.worker htask hworker

theorem reached_inv (h : Reached Safe s) : Inv s := by
  induction h with
  | init => exact inv_init
  | step a _ met result ih => exact step_inv ih met result

theorem fresh_of_begins {t : Nat} (h : s.Begins t) : s.Fresh t := by
  obtain ⟨s', task', hstep, hget, hentered⟩ := h
  simp only [step] at hstep
  split at hstep
  · cases hstep
  · simp only [Option.bind_eq_bind, Option.bind_eq_some_iff] at hstep
    obtain ⟨task, htask, entered, hworker, heq⟩ := hstep
    cases heq
    rw [getElem?_set_self (List.getElem?_eq_some_iff.mp htask).1] at hget
    cases hget
    refine ⟨task, htask, ?_⟩
    simp only [TaskState.workerStep] at hworker
    split at hworker
    · next hphase =>
        split at hworker
        · next hpend => exact ⟨hphase, hpend⟩
        · cases hworker
          cases hentered
    · cases hworker

/-- While nothing takes a cancel back, no body of a task begins after it until `reset` or
`restart` is called. -/
theorem safe_stopsAfterCancel (h : Reached Safe s) : s.StopsAfterCancel :=
  fun hcancelled t hbegins => ((reached_inv h).quiet hcancelled).1 t (fresh_of_begins hbegins)

/-- A handler of the scheduled state cancels: the task is handed to the executor all the same, but
it cannot begin. -/
theorem safe_stopsAfterCancel_handler :
    ∃ s, Reached Safe s ∧ s.cancelled = true ∧ s.submitted = [0] ∧ ¬s.Begins 0 := by
  have h : Reached Safe System.init := .init
  have h := Reached.step (.call .start) h (fun hready => nomatch hready.1) rfl
  have h := Reached.step (.call .cancel) h trivial rfl
  iterate 12 replace h := Reached.step (.next false) h trivial rfl
  exact ⟨_, h, rfl, rfl, safe_stopsAfterCancel h rfl 0⟩

theorem reached_steps {condition : System → Action → Prop} (hall : ∀ s a, condition s a)
    {actions : List Action} {s' : System} (h : Reached condition s)
    (hsteps : s.steps actions = some s') : Reached condition s' := by
  induction actions generalizing s with
  | nil =>
    cases hsteps
    exact h
  | cons a actions ih =>
    obtain ⟨s₁, hstep, hrest⟩ := Option.bind_eq_some_iff.mp hsteps
    exact ih (h.step a (hall s a) hstep) hrest

/-- The body of the first task throws and its future is completed; `cancel` is called before the
failure is delivered. The service starts a second task, which begins. -/
theorem cancelBeforeFailed_begins :
    ∃ s, Reached (fun _ _ => True) s ∧ ¬s.StopsAfterCancel := by
  have hrun : (System.init.steps
      (List.flatten [[.call .start], List.replicate 6 (.next false),
        [.worker 0 .start, .worker 0 .postRunning, .poll], List.replicate 9 (.next false),
        [.worker 0 .callThrows, .worker 0 .postFailed, .worker 0 .complete, .call .cancel,
          .next false, .poll], List.replicate 13 (.next false)])).map
      (fun s => (s.cancelled, (s.step (.worker 1 .start)).bind fun s' =>
        s'.tasks[1]?.map TaskState.phase)) = some (true, some .entered) := by
    decide
  obtain ⟨s, hsteps, hfacts⟩ := Option.map_eq_some_iff.mp hrun
  obtain ⟨hcancelled, hbegins⟩ := Prod.mk.inj hfacts
  obtain ⟨s', hstep, hphase⟩ := Option.bind_eq_some_iff.mp hbegins
  obtain ⟨task, htask, hentered⟩ := Option.map_eq_some_iff.mp hphase
  exact ⟨s, reached_steps (fun _ _ => trivial) .init hsteps,
    fun hstops => hstops hcancelled 1 ⟨s', task, hstep, htask, hentered⟩⟩

end OpenJfx.Concurrent.ScheduledService
