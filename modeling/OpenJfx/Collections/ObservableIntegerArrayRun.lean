import OpenJfx.Collections.ObservableIntegerArraySpec

namespace OpenJfx.Collections.ObservableIntegerArrayImpl

open Java.Actions Java.Arrays Java.Ints

/-- `setAll` from another array empties the array before it is clear that the copy succeeds. The
call can be relied on if the array is empty anyway, if its arguments are refused, or if there is
memory enough and the indexes do not wrap around. -/
def Keeps (allocate : Int → Bool) (heap : Heap) (this : Nat) : Call → Prop
  | .setAll (some src) =>
    src = .observable this ∨
      SetAllKeeps allocate heap this 0 (heap.contents.get src).length
  | .setAllRange (some src) srcIndex length =>
    rangeCheckSource (heap.contents.get src).length srcIndex.toInt length.toInt ≠ none ∨
      src = .observable this ∨ SetAllKeeps allocate heap this srcIndex.toInt length.toInt
  | _ => True

section Calls

variable {allocate : Int → Bool} {heap : Heap} {this : Nat}

theorem nonNull_some {α : Type} (ref : α) : (nonNull (some ref)).run heap = .ok ref heap := rfl

theorem nonNull_none {α : Type} :
    (nonNull (none : Option α)).run heap = .error Contents.nullPointer heap := rfl

theorem rangeCheckSource_eq_none {srcSize srcIndex length : Int}
    (h : rangeCheckSource srcSize srcIndex length = none) :
    0 ≤ srcIndex ∧ int32 (srcIndex + length) ≤ srcSize ∧ 0 ≤ length := by
  rw [rangeCheckSource] at h
  split_ifs at h with hrange hneg
  obtain ⟨hidx, hsize⟩ := not_or.mp hrange
  exact ⟨Int.not_lt.mp hidx, Int.not_lt.mp hsize, Int.not_lt.mp hneg⟩

theorem represents_self (h : heap.Valid) : Represents heap heap.contents heap.fired := ⟨h, rfl, rfl⟩

theorem copyToArray_outcome (h : heap.Valid) {srcIndex destIndex length : Int}
    (hidx : srcIndex < 2 ^ 31) (hdest : destIndex < 2 ^ 31) (hlength : length < 2 ^ 31)
    (dest : Option ArrayRef) :
    Outcome allocate heap this True
      ((rangeCheck (heap.contents.observables this).length (int32 (srcIndex + length))).or
        (match dest with
          | none => some Contents.nullPointer
          | some dest =>
            (heap.contents.sourceCheck dest destIndex length).or
              (Contents.copyCheck (heap.contents.observables this) srcIndex
                (heap.contents.get dest).length destIndex length)))
      (dest.bind fun dest => (part (heap.contents.observables this) srcIndex length).bind
        fun values => (overwrite (heap.contents.get dest) destIndex values).map
          (heap.contents.put dest))
      (fun c' => match dest with
        | some (.observable dest) =>
          heap.contents.told dest (c'.observables dest) destIndex (destIndex + length)
        | _ => [])
      ((copyToArray this srcIndex dest destIndex length).run heap) := by
  have ha := h.observables this
  have hlen : ((heap.contents.observables this).length : Int) = (heap.observables this).size :=
    ha.length_contents
  rw [copyToArray, bind_ok observable_run, hlen]
  cases hcheck : rangeCheck (heap.observables this).size (int32 (srcIndex + length)) with
  | some e =>
    exact .kept trivial (.inl Option.some_or) (represents_self h)
  | none =>
    have hpart : part (heap.observables this).array srcIndex length =
        part (heap.contents.observables this) srcIndex length :=
      part_array ha hidx hlength hcheck
    rw [bind_ok check_none, Option.none_or]
    rcases dest with _ | dest | dest
    · exact .kept trivial (.inl rfl) (represents_self h)
    · -- an observable array
      refine (set_outcome h hdest hlength fun _ => rfl).of Iff.rfl ?_ ?_ fun _ _ => rfl
      · rw [Contents.copyCheck, hpart]
        rfl
      · rw [hpart]
        rfl
    · have hget : (MonadState.get : Action Heap).run heap = .ok heap heap := rfl
      have hsrc : heap.contents.sourceCheck (.ints dest) destIndex length = none := rfl
      have hints : heap.contents.get (.ints dest) = heap.ints dest := rfl
      rw [bind_ok (nonNull_some _)]
      dsimp only
      rw [bind_ok hget, hsrc, Option.none_or, Option.bind_some, hints]
      by_cases hlegal : (part (heap.contents.observables this) srcIndex length).isSome = true ∧
          0 ≤ destIndex ∧ destIndex + length ≤ (heap.ints dest).length
      · obtain ⟨hsome, hnn, hle⟩ := hlegal
        obtain ⟨values, hvals⟩ := Option.isSome_iff_exists.mp hsome
        obtain ⟨-, -, -, hlenv, -⟩ := part_spec hvals
        have hvals' := hvals
        rw [← hpart] at hvals'
        have hover : overwrite (heap.ints dest) destIndex values =
            some ((heap.ints dest).take destIndex.toNat ++ values ++
              (heap.ints dest).drop (destIndex + length).toNat) := by
          rw [overwrite, hlenv, if_pos ⟨hnn, hle⟩]
        have hlen' := (overwrite_spec hover).2.2.1
        rw [arraycopy_part hvals' hnn hle, hvals, Option.bind_some, hover]
        refine .done trivial ?_ rfl ⟨⟨h.observables, fun i => ?_⟩, rfl, ?_⟩
        · rw [Contents.copyCheck, hvals, if_pos ⟨rfl, hnn, hle⟩]
        · by_cases hi : i = dest
          · rw [hi]
            change ((Function.update heap.ints dest _ dest).length : Int) < 2 ^ 31
            rw [Function.update_self, hlen']
            exact h.ints dest
          · change ((Function.update heap.ints dest _ i).length : Int) < 2 ^ 31
            rw [Function.update_of_ne hi]
            exact h.ints i
        · rw [List.append_nil]
          rfl
      · have hlegal' := hlegal
        rw [← hpart] at hlegal'
        rw [arraycopy_error hlegal']
        refine .kept trivial (.inl ?_) (represents_self h)
        rw [Contents.copyCheck, if_neg hlegal]

theorem setFrom_outcome (h : heap.Valid) {srcIndex destIndex length : Int}
    (hidx : srcIndex < 2 ^ 31) (hdest : destIndex < 2 ^ 31) (hlen : length < 2 ^ 31)
    (src : Option ArrayRef) :
    Outcome allocate heap this True
      ((rangeCheck (heap.contents.observables this).length (int32 (destIndex + length))).or
        (match src with
          | none => some Contents.nullPointer
          | some src =>
            (heap.contents.sourceCheck src srcIndex length).or
              (Contents.copyCheck (heap.contents.get src) srcIndex
                (heap.contents.observables this).length destIndex length)))
      (src.bind fun src => (part (heap.contents.get src) srcIndex length).bind
        fun values => (overwrite (heap.contents.observables this) destIndex values).map
          (heap.contents.setObservable this))
      (fun c' => heap.contents.told this (c'.observables this) destIndex (destIndex + length))
      ((setFrom this destIndex src srcIndex length).run heap) := by
  rcases src with _ | src
  · exact set_error h (fun _ => bind_error nonNull_none) _ _
  · have hcopy := fun dest : List Int32 =>
      (copyTo_eq h src hidx hlen : (copyTo src srcIndex dest destIndex length).run heap = _)
    dsimp only
    cases hcheck : heap.contents.sourceCheck src srcIndex length with
    | some e =>
      rw [hcheck] at hcopy
      exact set_error h (fun dest => (bind_ok (nonNull_some src)).trans (hcopy dest)) _ _
    | none =>
      rw [hcheck] at hcopy
      exact set_outcome h hdest hlen fun dest =>
        (bind_ok (nonNull_some src)).trans (hcopy dest)

theorem perform_outcome (h : heap.Valid) (call : Call) :
    Outcome allocate heap this (Keeps allocate heap this call) (heap.contents.fails this call)
      (heap.contents.after this call) (fun c' => heap.contents.change c' this call)
      ((perform allocate this call).run heap) := by
  cases call with
  | setAll src =>
    rcases src with _ | src
    · exact .kept trivial (.inl rfl) (represents_self h)
    · have hlt := length_get h src
      have hint : int32 (0 + (heap.contents.get src).length) ≤
          (heap.contents.get src).length := by
        rw [Int.zero_add, int32_eq (by omega) hlt]
      rw [perform, bind_ok (nonNull_some src), bind_ok (sizeOf_eq h src)]
      refine (setAllInternal_outcome allocate h src (Int.le_refl 0) (by omega) (by omega) hlt
        hint).of Iff.rfl ?_ ?_ ?_
      · rw [copyCheck_of_part (part_all _)]
        rfl
      · rw [part_all]
        rfl
      · intro c' hc'
        rw [part_all] at hc'
        obtain rfl := Option.some.inj hc'
        dsimp only [Contents.change]
        rw [setObservable_self]
        simp only [and_true, Option.some.injEq]
  | setAllRange src srcIndex length =>
    have hidx := srcIndex.toInt_lt
    have hlen := length.toInt_lt
    rcases src with _ | src
    · exact .kept trivial (.inl rfl) (represents_self h)
    · rw [perform, bind_ok (nonNull_some src), bind_ok (sizeOf_eq h src)]
      dsimp only [Keeps, Contents.fails]
      cases hcheck : rangeCheckSource (heap.contents.get src).length srcIndex.toInt
          length.toInt with
      | some e =>
        exact .kept (.inl nofun) (.inl Option.some_or) (represents_self h)
      | none =>
        obtain ⟨hpos, hsize, hnn⟩ := rangeCheckSource_eq_none hcheck
        refine (setAllInternal_outcome allocate h src hpos hidx hnn hlen hsize).of
          (or_iff_right (not_not.mpr rfl)).symm Option.none_or.symm ?_ ?_
        · exact Option.map_eq_bind
        · intro c' _
          dsimp only [Contents.change]
          simp only [Option.some.injEq]
  | addAll src =>
    rcases src with _ | src
    · exact .kept trivial (.inl rfl) (represents_self h)
    · have hlt := length_get h src
      have hint : int32 (0 + (heap.contents.get src).length) ≤
          (heap.contents.get src).length := by
        rw [Int.zero_add, int32_eq (by omega) hlt]
      rw [perform, bind_ok (nonNull_some src), bind_ok (sizeOf_eq h src)]
      refine (addAllInternal_outcome allocate h (by omega) (by omega) hlt hint).of Iff.rfl ?_ ?_
        fun _ _ => rfl
      · rw [copyCheck_of_part (part_all _), Option.or_none]
        rfl
      · rw [part_all]
        rfl
  | addAllRange src srcIndex length =>
    have hidx := srcIndex.toInt_lt
    have hlen := length.toInt_lt
    rcases src with _ | src
    · exact .kept trivial (.inl rfl) (represents_self h)
    · rw [perform, bind_ok (nonNull_some src), bind_ok (sizeOf_eq h src)]
      dsimp only [Contents.fails]
      cases hcheck : rangeCheckSource (heap.contents.get src).length srcIndex.toInt
          length.toInt with
      | some e =>
        refine .kept trivial (.inl ?_) (represents_self h)
        rw [Option.some_or, Option.some_or]
      | none =>
        obtain ⟨-, hsize, hnn⟩ := rangeCheckSource_eq_none hcheck
        refine (addAllInternal_outcome allocate h hidx hnn hlen hsize).of Iff.rfl rfl
          ?_ fun _ _ => rfl
        exact Option.map_eq_bind
  | setValue index value =>
    refine (setValue_outcome h value index.le_toInt index.toInt_lt).of Iff.rfl rfl ?_
      fun _ _ => rfl
    exact Option.map_eq_bind
  | set destIndex src srcIndex length =>
    refine (setFrom_outcome h srcIndex.toInt_lt destIndex.toInt_lt length.toInt_lt src).of
      Iff.rfl rfl ?_ fun _ _ => rfl
    simp only [Option.map_eq_bind]
    rfl
  | copyTo srcIndex dest destIndex length =>
    refine (copyToArray_outcome h srcIndex.toInt_lt destIndex.toInt_lt length.toInt_lt dest).of
      Iff.rfl rfl ?_ ?_
    · simp only [Option.map_eq_bind]
      rfl
    · intro c' _
      rcases dest with _ | _ | _ <;> rfl
  | resize newSize => exact resize_outcome allocate h newSize.toInt_lt
  | clear =>
    have hzero : (0 : Int) < 2 ^ 31 := by decide
    refine (resize_outcome allocate h hzero).of Iff.rfl rfl ?_ ?_
    · rw [if_pos (Int.le_refl 0), resized, Int.toNat_zero, List.take_zero, Nat.zero_sub]
      rfl
    · intro c' _
      rw [Int.min_eq_right (Int.natCast_nonneg _)]
      rfl
  | ensureCapacity capacity => exact ensureCapacity_outcome allocate h capacity.toInt_lt
  | trimToSize => exact trimToSize_outcome allocate h

end Calls

/-- A call of a method of an array, or an `int[]` of the application gets other values. -/
inductive Step
  | call (this : Nat) (call : Call)
  | assign (i : Nat) (values : { values : List Int32 // values.length < 2 ^ 31 })

def Heap.step (heap : Heap) (allocate : Int → Bool) : Step → Heap
  | .call this call => stateAfter ((perform allocate this call).run heap)
  | .assign i values => heap.setInts i values

def Heap.thrown (heap : Heap) (allocate : Int → Bool) : Step → Option Throwable
  | .call this call => OpenJfx.Java.Actions.thrown ((perform allocate this call).run heap)
  | .assign _ _ => none

/-- The arrays after the constructor without arguments. -/
def Heap.initial : Heap := ⟨fun _ => ⟨[], 0⟩, fun _ => [], []⟩

def run (steps : List ((Int → Bool) × Step)) : Heap :=
  steps.foldl (fun heap step => heap.step step.1 step.2) .initial

/-- What an application sees of a run as long as there is memory. -/
def outcomes : Heap → List Step → List (Option Throwable × Contents × List Fired)
  | _, [] => []
  | heap, step :: steps =>
    let heap' := heap.step (fun _ => true) step
    (heap.thrown (fun _ => true) step, heap'.contents, heap'.fired) :: outcomes heap' steps

/-- A call performs the operation on the sequences and fires at most one change, which tells
everything; or it throws, leaves what it found, fires nothing, and later calls do not notice. -/
def Agrees (heap : Heap) (this : Nat) (call : Call) : EStateM.Result Throwable Heap Unit → Prop
  | .ok _ heap' =>
    heap.contents.after this call = some heap'.contents ∧
      (∀ i, (heap'.observables i).size = (heap'.contents.observables i).length) ∧
      ∃ fired, heap'.fired = heap.fired ++ fired ∧ TellsAll heap.contents heap'.contents fired
  | .error _ heap' =>
    heap'.contents = heap.contents ∧
      (∀ i, (heap'.observables i).size = (heap.observables i).size) ∧
      heap'.fired = heap.fired ∧ ∀ steps, outcomes heap' steps = outcomes heap steps

section Run

variable {allocate : Int → Bool} {heap heap' : Heap} {this : Nat} {keeps : Prop}
  {fails : Option Throwable} {after : Option Contents} {change : Contents → List Fired}
  {result : EStateM.Result Throwable Heap Unit}

theorem Outcome.valid (h : Outcome allocate heap this keeps fails after change result) :
    (stateAfter result).Valid := by
  cases h with
  | done _ _ _ h | kept _ _ h | lost _ _ h => exact h.valid

theorem Heap.Valid.setInts (h : heap.Valid) (i : Nat) {values : List Int32}
    (hlt : values.length < 2 ^ 31) : (heap.setInts i values).Valid := by
  refine ⟨h.observables, fun j => ?_⟩
  change ((Function.update heap.ints i values j).length : Int) < 2 ^ 31
  by_cases hj : j = i
  · rw [hj, Function.update_self]
    omega
  · rw [Function.update_of_ne hj]
    exact h.ints j

theorem Heap.Valid.step (h : heap.Valid) (allocate : Int → Bool) (step : Step) :
    (heap.step allocate step).Valid := by
  cases step with
  | call this call => exact (perform_outcome h call).valid
  | assign i values => exact h.setInts i values.2

theorem run_valid (steps : List ((Int → Bool) × Step)) : (run steps).Valid := by
  induction steps using List.reverseRecOn with
  | nil =>
    have hzero : (0 : Int) < 2 ^ 31 := by decide
    exact ⟨fun _ => ⟨Int.le_refl 0, Int.le_refl 0, hzero⟩, fun _ => hzero⟩
  | append_singleton steps step ih =>
    rw [run, List.foldl_concat]
    exact ih.step step.1 step.2

theorem Outcome.ample_of_some {e : Throwable}
    (h : Outcome (fun _ => true) heap this keeps (some e) after change result) :
    ∃ heap', result = .error e heap' ∧ heap'.Valid ∧ heap'.fired = heap.fired ∧
      (keeps → heap'.contents = heap.contents) ∧
      (¬keeps → heap'.contents = heap.contents.setObservable this []) := by
  have hmemory : ∀ {e' : Throwable}, (some e = some e' ∨ ∃ n : Int, true = false) → e = e' := by
    rintro e' (heq | ⟨_, heq⟩)
    · exact Option.some.inj heq
    · exact nomatch heq
  cases h with
  | done _ hfails => exact nomatch hfails
  | kept hkeeps hfails h =>
    obtain rfl := hmemory hfails
    exact ⟨_, rfl, h.valid, h.fired, fun _ => h.contents, fun hnot => absurd hkeeps hnot⟩
  | lost hkeeps hfails h =>
    obtain rfl := hmemory hfails
    exact ⟨_, rfl, h.valid, h.fired, fun hk => absurd hk hkeeps, fun _ => h.contents⟩

theorem Outcome.ample_of_none
    (h : Outcome (fun _ => true) heap this keeps none after change result) :
    ∃ c' heap', result = .ok () heap' ∧ after = some c' ∧
      Represents heap' c' (heap.fired ++ change c') := by
  cases h with
  | done _ _ hafter h => exact ⟨_, _, rfl, hafter, h⟩
  | kept _ hfails | lost _ hfails =>
    rcases hfails with heq | ⟨_, heq⟩
    · exact nomatch heq
    · exact nomatch heq

theorem keeps_ample (hcont : heap'.contents = heap.contents) (call : Call) :
    Keeps (fun _ => true) heap' this call ↔ Keeps (fun _ => true) heap this call := by
  have hset : ∀ index length, SetAllKeeps (fun _ => true) heap' this index length ↔
      SetAllKeeps (fun _ => true) heap this index length := by
    intro index length
    rw [SetAllKeeps, hcont]
    exact or_congr_right (and_congr_right fun _ => iff_of_true (.inr rfl) (.inr rfl))
  cases call with
  | setAll src | setAllRange src srcIndex length =>
    rcases src with _ | src
    · exact Iff.rfl
    · rw [Keeps, Keeps, hset, hcont]
  | _ => exact Iff.rfl

theorem step_congr (h : heap.Valid) (h' : heap'.Valid) (hcont : heap'.contents = heap.contents)
    (hfired : heap'.fired = heap.fired) (step : Step) :
    heap'.thrown (fun _ => true) step = heap.thrown (fun _ => true) step ∧
      (heap'.step (fun _ => true) step).contents = (heap.step (fun _ => true) step).contents ∧
      (heap'.step (fun _ => true) step).fired = (heap.step (fun _ => true) step).fired := by
  cases step with
  | assign i values =>
    obtain ⟨hobservables, hints⟩ := Contents.mk.inj hcont
    refine ⟨rfl, ?_, hfired⟩
    have hsame : heap'.ints = heap.ints := hints
    have hupd : Function.update heap'.ints i values.1 =
        Function.update heap.ints i values.1 := by rw [hsame]
    exact congrArg₂ Contents.mk hobservables hupd
  | call this call =>
    rw [Heap.thrown, Heap.thrown, Heap.step, Heap.step]
    have hout : Outcome (fun _ => true) heap this _ _ _ _ _ := perform_outcome h call
    have hout' : Outcome (fun _ => true) heap' this _ _ _ _ _ := perform_outcome h' call
    rw [hcont] at hout'
    cases hfails : heap.contents.fails this call with
    | some e =>
      rw [hfails] at hout hout'
      obtain ⟨after, hafter, -, hf, hkept, hlost⟩ := hout.ample_of_some
      obtain ⟨after', hafter', -, hf', hkept', hlost'⟩ := hout'.ample_of_some
      rw [hafter, hafter']
      refine ⟨rfl, ?_, hf'.trans (hfired.trans hf.symm)⟩
      change after'.contents = after.contents
      by_cases hkeeps : Keeps (fun _ => true) heap this call
      · rw [hkept hkeeps, hkept' ((keeps_ample hcont call).mpr hkeeps), hcont]
      · rw [hlost hkeeps, hlost' fun hk => hkeeps ((keeps_ample hcont call).mp hk),
          hcont]
    | none =>
      rw [hfails] at hout hout'
      obtain ⟨c, after, hafter, hc, hrep⟩ := hout.ample_of_none
      obtain ⟨c', after', hafter', hc', hrep'⟩ := hout'.ample_of_none
      obtain rfl := Option.some.inj (hc.symm.trans hc')
      rw [hafter, hafter']
      refine ⟨rfl, hrep'.contents.trans hrep.contents.symm, ?_⟩
      change after'.fired = after.fired
      rw [hrep'.fired, hrep.fired, hfired]

theorem outcomes_congr (steps : List Step) : ∀ {heap heap' : Heap}, heap.Valid → heap'.Valid →
    heap'.contents = heap.contents → heap'.fired = heap.fired →
    outcomes heap' steps = outcomes heap steps := by
  induction steps with
  | nil => exact fun _ _ _ _ => rfl
  | cons step steps ih =>
    intro heap heap' h h' hcont hfired
    obtain ⟨hthrown, hcont', hfired'⟩ := step_congr h h' hcont hfired step
    rw [outcomes, outcomes, hthrown, hcont', hfired',
      ih (h.step _ step) (h'.step _ step) hcont' hfired']

theorem keeps_of_empty (hemp : heap.contents.observables this = []) (call : Call) :
    Keeps allocate heap this call := by
  cases call with
  | setAll src =>
    rcases src with _ | src
    · trivial
    · exact .inr (.inl hemp)
  | setAllRange src srcIndex length =>
    rcases src with _ | src
    · trivial
    · exact .inr (.inr (.inl hemp))
  | _ => trivial

/-- After every run a call does what it should exactly if it is not a `setAll` from another array
that runs out of memory or whose indexes wrap around. -/
theorem agrees_iff (steps : List ((Int → Bool) × Step)) (allocate : Int → Bool) (this : Nat)
    (call : Call) :
    Agrees (run steps) this call ((perform allocate this call).run (run steps)) ↔
      Keeps allocate (run steps) this call := by
  have hvalid := run_valid steps
  have houtcome : Outcome allocate (run steps) this _ _ _ _ _ := perform_outcome hvalid call
  generalize (perform allocate this call).run (run steps) = result at houtcome
  cases houtcome with
  | done hkeeps _ hafter h =>
    refine iff_of_true ⟨?_, fun i => ?_, _, h.fired, ?_⟩ hkeeps
    · rw [hafter, h.contents]
    · exact (h.valid.observables i).length_contents.symm
    · rw [h.contents]
      exact tellsAll_change hafter
  | kept hkeeps _ h =>
    refine iff_of_true ⟨h.contents, fun i => ?_, h.fired, fun steps => ?_⟩ hkeeps
    · rw [← (h.valid.observables i).length_contents, ← (hvalid.observables i).length_contents]
      exact congrArg (fun c : Contents => ((c.observables i).length : Int)) h.contents
    · exact outcomes_congr steps hvalid h.valid h.contents h.fired
  | lost hkeeps _ h =>
    refine iff_of_false (fun hagrees => hkeeps (keeps_of_empty ?_ call)) hkeeps
    rw [← hagrees.1, h.contents]
    exact setObservable_self _ _ _

/-- A `setAll` whose indexes wrap around throws, and the array has lost its element. -/
theorem setAll_loses : ¬Agrees
    (run [(fun _ => true, .assign 0 ⟨[7], by decide⟩),
      (fun _ => true, .call 0 (.setAll (some (.ints 0))))]) 0
    (.setAllRange (some (.ints 0)) 2147483647 1)
    ((perform (fun _ => true) 0 (.setAllRange (some (.ints 0)) 2147483647 1)).run
      (run [(fun _ => true, .assign 0 ⟨[7], by decide⟩),
        (fun _ => true, .call 0 (.setAll (some (.ints 0))))])) := by
  intro h
  have hcontents := congrFun (congrArg Contents.observables h.1) 0
  revert hcontents
  decide

end Run

end OpenJfx.Collections.ObservableIntegerArrayImpl
