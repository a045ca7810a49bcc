import OpenJfx.Collections.ObservableIntegerArrayImpl

namespace OpenJfx.Collections.ObservableIntegerArrayImpl

open Java.Actions Java.Arrays Java.Ints List

section Actions

variable {α : Type} {heap : Heap} {this : Nat} {a : ObservableIntegerArrayImpl}

theorem check_none : (check none).run heap = .ok () heap := rfl

theorem check_some (e : Throwable) : (check (some e)).run heap = .error e heap := rfl

theorem call_ok (value : α) : (call (.ok value)).run heap = .ok value heap := rfl

theorem call_error (failure : Failure) :
    (call (.error failure : Outcome α)).run heap = .error (.failure failure) heap := rfl

theorem observables_self : (heap.setObservable this a).observables this = a :=
  Function.update_self _ _ _

theorem observables_of_ne {i : Nat} (hi : i ≠ this) :
    (heap.setObservable this a).observables i = heap.observables i := Function.update_of_ne hi _ _

theorem observable_run :
    (observable this).run heap = .ok (heap.observables this) heap := rfl

theorem setArray_run (array : List Int32) : (setArray this array).run heap =
    .ok () (heap.setObservable this ⟨array, (heap.observables this).size⟩) := rfl

theorem observable_self : (observable this).run (heap.setObservable this a) =
    .ok a (heap.setObservable this a) :=
  congrArg (fun b => EStateM.Result.ok b (heap.setObservable this a)) observables_self

theorem setObservable_setObservable (b : ObservableIntegerArrayImpl) :
    (heap.setObservable this a).setObservable this b = heap.setObservable this b := by
  rw [Heap.setObservable, Heap.setObservable, Function.update_idem]
  rfl

theorem setObservable_eq_self : heap.setObservable this (heap.observables this) = heap := by
  rw [Heap.setObservable, Function.update_eq_self]

variable (heap this) in
theorem run_eq_run_setObservable (action : Action α) : action.run heap =
    action.run (heap.setObservable this (heap.observables this)) := by rw [setObservable_eq_self]

theorem setArray_self (array : List Int32) :
    (setArray this array).run (heap.setObservable this a) =
      .ok () (heap.setObservable this { a with array := array }) := by
  change EStateM.Result.ok () ((heap.setObservable this a).setObservable this _) = _
  rw [setObservable_setObservable, observables_self]

theorem setSize_self (size : Int) :
    (setSize this size).run (heap.setObservable this a) =
      .ok () (heap.setObservable this { a with size := size }) := by
  change EStateM.Result.ok () ((heap.setObservable this a).setObservable this _) = _
  rw [setObservable_setObservable, observables_self]

def Heap.fire (heap : Heap) (fired : List Fired) : Heap :=
  { heap with fired := heap.fired ++ fired }

theorem fireChange_eq (sizeChanged : Bool) (start stop : Int) :
    (fireChange this sizeChanged start stop).run heap = .ok () (heap.fire
      (if start < stop ∨ sizeChanged = true then [⟨this, sizeChanged, start, stop⟩] else [])) := by
  rw [fireChange]
  split_ifs
  · rfl
  · change EStateM.Result.ok () heap = _
    rw [Heap.fire, append_nil]

end Actions

structure Valid (a : ObservableIntegerArrayImpl) : Prop where
  nonneg : 0 ≤ a.size
  le : a.size ≤ a.array.length
  lt : (a.array.length : Int) < 2 ^ 31

structure Heap.Valid (heap : Heap) : Prop where
  observables : ∀ i, (heap.observables i).Valid
  ints : ∀ i, ((heap.ints i).length : Int) < 2 ^ 31

theorem Valid.length_contents {a : ObservableIntegerArrayImpl} (h : a.Valid) :
    (a.contents.length : Int) = a.size := by
  have hnn := h.nonneg
  have hle := h.le
  rw [contents, length_take]
  omega

structure Extends (a a' : ObservableIntegerArrayImpl) : Prop where
  valid : a'.Valid
  size : a'.size = a.size
  pre : a.array <+: a'.array

section Extends

variable {a a' a'' : ObservableIntegerArrayImpl}

theorem Extends.refl (h : a.Valid) : Extends a a := ⟨h, rfl, prefix_rfl⟩

theorem Extends.contents_eq (ha : a.Valid) (h : Extends a a') : a'.contents = a.contents := by
  obtain ⟨rest, hrest⟩ := h.pre
  have hle := ha.le
  rw [contents, contents, h.size, ← hrest, take_append_of_le_length (by omega)]

end Extends

section Represents

variable {heap heap' : Heap} {this : Nat} {a : ObservableIntegerArrayImpl} {c : Contents}

theorem Heap.Valid.setObservable (h : heap.Valid) (ha : a.Valid) :
    (heap.setObservable this a).Valid := by
  refine ⟨fun i => ?_, h.ints⟩
  by_cases hi : i = this
  · rw [hi, observables_self]
    exact ha
  · rw [observables_of_ne hi]
    exact h.observables i

theorem contents_setObservable : (heap.setObservable this a).contents =
    heap.contents.setObservable this a.contents := by
  rw [Heap.contents, Contents.setObservable, Contents.mk.injEq]
  refine ⟨funext fun i => ?_, rfl⟩
  by_cases hi : i = this
  · rw [hi, observables_self, Function.update_self]
  · rw [observables_of_ne hi, Function.update_of_ne hi]
    rfl

theorem contents_setObservable_of_eq (h : a.contents = (heap.observables this).contents) :
    (heap.setObservable this a).contents = heap.contents := by
  rw [contents_setObservable, h]
  exact congrArg (fun o => Contents.mk o heap.ints) (Function.update_eq_self this _)

/-- A heap holds these contents, and these changes have been fired. -/
structure Represents (heap : Heap) (c : Contents) (fired : List Fired) : Prop where
  valid : heap.Valid
  contents : heap.contents = c
  fired : heap.fired = fired

theorem Represents.fire {fired : List Fired} (h : Represents heap c fired) (fired' : List Fired) :
    Represents (heap.fire fired') c (fired ++ fired') :=
  ⟨⟨h.valid.observables, h.valid.ints⟩, h.contents, congrArg (· ++ fired') h.fired⟩

theorem represents_setObservable (h : heap.Valid) (ha : a.Valid) :
    Represents (heap.setObservable this a) (heap.contents.setObservable this a.contents)
      heap.fired :=
  ⟨h.setObservable ha, contents_setObservable, rfl⟩

theorem length_get (h : heap.Valid) (src : ArrayRef) :
    ((heap.contents.get src).length : Int) < 2 ^ 31 := by
  cases src with
  | observable i =>
    have hvalid := h.observables i
    have hlen := hvalid.length_contents
    have hle := hvalid.le
    have hlt := hvalid.lt
    change ((heap.observables i).contents.length : Int) < 2 ^ 31
    omega
  | ints i => exact h.ints i

theorem sizeOf_eq (h : heap.Valid) (src : ArrayRef) :
    (sizeOf src).run heap = .ok ((heap.contents.get src).length : Int) heap := by
  cases src with
  | observable i =>
    change EStateM.Result.ok (heap.observables i).size heap = _
    rw [← (h.observables i).length_contents]
    rfl
  | ints i => rfl

end Represents

section Copy

variable {heap : Heap} {dest values : List Int32} {destIndex index length : Int}

theorem part_isSome {l : List Int32} : (part l index length).isSome = true ↔
    0 ≤ index ∧ 0 ≤ length ∧ index + length ≤ l.length := by
  rw [part]
  split_ifs with h <;> simp [h]

theorem arraycopy_part {src : List Int32} (hpart : part src index length = some values)
    (hdest : 0 ≤ destIndex) (hle : destIndex + length ≤ dest.length) :
    arraycopy src index dest destIndex length = .ok (dest.take destIndex.toNat ++ values ++
      dest.drop (destIndex + length).toNat) := by
  obtain ⟨hidx, hlen, hsrc, -, rfl⟩ := part_spec hpart
  rw [arraycopy, if_pos ⟨hidx, hdest, hlen, hsrc, hle⟩]

theorem arraycopy_error {src : List Int32} (h : ¬((part src index length).isSome = true ∧
    0 ≤ destIndex ∧ destIndex + length ≤ dest.length)) :
    arraycopy src index dest destIndex length = .error .indexOutOfBounds := by
  rw [part_isSome] at h
  rw [arraycopy, if_neg]
  rintro ⟨hidx, hdest, hlen, hsrc, hle⟩
  exact h ⟨⟨hidx, hlen, hsrc⟩, hdest, hle⟩

/-- An index that is too large for the sum with a length wraps around, and is then too large for
the array too. -/
theorem part_array {a : ObservableIntegerArrayImpl} (ha : a.Valid)
    (hidx : index < 2 ^ 31) (hlength : length < 2 ^ 31)
    (hcheck : rangeCheck a.size (int32 (index + length)) = none) :
    part a.array index length = part a.contents index length := by
  rw [rangeCheck] at hcheck
  split_ifs at hcheck with hlt
  have hle := ha.le
  have hlen := ha.length_contents
  have hcap := ha.lt
  by_cases hlegal : 0 ≤ index ∧ 0 ≤ length ∧ index + length ≤ a.array.length
  · obtain ⟨hi, hl, hsum⟩ := hlegal
    rw [int32_eq (by omega) (by omega)] at hlt
    rw [part, if_pos ⟨hi, hl, hsum⟩, part, if_pos ⟨hi, hl, by omega⟩, contents]
    congr 1
    rw [drop_take, take_take]
    congr 1
    omega
  · rw [part, if_neg hlegal, part, if_neg fun h => hlegal ⟨h.1, h.2.1, by omega⟩]

theorem copyTo_eq (h : heap.Valid) (src : ArrayRef) (hidx : index < 2 ^ 31)
    (hlength : length < 2 ^ 31) :
    (copyTo src index dest destIndex length).run heap =
      match heap.contents.sourceCheck src index length with
      | some e => .error e heap
      | none =>
        (call (arraycopy (heap.contents.get src) index dest destIndex length)).run heap := by
  cases src with
  | ints i => rfl
  | observable i =>
    have hvalid := h.observables i
    have hlen : ((heap.contents.observables i).length : Int) = (heap.observables i).size :=
      hvalid.length_contents
    rw [Contents.sourceCheck, hlen]
    change (check _ >>= fun _ => call _).run heap = _
    cases hcheck : rangeCheck (heap.observables i).size (int32 (index + length)) with
    | some e => exact bind_error (check_some e)
    | none =>
      have hpart := part_array hvalid hidx hlength hcheck
      by_cases hlegal : (part (heap.observables i).array index length).isSome = true ∧
          0 ≤ destIndex ∧ destIndex + length ≤ dest.length
      · obtain ⟨hsome, hdest, hle⟩ := hlegal
        obtain ⟨values, hvals⟩ := Option.isSome_iff_exists.mp hsome
        rw [arraycopy_part hvals hdest hle]
        rw [hpart] at hvals
        exact congrArg (fun o => (call o).run heap) (arraycopy_part hvals hdest hle).symm
      · rw [arraycopy_error hlegal]
        rw [hpart] at hlegal
        exact congrArg (fun o => (call o).run heap) (arraycopy_error hlegal).symm

variable {src : ArrayRef}

theorem copyTo_ok (h : heap.Valid) (hidx : index < 2 ^ 31) (hlen : length < 2 ^ 31)
    (hcheck : heap.contents.sourceCheck src index length = none)
    (hpart : part (heap.contents.get src) index length = some values) (hdest : 0 ≤ destIndex)
    (hle : destIndex + length ≤ dest.length) :
    (copyTo src index dest destIndex length).run heap =
      .ok (dest.take destIndex.toNat ++ values ++ dest.drop (destIndex + length).toNat) heap := by
  rw [copyTo_eq h src hidx hlen, hcheck, arraycopy_part hpart hdest hle]
  rfl

theorem copyTo_error (h : heap.Valid) (hidx : index < 2 ^ 31) (hlen : length < 2 ^ 31)
    (hcheck : heap.contents.sourceCheck src index length = none)
    (hlegal : ¬((part (heap.contents.get src) index length).isSome = true ∧ 0 ≤ destIndex ∧
      destIndex + length ≤ dest.length)) :
    (copyTo src index dest destIndex length).run heap =
      .error (.failure .indexOutOfBounds) heap := by
  rw [copyTo_eq h src hidx hlen, hcheck, arraycopy_error hlegal]
  rfl

theorem sourceCheck_eq_none {c : Contents}
    (h : int32 (index + length) ≤ (c.get src).length) : c.sourceCheck src index length = none := by
  cases src with
  | ints i => rfl
  | observable i => exact if_neg (Int.not_lt.mpr h)

end Copy

section Capacity

variable (allocate : Int → Bool) (heap : Heap) (this : Nat) {a : ObservableIntegerArrayImpl}
  {capacity length : Int}

/-- There is room for so many ints, or memory for it. -/
def Affords (a : ObservableIntegerArrayImpl) (capacity : Int) : Prop :=
  capacity ≤ a.array.length ∨ allocate capacity = true

theorem ensureCapacity_ok (ha : a.Valid) (hcap : capacity < 2 ^ 31)
    (h : Affords allocate a capacity) :
    ∃ a', Extends a a' ∧ capacity ≤ a'.array.length ∧
      (ensureCapacity allocate this capacity).run (heap.setObservable this a) =
        .ok () (heap.setObservable this a') := by
  by_cases hlt : (a.array.length : Int) < capacity
  · have hnew : copyOf 0 a.array capacity.toNat =
        a.array ++ List.replicate (capacity.toNat - a.array.length) 0 := by
      rw [copyOf, take_of_length_le (by omega)]
    have hlen := length_copyOf (0 : Int32) a.array capacity.toNat
    have hnn := ha.nonneg
    have hle := ha.le
    refine ⟨{ a with array := copyOf 0 a.array capacity.toNat },
      ⟨⟨hnn, ?_, ?_⟩, rfl, ?_⟩, ?_, ?_⟩
    · change a.size ≤ ((copyOf 0 a.array capacity.toNat).length : Int)
      omega
    · change ((copyOf 0 a.array capacity.toNat).length : Int) < 2 ^ 31
      omega
    · exact ⟨_, hnew.symm⟩
    · change capacity ≤ ((copyOf 0 a.array capacity.toNat).length : Int)
      omega
    · rw [ensureCapacity, bind_ok observable_self, if_pos hlt,
        if_pos (h.resolve_left (Int.not_le.mpr hlt)), setArray_self]
  · refine ⟨a, .refl ha, Int.not_lt.mp hlt, ?_⟩
    rw [ensureCapacity, bind_ok observable_self, if_neg hlt]
    rfl

theorem ensureCapacity_error (h : ¬Affords allocate a capacity) :
    (ensureCapacity allocate this capacity).run (heap.setObservable this a) =
      .error .outOfMemory (heap.setObservable this a) := by
  obtain ⟨hlt, hmemory⟩ := not_or.mp h
  rw [ensureCapacity, bind_ok observable_self, if_pos (Int.not_le.mp hlt), if_neg hmemory]
  rfl

theorem hugeCapacity_eq {minCapacity : Int} (h : 0 ≤ minCapacity) (hlt : minCapacity < 2 ^ 31) :
    ∃ n, minCapacity ≤ n ∧ n < 2 ^ 31 ∧ (hugeCapacity minCapacity).run heap = .ok n heap := by
  rw [hugeCapacity, if_neg (Int.not_lt.mpr h)]
  split_ifs with hlarge
  · exact ⟨2 ^ 31 - 1, by omega, by omega, rfl⟩
  · exact ⟨MAX_ARRAY_SIZE, Int.not_lt.mp hlarge, by decide, rfl⟩

theorem newCapacity_eq (oldCapacity : Int) {minCapacity : Int} (h : 0 ≤ minCapacity)
    (hlt : minCapacity < 2 ^ 31) :
    ∃ n, minCapacity ≤ n ∧ n < 2 ^ 31 ∧
      (newCapacity oldCapacity minCapacity).run heap = .ok n heap := by
  have hgrown := int32_lt (oldCapacity + oldCapacity / 2)
  rw [newCapacity]
  generalize int32 (oldCapacity + oldCapacity / 2) = grown at *
  by_cases hsmall : grown < minCapacity
  · split_ifs with hlarge
    · exact hugeCapacity_eq heap h hlt
    · exact ⟨minCapacity, Int.le_refl _, hlt, rfl⟩
  · split_ifs with hlarge
    · exact hugeCapacity_eq heap h hlt
    · exact ⟨grown, Int.not_lt.mp hsmall, hgrown, rfl⟩

theorem growCapacity_ok (ha : a.Valid) (hlen : 0 ≤ length) (hsum : a.size + length < 2 ^ 31) :
    (∃ a', Extends a a' ∧ a.size + length ≤ a'.array.length ∧
      (growCapacity allocate this length).run (heap.setObservable this a) =
        .ok () (heap.setObservable this a')) ∨
    (∃ n, allocate n = false) ∧
      (growCapacity allocate this length).run (heap.setObservable this a) =
        .error .outOfMemory (heap.setObservable this a) := by
  have hnn := ha.nonneg
  have hmin : int32 (a.size + length) = a.size + length := int32_eq (by omega) hsum
  rw [growCapacity, bind_ok observable_self]
  rw [hmin]
  by_cases hlt : (a.array.length : Int) < a.size + length
  · rw [if_pos hlt]
    obtain ⟨n, hle, hn, hnew⟩ := newCapacity_eq (heap.setObservable this a) a.array.length
      (by omega) hsum
    rw [bind_ok hnew]
    by_cases hafford : Affords allocate a n
    · obtain ⟨a', hext, hcap, heq⟩ := ensureCapacity_ok allocate heap this ha hn hafford
      exact .inl ⟨a', hext, hle.trans hcap, heq⟩
    · refine .inr ⟨⟨n, ?_⟩, ensureCapacity_error allocate heap this hafford⟩
      exact Bool.eq_false_iff.mpr (not_or.mp hafford).2
  · rw [if_neg hlt, if_neg fun h => by omega]
    exact .inl ⟨a, .refl ha, Int.not_lt.mp hlt, rfl⟩

theorem growCapacity_error (ha : a.Valid) (hlen : length < 2 ^ 31)
    (hsum : 2 ^ 31 ≤ a.size + length) :
    (growCapacity allocate this length).run (heap.setObservable this a) =
      .error .outOfMemory (heap.setObservable this a) := by
  have hwrap := int32_le_sub hsum
  have hle := ha.le
  have hlt := ha.lt
  rw [growCapacity, bind_ok observable_self]
  rw [if_neg (by omega), if_pos ⟨by omega, by omega⟩]
  rfl

end Capacity

/-- How a call ends: as `after` says, with the changes `change`, or with an exception and the
contents as they were. If `keeps` does not hold, the array is empty after the exception. -/
inductive Outcome (allocate : Int → Bool) (heap : Heap) (this : Nat) (keeps : Prop)
    (fails : Option Throwable) (after : Option Contents) (change : Contents → List Fired) :
    EStateM.Result Throwable Heap Unit → Prop
  | done {c' : Contents} {heap' : Heap} (hkeeps : keeps) (hfails : fails = none)
      (hafter : after = some c') (h : Represents heap' c' (heap.fired ++ change c')) :
      Outcome allocate heap this keeps fails after change (.ok () heap')
  | kept {e : Throwable} {heap' : Heap} (hkeeps : keeps)
      (hfails : fails = some e ∨ ∃ n, allocate n = false)
      (h : Represents heap' heap.contents heap.fired) :
      Outcome allocate heap this keeps fails after change (.error e heap')
  | lost {e : Throwable} {heap' : Heap} (hkeeps : ¬keeps)
      (hfails : fails = some e ∨ ∃ n, allocate n = false)
      (h : Represents heap' (heap.contents.setObservable this []) heap.fired) :
      Outcome allocate heap this keeps fails after change (.error e heap')

section Internal

variable {allocate : Int → Bool} {heap : Heap} {this : Nat} {a a' : ObservableIntegerArrayImpl}

theorem finish_eq (array : List Int32) (size : Int) (sizeChanged : Bool) (start stop : Int) :
    (do setArray this array; setSize this size; fireChange this sizeChanged start stop : Action
      Unit).run (heap.setObservable this a) =
        .ok () ((heap.setObservable this ⟨array, size⟩).fire
          (if start < stop ∨ sizeChanged = true then [⟨this, sizeChanged, start, stop⟩]
            else [])) := by
  rw [bind_ok (setArray_self array), bind_ok (setSize_self size), fireChange_eq]

variable {l : List Int32}

theorem represents_fire (h : heap.Valid) (ha : a.Valid) (hl : a.contents = l) {sizeChanged : Bool}
    (hsize : sizeChanged = true ↔ (heap.contents.observables this).length ≠ l.length)
    (start stop : Int) :
    Represents ((heap.setObservable this a).fire
        (if start < stop ∨ sizeChanged = true then [⟨this, sizeChanged, start, stop⟩] else []))
      (heap.contents.setObservable this l)
      (heap.fired ++ heap.contents.told this l start stop) := by
  have htold : (if start < stop ∨ sizeChanged = true then
      [(⟨this, sizeChanged, start, stop⟩ : Fired)] else []) =
        heap.contents.told this l start stop := by
    have hdecide : sizeChanged = decide ((heap.contents.observables this).length ≠ l.length) := by
      rw [Bool.eq_iff_iff, hsize, decide_eq_true_iff]
    rw [Contents.told, hdecide]
    simp only [decide_eq_true_eq]
  rw [htold, ← hl]
  exact (represents_setObservable h ha).fire _

theorem represents_extends (h : heap.Valid) (hext : Extends (heap.observables this) a') :
    Represents (heap.setObservable this a') heap.contents heap.fired :=
  ⟨h.setObservable hext.valid,
    contents_setObservable_of_eq (hext.contents_eq (h.observables this)), rfl⟩

theorem part_all (l : List Int32) : part l 0 l.length = some l := by
  rw [part, if_pos ⟨Int.le_refl 0, by omega, by omega⟩, Int.toNat_zero, drop_zero,
    Int.toNat_natCast, take_length]

variable {index : Int}

variable {length : Int}

theorem copyCheck_of_part {l values : List Int32} (h : part l index length = some values) :
    Contents.copyCheck l index length 0 length = none := by
  rw [Contents.copyCheck, h, if_pos ⟨rfl, Int.le_refl 0, by omega⟩]

theorem copyCheck_of_none {destSize destIndex length : Int} (h : part l index length = none) :
    Contents.copyCheck l index destSize destIndex length = some (.failure .indexOutOfBounds) := by
  rw [Contents.copyCheck, h, if_neg fun hlegal => by simp at hlegal]

variable {values : List Int32}

theorem written_spec (ha : a.Valid) (hidx : 0 ≤ index) (hvals : (values.length : Int) = length)
    (hle : index + length ≤ a.array.length) :
    Valid ⟨a.array.take index.toNat ++ values ++ a.array.drop (index + length).toNat,
      index + length⟩ ∧
    contents ⟨a.array.take index.toNat ++ values ++ a.array.drop (index + length).toNat,
      index + length⟩ = a.array.take index.toNat ++ values := by
  have hlt := ha.lt
  have hlen : (a.array.take index.toNat ++ values ++
      a.array.drop (index + length).toNat).length = a.array.length := by
    simp only [length_append, length_take, length_drop]
    omega
  refine ⟨⟨?_, ?_, ?_⟩, ?_⟩
  · change 0 ≤ index + length
    omega
  · rw [hlen]
    exact hle
  · rw [hlen]
    exact hlt
  · rw [contents, take_left']
    change (a.array.take index.toNat ++ values).length = (index + length).toNat
    rw [length_append, length_take]
    omega

variable (allocate) in
theorem addAllInternal_outcome (h : heap.Valid) {src : ArrayRef} (hidx : index < 2 ^ 31)
    (hnn : 0 ≤ length) (hlength : length < 2 ^ 31)
    (hcheck : int32 (index + length) ≤ (heap.contents.get src).length) :
    Outcome allocate heap this True
      ((heap.contents.sizeCheck this length).or
        (Contents.copyCheck (heap.contents.get src) index length 0 length))
      ((part (heap.contents.get src) index length).map fun values =>
        heap.contents.setObservable this (heap.contents.observables this ++ values))
      (fun c' => heap.contents.told this (c'.observables this)
        (heap.contents.observables this).length (c'.observables this).length)
      ((addAllInternal allocate this src index length).run heap) := by
  have hrun := run_eq_run_setObservable heap this (addAllInternal allocate this src index length)
  have ha := h.observables this
  have hlen := ha.length_contents
  rw [hrun, addAllInternal]
  by_cases hsum : 2 ^ 31 ≤ (heap.observables this).size + length
  · rw [bind_error (growCapacity_error allocate heap this ha hlength hsum)]
    refine .kept trivial (.inl ?_) (represents_extends h (.refl ha))
    have hsize : heap.contents.sizeCheck this length = some .outOfMemory :=
      if_pos (by rw [← hlen] at hsum; exact hsum)
    rw [hsize, Option.some_or]
  · have hsize : heap.contents.sizeCheck this length = none :=
      if_neg (by rw [← hlen] at hsum; exact hsum)
    rw [hsize, Option.none_or]
    rcases growCapacity_ok allocate heap this ha hnn (Int.not_le.mp hsum) with
      ⟨a', hext, hcap, heq⟩ | ⟨hmemory, heq⟩
    · have hrep := represents_extends h hext
      have hcheck' := sourceCheck_eq_none hcheck
      rw [bind_ok heq, bind_ok observable_self]
      cases hpart : part (heap.contents.get src) index length with
      | none =>
        rw [← hrep.contents] at hcheck' hpart
        rw [bind_error (copyTo_error hrep.valid hidx hlength hcheck' (by simp [hpart]))]
        refine .kept trivial (.inl ?_) hrep
        rw [hrep.contents] at hpart
        exact copyCheck_of_none hpart
      | some values =>
        have hvals := (part_spec hpart).2.2.2.1
        have hnn' := hext.valid.nonneg
        have hsize' := hext.size
        have hadd : int32 (a'.size + length) = a'.size + length :=
          int32_eq (by omega) (by omega)
        have hsub : int32 (a'.size + length - length) = a'.size := by
          rw [Int.add_sub_cancel]
          exact int32_eq (by omega) (by omega)
        rw [← hrep.contents] at hcheck'
        have hpart' := hpart
        rw [← hrep.contents] at hpart'
        rw [bind_ok (copyTo_ok hrep.valid hidx hlength hcheck' hpart' hnn'
          (by omega)), hadd, hsub, finish_eq]
        have hle' : a'.size + length ≤ a'.array.length := by omega
        obtain ⟨hval, hl⟩ := written_spec hext.valid hnn' hvals hle'
        have hl' : contents ⟨a'.array.take a'.size.toNat ++ values ++
            a'.array.drop (a'.size + length).toNat, a'.size + length⟩ =
              heap.contents.observables this ++ values :=
          hl.trans (congrArg (· ++ values) (hext.contents_eq ha))
        have hchanged : decide (length ≠ 0) = true ↔
            (heap.contents.observables this).length ≠
              (heap.contents.observables this ++ values).length := by
          rw [decide_eq_true_iff, length_append]
          omega
        refine .done trivial (copyCheck_of_part hpart) rfl ?_
        have hold : ((heap.contents.observables this).length : Int) = a'.size :=
          hlen.trans hext.size.symm
        rw [setObservable_self, length_append, Int.natCast_add, hold, hvals]
        exact represents_fire h hval hl' hchanged _ _
    · rw [bind_error heq]
      exact .kept trivial (.inr hmemory) (represents_extends h (.refl ha))

variable (allocate) in
theorem resize_outcome (h : heap.Valid) {newSize : Int} (hlt : newSize < 2 ^ 31) :
    Outcome allocate heap this True
      (if newSize < 0 then some (.negativeArraySize newSize) else none)
      (if 0 ≤ newSize then
        some (heap.contents.setObservable this
          (resized (heap.contents.observables this) newSize.toNat))
      else none)
      (fun c' => heap.contents.told this (c'.observables this)
        (min ((heap.contents.observables this).length : Int) newSize) newSize)
      ((resize allocate this newSize).run heap) := by
  have hrun := run_eq_run_setObservable heap this (resize allocate this newSize)
  have ha := h.observables this
  have hlen := ha.length_contents
  rw [hrun, resize]
  by_cases hneg : newSize < 0
  · rw [if_pos hneg, if_pos hneg]
    exact .kept trivial (.inl rfl) (represents_extends h (.refl ha))
  rw [if_neg hneg, if_neg hneg, if_pos (Int.not_lt.mp hneg)]
  by_cases hafford : Affords allocate (heap.observables this) newSize
  · obtain ⟨a', hext, hcap, heq⟩ :=
      ensureCapacity_ok allocate heap this ha hlt hafford
    have hold : ((heap.contents.observables this).length : Int) = a'.size :=
      hlen.trans hext.size.symm
    have hsum : min a'.size newSize + (newSize - min a'.size newSize) = newSize := by omega
    have hvals : ((List.replicate (newSize - min a'.size newSize).toNat
        (0 : Int32)).length : Int) = newSize - min a'.size newSize := by
      rw [length_replicate]
      omega
    have hmin : 0 ≤ min a'.size newSize := by omega
    obtain ⟨hval, hl⟩ := written_spec hext.valid hmin hvals (by omega)
    rw [hsum] at hval hl
    have hl' : a'.array.take (min a'.size newSize).toNat ++
        List.replicate (newSize - min a'.size newSize).toNat 0 =
          resized (heap.contents.observables this) newSize.toNat := by
      have hcont : heap.contents.observables this = a'.array.take a'.size.toNat :=
        (hext.contents_eq ha).symm
      have hmin : min newSize.toNat a'.size.toNat = (min a'.size newSize).toNat := by omega
      have hpad : newSize.toNat - (heap.contents.observables this).length =
          (newSize - min a'.size newSize).toNat := by omega
      rw [resized, hpad, hcont, take_take, hmin]
    have hchanged : decide (a'.size ≠ newSize) = true ↔
        (heap.contents.observables this).length ≠
          (resized (heap.contents.observables this) newSize.toNat).length := by
      rw [decide_eq_true_iff, resized, length_append, length_take,
        length_replicate]
      omega
    rw [bind_ok heq, bind_ok observable_self, bind_ok (setSize_self newSize),
      bind_ok (setArray_self _), fireChange_eq]
    refine .done trivial rfl rfl ?_
    rw [setObservable_self, hold]
    exact represents_fire h hval (hl.trans hl') hchanged _ _
  · rw [bind_error (ensureCapacity_error allocate heap this hafford)]
    refine .kept trivial (.inr ⟨newSize, ?_⟩) (represents_extends h (.refl ha))
    exact Bool.eq_false_iff.mpr (not_or.mp hafford).2

theorem Valid.emptied (ha : a.Valid) : Valid { a with size := 0 } :=
  ⟨Int.le_refl 0, Int.natCast_nonneg _, ha.lt⟩

theorem represents_emptied (h : heap.Valid)
    (hext : Extends { heap.observables this with size := 0 } a') :
    Represents (heap.setObservable this a') (heap.contents.setObservable this []) heap.fired := by
  have hcont : a'.contents = [] := by
    rw [contents, hext.size]
    rfl
  rw [← hcont]
  exact represents_setObservable h hext.valid

/-- The condition under which `setAll` from another array can be relied on. -/
def SetAllKeeps (allocate : Int → Bool) (heap : Heap) (this : Nat) (index length : Int) : Prop :=
  heap.contents.observables this = [] ∨
    index + length < 2 ^ 31 ∧ Affords allocate (heap.observables this) length

variable (allocate) in
theorem setAllFrom_outcome (h : heap.Valid) {src : ArrayRef} (hne : src ≠ .observable this)
    (hidx : 0 ≤ index) (hidx' : index < 2 ^ 31) (hnn : 0 ≤ length) (hlength : length < 2 ^ 31)
    (hcheck : int32 (index + length) ≤ (heap.contents.get src).length) :
    Outcome allocate heap this (SetAllKeeps allocate heap this index length)
      (Contents.copyCheck (heap.contents.get src) index length 0 length)
      ((part (heap.contents.get src) index length).map fun values =>
        heap.contents.setObservable this values)
      (fun c' => heap.contents.told this (c'.observables this) 0 length)
      ((setAllFrom allocate this src index length).run heap) := by
  have hrun := run_eq_run_setObservable heap this (setAllFrom allocate this src index length)
  have ha := h.observables this
  have hlen := ha.length_contents
  -- nothing is lost if the array was empty
  have hemp : heap.contents.observables this = [] →
      heap.contents.setObservable this [] = heap.contents := by
    intro hnil
    rw [Contents.setObservable, ← hnil, Function.update_eq_self]
  have hfail : ∀ {e : Throwable} {a' : ObservableIntegerArrayImpl},
      Extends { heap.observables this with size := 0 } a' →
      (Contents.copyCheck (heap.contents.get src) index length 0 length = some e ∨
        ∃ n, allocate n = false) →
      ¬(index + length < 2 ^ 31 ∧ Affords allocate (heap.observables this) length) →
      Outcome allocate heap this (SetAllKeeps allocate heap this index length)
        (Contents.copyCheck (heap.contents.get src) index length 0 length)
        ((part (heap.contents.get src) index length).map fun values =>
          heap.contents.setObservable this values)
        (fun c' => heap.contents.told this (c'.observables this) 0 length)
        (.error e (heap.setObservable this a')) := by
    intro e a' hext hfails hnot
    have hrep := represents_emptied h hext
    by_cases hnil : heap.contents.observables this = []
    · rw [hemp hnil] at hrep
      exact .kept (.inl hnil) hfails hrep
    · exact .lost (not_or.mpr ⟨hnil, hnot⟩) hfails hrep
  rw [hrun, setAllFrom, bind_ok observable_self, bind_ok (setSize_self 0)]
  by_cases hafford : Affords allocate (heap.observables this) length
  · obtain ⟨a', hext, hcap, heq⟩ :=
      ensureCapacity_ok allocate heap this ha.emptied hlength hafford
    rw [bind_ok heq, bind_ok observable_self]
    have hrep := represents_emptied h hext
    have hget : (heap.setObservable this a').contents.get src = heap.contents.get src := by
      rw [hrep.contents]
      cases src with
      | ints i => rfl
      | observable i => exact Function.update_of_ne (fun heq => hne (congrArg _ heq)) _ _
    have hcheck' := hcheck
    rw [← hget] at hcheck'
    replace hcheck' := sourceCheck_eq_none hcheck'
    cases hpart : part (heap.contents.get src) index length with
    | none =>
      have hpart' := hpart
      rw [← hget] at hpart'
      rw [bind_error (copyTo_error hrep.valid hidx' hlength hcheck' (by simp [hpart'])),
        ← hpart]
      refine hfail hext (.inl (copyCheck_of_none hpart)) fun hsum => ?_
      rw [int32_eq (by omega) hsum.1] at hcheck
      rw [part, if_pos ⟨hidx, hnn, hcheck⟩] at hpart
      cases hpart
    | some values =>
      obtain ⟨-, -, hle, hvals, -⟩ := part_spec hpart
      have hsrc := length_get h src
      have hpart' := hpart
      rw [← hget] at hpart'
      have hle' : (0 : Int) + length ≤ a'.array.length := by omega
      obtain ⟨hval, hl⟩ := written_spec hext.valid (Int.le_refl 0) hvals hle'
      have hchanged : decide ((heap.observables this).size ≠ length) = true ↔
          (heap.contents.observables this).length ≠ values.length := by
        rw [decide_eq_true_iff, ← hlen]
        change ¬((heap.contents.observables this).length : Int) = length ↔ _
        omega
      rw [bind_ok (copyTo_ok hrep.valid hidx' hlength hcheck' hpart' (Int.le_refl 0) hle'),
        finish_eq]
      refine .done (.inr ⟨by omega, hafford⟩) (copyCheck_of_part hpart) rfl ?_
      rw [Int.zero_add] at hval hl ⊢
      rw [setObservable_self]
      exact represents_fire h hval hl hchanged _ _
  · have hemptied : ¬Affords allocate { heap.observables this with size := 0 } length := hafford
    rw [bind_error (ensureCapacity_error allocate heap this hemptied)]
    refine hfail (.refl ha.emptied) (.inr ⟨length, ?_⟩) fun hsum => hafford hsum.2
    exact Bool.eq_false_iff.mpr (not_or.mp hafford).2

theorem Outcome.of {keeps keeps' : Prop} {fails fails' : Option Throwable}
    {after after' : Option Contents} {change change' : Contents → List Fired}
    {result : EStateM.Result Throwable Heap Unit}
    (h : Outcome allocate heap this keeps fails after change result) (hkeeps : keeps ↔ keeps')
    (hfails : fails = fails') (hafter : after = after')
    (hchange : ∀ c', after = some c' → change c' = change' c') :
    Outcome allocate heap this keeps' fails' after' change' result := by
  subst hfails hafter
  cases h with
  | done hk hf ha h =>
    rw [hchange _ ha] at h
    exact .done (hkeeps.mp hk) hf ha h
  | kept hk hf h => exact .kept (hkeeps.mp hk) hf h
  | lost hk hf h => exact .lost (fun hk' => hk (hkeeps.mpr hk')) hf h

theorem part_take (hnn : 0 ≤ length) (hle : length ≤ l.length) :
    part l 0 length = some (l.take length.toNat) := by
  rw [part, if_pos ⟨Int.le_refl 0, hnn, by omega⟩, Int.toNat_zero, drop_zero]

variable (allocate) in
theorem setAllInternal_outcome (h : heap.Valid) (src : ArrayRef) (hidx : 0 ≤ index)
    (hidx' : index < 2 ^ 31) (hnn : 0 ≤ length) (hlength : length < 2 ^ 31)
    (hcheck : int32 (index + length) ≤ (heap.contents.get src).length) :
    Outcome allocate heap this
      (src = .observable this ∨ SetAllKeeps allocate heap this index length)
      (Contents.copyCheck (heap.contents.get src) index length 0 length)
      ((part (heap.contents.get src) index length).map fun values =>
        heap.contents.setObservable this values)
      (fun c' => heap.contents.told this (c'.observables this)
        (if src = .observable this ∧ index = 0 then length else 0) length)
      ((setAllInternal allocate this src index length).run heap) := by
  have hrun := run_eq_run_setObservable heap this (setAllInternal allocate this src index length)
  have ha := h.observables this
  have hlen : ((heap.contents.observables this).length : Int) = (heap.observables this).size :=
    ha.length_contents
  rw [setAllInternal] at hrun ⊢
  by_cases hthis : src = .observable this
  · subst hthis
    change int32 (index + length) ≤ (heap.contents.observables this).length at hcheck
    rw [if_pos rfl] at hrun ⊢
    by_cases hzero : index = 0
    · subst hzero
      rw [Int.zero_add, int32_eq (by omega) hlength] at hcheck
      have hpart : part (heap.contents.get (.observable this)) 0 length =
          some ((heap.contents.observables this).take length.toNat) := part_take hnn hcheck
      have hpad : length.toNat - (heap.contents.observables this).length = 0 := by omega
      refine (resize_outcome allocate h hlength).of (iff_of_true trivial (.inl rfl)) ?_ ?_ ?_
      · rw [if_neg (Int.not_lt.mpr hnn), copyCheck_of_part hpart]
      · rw [if_pos hnn, hpart, resized, hpad, replicate_zero, append_nil]
        rfl
      · intro c' _
        rw [if_pos ⟨rfl, rfl⟩, Int.min_eq_right hcheck]
    · rw [if_neg hzero] at hrun ⊢
      rw [hrun, bind_ok observable_self, if_neg fun hself => hzero hself.2]
      have hpart := part_array ha hidx' hlength (if_neg (Int.not_lt.mpr (by omega)))
      cases hvals : part (heap.observables this).array index length with
      | none =>
        rw [arraycopy_error (by simp [hvals]), bind_error (call_error _)]
        rw [hpart] at hvals
        exact .kept (.inl rfl) (.inl (copyCheck_of_none hvals))
          (represents_extends h (.refl ha))
      | some values =>
        obtain ⟨-, -, hle, hlength', -⟩ := part_spec hvals
        have hle' : (0 : Int) + length ≤ (heap.observables this).array.length := by omega
        obtain ⟨hval, hl⟩ := written_spec ha (Int.le_refl 0) hlength' hle'
        have hchanged : decide ((heap.observables this).size ≠ length) = true ↔
            (heap.contents.observables this).length ≠ values.length := by
          rw [decide_eq_true_iff]
          omega
        rw [arraycopy_part hvals (Int.le_refl 0) hle', bind_ok (call_ok _), finish_eq]
        rw [hpart] at hvals
        have hvals' : part (heap.contents.get (.observable this)) index length = some values :=
          hvals
        refine .done (.inl rfl) (copyCheck_of_part hvals') (congrArg _ hvals') ?_
        rw [Int.zero_add] at hval hl ⊢
        rw [setObservable_self]
        exact represents_fire h hval hl hchanged _ _
  · rw [if_neg hthis, if_neg fun hself => hthis hself.1]
    exact (setAllFrom_outcome allocate h hthis hidx hidx' hnn hlength hcheck).of
      (or_iff_right hthis).symm rfl rfl fun _ _ => rfl

variable (allocate) in
theorem ensureCapacity_outcome (h : heap.Valid) {capacity : Int} (hcap : capacity < 2 ^ 31) :
    Outcome allocate heap this True none (some heap.contents) (fun _ => [])
      ((ensureCapacity allocate this capacity).run heap) := by
  have hrun := run_eq_run_setObservable heap this (ensureCapacity allocate this capacity)
  have ha := h.observables this
  rw [hrun]
  by_cases hafford : Affords allocate (heap.observables this) capacity
  · obtain ⟨a', hext, -, heq⟩ := ensureCapacity_ok allocate heap this ha hcap hafford
    rw [heq]
    refine .done trivial rfl rfl ?_
    rw [append_nil]
    exact represents_extends h hext
  · rw [ensureCapacity_error allocate heap this hafford]
    refine .kept trivial (.inr ⟨capacity, ?_⟩) (represents_extends h (.refl ha))
    exact Bool.eq_false_iff.mpr (not_or.mp hafford).2

variable (allocate) in
theorem trimToSize_outcome (h : heap.Valid) :
    Outcome allocate heap this True none (some heap.contents) (fun _ => [])
      ((trimToSize allocate this).run heap) := by
  have hrun := run_eq_run_setObservable heap this (trimToSize allocate this)
  have ha := h.observables this
  have hnn := ha.nonneg
  have hle := ha.le
  have hlt := ha.lt
  have hsame := represents_extends h (.refl ha)
  rw [hrun, trimToSize, bind_ok observable_self]
  split_ifs with hfull hmemory
  · rw [setArray_self]
    refine .done trivial rfl rfl ?_
    rw [append_nil]
    have hval : Valid { heap.observables this with
        array := (heap.observables this).array.take (heap.observables this).size.toNat } := by
      refine ⟨hnn, ?_, ?_⟩
      · change (heap.observables this).size ≤ (((heap.observables this).array.take _).length : Int)
        rw [length_take]
        omega
      · rw [length_take]
        omega
    refine ⟨h.setObservable hval, contents_setObservable_of_eq ?_, rfl⟩
    rw [contents, contents, take_take, Nat.min_self]
  · exact .kept trivial (.inr ⟨_, Bool.eq_false_iff.mpr hmemory⟩) hsame
  · refine .done trivial rfl rfl ?_
    rw [append_nil]
    exact hsame

theorem overwritten_spec (ha : a.Valid) (hidx : 0 ≤ index) (hvals : (values.length : Int) = length)
    (hle : index + length ≤ a.size) :
    Valid ⟨a.array.take index.toNat ++ values ++ a.array.drop (index + length).toNat, a.size⟩ ∧
      overwrite a.contents index values = some (contents
        ⟨a.array.take index.toNat ++ values ++ a.array.drop (index + length).toNat, a.size⟩) := by
  have hnn := ha.nonneg
  have hsize := ha.le
  have hlt := ha.lt
  have hlen := ha.length_contents
  have hlen' : (a.array.take index.toNat ++ values ++
      a.array.drop (index + length).toNat).length = a.array.length := by
    simp only [length_append, length_take, length_drop]
    omega
  refine ⟨⟨hnn, ?_, ?_⟩, ?_⟩
  · rw [hlen']
    exact hsize
  · rw [hlen']
    exact hlt
  · have hpre : (a.array.take index.toNat ++ values).length = (index + length).toNat := by
      rw [length_append, length_take]
      omega
    have hmin : min index.toNat a.size.toNat = index.toNat := by omega
    rw [overwrite, if_pos ⟨hidx, by omega⟩, hvals]
    change some (((a.array.take a.size.toNat).take index.toNat ++ values) ++
      (a.array.take a.size.toNat).drop (index + length).toNat) =
        some ((a.array.take index.toNat ++ values ++
          a.array.drop (index + length).toNat).take a.size.toNat)
    rw [take_take, hmin, drop_take, take_append, hpre,
      take_of_length_le (Nat.le_trans (Nat.le_of_eq hpre) (by omega))]

theorem represents_overwritten (h : heap.Valid) (hidx : 0 ≤ index)
    (hvals : (values.length : Int) = length) (hle : index + length ≤ (heap.observables this).size) :
    ∃ l, overwrite (heap.contents.observables this) index values = some l ∧
      Represents ((heap.setObservable this
          ⟨(heap.observables this).array.take index.toNat ++ values ++
            (heap.observables this).array.drop (index + length).toNat,
            (heap.observables this).size⟩).fire
          (if index < index + length ∨ false = true then
            [⟨this, false, index, index + length⟩] else []))
        (heap.contents.setObservable this l)
        (heap.fired ++ heap.contents.told this l index (index + length)) := by
  obtain ⟨hval, hover⟩ := overwritten_spec (h.observables this) hidx hvals hle
  have hlen := (overwrite_spec hover).2.2.1
  have hchanged : false = true ↔ (heap.contents.observables this).length ≠
      (contents ⟨(heap.observables this).array.take index.toNat ++ values ++
        (heap.observables this).array.drop (index + length).toNat,
        (heap.observables this).size⟩).length :=
    iff_of_false Bool.false_ne_true fun hne => hne hlen.symm
  exact ⟨_, hover, represents_fire h hval rfl hchanged _ _⟩

theorem setValue_outcome (h : heap.Valid) (value : Int32) (hlow : -2 ^ 31 ≤ index)
    (hhigh : index < 2 ^ 31) :
    Outcome allocate heap this True
      ((rangeCheck (heap.contents.observables this).length (int32 (index + 1))).or
        (if 0 ≤ index ∧ index < (heap.contents.observables this).length then none
          else some (.failure .indexOutOfBounds)))
      ((overwrite (heap.contents.observables this) index [value]).map
        (heap.contents.setObservable this))
      (fun c' => heap.contents.told this (c'.observables this) index (index + 1))
      ((setValue this index value).run heap) := by
  have ha := h.observables this
  have hlt := ha.lt
  have hsize := ha.le
  have hsame : Represents heap heap.contents heap.fired := ⟨h, rfl, rfl⟩
  have hlen : ((heap.contents.observables this).length : Int) = (heap.observables this).size :=
    ha.length_contents
  rw [setValue, bind_ok observable_run, hlen]
  cases hcheck : rangeCheck (heap.observables this).size (int32 (index + 1)) with
  | some e =>
    exact .kept trivial (.inl (Option.some_or)) hsame
  | none =>
    rw [bind_ok check_none]
    rw [rangeCheck] at hcheck
    split_ifs at hcheck with hbeyond
    by_cases hlegal : 0 ≤ index ∧ index < (heap.observables this).array.length
    · obtain ⟨hnn, hidx⟩ := hlegal
      have hsum : int32 (index + 1) = index + 1 := int32_eq (by omega) (by omega)
      rw [hsum] at hbeyond ⊢
      have hone : (([value] : List Int32).length : Int) = 1 := rfl
      obtain ⟨l, hover, hrep⟩ := represents_overwritten h hnn hone (Int.not_lt.mp hbeyond)
      have hset : (heap.observables this).array.set index.toNat value =
          (heap.observables this).array.take index.toNat ++ [value] ++
            (heap.observables this).array.drop (index + 1).toNat := by
        have hnext : (index + 1).toNat = index.toNat + 1 := by omega
        rw [set_eq_take_append_cons_drop, if_pos (by omega), hnext, append_assoc,
          singleton_append]
      have hlt' : index < (heap.observables this).size := by omega
      have hstore : store (heap.observables this).array index value = .ok _ :=
        if_pos ⟨hnn, hidx⟩
      rw [hstore, hset, bind_ok (call_ok _), bind_ok (setArray_run _), fireChange_eq, hover,
        if_pos ⟨hnn, hlt'⟩]
      refine .done trivial rfl rfl ?_
      rw [setObservable_self]
      exact hrep
    · have hstore : store (heap.observables this).array index value =
          .error .indexOutOfBounds := if_neg hlegal
      rw [hstore, if_neg fun hlegal' => hlegal ⟨hlegal'.1, by omega⟩]
      exact .kept trivial (.inl rfl) hsame

theorem set_error (h : heap.Valid) {destIndex length : Int} {i : Nat} {e : Throwable}
    {copy : List Int32 → Action (List Int32)} (hcopy : ∀ dest, (copy dest).run heap = .error e heap)
    (after : Option Contents) (change : Contents → List Fired) :
    Outcome allocate heap i True
      ((rangeCheck (heap.contents.observables this).length (int32 (destIndex + length))).or
        (some e)) after change ((set this destIndex length copy).run heap) := by
  have hsame : Represents heap heap.contents heap.fired := ⟨h, rfl, rfl⟩
  have hlen : ((heap.contents.observables this).length : Int) = (heap.observables this).size :=
    (h.observables this).length_contents
  rw [set, bind_ok observable_run, hlen]
  cases rangeCheck (heap.observables this).size (int32 (destIndex + length)) with
  | some e =>
    exact .kept trivial (.inl Option.some_or) hsame
  | none =>
    rw [bind_ok check_none, bind_error (hcopy _)]
    exact .kept trivial (.inl Option.none_or) hsame

theorem set_outcome (h : heap.Valid) {src : List Int32} {destIndex length : Int}
    (hdest : destIndex < 2 ^ 31) (hlength : length < 2 ^ 31) {i : Nat}
    {copy : List Int32 → Action (List Int32)} (hcopy : ∀ dest, (copy dest).run heap =
      (call (arraycopy src index dest destIndex length)).run heap) :
    Outcome allocate heap i True
      ((rangeCheck (heap.contents.observables this).length (int32 (destIndex + length))).or
        (Contents.copyCheck src index (heap.contents.observables this).length destIndex length))
      ((part src index length).bind fun values =>
        (overwrite (heap.contents.observables this) destIndex values).map
          (heap.contents.setObservable this))
      (fun c' => heap.contents.told this (c'.observables this) destIndex (destIndex + length))
      ((set this destIndex length copy).run heap) := by
  have ha := h.observables this
  have hlt := ha.lt
  have hsize := ha.le
  have hsame : Represents heap heap.contents heap.fired := ⟨h, rfl, rfl⟩
  have hlen : ((heap.contents.observables this).length : Int) = (heap.observables this).size :=
    ha.length_contents
  have hcopied := hcopy (heap.observables this).array
  rw [set, bind_ok observable_run, hlen]
  cases hcheck : rangeCheck (heap.observables this).size (int32 (destIndex + length)) with
  | some e =>
    exact .kept trivial (.inl Option.some_or) hsame
  | none =>
    rw [bind_ok check_none, Option.none_or]
    rw [rangeCheck] at hcheck
    split_ifs at hcheck with hbeyond
    by_cases hlegal : (part src index length).isSome = true ∧ 0 ≤ destIndex ∧
        destIndex + length ≤ (heap.observables this).array.length
    · obtain ⟨hsome, hnn, hle⟩ := hlegal
      obtain ⟨values, hvals⟩ := Option.isSome_iff_exists.mp hsome
      obtain ⟨-, hlength', -, hlenv, -⟩ := part_spec hvals
      have hsum : int32 (destIndex + length) = destIndex + length :=
        int32_eq (by omega) (by omega)
      rw [hsum] at hbeyond ⊢
      obtain ⟨l, hover, hrep⟩ := represents_overwritten h hnn hlenv (Int.not_lt.mp hbeyond)
      rw [arraycopy_part hvals hnn hle] at hcopied
      rw [bind_ok hcopied, bind_ok (setArray_run _), fireChange_eq, hvals, Option.bind_some,
        hover]
      refine .done trivial ?_ rfl ?_
      · rw [Contents.copyCheck, hvals, if_pos ⟨rfl, hnn, Int.not_lt.mp hbeyond⟩]
      · rw [setObservable_self]
        exact hrep
    · rw [arraycopy_error hlegal, call_error] at hcopied
      rw [bind_error hcopied]
      refine .kept trivial (.inl ?_) hsame
      rw [Contents.copyCheck, if_neg fun hlegal' => hlegal ⟨hlegal'.1, hlegal'.2.1, by omega⟩]

end Internal

end OpenJfx.Collections.ObservableIntegerArrayImpl
