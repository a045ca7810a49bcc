import OpenJfx.Java.Arrays
import OpenJfx.Java.Ints

namespace OpenJfx.Collections

open Java.Arrays Java.Ints

/-- An observable array of ints, with room for more of them. -/
structure ObservableIntegerArrayImpl where
  array : List Int32
  size : Int

namespace ObservableIntegerArrayImpl

/-- What a call can throw. `failure` is that of an access to an array or of a null reference. -/
inductive Throwable
  | failure (failure : Failure)
  | arrayIndexOutOfBounds (index : Int)
  | negativeArraySize (newSize : Int)
  | outOfMemory

inductive ArrayRef
  | observable (ref : Nat)
  | ints (ref : Nat)
  deriving DecidableEq

/-- A change that the listeners of an array are told. -/
structure Fired where
  observable : Nat
  sizeChanged : Bool
  start : Int
  stop : Int

structure Heap where
  observables : Nat → ObservableIntegerArrayImpl
  ints : Nat → List Int32
  fired : List Fired

/-- A method that may throw; the heap stays as it is at that time. -/
abbrev Action := EStateM Throwable Heap

def Heap.setObservable (heap : Heap) (i : Nat) (a : ObservableIntegerArrayImpl) : Heap :=
  { heap with observables := Function.update heap.observables i a }

def Heap.setInts (heap : Heap) (i : Nat) (values : List Int32) : Heap :=
  { heap with ints := Function.update heap.ints i values }

def observable (i : Nat) : Action ObservableIntegerArrayImpl := do
  return (← get).observables i

def setArray (this : Nat) (array : List Int32) : Action Unit :=
  modify fun heap => heap.setObservable this { heap.observables this with array := array }

def setSize (this : Nat) (size : Int) : Action Unit :=
  modify fun heap => heap.setObservable this { heap.observables this with size := size }

/-- The listeners are told of a change only if there is one. -/
def fireChange (this : Nat) (sizeChanged : Bool) (start stop : Int) : Action Unit :=
  if start < stop ∨ sizeChanged then
    modify fun heap => { heap with fired := heap.fired ++ [⟨this, sizeChanged, start, stop⟩] }
  else pure ()

def check : Option Throwable → Action Unit
  | some throwable => throw throwable
  | none => pure ()

/-- A call of the library that may throw an exception. -/
def call {α : Type} : Outcome α → Action α
  | .ok value => pure value
  | .error failure => throw (.failure failure)

def nonNull {α : Type} : Option α → Action α
  | some ref => pure ref
  | none => throw (.failure .nullPointer)

/-- `rangeCheck(size)` on an array of the size `thisSize`. -/
def rangeCheck (thisSize size : Int) : Option Throwable :=
  if thisSize < size then some (.arrayIndexOutOfBounds thisSize) else none

def rangeCheckSource (srcSize srcIndex length : Int) : Option Throwable :=
  if srcIndex < 0 ∨ srcSize < int32 (srcIndex + length) then
    some (.arrayIndexOutOfBounds srcSize)
  else if length < 0 then some (.arrayIndexOutOfBounds (-1))
  else none

def sizeOf (src : ArrayRef) : Action Int := do
  match src with
  | .observable src => return (← observable src).size
  | .ints src => return ((← get).ints src).length

def copyTo (src : ArrayRef) (srcIndex : Int) (dest : List Int32) (destIndex length : Int) :
    Action (List Int32) := do
  match src with
  | .observable src =>
    let src ← observable src
    check (rangeCheck src.size (int32 (srcIndex + length)))
    call (arraycopy src.array srcIndex dest destIndex length)
  | .ints src => call (arraycopy ((← get).ints src) srcIndex dest destIndex length)

def MAX_ARRAY_SIZE : Int := 2 ^ 31 - 1 - 8

def hugeCapacity (minCapacity : Int) : Action Int :=
  if minCapacity < 0 then throw .outOfMemory
  else if MAX_ARRAY_SIZE < minCapacity then pure (2 ^ 31 - 1)
  else pure MAX_ARRAY_SIZE

/-- The capacity that `growCapacity` asks for. -/
def newCapacity (oldCapacity minCapacity : Int) : Action Int :=
  let newCapacity := int32 (oldCapacity + oldCapacity / 2)
  let newCapacity := if newCapacity < minCapacity then minCapacity else newCapacity
  if MAX_ARRAY_SIZE < newCapacity then hugeCapacity minCapacity else pure newCapacity

section

-- whether there is memory for an array of a length
variable (allocate : Int → Bool)

def ensureCapacity (this : Nat) (capacity : Int) : Action Unit := do
  let a ← observable this
  if (a.array.length : Int) < capacity then
    if allocate capacity then setArray this (copyOf 0 a.array capacity.toNat)
    else throw .outOfMemory

def growCapacity (this : Nat) (length : Int) : Action Unit := do
  let a ← observable this
  let minCapacity := int32 (a.size + length)
  let oldCapacity : Int := a.array.length
  if oldCapacity < minCapacity then
    ensureCapacity allocate this (← newCapacity oldCapacity minCapacity)
  else if 0 < length ∧ minCapacity < 0 then throw .outOfMemory

def addAllInternal (this : Nat) (src : ArrayRef) (srcIndex length : Int) : Action Unit := do
  growCapacity allocate this length
  let a ← observable this
  let array ← copyTo src srcIndex a.array a.size length
  setArray this array
  setSize this (int32 (a.size + length))
  fireChange this (decide (length ≠ 0)) (int32 (int32 (a.size + length) - length))
    (int32 (a.size + length))

def resize (this : Nat) (newSize : Int) : Action Unit := do
  if newSize < 0 then throw (.negativeArraySize newSize)
  ensureCapacity allocate this newSize
  let a ← observable this
  let minSize := min a.size newSize
  setSize this newSize
  setArray this (a.array.take minSize.toNat ++ List.replicate (newSize - minSize).toNat 0 ++
    a.array.drop newSize.toNat)
  fireChange this (decide (a.size ≠ newSize)) minSize newSize

/-- `setAllInternal` for a source that is not the array itself. -/
def setAllFrom (this : Nat) (src : ArrayRef) (srcIndex length : Int) : Action Unit := do
  let sizeChanged := decide ((← observable this).size ≠ length)
  setSize this 0
  ensureCapacity allocate this length
  let array ← copyTo src srcIndex (← observable this).array 0 length
  setArray this array
  setSize this length
  fireChange this sizeChanged 0 length

def setAllInternal (this : Nat) (src : ArrayRef) (srcIndex length : Int) : Action Unit := do
  if src = .observable this then
    if srcIndex = 0 then resize allocate this length
    else
      let a ← observable this
      let array ← call (arraycopy a.array srcIndex a.array 0 length)
      setArray this array
      setSize this length
      fireChange this (decide (a.size ≠ length)) 0 length
  else setAllFrom allocate this src srcIndex length

def trimToSize (this : Nat) : Action Unit := do
  let a ← observable this
  if (a.array.length : Int) ≠ a.size then
    if allocate a.size then setArray this (a.array.take a.size.toNat) else throw .outOfMemory

end

def setValue (this : Nat) (index : Int) (value : Int32) : Action Unit := do
  let a ← observable this
  check (rangeCheck a.size (int32 (index + 1)))
  let array ← call (store a.array index value)
  setArray this array
  fireChange this false index (int32 (index + 1))

/-- `set(destIndex, src, srcIndex, length)`, where `copy` is what copies the source. -/
def set (this : Nat) (destIndex length : Int) (copy : List Int32 → Action (List Int32)) :
    Action Unit := do
  let a ← observable this
  check (rangeCheck a.size (int32 (destIndex + length)))
  let array ← copy a.array
  setArray this array
  fireChange this false destIndex (int32 (destIndex + length))

def setFrom (this : Nat) (destIndex : Int) (src : Option ArrayRef) (srcIndex length : Int) :
    Action Unit :=
  set this destIndex length fun array => do
    copyTo (← nonNull src) srcIndex array destIndex length

/-- `copyTo(srcIndex, dest, destIndex, length)`. -/
def copyToArray (this : Nat) (srcIndex : Int) (dest : Option ArrayRef) (destIndex length : Int) :
    Action Unit := do
  let a ← observable this
  check (rangeCheck a.size (int32 (srcIndex + length)))
  match ← nonNull dest with
  | .ints dest =>
    let values ← call (arraycopy a.array srcIndex ((← get).ints dest) destIndex length)
    modify fun heap => heap.setInts dest values
  | .observable dest =>
    set dest destIndex length fun array =>
      call (arraycopy a.array srcIndex array destIndex length)

inductive Call
  | setAll (src : Option ArrayRef)
  | setAllRange (src : Option ArrayRef) (srcIndex length : Int32)
  | addAll (src : Option ArrayRef)
  | addAllRange (src : Option ArrayRef) (srcIndex length : Int32)
  | setValue (index value : Int32)
  | set (destIndex : Int32) (src : Option ArrayRef) (srcIndex length : Int32)
  | copyTo (srcIndex : Int32) (dest : Option ArrayRef) (destIndex length : Int32)
  | resize (newSize : Int32)
  | clear
  | ensureCapacity (capacity : Int32)
  | trimToSize

def perform (allocate : Int → Bool) (this : Nat) : Call → Action Unit
  | .setAll src => do
    let src ← nonNull src
    setAllInternal allocate this src 0 (← sizeOf src)
  | .setAllRange src srcIndex length => do
    let src ← nonNull src
    check (rangeCheckSource (← sizeOf src) srcIndex.toInt length.toInt)
    setAllInternal allocate this src srcIndex.toInt length.toInt
  | .addAll src => do
    let src ← nonNull src
    addAllInternal allocate this src 0 (← sizeOf src)
  | .addAllRange src srcIndex length => do
    let src ← nonNull src
    check (rangeCheckSource (← sizeOf src) srcIndex.toInt length.toInt)
    addAllInternal allocate this src srcIndex.toInt length.toInt
  | .setValue index value => setValue this index.toInt value
  | .set destIndex src srcIndex length =>
    setFrom this destIndex.toInt src srcIndex.toInt length.toInt
  | .copyTo srcIndex dest destIndex length =>
    copyToArray this srcIndex.toInt dest destIndex.toInt length.toInt
  | .resize newSize => resize allocate this newSize.toInt
  | .clear => resize allocate this 0
  | .ensureCapacity capacity => ensureCapacity allocate this capacity.toInt
  | .trimToSize => trimToSize allocate this

end ObservableIntegerArrayImpl

end OpenJfx.Collections

namespace OpenJfx.Collections.ObservableIntegerArrayImpl

open Java.Arrays Java.Ints List

structure Contents where
  observables : Nat → List Int32
  ints : Nat → List Int32

def contents (a : ObservableIntegerArrayImpl) : List Int32 := a.array.take a.size.toNat

def Heap.contents (heap : Heap) : Contents :=
  ⟨fun i => (heap.observables i).contents, heap.ints⟩

/-- The part of a sequence from an index on, if the sequence is long enough. -/
def part (l : List Int32) (index length : Int) : Option (List Int32) :=
  if 0 ≤ index ∧ 0 ≤ length ∧ index + length ≤ l.length then
    some ((l.drop index.toNat).take length.toNat)
  else none

def overwrite (l : List Int32) (index : Int) (values : List Int32) : Option (List Int32) :=
  if 0 ≤ index ∧ index + values.length ≤ l.length then
    some (l.take index.toNat ++ values ++ l.drop (index + values.length).toNat)
  else none

def resized (l : List Int32) (n : Nat) : List Int32 :=
  l.take n ++ List.replicate (n - l.length) 0

namespace Contents

variable (c : Contents)

def get : ArrayRef → List Int32
  | .observable i => c.observables i
  | .ints i => c.ints i

def setObservable (i : Nat) (l : List Int32) : Contents :=
  { c with observables := Function.update c.observables i l }

def put : ArrayRef → List Int32 → Contents
  | .observable i, l => c.setObservable i l
  | .ints i, l => { c with ints := Function.update c.ints i l }

/-- The contents after a call, if its arguments make sense. -/
def after (this : Nat) : Call → Option Contents
  | .setAll src => do return c.setObservable this (c.get (← src))
  | .setAllRange src srcIndex length => do
    return c.setObservable this (← part (c.get (← src)) srcIndex.toInt length.toInt)
  | .addAll src => do return c.setObservable this (c.observables this ++ c.get (← src))
  | .addAllRange src srcIndex length => do
    let values ← part (c.get (← src)) srcIndex.toInt length.toInt
    return c.setObservable this (c.observables this ++ values)
  | .setValue index value => do
    return c.setObservable this (← overwrite (c.observables this) index.toInt [value])
  | .set destIndex src srcIndex length => do
    let values ← part (c.get (← src)) srcIndex.toInt length.toInt
    return c.setObservable this (← overwrite (c.observables this) destIndex.toInt values)
  | .copyTo srcIndex dest destIndex length => do
    let dest ← dest
    let values ← part (c.observables this) srcIndex.toInt length.toInt
    return c.put dest (← overwrite (c.get dest) destIndex.toInt values)
  | .resize newSize =>
    if 0 ≤ newSize.toInt then
      some (c.setObservable this (resized (c.observables this) newSize.toInt.toNat))
    else none
  | .clear => some (c.setObservable this [])
  | .ensureCapacity _ | .trimToSize => some c

/-- What the listeners of an array are told when its sequence becomes `l`. -/
def told (i : Nat) (l : List Int32) (start stop : Int) : List Fired :=
  if start < stop ∨ (c.observables i).length ≠ l.length then
    [⟨i, decide ((c.observables i).length ≠ l.length), start, stop⟩]
  else []

def change (c' : Contents) (this : Nat) : Call → List Fired
  | .setAll src =>
    let length := (c'.observables this).length
    c.told this (c'.observables this) (if src = some (.observable this) then length else 0)
      length
  | .setAllRange src srcIndex length =>
    c.told this (c'.observables this)
      (if src = some (.observable this) ∧ srcIndex.toInt = 0 then length.toInt else 0)
      length.toInt
  | .addAll _ | .addAllRange .. =>
    c.told this (c'.observables this) (c.observables this).length (c'.observables this).length
  | .setValue index _ => c.told this (c'.observables this) index.toInt (index.toInt + 1)
  | .set destIndex _ _ length =>
    c.told this (c'.observables this) destIndex.toInt (destIndex.toInt + length.toInt)
  | .copyTo _ (some (.observable dest)) destIndex length =>
    c.told dest (c'.observables dest) destIndex.toInt (destIndex.toInt + length.toInt)
  | .resize newSize =>
    c.told this (c'.observables this) (min ((c.observables this).length : Int) newSize.toInt)
      newSize.toInt
  | .clear => c.told this (c'.observables this) 0 0
  | .copyTo .. | .ensureCapacity _ | .trimToSize => []

section Fails

def sourceCheck (src : ArrayRef) (srcIndex length : Int) : Option Throwable :=
  match src with
  | .observable src => rangeCheck (c.observables src).length (int32 (srcIndex + length))
  | .ints _ => none

/-- The check of `System.arraycopy`. -/
def copyCheck (src : List Int32) (srcIndex destSize destIndex length : Int) : Option Throwable :=
  if (part src srcIndex length).isSome ∧ 0 ≤ destIndex ∧ destIndex + length ≤ destSize then none
  else some (.failure .indexOutOfBounds)

/-- The check of `growCapacity`. -/
def sizeCheck (this : Nat) (length : Int) : Option Throwable :=
  if 2 ^ 31 ≤ (c.observables this).length + length then some .outOfMemory else none

def nullPointer : Throwable := .failure .nullPointer

def fails (this : Nat) : Call → Option Throwable
  | .setAll src => if src = none then some nullPointer else none
  | .setAllRange src srcIndex length =>
    match src with
    | none => some nullPointer
    | some src =>
      (rangeCheckSource (c.get src).length srcIndex.toInt length.toInt).or
        (copyCheck (c.get src) srcIndex.toInt length.toInt 0 length.toInt)
  | .addAll src =>
    match src with
    | none => some nullPointer
    | some src => c.sizeCheck this (c.get src).length
  | .addAllRange src srcIndex length =>
    match src with
    | none => some nullPointer
    | some src =>
      ((rangeCheckSource (c.get src).length srcIndex.toInt length.toInt).or
        (c.sizeCheck this length.toInt)).or
          (copyCheck (c.get src) srcIndex.toInt length.toInt 0 length.toInt)
  | .setValue index _ =>
    (rangeCheck (c.observables this).length (int32 (index.toInt + 1))).or
      (if 0 ≤ index.toInt ∧ index.toInt < (c.observables this).length then none
        else some (.failure .indexOutOfBounds))
  | .set destIndex src srcIndex length =>
    (rangeCheck (c.observables this).length (int32 (destIndex.toInt + length.toInt))).or
      (match src with
        | none => some nullPointer
        | some src =>
          (c.sourceCheck src srcIndex.toInt length.toInt).or
            (copyCheck (c.get src) srcIndex.toInt (c.observables this).length destIndex.toInt
              length.toInt))
  | .copyTo srcIndex dest destIndex length =>
    (rangeCheck (c.observables this).length (int32 (srcIndex.toInt + length.toInt))).or
      (match dest with
        | none => some nullPointer
        | some dest =>
          (c.sourceCheck dest destIndex.toInt length.toInt).or
            (copyCheck (c.observables this) srcIndex.toInt (c.get dest).length destIndex.toInt
              length.toInt))
  | .resize newSize =>
    if newSize.toInt < 0 then some (.negativeArraySize newSize.toInt) else none
  | .clear | .ensureCapacity _ | .trimToSize => none

end Fails

end Contents

/-- What a change has to tell about a sequence that was `l` and is `l'` now. -/
structure Tells (l l' : List Int32) (fired : Fired) : Prop where
  sizeChanged : fired.sizeChanged = true ↔ l.length ≠ l'.length
  start : 0 ≤ fired.start
  le : fired.start ≤ fired.stop
  stop : fired.stop ≤ l'.length
  /-- nothing has changed elsewhere -/
  same : ∀ i : Nat, i < l.length → i < l'.length → ¬(fired.start ≤ i ∧ i < fired.stop) →
    l'[i]? = l[i]?
  /-- what is new is in the range -/
  added : ∀ i : Nat, l.length ≤ i → i < l'.length → fired.start ≤ i ∧ i < fired.stop

def TellsAll (c c' : Contents) : List Fired → Prop
  | [] => c'.observables = c.observables
  | [fired] =>
    Tells (c.observables fired.observable) (c'.observables fired.observable) fired ∧
      ∀ i, i ≠ fired.observable → c'.observables i = c.observables i
  | _ => False

section Tells

variable {c : Contents} {i : Nat} {l : List Int32} {start stop : Int}

theorem setObservable_self (c : Contents) (i : Nat) (l : List Int32) :
    (c.setObservable i l).observables i = l := Function.update_self _ _ _

theorem tellsAll_told (hstart : 0 ≤ start) (hle : start ≤ stop) (hstop : stop ≤ l.length)
    (hsame : ∀ k : Nat, k < (c.observables i).length → k < l.length →
      ¬(start ≤ k ∧ k < stop) → l[k]? = (c.observables i)[k]?)
    (hadded : ∀ k : Nat, (c.observables i).length ≤ k → k < l.length → start ≤ k ∧ k < stop) :
    TellsAll c (c.setObservable i l) (c.told i l start stop) := by
  rw [Contents.told]
  split_ifs with htold
  · constructor
    · rw [setObservable_self]
      exact ⟨decide_eq_true_iff, hstart, hle, hstop, hsame, hadded⟩
    · intro j hj
      exact Function.update_of_ne hj _ _
  · have heq : l = c.observables i := by
      refine ext_getElem? fun k => ?_
      by_cases hk : k < l.length
      · exact hsame k (by omega) hk (by omega)
      · rw [getElem?_eq_none (by omega), getElem?_eq_none (by omega)]
    rw [heq]
    exact Function.update_eq_self i c.observables

theorem part_spec {values : List Int32} {index length : Int}
    (h : part l index length = some values) :
    0 ≤ index ∧ 0 ≤ length ∧ index + length ≤ l.length ∧ (values.length : Int) = length ∧
      values = (l.drop index.toNat).take length.toNat := by
  rw [part] at h
  split_ifs at h with hlegal
  obtain rfl := Option.some.inj h
  refine ⟨hlegal.1, hlegal.2.1, hlegal.2.2, ?_, rfl⟩
  rw [length_take, length_drop]
  omega

theorem overwrite_spec {values l' : List Int32} {index : Int}
    (h : overwrite l index values = some l') :
    0 ≤ index ∧ index + values.length ≤ l.length ∧ l'.length = l.length ∧
      ∀ k : Nat, ¬(index ≤ k ∧ k < index + values.length) → l'[k]? = l[k]? := by
  rw [overwrite] at h
  split_ifs at h with hlegal
  obtain rfl := Option.some.inj h
  refine ⟨hlegal.1, hlegal.2, ?_, fun k hk => ?_⟩
  · simp only [length_append, length_take, length_drop]
    omega
  · by_cases hbef : k < index.toNat
    · rw [append_assoc, getElem?_append_left, getElem?_take_of_lt hbef]
      rw [length_take]
      omega
    · rw [getElem?_append_right, getElem?_drop]
      · congr 1
        simp only [length_append, length_take]
        omega
      · simp only [length_append, length_take]
        omega

theorem tellsAll_overwrite {values l' : List Int32} {index : Int}
    (h : overwrite (c.observables i) index values = some l') :
    TellsAll c (c.setObservable i l') (c.told i l' index (index + values.length)) := by
  obtain ⟨hidx, hle, hlen, hsame⟩ := overwrite_spec h
  exact tellsAll_told hidx (by omega) (by omega) (fun k _ _ hout => hsame k hout)
    fun k hk hk' => by omega

theorem tellsAll_set : TellsAll c (c.setObservable i l) (c.told i l 0 l.length) :=
  tellsAll_told (Int.le_refl 0) (by omega) (Int.le_refl _) (fun k _ _ hout => by omega)
    fun k _ _ => by omega

theorem tellsAll_take {n : Nat} (hn : n ≤ (c.observables i).length) :
    TellsAll c (c.setObservable i ((c.observables i).take n))
      (c.told i ((c.observables i).take n) n n) := by
  have hlen : ((c.observables i).take n).length = n := by
    rw [length_take]
    omega
  refine tellsAll_told (by omega) (Int.le_refl _) (by omega) (fun k _ hk _ => ?_)
    fun k hk hk' => by omega
  exact getElem?_take_of_lt (by omega)

theorem tellsAll_append {values : List Int32} :
    TellsAll c (c.setObservable i (c.observables i ++ values))
      (c.told i (c.observables i ++ values) (c.observables i).length
        (c.observables i ++ values).length) := by
  refine tellsAll_told (by omega) ?_ (Int.le_refl _) (fun k hk _ _ => ?_) fun k hk hk' => by omega
  · rw [length_append]
    omega
  · exact getElem?_append_left hk

theorem tellsAll_resized (n : Nat) :
    TellsAll c (c.setObservable i (resized (c.observables i) n))
      (c.told i (resized (c.observables i) n) (min ((c.observables i).length : Int) n) n) := by
  have hlen : (resized (c.observables i) n).length = n := by
    simp only [resized, length_append, length_take, length_replicate]
    omega
  refine tellsAll_told (by omega) (by omega) (by omega) (fun k hk hk' _ => ?_)
    fun k hk hk' => by omega
  rw [resized, getElem?_append_left, getElem?_take_of_lt (by omega)]
  rw [length_take]
  omega

theorem tellsAll_change {c' : Contents} {this : Nat} {call : Call}
    (h : c.after this call = some c') : TellsAll c c' (c.change c' this call) := by
  cases call with
  | setAll src =>
    obtain ⟨src, rfl, h⟩ := Option.bind_eq_some_iff.mp h
    obtain rfl := Option.some.inj h
    dsimp only [Contents.change]
    rw [setObservable_self]
    split_ifs with hthis
    · obtain rfl := Option.some.inj hthis
      have htake : TellsAll c _ _ := tellsAll_take (Nat.le_refl (c.observables this).length)
      rw [take_length] at htake
      exact htake
    · exact tellsAll_set
  | setAllRange src srcIndex length =>
    obtain ⟨src, rfl, h⟩ := Option.bind_eq_some_iff.mp h
    obtain ⟨values, hpart, h⟩ := Option.bind_eq_some_iff.mp h
    obtain rfl := Option.some.inj h
    obtain ⟨_, hnn, hle, hlen, hvals⟩ := part_spec hpart
    dsimp only [Contents.change]
    rw [setObservable_self, ← hlen]
    split_ifs with hthis
    · obtain ⟨hthis, hzero⟩ := hthis
      obtain rfl := Option.some.inj hthis
      have hn : length.toInt.toNat = values.length := by omega
      rw [hzero, hn] at hvals
      rw [hzero, ← hlen, Int.zero_add] at hle
      have htake : TellsAll c _ _ := tellsAll_take (Int.ofNat_le.mp hle)
      change values = (c.observables this).take values.length at hvals
      rw [← hvals] at htake
      exact htake
    · exact tellsAll_set
  | addAll src =>
    obtain ⟨src, rfl, h⟩ := Option.bind_eq_some_iff.mp h
    obtain rfl := Option.some.inj h
    dsimp only [Contents.change]
    rw [setObservable_self]
    exact tellsAll_append
  | addAllRange src srcIndex length =>
    obtain ⟨src, rfl, h⟩ := Option.bind_eq_some_iff.mp h
    obtain ⟨values, -, h⟩ := Option.bind_eq_some_iff.mp h
    obtain rfl := Option.some.inj h
    dsimp only [Contents.change]
    rw [setObservable_self]
    exact tellsAll_append
  | setValue index value =>
    obtain ⟨l, hl, h⟩ := Option.bind_eq_some_iff.mp h
    obtain rfl := Option.some.inj h
    dsimp only [Contents.change]
    rw [setObservable_self]
    exact tellsAll_overwrite hl
  | set destIndex src srcIndex length =>
    obtain ⟨src, rfl, h⟩ := Option.bind_eq_some_iff.mp h
    obtain ⟨values, hpart, h⟩ := Option.bind_eq_some_iff.mp h
    obtain ⟨l, hl, h⟩ := Option.bind_eq_some_iff.mp h
    obtain rfl := Option.some.inj h
    obtain ⟨-, -, -, hlen, -⟩ := part_spec hpart
    dsimp only [Contents.change]
    rw [setObservable_self, ← hlen]
    exact tellsAll_overwrite hl
  | copyTo srcIndex dest destIndex length =>
    obtain ⟨dest, rfl, h⟩ := Option.bind_eq_some_iff.mp h
    obtain ⟨values, hpart, h⟩ := Option.bind_eq_some_iff.mp h
    obtain ⟨l, hl, h⟩ := Option.bind_eq_some_iff.mp h
    obtain rfl := Option.some.inj h
    obtain ⟨-, -, -, hlen, -⟩ := part_spec hpart
    cases dest with
    | ints dest => rfl
    | observable dest =>
      dsimp only [Contents.change, Contents.put, Contents.setObservable]
      rw [Function.update_self, ← hlen]
      exact tellsAll_overwrite hl
  | resize newSize =>
    rw [Contents.after] at h
    split_ifs at h with hnn
    obtain rfl := Option.some.inj h
    dsimp only [Contents.change]
    rw [setObservable_self, ← Int.toNat_of_nonneg hnn]
    exact tellsAll_resized _
  | clear =>
    obtain rfl := Option.some.inj h
    dsimp only [Contents.change]
    rw [setObservable_self]
    exact tellsAll_set
  | ensureCapacity capacity | trimToSize =>
    obtain rfl := Option.some.inj h
    rfl

end Tells

end OpenJfx.Collections.ObservableIntegerArrayImpl
