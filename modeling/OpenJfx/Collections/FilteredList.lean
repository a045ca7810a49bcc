import OpenJfx.Collections.ListChangeBuilderSafety
import OpenJfx.Collections.SortHelper

/-!
`javafx.collections.transformation.FilteredList`. The elements of the source may
be mutable: a predicate tests an element in the present state of the world. A
predicate is a reference, and a null predicate lets every element pass.
-/

namespace OpenJfx.Collections.Filtered

open Java.Arrays Java.BinarySearch Collections.ListChange Collections.ListChangeBuilder

variable {E H P : Type}

/-- The fields of the list; `size` is the length of the segment of `filtered` in use. -/
structure FilteredList (E P : Type) where
  filtered : List Int
  size : Nat
  predicate : Option P
  builder : Builder E

/-- On which side of `p` the entry at index `i` lies. -/
def probe (filtered : List Int) (p : Int) (i : Nat) : Ordering :=
  match filtered[i]? with
  | some k => compare k p
  | none => .gt

def findPosition (filtered : List Int) (size : Nat) (p : Int) : Outcome Nat :=
  if filtered.length = 0 then .ok 0
  else if p = 0 then .ok 0
  else if filtered.length < size then .error .indexOutOfBounds
  else
    match binarySearch (probe filtered p) size with
    | .found pos => .ok pos
    | .insertAt pos => .ok pos

def ensureSize (filtered : List Int) (used size : Nat) : Outcome (List Int) :=
  if filtered.length < size then
    arraycopy filtered 0 (List.replicate (size * 3 / 2 + 1) 0) 0 used
  else .ok filtered

def updateIndexes (delta : Int) : Nat → Int → List Int → Outcome (List Int)
  | 0, _, filtered => .ok filtered
  | count + 1, i, filtered => do
    let k ← load filtered i
    let filtered ← store filtered i (k + delta)
    updateIndexes delta count (i + 1) filtered

/-- The loop of `permutate` that replaces `count` entries by their new indexes. -/
def permuteEntries (c : SubChange E) : Nat → Int → List Int → Outcome (List Int)
  | 0, _, filtered => .ok filtered
  | count + 1, i, filtered => do
    let k ← load filtered i
    let k ← c.getPermutation k
    let filtered ← store filtered i k
    permuteEntries c count (i + 1) filtered

def permutate (order : EntryOrder E) (l : FilteredList E P) (c : SubChange E) :
    Outcome (FilteredList E P) := do
  let fromPos ← findPosition l.filtered l.size c.fromIdx
  let toPos ← findPosition l.filtered l.size c.toIdx
  if fromPos < toPos then do
    let filtered ← permuteEntries c (toPos - fromPos) fromPos l.filtered
    let (filtered, perm) ← SortHelper.sort SortHelper.compareTo filtered fromPos toPos
    let builder ← l.builder.nextPermutation order l.size fromPos toPos perm
    .ok { l with filtered := filtered, builder := builder }
  else .ok l

/-- The loop of `addRemove` that reports the removed elements. -/
def markRemoved (c : SubChange E) (filtered : List Int) (fromPos : Nat) :
    Nat → Int → Builder E → Outcome (Builder E)
  | 0, _, builder => .ok builder
  | count + 1, i, builder => do
    let k ← load filtered i
    let e ← load c.getRemoved (k - c.fromIdx)
    let builder ← builder.nextRemove fromPos e
    markRemoved c filtered fromPos count (i + 1) builder

/-- `it.next()` of an iterator over the source that stands at `nextIndex`. -/
def next (source : List E) (nextIndex : Int) : Outcome E :=
  match load source nextIndex with
  | .ok e => .ok e
  | .error _ => .error .noSuchElement

def listIterator (source : List E) (index : Int) : Outcome Int :=
  if 0 ≤ index ∧ index ≤ source.length then .ok index else .error .indexOutOfBounds

section

variable (passes : E → Bool) (source : List E)

/-- The loop that replaces removed entries: the array, the builder, `fpos` and the index
of the next source element after it. -/
def replaceEntries (toPos : Nat) :
    Nat → Int → Nat → List Int → Builder E → Outcome (List Int × Builder E × Nat × Int)
  | 0, nextIndex, fpos, filtered, builder => .ok (filtered, builder, fpos, nextIndex)
  | count + 1, nextIndex, fpos, filtered, builder =>
    if fpos < toPos then do
      let e ← next source nextIndex
      if passes e then do
        let filtered ← store filtered fpos nextIndex
        let builder ← builder.nextAdd fpos (fpos + 1)
        replaceEntries toPos count (nextIndex + 1) (fpos + 1) filtered builder
      else replaceEntries toPos count (nextIndex + 1) fpos filtered builder
    else .ok (filtered, builder, fpos, nextIndex)

/-- The loop that adds the remaining elements. -/
def addEntries :
    Nat → Int → Nat → List Int → Nat → Builder E → Outcome (List Int × Nat × Builder E)
  | 0, _, _, filtered, size, builder => .ok (filtered, size, builder)
  | count + 1, nextIndex, fpos, filtered, size, builder => do
    let e ← next source nextIndex
    if passes e then do
      let filtered ← arraycopy filtered fpos filtered (fpos + 1) (size - fpos)
      let filtered ← store filtered fpos nextIndex
      let builder ← builder.nextAdd fpos (fpos + 1)
      addEntries count (nextIndex + 1) (fpos + 1) filtered (size + 1) builder
    else addEntries count (nextIndex + 1) fpos filtered size builder

/-- The end of `addRemove`: the array is closed up, or the remaining elements are added. -/
def finishAdded (c : SubChange E) (toPos : Nat) (filtered : List Int) (size : Nat)
    (builder : Builder E) (fpos : Nat) (nextIndex : Int) :
    Outcome (List Int × Nat × Builder E) :=
  if fpos < toPos then do
    let filtered ← arraycopy filtered toPos filtered fpos (size - toPos)
    .ok (filtered, size - (toPos - fpos), builder)
  else addEntries passes source (c.toIdx - nextIndex).toNat nextIndex fpos filtered size builder

def addRemove (l : FilteredList E P) (c : SubChange E) : Outcome (FilteredList E P) := do
  let filtered ← ensureSize l.filtered l.size source.length
  let fromPos ← findPosition filtered l.size c.fromIdx
  let toPos ← findPosition filtered l.size (c.fromIdx + c.getRemovedSize)
  let builder ← markRemoved c filtered fromPos (toPos - fromPos) fromPos l.builder
  let filtered ← updateIndexes (c.getAddedSize - c.getRemovedSize) (l.size - toPos) toPos filtered
  let nextIndex ← listIterator source c.fromIdx
  let (filtered, builder, fpos, nextIndex) ←
    replaceEntries passes source toPos
      (c.toIdx - nextIndex).toNat nextIndex fromPos filtered builder
  let (filtered, size, builder) ←
    finishAdded passes source c toPos filtered l.size builder fpos nextIndex
  .ok { l with filtered := filtered, size := size, builder := builder }

/-- The loop of `update`. The iterator advances in every round, so the rounds are
bounded by the length of the source. -/
def updateEntries (sourceTo : Int) :
    Nat → Int → Nat → Nat → List Int → Nat → Builder E → Outcome (List Int × Nat × Builder E)
  | 0, _, _, _, _, _, _ => .error .noSuchElement
  | fuel + 1, sourceFrom, pos, filterTo, filtered, size, builder =>
    if pos < filterTo ∨ sourceFrom < sourceTo then do
      let e ← next source sourceFrom
      if ← presentAt filtered size pos sourceFrom then
        if passes e then do
          let builder ← builder.nextUpdate pos
          updateEntries sourceTo fuel (sourceFrom + 1) (pos + 1) filterTo filtered size builder
        else do
          let builder ← builder.nextRemove pos e
          let filtered ← arraycopy filtered (pos + 1) filtered pos (size - pos - 1)
          updateEntries sourceTo fuel (sourceFrom + 1) pos (filterTo - 1) filtered (size - 1)
            builder
      else if passes e then do
        let builder ← builder.nextAdd pos (pos + 1)
        let filtered ← arraycopy filtered pos filtered (pos + 1) (size - pos)
        let filtered ← store filtered pos sourceFrom
        updateEntries sourceTo fuel (sourceFrom + 1) (pos + 1) (filterTo + 1) filtered (size + 1)
          builder
      else updateEntries sourceTo fuel (sourceFrom + 1) pos filterTo filtered size builder
    else .ok (filtered, size, builder)
where
  presentAt (filtered : List Int) (size pos : Nat) (sourceFrom : Int) : Outcome Bool :=
    if pos < size then do
      let k ← load filtered pos
      .ok (decide (k = sourceFrom))
    else .ok false

def update (l : FilteredList E P) (c : SubChange E) : Outcome (FilteredList E P) := do
  let filtered ← ensureSize l.filtered l.size source.length
  let filterFrom ← findPosition filtered l.size c.fromIdx
  let filterTo ← findPosition filtered l.size c.toIdx
  let nextIndex ← listIterator source c.fromIdx
  let (filtered, size, builder) ← updateEntries passes source c.toIdx
    ((source.length - nextIndex).toNat + 1) nextIndex filterFrom filterTo filtered l.size l.builder
  .ok { l with filtered := filtered, size := size, builder := builder }

/-- The loop of `refilter`. -/
def collect : List E → Int → List Int → Nat → Outcome (List Int × Nat)
  | [], _, filtered, size => .ok (filtered, size)
  | e :: rest, i, filtered, size =>
    if passes e then do
      let filtered ← store filtered size i
      collect rest (i + 1) filtered (size + 1)
    else collect rest (i + 1) filtered size

end

def get (source : List E) (l : FilteredList E P) (index : Nat) : Outcome E :=
  if l.size ≤ index then .error .indexOutOfBounds
  else do
    let k ← load l.filtered index
    load source k

/-- The elements of the view, as `new ArrayList<>(this)` reads them. -/
def elements (source : List E) (l : FilteredList E P) : Outcome (List E) :=
  (List.range l.size).mapM (get source l)

/-- The old elements, which `refilter` reports to listeners. -/
def snapshot (source : List E) (hasListeners : Bool) (l : FilteredList E P) :
    Outcome (Option (List E)) :=
  if hasListeners then do
    let removed ← elements source l
    .ok (some removed)
  else .ok none

section

variable (test : P → H → E → Bool)

def passes (predicate : Option P) (world : H) (e : E) : Bool :=
  match predicate with
  | some p => test p world e
  | none => true

def refilter (source : List E) (world : H) (hasListeners : Bool) (l : FilteredList E P) :
    Outcome (FilteredList E P × Option (SubChange E)) := do
  let filtered ← ensureSize l.filtered l.size source.length
  let removed ← snapshot source hasListeners { l with filtered := filtered }
  let (filtered, size) ← collect (passes test l.predicate world) source 0 filtered 0
  let l := { l with filtered := filtered, size := size }
  .ok (l, if hasListeners then some ⟨0, size, removed, [], false⟩ else none)

/-- `setPredicate(predicate)`: setting the predicate that is set already does nothing. -/
def setPredicate [DecidableEq P] (source : List E) (world : H) (hasListeners : Bool)
    (predicate : Option P) (l : FilteredList E P) :
    Outcome (FilteredList E P × Option (SubChange E)) :=
  if l.predicate = predicate then .ok (l, none)
  else refilter test source world hasListeners { l with predicate := predicate }

/-- The loop of the constructor for a null predicate. -/
def fillAll : Nat → Nat → List Int → Outcome (List Int)
  | 0, _, filtered => .ok filtered
  | count + 1, size, filtered => do
    let filtered ← store filtered size size
    fillAll count (size + 1) filtered

def new [DecidableEq P] (source : List E) (world : H) (predicate : Option P) :
    Outcome (FilteredList E P) := do
  let filtered := List.replicate (source.length * 3 / 2 + 1) 0
  if predicate ≠ none then do
    let (l, _) ← setPredicate test source world false predicate ⟨filtered, 0, none, Builder.new⟩
    .ok l
  else do
    let filtered ← fillAll source.length 0 filtered
    .ok ⟨filtered, source.length, none, Builder.new⟩

/-- The body of the loop in `sourceChanged`. -/
def applySubChange (order : EntryOrder E) (source : List E) (world : H) (l : FilteredList E P)
    (c : SubChange E) : Outcome (FilteredList E P) :=
  if c.wasPermutated then permutate order l c
  else if c.wasUpdated then update (passes test l.predicate world) source l c
  else addRemove (passes test l.predicate world) source l c

/-- `sourceChanged(c)`, with the sub-changes that are fired. -/
def sourceChanged (order : EntryOrder E) (source : List E) (world : H)
    (changes : List (SubChange E)) (l : FilteredList E P) :
    Outcome (FilteredList E P × Option (List (SubChange E))) := do
  let l ← changes.foldlM (applySubChange test order source world)
    { l with builder := l.builder.beginChange }
  let (builder, fired) ← l.builder.endChange
  .ok ({ l with builder := builder }, fired)

end

end OpenJfx.Collections.Filtered
