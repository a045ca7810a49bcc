import OpenJfx.Collections.ListChangeBuilderSafety
import OpenJfx.Collections.SortHelper
import OpenJfx.Data.IndexedView

/-!
`javafx.collections.transformation.SortedList`. A slot of `sorted` refers to an
`Element` or is null; no two of the slots in use refer to the same object, so
that writing the index of an element changes one slot. The elements of the
source may be mutable: a comparator compares them in the present state of the
world.
-/

namespace OpenJfx.Collections.Sorted

open Java.Arrays Java.BinarySearch Collections.ListChange Collections.ListChangeBuilder

variable {E H C : Type}

structure Element (E : Type) where
  e : E
  index : Int

/-- The fields of the list; `size` is the number of slots of `sorted` and `perm` in use. -/
structure SortedList (E C : Type) where
  sorted : List (Option (Element E))
  perm : List Int
  size : Nat
  comparator : Option C
  builder : Builder E

/-- `sorted[i]`, when a field of it is read. -/
def elementAt (sorted : List (Option (Element E))) (i : Int) : Outcome (Element E) := do
  match ← load sorted i with
  | some element => .ok element
  | none => .error .nullPointer

def get (l : SortedList E C) (index : Nat) : Outcome E :=
  if l.size ≤ index then .error .indexOutOfBounds
  else do
    let element ← elementAt l.sorted index
    .ok element.e

def getSourceIndex (l : SortedList E C) (index : Int) : Outcome Int := do
  let element ← elementAt l.sorted index
  .ok element.index

def getViewIndex (l : SortedList E C) (index : Int) : Outcome Int := load l.perm index

/-- The elements of the view, as `new ArrayList(this)` reads them. -/
def elements (l : SortedList E C) : Outcome (List E) :=
  (List.range l.size).mapM (get l)

def storePositions (sorted : List (Option (Element E))) :
    Nat → Int → List Int → Outcome (List Int)
  | 0, _, perm => .ok perm
  | count + 1, i, perm => do
    let element ← elementAt sorted i
    let perm ← store perm element.index i
    storePositions sorted count (i + 1) perm

/-- The loop that moves every element to the index it has in the source. A round moves on
or brings an element to its place, so that there are at most two rounds for each slot. -/
def restoreOrder (size : Nat) :
    Nat → Int → List (Option (Element E)) → List Int → SortHelper.Perms → Bool →
      Outcome (List (Option (Element E)) × List Int × SortHelper.Perms × Bool)
  | 0, _, _, _, _, _ => .error (.illegalState "out of fuel")
  | fuel + 1, idx, sorted, perm, p, changed =>
    if idx < size then do
      let element ← elementAt sorted idx
      let otherIdx := element.index
      if otherIdx = idx then restoreOrder size fuel (idx + 1) sorted perm p changed
      else do
        let perm ← store perm idx idx
        let perm ← store perm otherIdx otherIdx
        let (sorted, p) ← SortHelper.swap sorted idx otherIdx p
        restoreOrder size fuel idx sorted perm p true
    else .ok (sorted, perm, p, changed)

def updatePermutationIndexes (c : SubChange E) :
    Nat → Int → List (Option (Element E)) → List Int →
      Outcome (List (Option (Element E)) × List Int)
  | 0, _, sorted, perm => .ok (sorted, perm)
  | count + 1, i, sorted, perm => do
    let element ← elementAt sorted i
    let p ← c.getPermutation element.index
    let sorted ← store sorted i (some { element with index := p })
    let perm ← store perm p i
    updatePermutationIndexes c count (i + 1) sorted perm

/-- The arrays with room for `size` entries, of which `used` are taken over. -/
def ensureSize (sorted : List (Option (Element E))) (perm : List Int) (used size : Nat) :
    Outcome (List (Option (Element E)) × List Int) :=
  if sorted.length < size then do
    let sorted ← arraycopy sorted 0 (List.replicate (size * 3 / 2 + 1) none) 0 used
    let perm ← arraycopy perm 0 (List.replicate (size * 3 / 2 + 1) 0) 0 used
    .ok (sorted, perm)
  else .ok (sorted, perm)

def moved (fromIdx difference k : Int) : Int := if fromIdx ≤ k then k + difference else k

def updateIndices (fromIdx viewFrom difference : Int) :
    Nat → Int → List (Option (Element E)) → List Int →
      Outcome (List (Option (Element E)) × List Int)
  | 0, _, sorted, perm => .ok (sorted, perm)
  | count + 1, i, sorted, perm => do
    let element ← elementAt sorted i
    let sorted ← store sorted i
      (some { element with index := moved fromIdx difference element.index })
    let k ← load perm i
    let perm ← store perm i (moved viewFrom difference k)
    updateIndices fromIdx viewFrom difference count (i + 1) sorted perm

def fillElements (list : List E) :
    Nat → Int → List (Option (Element E)) → Outcome (List (Option (Element E)))
  | 0, _, sorted => .ok sorted
  | count + 1, i, sorted => do
    let e ← load list i
    let sorted ← store sorted i (some ⟨e, i⟩)
    fillElements list count (i + 1) sorted

def fillIdentity : Nat → Int → List Int → Outcome (List Int)
  | 0, _, perm => .ok perm
  | count + 1, i, perm => do
    let perm ← store perm i i
    fillIdentity count (i + 1) perm

def permuteUnsorted (c : SubChange E) (sorted : List (Option (Element E))) :
    Nat → Int → List (Option (Element E)) → List Int →
      Outcome (List (Option (Element E)) × List Int)
  | 0, _, sortedTmp, perm => .ok (sortedTmp, perm)
  | count + 1, i, sortedTmp, perm =>
    if c.fromIdx ≤ i ∧ i < c.toIdx then do
      let p ← c.getPermutation i
      let element ← elementAt sorted i
      let sortedTmp ← store sortedTmp p (some { element with index := p })
      let perm ← store perm i i
      permuteUnsorted c sorted count (i + 1) sortedTmp perm
    else do
      let slot ← load sorted i
      let sortedTmp ← store sortedTmp i slot
      permuteUnsorted c sorted count (i + 1) sortedTmp perm

/-- The part of `updateUnsorted` about a permutation. -/
def permuted (l : SortedList E C) (c : SubChange E) : Outcome (SortedList E C) :=
  if c.wasPermutated then do
    let (sorted, perm) ← permuteUnsorted c l.sorted l.size 0
      (List.replicate l.sorted.length none) l.perm
    .ok { l with sorted := sorted, perm := perm }
  else .ok l

/-- The part of `updateUnsorted` about removed elements. -/
def removed (l : SortedList E C) (c : SubChange E) : Outcome (SortedList E C) :=
  if c.wasRemoved then do
    let removedTo := c.fromIdx + c.getRemovedSize
    let sorted ← arraycopy l.sorted removedTo l.sorted c.fromIdx (l.size - removedTo)
    let perm ← arraycopy l.perm removedTo l.perm c.fromIdx (l.size - removedTo)
    let size := l.size - c.getRemovedSize
    let (sorted, perm) ←
      updateIndices removedTo removedTo (-c.getRemovedSize) size 0 sorted perm
    .ok { l with sorted := sorted, perm := perm, size := size }
  else .ok l

/-- The part of `updateUnsorted` about added elements. -/
def added (list : List E) (l : SortedList E C) (c : SubChange E) : Outcome (SortedList E C) :=
  if c.wasAdded then do
    let (sorted, perm) ← ensureSize l.sorted l.perm l.size (l.size + c.getAddedSize).toNat
    let (sorted, perm) ←
      updateIndices c.fromIdx c.fromIdx c.getAddedSize l.size 0 sorted perm
    let sorted ← arraycopy sorted c.fromIdx sorted c.toIdx (l.size - c.fromIdx)
    let perm ← arraycopy perm c.fromIdx perm c.toIdx (l.size - c.fromIdx)
    let sorted ← fillElements list (c.toIdx - c.fromIdx).toNat c.fromIdx sorted
    let perm ← fillIdentity (c.toIdx - c.fromIdx).toNat c.fromIdx perm
    .ok { l with sorted := sorted, perm := perm, size := (l.size + c.getAddedSize).toNat }
  else .ok l

def updateUnsorted (list : List E) (l : SortedList E C) (c : SubChange E) :
    Outcome (SortedList E C) := do
  let l ← permuted l c
  let l ← removed l c
  added list l c

def removeFromMapping (l : SortedList E C) (idx : Int) (e : E) : Outcome (SortedList E C) := do
  let pos ← load l.perm idx
  let sorted ← arraycopy l.sorted (pos + 1) l.sorted pos (l.size - pos - 1)
  let perm ← arraycopy l.perm (idx + 1) l.perm idx (l.size - idx - 1)
  let size := l.size - 1
  let sorted ← store sorted size none
  let (sorted, perm) ← updateIndices (idx + 1) pos (-1) size 0 sorted perm
  let builder ← l.builder.nextRemove pos e
  .ok { l with sorted := sorted, perm := perm, size := size, builder := builder }

/-- `sorted[i] = null` for `count` slots, from `i` on. -/
def clearSlots : Nat → Int → List (Option (Element E)) → Outcome (List (Option (Element E)))
  | 0, _, sorted => .ok sorted
  | count + 1, i, sorted => do
    let sorted ← store sorted i none
    clearSlots count (i + 1) sorted

def removeAllFromMapping (l : SortedList E C) : Outcome (SortedList E C) := do
  let removed ← elements l
  let sorted ← clearSlots l.size 0 l.sorted
  let builder ← l.builder.nextRemoveAll 0 removed
  .ok { l with sorted := sorted, size := 0, builder := builder }

/-- The loop of `addRemove` that removes elements. -/
def removeEach (idx : Int) : List E → SortedList E C → Outcome (SortedList E C)
  | [], l => .ok l
  | e :: rest, l => do
    let l ← removeFromMapping l idx e
    removeEach idx rest l

section

variable (compare : E → E → Int)

/-- `ElementComparator.compare`, on the slots. No slot of a range that is sorted is null. -/
def compareSlots : Option (Element E) → Option (Element E) → Int
  | some x, some y => compare x.e y.e
  | none, some _ => -1
  | some _, none => 1
  | none, none => 0

/-- On which side of `e` the element in the slot `i` lies. -/
def probe (sorted : List (Option (Element E))) (e : E) (i : Nat) : Ordering :=
  match sorted[i]? with
  | some (some element) =>
    if compare element.e e < 0 then .lt else if 0 < compare element.e e then .gt else .eq
  | _ => .gt

/-- `findPosition(e)`, with the complement of a negative result taken. -/
def findPosition (sorted : List (Option (Element E))) (size : Nat) (e : E) : Outcome Nat :=
  if sorted.length = 0 then .ok 0
  else if sorted.length < size then .error .indexOutOfBounds
  else
    match binarySearch (probe compare sorted e) size with
    | .found pos => .ok pos
    | .insertAt pos => .ok pos

def insertToMapping (l : SortedList E C) (e : E) (idx : Int) : Outcome (SortedList E C) := do
  let pos ← findPosition compare l.sorted l.size e
  let (sorted, perm) ← ensureSize l.sorted l.perm l.size (l.size + 1)
  let (sorted, perm) ← updateIndices idx pos 1 l.size 0 sorted perm
  let sorted ← arraycopy sorted pos sorted (pos + 1) (l.size - pos)
  let sorted ← store sorted pos (some ⟨e, idx⟩)
  let perm ← arraycopy perm idx perm (idx + 1) (l.size - idx)
  let perm ← store perm idx pos
  let builder ← l.builder.nextAdd pos (pos + 1)
  .ok { l with sorted := sorted, perm := perm, size := l.size + 1, builder := builder }

def setAllToMapping (list : List E) (upTo : Nat) (l : SortedList E C) :
    Outcome (SortedList E C) := do
  let (sorted, perm) ← ensureSize l.sorted l.perm l.size upTo
  let sorted ← fillElements list upTo 0 sorted
  let (sorted, permutation) ← SortHelper.sort (compareSlots compare) sorted 0 upTo
  let perm ← arraycopy permutation 0 perm 0 upTo
  let builder ← l.builder.nextAdd 0 upTo
  .ok { l with sorted := sorted, perm := perm, size := upTo, builder := builder }

/-- The loop of `addRemove` that inserts `count` elements of the source, from `i` on. -/
def insertEach (list : List E) : Nat → Int → SortedList E C → Outcome (SortedList E C)
  | 0, _, l => .ok l
  | count + 1, i, l => do
    let e ← load list i
    let l ← insertToMapping compare l e i
    insertEach list count (i + 1) l

def addRemove (list : List E) (l : SortedList E C) (c : SubChange E) :
    Outcome (SortedList E C) := do
  let l ← if c.fromIdx = 0 ∧ c.getRemovedSize = l.size then removeAllFromMapping l
    else removeEach c.fromIdx c.getRemoved l
  if l.size = 0 then setAllToMapping compare list c.toIdx.toNat l
  else insertEach compare list (c.toIdx - c.fromIdx).toNat c.fromIdx l

def nextUpdates (perm : List Int) : Nat → Int → Builder E → Outcome (Builder E)
  | 0, _, builder => .ok builder
  | count + 1, i, builder => do
    let k ← load perm i
    let builder ← builder.nextUpdate k
    nextUpdates perm count (i + 1) builder

/-- The sort that `update` and `doSortWithPermutationChange` begin with. -/
def sortElements (l : SortedList E C) : Outcome (SortedList E C × List Int) := do
  let (sorted, permutation) ← SortHelper.sort (compareSlots compare) l.sorted 0 l.size
  let perm ← storePositions sorted l.size 0 l.perm
  .ok ({ l with sorted := sorted, perm := perm }, permutation)

def update (order : EntryOrder E) (l : SortedList E C) (c : SubChange E) :
    Outcome (SortedList E C) := do
  let (l, permutation) ← sortElements compare l
  let builder ← l.builder.nextPermutation order l.size 0 l.size permutation
  let builder ← nextUpdates l.perm (c.toIdx - c.fromIdx).toNat c.fromIdx builder
  .ok { l with builder := builder }

/-- A round of the loop in `sourceChanged`, when there is a comparator. -/
def applySubChange (order : EntryOrder E) (list : List E) (l : SortedList E C)
    (c : SubChange E) : Outcome (SortedList E C) :=
  if c.wasPermutated then do
    let (sorted, perm) ← updatePermutationIndexes c l.size 0 l.sorted l.perm
    .ok { l with sorted := sorted, perm := perm }
  else if c.wasUpdated then update compare order l c
  else addRemove compare list l c

end

section

variable (compare : C → H → E → E → Int)

def doSortWithPermutationChange (world : H) (l : SortedList E C) :
    Outcome (SortedList E C × Option (SubChange E)) :=
  match l.comparator with
  | some comparator => do
    let (l, permutation) ← sortElements (compare comparator world) l
    .ok (l, some ⟨0, l.size, some [], permutation, false⟩)
  | none => do
    let (sorted, perm, p, changed) ← restoreOrder l.size (2 * l.size + 1) 0 l.sorted l.perm
      (SortHelper.initPermutation l.size) false
    .ok ({ l with sorted := sorted, perm := perm },
      if changed then some ⟨0, l.size, some [], p.permutation, false⟩ else none)

/-- `setComparator(comparator)`: setting the comparator that is set already does nothing. -/
def setComparator [DecidableEq C] (world : H) (comparator : Option C) (l : SortedList E C) :
    Outcome (SortedList E C × Option (SubChange E)) :=
  if l.comparator = comparator then .ok (l, none)
  else doSortWithPermutationChange compare world { l with comparator := comparator }

def new [DecidableEq C] (source : List E) (world : H) (comparator : Option C) :
    Outcome (SortedList E C) := do
  let length := source.length * 3 / 2 + 1
  let sorted ← fillElements source source.length 0 (List.replicate length none)
  let perm ← fillIdentity source.length 0 (List.replicate length 0)
  let l : SortedList E C := ⟨sorted, perm, source.length, none, Builder.new⟩
  if comparator ≠ none then do
    let (l, _) ← setComparator compare world comparator l
    .ok l
  else .ok l

/-- `sourceChanged(c)`, with the sub-changes that are fired. -/
def sourceChanged (order : EntryOrder E) (source : List E) (world : H)
    (changes : List (SubChange E)) (l : SortedList E C) :
    Outcome (SortedList E C × Option (List (SubChange E))) :=
  match l.comparator with
  | some comparator => do
    let l ← changes.foldlM (applySubChange (compare comparator world) order source)
      { l with builder := l.builder.beginChange }
    let (builder, fired) ← l.builder.endChange
    .ok ({ l with builder := builder }, fired)
  | none => do
    let l ← changes.foldlM (updateUnsorted source) l
    .ok (l, some changes)

end

open Data.IndexedView List

variable {E H C : Type}

def slot (x : E × Nat) : Option (Element E) := some ⟨x.1, x.2⟩

def SlotsFrom (i : Nat) (view : List (E × Nat)) (sorted : List (Option (Element E))) : Prop :=
  ∀ (j : Nat) (x : E × Nat), i ≤ j → view[j]? = some x → sorted[j]? = some (slot x)

/-- The table leads from the index in the source to the place in the view. -/
def LeadsTo (view : List (E × Nat)) (perm : List Int) : Prop :=
  ∀ (j : Nat) (x : E × Nat), view[j]? = some x → perm[x.2]? = some (j : Int)

/-- The view is the source in some order, and `perm` leads into it. -/
structure Shows (source : List E) (view : List (E × Nat)) (l : SortedList E C) : Prop where
  size : l.size = source.length
  length_perm : l.perm.length = l.sorted.length
  slots : SlotsFrom 0 view l.sorted
  perm : view.Perm source.zipIdx
  leadsTo : LeadsTo view l.perm

theorem elementAt_eq {sorted : List (Option (Element E))} {j : Nat} {x : E × Nat}
    (h : sorted[j]? = some (slot x)) : elementAt sorted j = .ok ⟨x.1, x.2⟩ := by
  rw [elementAt, load_eq_ok h]
  rfl

namespace Shows

variable {source : List E} {view : List (E × Nat)} {l : SortedList E C}

theorem length_view (h : Shows source view l) : view.length = source.length := by
  rw [h.perm.length_eq, length_zipIdx]

theorem getElem?_source (h : Shows source view l) {x : E × Nat} (hx : x ∈ view) :
    source[x.2]? = some x.1 :=
  mem_zipIdx_iff_getElem?.mp (h.perm.mem_iff.mp hx)

theorem index_lt (h : Shows source view l) {x : E × Nat} (hx : x ∈ view) :
    x.2 < source.length :=
  (List.getElem?_eq_some_iff.mp (h.getElem?_source hx)).1

theorem exists_entry (h : Shows source view l) {i : Nat} {e : E} (he : source[i]? = some e) :
    ∃ j : Nat, view[j]? = some (e, i) ∧ l.perm[i]? = some (j : Int) := by
  have hmem : (e, i) ∈ view := h.perm.mem_iff.mpr (mem_zipIdx_iff_getElem?.mpr he)
  rcases mem_iff_getElem?.mp hmem with ⟨j, hj⟩
  exact ⟨j, hj, h.leadsTo j _ hj⟩

theorem size_le_perm (h : Shows source view l) : source.length ≤ l.perm.length := by
  rcases Nat.eq_zero_or_pos source.length with hzero | hpos
  · omega
  · rcases h.exists_entry (getElem?_eq_getElem (show source.length - 1 < _ by omega)) with
      ⟨j, -, hj⟩
    have := (List.getElem?_eq_some_iff.mp hj).1
    omega

theorem size_le_sorted (h : Shows source view l) : source.length ≤ l.sorted.length := by
  rw [← h.length_perm]
  exact h.size_le_perm

theorem index_inj (h : Shows source view l) {j k : Nat} {x y : E × Nat} (hx : view[j]? = some x)
    (hy : view[k]? = some y) (hidx : x.2 = y.2) : j = k := by
  have hj := h.leadsTo j x hx
  rw [hidx, h.leadsTo k y hy, Option.some.injEq, Int.natCast_inj] at hj
  exact hj.symm

end Shows

/-- A list whose arrays hold the source in its own order. -/
def inSourceOrder (source : List E) (comparator : Option C) : SortedList E C :=
  ⟨source.zipIdx.map slot, (List.range source.length).map (Nat.cast : Nat → Int), source.length,
    comparator, Builder.new⟩

theorem shows_inSourceOrder (source : List E) (comparator : Option C) :
    Shows source source.zipIdx (inSourceOrder source comparator) := by
  refine ⟨rfl, by simp [inSourceOrder], ?_, .refl _, ?_⟩
  · intro j x _ hx
    change (source.zipIdx.map slot)[j]? = _
    rw [getElem?_map, hx, Option.map_some]
  · intro j x hx
    rw [getElem?_zipIdx, Option.map_eq_some_iff] at hx
    rcases hx with ⟨e, he, rfl⟩
    have hj := (List.getElem?_eq_some_iff.mp he).1
    simp [inSourceOrder, hj]

/-- From the `i`-th entry on, the table has got the place of every entry at the index that `f`
gives to it, and nothing else in it has changed. -/
structure Notes (f : Nat → Nat) (i : Nat) (view : List (E × Nat)) (perm perm' : List Int) :
    Prop where
  length : perm'.length = perm.length
  place : ∀ (j : Nat) (x : E × Nat), i ≤ j → view[j]? = some x → perm'[f x.2]? = some (j : Int)
  other : ∀ k, (∀ (j : Nat) (x : E × Nat), i ≤ j → view[j]? = some x → f x.2 ≠ k) →
    perm'[k]? = perm[k]?

/-- `f` gives different indexes to the entries. -/
def Scatters (f : Nat → Nat) (view : List (E × Nat)) : Prop :=
  ∀ (j k : Nat) (x y : E × Nat), view[j]? = some x → view[k]? = some y → f x.2 = f y.2 → j = k

section

variable {f : Nat → Nat} {view : List (E × Nat)} {perm perm' : List Int} {i : Nat}

theorem Notes.none (h : view.length ≤ i) (perm : List Int) : Notes f i view perm perm := by
  refine ⟨rfl, ?_, fun _ _ => rfl⟩
  intro j x hj hx
  have := (List.getElem?_eq_some_iff.mp hx).1
  omega

theorem Notes.cons (hf : Scatters f view) {x : E × Nat} (hx : view[i]? = some x)
    (hlt : f x.2 < perm.length) (h : Notes f (i + 1) view (perm.set (f x.2) i) perm') :
    Notes f i view perm perm' := by
  refine ⟨by rw [h.length, length_set], ?_, ?_⟩
  · intro j y hj hy
    rcases Nat.eq_or_lt_of_le hj with rfl | hlt'
    · rw [hx, Option.some.injEq] at hy
      subst hy
      rw [h.other, getElem?_set_self hlt]
      intro k z hk hz hsame
      have := hf k i z x hz hx hsame
      omega
    · exact h.place j y hlt' hy
  · intro k hk
    rw [h.other k fun j y hj hy => hk j y (by omega) hy,
      getElem?_set_ne (hk i x (Nat.le_refl i) hx)]

theorem Notes.leadsTo (h : Notes f 0 view perm perm') :
    LeadsTo (view.map (reindex f)) perm' := by
  intro j y hy
  rw [getElem?_map, Option.map_eq_some_iff] at hy
  rcases hy with ⟨x, hx, rfl⟩
  exact h.place j x (Nat.zero_le j) hx

end

end OpenJfx.Collections.Sorted
