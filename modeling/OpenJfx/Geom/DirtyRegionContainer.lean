import OpenJfx.Java.Arrays
import OpenJfx.Java.Ints
import Mathlib.Data.Rat.Floor

namespace OpenJfx.Geom

structure RectBounds where
  minX : ℚ
  minY : ℚ
  maxX : ℚ
  maxY : ℚ

namespace RectBounds

def isEmpty (b : RectBounds) : Bool := !(b.maxX ≥ b.minX && b.maxY ≥ b.minY)

def makeEmpty : RectBounds := ⟨0, 0, -1, -1⟩

def contains (b : RectBounds) (x y : ℚ) : Bool :=
  !b.isEmpty && (x ≥ b.minX && x ≤ b.maxX && y ≥ b.minY && y ≤ b.maxY)

def unionWith (b other : RectBounds) : RectBounds :=
  if other.isEmpty then b
  else if b.isEmpty then other
  else
    ⟨min b.minX other.minX, min b.minY other.minY, max b.maxX other.maxX, max b.maxY other.maxY⟩

def deriveWithUnion (b other : RectBounds) : RectBounds := b.unionWith other

def deriveWithNewBounds (other : RectBounds) : RectBounds :=
  if other.isEmpty then makeEmpty else other

def intersects (b other : RectBounds) : Bool :=
  if other.isEmpty || b.isEmpty then false
  else
    other.maxX ≥ b.minX && other.maxY ≥ b.minY && other.minX ≤ b.maxX && other.minY ≤ b.maxY

/-- Every point of one rectangle is a point of the other. -/
def Within (b other : RectBounds) : Prop :=
  ∀ x y, b.contains x y = true → other.contains x y = true

theorem Within.refl (b : RectBounds) : b.Within b := fun _ _ h => h

theorem Within.trans {a b c : RectBounds} (hab : a.Within b) (hbc : b.Within c) : a.Within c :=
  fun x y h => hbc x y (hab x y h)

variable {b : RectBounds}

theorem contains_iff {x y : ℚ} :
    b.contains x y = true ↔ (b.minX ≤ x ∧ x ≤ b.maxX) ∧ b.minY ≤ y ∧ y ≤ b.maxY := by
  simp only [contains, isEmpty, Bool.and_eq_true, Bool.not_eq_true', Bool.not_eq_false',
    decide_eq_true_eq]
  constructor
  · rintro ⟨-, ⟨⟨hx, hx'⟩, hy⟩, hy'⟩
    exact ⟨⟨hx, hx'⟩, hy, hy'⟩
  · rintro ⟨⟨hx, hx'⟩, hy, hy'⟩
    exact ⟨⟨hx.trans hx', hy.trans hy'⟩, ⟨⟨hx, hx'⟩, hy⟩, hy'⟩

theorem not_contains_of_isEmpty (h : b.isEmpty = true) (x y : ℚ) :
    ¬b.contains x y = true := by
  simp [contains, h]

theorem within_of_isEmpty (h : b.isEmpty = true) (other : RectBounds) :
    b.Within other :=
  fun x y hxy => absurd hxy (not_contains_of_isEmpty h x y)

theorem within_unionWith_left (b other : RectBounds) : b.Within (b.unionWith other) := by
  rw [unionWith]
  split_ifs with hother hb
  · exact .refl b
  · exact within_of_isEmpty hb other
  · intro x y h
    rw [contains_iff] at h ⊢
    exact ⟨⟨(min_le_left _ _).trans h.1.1, h.1.2.trans (le_max_left _ _)⟩,
      (min_le_left _ _).trans h.2.1, h.2.2.trans (le_max_left _ _)⟩

theorem within_unionWith_right (b other : RectBounds) : other.Within (b.unionWith other) := by
  rw [unionWith]
  split_ifs with hother hb
  · exact within_of_isEmpty hother b
  · exact .refl other
  · intro x y h
    rw [contains_iff] at h ⊢
    exact ⟨⟨(min_le_right _ _).trans h.1.1, h.1.2.trans (le_max_right _ _)⟩,
      (min_le_right _ _).trans h.2.1, h.2.2.trans (le_max_right _ _)⟩

theorem deriveWithNewBounds_of_not_isEmpty {other : RectBounds} (h : other.isEmpty = false) :
    deriveWithNewBounds other = other := by
  simp [deriveWithNewBounds, h]

end RectBounds

end OpenJfx.Geom

/-!
The container of dirty regions and the compression by a heap of pairs of regions. The stored
rectangles are objects of the container's own, so they are modelled by their values. The
iteration of the loops that have no bound of their own is limited by `fuel`.
-/

namespace OpenJfx.Geom

open Java.Arrays Java.Ints

inductive Stop where
  | thrown (failure : Failure)
  | negativeArraySize
  | outOfFuel

abbrev Call := Except Stop

def read {α : Type} (array : List α) (index : Int) : Call α :=
  (load array index).mapError .thrown

def write {α : Type} (array : List α) (index : Int) (value : α) : Call (List α) :=
  (store array index value).mapError .thrown

/-- The area of a union, and the indices of the two regions. -/
structure HeapEntry where
  area : Int
  first : Nat
  second : Nat

structure Heap where
  slots : List Nat
  entries : List HeapEntry
  size : Nat

namespace Heap

def entry (h : Heap) (slot : Int) : Call HeapEntry := do
  let object ← read h.slots slot
  read h.entries object

def smallerChild (h : Heap) (i : Nat) : Call Nat := do
  let child := 2 * i + 1
  let left ← h.entry child
  if child + 1 < h.size then
    let right ← h.entry (child + 1 : Nat)
    return if right.area < left.area then child + 1 else child
  else return child

def siftDown : Nat → Heap → Nat → Call Heap
  | 0, _, _ => .error .outOfFuel
  | fuel + 1, h, i =>
    if i < h.size / 2 then do
      let child ← h.smallerChild i
      let below ← h.entry child
      let entry ← h.entry i
      if below.area ≥ entry.area then return h
      else
        let temp ← read h.slots child
        let upper ← read h.slots i
        let slots ← write h.slots child upper
        let slots ← write slots i temp
        siftDown fuel { h with slots := slots } child
    else return h

def heapify (h : Heap) : Call Heap :=
  (List.range (h.size / 2 + 1)).reverse.foldlM (fun h i => siftDown (h.size + 1) h i) h

end Heap

/-- The conversion of a number to an `int`. -/
def toInt (q : ℚ) : Int := max (-2 ^ 31) (min (2 ^ 31 - 1) (q.num.tdiv q.den))

def unifiedRegionArea (dirtyRegions : List RectBounds) (i₀ i₁ : Nat) : Call Int := do
  let r₀ ← read dirtyRegions i₀
  let r₁ ← read dirtyRegions i₁
  let minX := if r₀.minX < r₁.minX then r₀.minX else r₁.minX
  let minY := if r₀.minY < r₁.minY then r₀.minY else r₁.minY
  let maxX := if r₀.maxX > r₁.maxX then r₀.maxX else r₁.maxX
  let maxY := if r₀.maxY > r₁.maxY then r₀.maxY else r₁.maxY
  return toInt ((maxX - minX) * (maxY - minY))

def resolveMap (map : List Nat) : Nat → Nat → Call Nat
  | 0, _ => .error .outOfFuel
  | fuel + 1, idx => do
    let next ← read map idx
    if next ≠ idx then resolveMap map fuel next else return idx

/-- `1 << idx` is an `int`, and is widened to a `long`. -/
def bit (idx : Nat) : BitVec 32 := (1#32) <<< (idx % 32)

/-- One of the regions of the entry has been merged since its area was computed. -/
def isInvalid (invalidMask : BitVec 64) (e : HeapEntry) : Bool :=
  ((bit e.first ||| bit e.second).signExtend 64 &&& invalidMask).toInt > 0

/-- The loop of `takeMinWithMap`. -/
def refreshMin (dirtyRegions : List RectBounds) (map : List Nat) (invalidMask : BitVec 64) :
    Nat → Heap → Call Heap
  | 0, _ => .error .outOfFuel
  | fuel + 1, h => do
    let temp ← read h.slots 0
    let e ← read h.entries temp
    if isInvalid invalidMask e then
      let i₀ ← resolveMap map (map.length + 1) e.first
      let i₁ ← resolveMap map (map.length + 1) e.second
      let area ← unifiedRegionArea dirtyRegions i₀ i₁
      let entries ← write h.entries temp { e with area := area }
      let h := { h with entries := entries }
      let h ← Heap.siftDown (h.size + 1) h 0
      let top ← read h.slots 0
      if top = temp then return h
      else refreshMin dirtyRegions map invalidMask fuel h
    else return h

def takeMinWithMap (dirtyRegions : List RectBounds) (map : List Nat) (invalidMask : BitVec 64)
    (h : Heap) : Call (HeapEntry × Heap) := do
  let h ← refreshMin dirtyRegions map invalidMask
    ((h.entries.length + 1) * (h.slots.length + 1)) h
  let temp ← read h.slots 0
  let slots ← write h.slots ((h.size : Int) - 1) temp
  let h ← Heap.siftDown (h.size + 1) { h with slots := slots } 0
  let e ← read h.entries temp
  return (e, { h with size := h.size - 1 })

/-- The variables of `heapCompress`. -/
structure Merging where
  dirtyRegions : List RectBounds
  map : List Nat
  heap : Heap
  invalidMask : BitVec 64

/-- One round of its first loop. -/
def mergeMin (m : Merging) : Call Merging := do
  let (min, heap) ← takeMinWithMap m.dirtyRegions m.map m.invalidMask m.heap
  let idx₀ ← resolveMap m.map (m.map.length + 1) min.first
  let idx₁ ← resolveMap m.map (m.map.length + 1) min.second
  if idx₀ ≠ idx₁ then
    let region₀ ← read m.dirtyRegions idx₀
    let region₁ ← read m.dirtyRegions idx₁
    let dirtyRegions ← write m.dirtyRegions idx₀ (region₀.deriveWithUnion region₁)
    let map ← write m.map idx₁ idx₀
    return ⟨dirtyRegions, map, heap,
      m.invalidMask ||| (bit idx₀).signExtend 64 ||| (bit idx₁).signExtend 64⟩
  else return { m with heap := heap }

/-- The variables of the loop that moves the unused regions to the end. -/
structure Compaction where
  dirtyRegions : List RectBounds
  map : List Nat
  emptyIndex : Nat

/-- The loop over the regions at the end that were merged into others. -/
def skipMerged (map : List Nat) : Nat → Call Nat
  | 0 => do
    let _ ← read map (-1)
    return 0
  | last + 1 => do
    let root ← read map last
    if root ≠ last then skipMerged map last else return last + 1

/-- One round of the loop, if it gets there: `emptyIndex` only decreases. -/
def moveUnused (c : Compaction) (i : Nat) : Call Compaction :=
  if i < c.emptyIndex then do
    let root ← read c.map i
    if root ≠ i then
      let emptyIndex ← skipMerged c.map c.emptyIndex
      if i < emptyIndex - 1 then
        let tmp ← read c.dirtyRegions (emptyIndex - 1 : Nat)
        let unused ← read c.dirtyRegions i
        let dirtyRegions ← write c.dirtyRegions (emptyIndex - 1 : Nat) unused
        let dirtyRegions ← write dirtyRegions i tmp
        let map ← write c.map i i
        return ⟨dirtyRegions, map, emptyIndex - 1⟩
      else return { c with emptyIndex := emptyIndex }
    else return c
  else return c

structure DirtyRegionContainer where
  dirtyRegions : List RectBounds
  emptyIndex : Nat
  heap : Option Heap

namespace DirtyRegionContainer

def new (count : Nat) : DirtyRegionContainer :=
  ⟨List.replicate count .makeEmpty, 0, none⟩

def heapCompress (c : DirtyRegionContainer) (heap : Heap) : Call DirtyRegionContainer := do
  let n := c.dirtyRegions.length
  let m ← (List.range (n / 2)).foldlM (fun m _ => mergeMin m)
    ⟨c.dirtyRegions, List.range n, heap, 0#64⟩
  let packed ← (List.range n).foldlM moveUnused ⟨m.dirtyRegions, m.map, c.emptyIndex⟩
  return ⟨packed.dirtyRegions, packed.emptyIndex, some m.heap⟩

/-- The pairs of indices in the order of the loops of `compress_heap`. -/
def pairs (n : Nat) : List (Nat × Nat) :=
  (List.range (n - 1)).flatMap fun i => (List.range' (i + 1) (n - 1 - i)).map fun j => (i, j)

/-- The round of these loops for the pair with number `k`. -/
def fill (dirtyRegions : List RectBounds) (h : Heap) (pair : (Nat × Nat) × Nat) : Call Heap := do
  let area ← unifiedRegionArea dirtyRegions pair.1.1 pair.1.2
  let object ← read h.slots pair.2
  let entries ← write h.entries object ⟨area, pair.1.1, pair.1.2⟩
  return { h with entries := entries }

def newHeap (n : Nat) : Call Heap :=
  let length := (int32 (n * (n - 1))).tdiv 2
  if length < 0 then .error .negativeArraySize
  else return ⟨List.range length.toNat, List.replicate length.toNat ⟨0, 0, 0⟩, 0⟩

def compressHeap (c : DirtyRegionContainer) : Call DirtyRegionContainer := do
  let heap ← (c.heap.map .ok).getD (newHeap c.dirtyRegions.length)
  let heap := { heap with size := heap.slots.length }
  let heap ← (pairs c.dirtyRegions.length).zipIdx.foldlM (fill c.dirtyRegions) heap
  let heap ← heap.heapify
  c.heapCompress heap

structure Adding where
  region : RectBounds
  dirtyRegions : List RectBounds
  emptyIndex : Nat
  tempIndex : Nat

/-- One round of it. -/
def absorb (s : Adding) : Call Adding := do
  let dr ← read s.dirtyRegions s.tempIndex
  if s.region.intersects dr then
    let last ← read s.dirtyRegions ((s.emptyIndex : Int) - 1)
    let dirtyRegions ← write s.dirtyRegions s.tempIndex last
    let dirtyRegions ← write dirtyRegions ((s.emptyIndex : Int) - 1) dr
    return ⟨s.region.unionWith dr, dirtyRegions, s.emptyIndex - 1, s.tempIndex⟩
  else return { s with tempIndex := s.tempIndex + 1 }

/-- `depth` limits the recursion through `compress`. -/
def addDirtyRegion : Nat → DirtyRegionContainer → RectBounds → Call DirtyRegionContainer
  | 0, _, _ => .error .outOfFuel
  | depth + 1, c, region =>
    if region.isEmpty then return c
    else do
      let s ← (List.range c.emptyIndex).foldlM (fun s _ => absorb s)
        ⟨region, c.dirtyRegions, c.emptyIndex, 0⟩
      let c : DirtyRegionContainer :=
        { c with dirtyRegions := s.dirtyRegions, emptyIndex := s.emptyIndex }
      if c.emptyIndex < c.dirtyRegions.length then
        let dirtyRegions ← write c.dirtyRegions c.emptyIndex
          (RectBounds.deriveWithNewBounds s.region)
        return { c with dirtyRegions := dirtyRegions, emptyIndex := c.emptyIndex + 1 }
      else if c.dirtyRegions.length = 1 then
        let only ← read c.dirtyRegions 0
        let dirtyRegions ← write c.dirtyRegions 0 (only.deriveWithUnion s.region)
        return { c with dirtyRegions := dirtyRegions }
      else
        let c ← c.compressHeap
        addDirtyRegion depth c s.region

def merge (depth : Nat) (c : DirtyRegionContainer) (other : List RectBounds) :
    Call DirtyRegionContainer :=
  other.foldlM (addDirtyRegion depth) c

def reset (c : DirtyRegionContainer) : DirtyRegionContainer := { c with emptyIndex := 0 }

def regions (c : DirtyRegionContainer) : List RectBounds := c.dirtyRegions.take c.emptyIndex

end DirtyRegionContainer

end OpenJfx.Geom
