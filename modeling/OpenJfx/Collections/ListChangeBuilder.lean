import OpenJfx.Java.BinarySearch
import OpenJfx.Collections.ListChange

namespace OpenJfx.Collections.ListChangeBuilder

open Java.Arrays Java.BinarySearch Collections.ListChange

variable {E : Type}

/-- Gathers the edits made between `beginChange` and `endChange`. A list that the source leaves
null until it is first needed is the empty list here; every use treats the two alike. -/
structure Builder (E : Type) where
  changeLock : Nat
  addRemoveChanges : List (SubChange E)
  updateChanges : List (SubChange E)
  permutationChange : Option (SubChange E)

namespace Builder

def new : Builder E := ⟨0, [], [], none⟩

def checkState (b : Builder E) : Outcome Unit :=
  if b.changeLock = 0 then
    .error (.illegalState "beginChange was not called on this builder")
  else .ok ()

end Builder

def side (idx : Int) (changes : List (SubChange E)) (i : Nat) : Ordering :=
  match changes[i]? with
  | some change =>
    if change.toIdx ≤ idx then .lt else if idx < change.fromIdx then .gt else .eq
  | none => .gt

def findSubChange (idx : Int) (changes : List (SubChange E)) : SearchResult :=
  binarySearch (side idx changes) changes.length

def updateAt (changes : List (SubChange E)) (i : Nat)
    (f : SubChange E → Outcome (SubChange E)) : Outcome (List (SubChange E)) :=
  match changes[i]? with
  | some change => do
    let change' ← f change
    pure (changes.set i change')
  | none => .error .indexOutOfBounds

/-- The loop that moves all sub-changes from index `i` on. -/
def shiftFrom (i : Nat) (delta : Int) (changes : List (SubChange E)) : List (SubChange E) :=
  changes.take i ++ (changes.drop i).map (SubChange.shift delta)

def addRemovedLast (removed : E) (change : SubChange E) : Outcome (SubChange E) :=
  match change.removed with
  | some list => .ok { change with removed := some (list ++ [removed]) }
  | none => .error .nullPointer

def addRemovedFirst (removed : E) (change : SubChange E) : Outcome (SubChange E) :=
  match change.removed with
  | some list =>
    .ok { change with fromIdx := change.fromIdx - 1, toIdx := change.toIdx - 1,
                      removed := some (removed :: list) }
  | none => .error .nullPointer

def previousEndsAt (changes : List (SubChange E)) (idx : Nat) (pos : Int) : Bool :=
  decide (0 < idx) && (changes[idx - 1]?).any fun change => decide (change.toIdx = pos)

def nextStartsAt (changes : List (SubChange E)) (idx : Nat) (pos : Int) : Bool :=
  (changes[idx]?).any fun change => decide (change.fromIdx = pos)

def insertUpdate (pos : Int) (updateChanges : List (SubChange E)) : List (SubChange E) :=
  match findSubChange pos updateChanges with
  | .insertAt idx =>
    if previousEndsAt updateChanges idx pos then
      updateChanges.modify (idx - 1) fun change => { change with toIdx := pos + 1 }
    else if nextStartsAt updateChanges idx (pos + 1) then
      updateChanges.modify idx fun change => { change with fromIdx := pos }
    else updateChanges.insertIdx idx ⟨pos, pos + 1, none, [], true⟩
  | .found _ => updateChanges

def insertRemoved (pos : Int) (removed : E) (addRemoveChanges : List (SubChange E)) :
    Outcome (List (SubChange E)) :=
  match findSubChange pos addRemoveChanges with
  | .insertAt idx =>
    if previousEndsAt addRemoveChanges idx pos then do
      let changes ← updateAt addRemoveChanges (idx - 1) (addRemovedLast removed)
      pure (shiftFrom idx (-1) changes)
    else if nextStartsAt addRemoveChanges idx (pos + 1) then do
      let changes ← updateAt addRemoveChanges idx (addRemovedFirst removed)
      pure (shiftFrom (idx + 1) (-1) changes)
    else
      pure (shiftFrom (idx + 1) (-1)
        (addRemoveChanges.insertIdx idx ⟨pos, pos, some [removed], [], false⟩))
  | .found idx => do
    let changes ← updateAt addRemoveChanges idx fun change =>
      .ok { change with toIdx := change.toIdx - 1 }
    -- The loop starts at `idx + 1` also after the sub-change at `idx` was deleted.
    let changes := if emptiedAt changes idx then changes.eraseIdx idx else changes
    pure (shiftFrom (idx + 1) (-1) changes)
where
  emptiedAt (changes : List (SubChange E)) (idx : Nat) : Bool :=
    (changes[idx]?).any fun change =>
      decide (change.fromIdx = change.toIdx) && change.getRemoved.isEmpty

def insertAdd (fromIdx toIdx : Int) (addRemoveChanges : List (SubChange E)) :
    Outcome (List (SubChange E)) :=
  match findSubChange fromIdx addRemoveChanges with
  | .insertAt idx =>
    if previousEndsAt addRemoveChanges idx fromIdx then do
      let changes ← updateAt addRemoveChanges (idx - 1) fun change =>
        .ok { change with toIdx := toIdx }
      pure (shiftFrom idx (toIdx - fromIdx) changes)
    else
      pure (shiftFrom (idx + 1) (toIdx - fromIdx)
        (addRemoveChanges.insertIdx idx ⟨fromIdx, toIdx, some [], [], false⟩))
  | .found idx => do
    let changes ← updateAt addRemoveChanges idx fun change =>
      .ok { change with toIdx := change.toIdx + (toIdx - fromIdx) }
    pure (shiftFrom (idx + 1) (toIdx - fromIdx) changes)

/-- The loop of `compress`, with the sub-change `prev` still open. The source
replaces a merged entry by null; the entries it leaves are listed here. -/
def compressFrom (prev : SubChange E) : List (SubChange E) → Outcome (List (SubChange E))
  | [] => .ok [prev]
  | cur :: rest =>
    if prev.toIdx = cur.fromIdx then
      match prev.removed, cur.removed with
      | none, none => compressFrom { prev with toIdx := cur.toIdx } rest
      | some removed, some list =>
        compressFrom { prev with toIdx := cur.toIdx, removed := some (removed ++ list) } rest
      | none, some list =>
        compressFrom { prev with toIdx := cur.toIdx, removed := some list } rest
      | some _, none => .error .nullPointer
    else do
      let compressed ← compressFrom cur rest
      pure (prev :: compressed)

def compress : List (SubChange E) → Outcome (List (SubChange E))
  | [] => .error .indexOutOfBounds
  | prev :: rest => compressFrom prev rest

def removeFromUpdates (idx : Int) (updateChanges : List (SubChange E)) : List (SubChange E) :=
  match findSubChange idx updateChanges with
  | .insertAt uPos => shiftFrom uPos (-1) updateChanges
  | .found uPos =>
    if (updateChanges[uPos]?).any fun change => decide (change.fromIdx = change.toIdx - 1) then
      shiftFrom uPos (-1) (updateChanges.eraseIdx uPos)
    else
      shiftFrom (uPos + 1) (-1)
        (updateChanges.modify uPos fun change => { change with toIdx := change.toIdx - 1 })

def addToUpdates (fromIdx toIdx : Int) (updateChanges : List (SubChange E)) :
    List (SubChange E) :=
  match findSubChange fromIdx updateChanges with
  | .insertAt uPos => shiftFrom uPos (toIdx - fromIdx) updateChanges
  | .found uPos =>
    match updateChanges[uPos]? with
    | some change =>
      shiftFrom (uPos + 2) (toIdx - fromIdx)
        ((updateChanges.set uPos { change with toIdx := fromIdx }).insertIdx (uPos + 1)
          ⟨toIdx, change.toIdx + toIdx - fromIdx, none, [], true⟩)
    | none => updateChanges

def removeFromAddRemove (idx : Int) (removed : E) (addRemoveChanges : List (SubChange E)) :
    Outcome (List (SubChange E)) :=
  match addRemoveChanges.getLast? with
  | some last =>
    if last.toIdx = idx then
      updateAt addRemoveChanges (addRemoveChanges.length - 1) (addRemovedLast removed)
    else if last.fromIdx = idx + 1 then
      updateAt addRemoveChanges (addRemoveChanges.length - 1) (addRemovedFirst removed)
    else insertRemoved idx removed addRemoveChanges
  | none => insertRemoved idx removed addRemoveChanges

def addToAddRemove (fromIdx toIdx : Int) (addRemoveChanges : List (SubChange E)) :
    Outcome (List (SubChange E)) :=
  match addRemoveChanges.getLast? with
  | some last =>
    if last.toIdx = fromIdx then
      updateAt addRemoveChanges (addRemoveChanges.length - 1) fun change =>
        .ok { change with toIdx := toIdx }
    else if last.fromIdx ≤ fromIdx ∧ fromIdx < last.toIdx then
      updateAt addRemoveChanges (addRemoveChanges.length - 1) fun change =>
        .ok { change with toIdx := change.toIdx + (toIdx - fromIdx) }
    else insertAdd fromIdx toIdx addRemoveChanges
  | none => insertAdd fromIdx toIdx addRemoveChanges

namespace Builder

def nextRemove (b : Builder E) (idx : Int) (removed : E) : Outcome (Builder E) := do
  b.checkState
  let addRemoveChanges ← removeFromAddRemove idx removed b.addRemoveChanges
  pure { b with addRemoveChanges, updateChanges := removeFromUpdates idx b.updateChanges }

def nextRemoveAll (b : Builder E) (idx : Int) (removed : List E) : Outcome (Builder E) := do
  b.checkState
  removed.foldlM (fun b e => b.nextRemove idx e) b

def nextAdd (b : Builder E) (fromIdx toIdx : Int) : Outcome (Builder E) := do
  b.checkState
  let addRemoveChanges ← addToAddRemove fromIdx toIdx b.addRemoveChanges
  pure { b with addRemoveChanges, updateChanges := addToUpdates fromIdx toIdx b.updateChanges }

def nextReplace (b : Builder E) (fromIdx toIdx : Int) (removed : List E) :
    Outcome (Builder E) := do
  let b ← b.nextRemoveAll fromIdx removed
  b.nextAdd fromIdx toIdx

def nextSet (b : Builder E) (idx : Int) (old : E) : Outcome (Builder E) := do
  let b ← b.nextRemove idx old
  b.nextAdd idx (idx + 1)

def nextUpdate (b : Builder E) (idx : Int) : Outcome (Builder E) := do
  b.checkState
  let updateChanges :=
    match b.updateChanges.getLast? with
    | some last =>
      if last.toIdx = idx then
        b.updateChanges.modify (b.updateChanges.length - 1) fun change =>
          { change with toIdx := idx + 1 }
      else insertUpdate idx b.updateChanges
    | none => insertUpdate idx b.updateChanges
  pure { b with updateChanges }

/-- A null list of removed elements is fired as an empty one. -/
def finalizeSubChange (c : SubChange E) : SubChange E := { c with removed := some c.getRemoved }

/-- `commit`: the sub-changes that are fired, if any, and the emptied builder. -/
def commit (b : Builder E) : Outcome (Builder E × Option (List (SubChange E))) :=
  if b.changeLock = 0 ∧
      (b.addRemoveChanges ≠ [] ∨ b.updateChanges ≠ [] ∨ b.permutationChange.isSome) then do
    let totalSize := b.updateChanges.length + b.addRemoveChanges.length +
      (if b.permutationChange.isSome then 1 else 0)
    if totalSize = 1 then
      pure (Builder.new, some ((b.permutationChange.toList ++ b.addRemoveChanges ++
        b.updateChanges).map finalizeSubChange))
    else
      let updates ← if b.updateChanges ≠ [] then compress b.updateChanges else pure []
      let addRemoves ← if b.addRemoveChanges ≠ [] then compress b.addRemoveChanges else pure []
      pure (Builder.new, some ((b.permutationChange.toList ++ addRemoves ++
        updates).map finalizeSubChange))
  else .ok (b, none)

def beginChange (b : Builder E) : Builder E := { b with changeLock := b.changeLock + 1 }

def endChange (b : Builder E) : Outcome (Builder E × Option (List (SubChange E))) :=
  if b.changeLock = 0 then .error (.illegalState "Called endChange before beginChange")
  else commit { b with changeLock := b.changeLock - 1 }

end Builder

end OpenJfx.Collections.ListChangeBuilder

namespace OpenJfx.Collections.ListChangeBuilder

open Java.Arrays Java.BinarySearch Collections.ListChange

variable {E : Type}

structure RangePerm where
  fromIdx : Int
  toIdx : Int
  perm : List Int

/-- `j < from || j >= to ? j : perm[j - from]`. -/
def RangePerm.index (p : RangePerm) (j : Int) : Outcome Int :=
  if j < p.fromIdx ∨ p.toIdx ≤ j then .ok j else load p.perm (j - p.fromIdx)

def fillPermuted (p : RangePerm) (value : Int → Int) : Nat → Int → List Int → Outcome (List Int)
  | 0, _, array => .ok array
  | count + 1, j, array => do
    let k ← p.index j
    let array ← store array k (value j)
    fillPermuted p value count (j + 1) array

structure Reconstruction where
  mapToOriginal : List Int
  removed : List Int
  last : Int
  offset : Int

def Reconstruction.step (p : RangePerm) (r : Reconstruction) (change : SubChange E) :
    Outcome Reconstruction := do
  let array ← fillPermuted p (· + r.offset) (change.fromIdx - r.last).toNat r.last r.mapToOriginal
  let array ← fillPermuted p (fun _ => -1) (change.toIdx - change.fromIdx).toNat change.fromIdx
    array
  let removedSize : Nat := change.getRemoved.length
  .ok
    { mapToOriginal := array
      removed := r.removed ++
        (List.range removedSize).map fun k => change.fromIdx + r.offset + k
      last := change.toIdx
      offset := r.offset + (removedSize - (change.toIdx - change.fromIdx)) }

/-- `while (mapToOriginal[mapPtr] == -1) mapPtr++`, with the element found. -/
def skipAdded (mapToOriginal : List Int) : Nat → Nat → Outcome (Nat × Int)
  | 0, _ => .error .indexOutOfBounds
  | fuel + 1, mapPtr => do
    let original ← load mapToOriginal mapPtr
    if original = -1 then skipAdded mapToOriginal fuel (mapPtr + 1) else .ok (mapPtr, original)

/-- The loop that writes `newPerm`: removed elements stay where they were. -/
def fillNewPerm (mapToOriginal removed : List Int) :
    Nat → Int → Nat → List Int → Outcome (List Int)
  | 0, _, _, newPerm => .ok newPerm
  | count + 1, i, mapPtr, newPerm => do
    if i ∈ removed then do
      let newPerm ← store newPerm i i
      fillNewPerm mapToOriginal removed count (i + 1) mapPtr newPerm
    else do
      let (mapPtr, original) ← skipAdded mapToOriginal (mapToOriginal.length + 1) mapPtr
      let newPerm ← store newPerm original i
      fillNewPerm mapToOriginal removed count (i + 1) (mapPtr + 1) newPerm

def prePermutation (listSize : Nat) (changes : List (SubChange E)) (p : RangePerm) :
    Outcome RangePerm :=
  if changes = [] then .ok p
  else do
    let r ← changes.foldlM (fun r change => Reconstruction.step p r change)
      ⟨List.replicate listSize 0, [], 0, 0⟩
    let array ← fillPermuted p (· + r.offset) (listSize - r.last).toNat r.last r.mapToOriginal
    let length := listSize + r.offset
    if length < 0 then .error (.illegalState "NegativeArraySizeException")
    else do
      let newPerm ← fillNewPerm array r.removed length.toNat 0 0
        (List.replicate length.toNat 0)
      .ok ⟨0, length, newPerm⟩

/-- `permutationChange.perm[i] = prePerm[permutationChange.perm[i] - prePermFrom]`. -/
def composeSame (pre : RangePerm) (perm : List Int) : Outcome (List Int) :=
  perm.mapM fun i => load pre.perm (i - pre.fromIdx)

/-- The entry of the combined permutation for the index `i`. -/
def composeEntry (pre : RangePerm) (change : SubChange E) (i : Int) : Outcome Int :=
  if i < change.fromIdx ∨ change.toIdx ≤ i then load pre.perm (i - pre.fromIdx)
  else do
    let p ← load change.perm (i - change.fromIdx)
    if p < pre.fromIdx ∨ pre.toIdx ≤ p then .ok p else load pre.perm (p - pre.fromIdx)

def composePermutation (permutationChange : Option (SubChange E)) (pre : RangePerm) :
    Outcome (SubChange E) :=
  match permutationChange with
  | none => .ok ⟨pre.fromIdx, pre.toIdx, none, pre.perm, false⟩
  | some change =>
    if pre.fromIdx = change.fromIdx ∧ pre.toIdx = change.toIdx then do
      let perm ← composeSame pre change.perm
      .ok { change with perm := perm }
    else do
      let newTo := max change.toIdx pre.toIdx
      let newFrom := min change.fromIdx pre.fromIdx
      let perm ← (List.range (newTo - newFrom).toNat).mapM fun k =>
        composeEntry pre change (newFrom + k)
      .ok { change with fromIdx := newFrom, toIdx := newTo, perm := perm }

/-- `TreeSet.add`. -/
def addSorted (i : Int) : List Int → List Int
  | [] => [i]
  | k :: rest => if i < k then i :: k :: rest else if i = k then k :: rest
      else k :: addSorted i rest

def permutedIndexes (p : RangePerm) (changes : List (SubChange E)) : Outcome (List Int) := do
  let indexes ← (changes.flatMap fun change =>
    (List.range (change.toIdx - change.fromIdx).toNat).map fun k : Nat =>
      change.fromIdx + (k : Int)).mapM p.index
  .ok (indexes.foldl (fun set i => addSorted i set) [])

def putRemoved (key : Int) (list : List E) (map : List (Int × List E)) : List (Int × List E) :=
  if map.any (·.1 = key) then map.map fun e => if e.1 = key then (key, list) else e
  else map ++ [(key, list)]

def permutedRemoved (p : RangePerm) (changes : List (SubChange E)) :
    Outcome (List (Int × List E)) :=
  changes.foldlM (fun map change =>
    match change.removed with
    | none => .ok map
    | some list => do
      let key ← p.index change.fromIdx
      .ok (putRemoved key list map)) []

def takeRemoved (i : Int) (map : List (Int × List E)) (change : SubChange E) : SubChange E :=
  match map.lookup i with
  | none => change
  | some list => { change with removed := some (change.getRemoved ++ list) }

/-- The loop over `newAdded`, with the sub-change `lastChange` still open. -/
def regroupFrom (lastChange : SubChange E) :
    List Int → List (Int × List E) → List (SubChange E) × List (Int × List E)
  | [], map => ([lastChange], map)
  | i :: rest, map =>
    if lastChange.toIdx = i then
      regroupFrom (takeRemoved i map { lastChange with toIdx := i + 1 }) rest
        (map.filter (·.1 ≠ i))
    else
      let (changes, map) := regroupFrom
        (takeRemoved i map ⟨i, i + 1, none, [], lastChange.updated⟩) rest (map.filter (·.1 ≠ i))
      (lastChange :: changes, map)

def regroup (updated : Bool) (indexes : List Int) (map : List (Int × List E)) :
    List (SubChange E) × List (Int × List E) :=
  match indexes with
  | [] => ([], map)
  | i :: rest =>
    regroupFrom (takeRemoved i map ⟨i, i + 1, none, [], updated⟩) rest (map.filter (·.1 ≠ i))

def insertRemovedList (changes : List (SubChange E)) (entry : Int × List E) :
    Outcome (List (SubChange E)) :=
  match findSubChange entry.1 changes with
  | .found _ => .error .indexOutOfBounds
  | .insertAt idx => .ok (changes.insertIdx idx ⟨entry.1, entry.1, some entry.2, [], false⟩)

/-- The order in which a hash map gives its entries. -/
structure EntryOrder (E : Type) where
  entries : List (Int × List E) → List (Int × List E)
  perm : ∀ map, (entries map).Perm map

def permuteAddRemoves (order : EntryOrder E) (p : RangePerm)
    (changes : List (SubChange E)) : Outcome (List (SubChange E)) := do
  let newAdded ← permutedIndexes p changes
  let newRemoved ← permutedRemoved p changes
  let (changes, newRemoved) := regroup false newAdded newRemoved
  (order.entries newRemoved).foldlM insertRemovedList changes

def permuteUpdates (p : RangePerm) (changes : List (SubChange E)) :
    Outcome (List (SubChange E)) := do
  let newUpdated ← permutedIndexes p changes
  .ok (regroup true newUpdated []).1

/-- `perm` is not the array of the caller that the builder keeps. -/
def Builder.nextPermutation (order : EntryOrder E) (listSize : Nat) (b : Builder E)
    (fromIdx toIdx : Int) (perm : List Int) : Outcome (Builder E) := do
  b.checkState
  let pre ← prePermutation listSize b.addRemoveChanges ⟨fromIdx, toIdx, perm⟩
  let permutationChange ← composePermutation b.permutationChange pre
  let addRemoveChanges ← permuteAddRemoves order ⟨fromIdx, toIdx, perm⟩ b.addRemoveChanges
  let updateChanges ← permuteUpdates ⟨fromIdx, toIdx, perm⟩ b.updateChanges
  .ok
    { b with
      permutationChange := some permutationChange
      addRemoveChanges := addRemoveChanges
      updateChanges := updateChanges }

/-- A permutation with the number of the caller's array that holds it. -/
structure PassedPerm extends RangePerm where
  array : Nat

/-- The builder, and the array of the caller that `permutationChange.perm` is, if it is one. -/
structure Keeper (E : Type) where
  builder : Builder E
  kept : Option Nat

/-- The loop of `composeSame` when `permutationChange.perm` and `prePerm` are one array. -/
def composeInPlace (fromIdx : Int) (array : List Int) : Outcome (List Int) :=
  (List.range array.length).foldlM (fun array (i : Nat) => do
    let p ← load array i
    let composed ← load array (p - fromIdx)
    store array i composed) array

/-- `nextPermutation` with the array that the builder keeps, so that `permutationChange.perm` is
`perm`. When it is composed in place, the sub-changes are permuted by what it holds then. -/
def Keeper.nextPermutationKept (order : EntryOrder E) (b : Builder E) (p pre : RangePerm)
    (inPlace : Bool) : Outcome (Builder E) := do
  let change := b.permutationChange.map fun change => { change with perm := p.perm }
  let permutationChange ←
    if inPlace ∧ b.addRemoveChanges = [] then do
      let perm ← composeInPlace pre.fromIdx p.perm
      .ok ⟨pre.fromIdx, pre.toIdx, none, perm, false⟩
    else composePermutation change pre
  let perm := if inPlace then permutationChange.perm else p.perm
  let addRemoveChanges ← permuteAddRemoves order ⟨p.fromIdx, p.toIdx, perm⟩ b.addRemoveChanges
  let updateChanges ← permuteUpdates ⟨p.fromIdx, p.toIdx, perm⟩ b.updateChanges
  .ok
    { b with
      permutationChange := some permutationChange
      addRemoveChanges := addRemoveChanges
      updateChanges := updateChanges }

/-- Which array is kept after a call. -/
def Keeper.keptAfter (k : Keeper E) (array : Nat) (inPlace : Bool) : Option Nat :=
  if k.builder.permutationChange = none ∧ k.builder.addRemoveChanges = [] then some array
  else if inPlace then k.kept else none

def Keeper.nextPermutation (order : EntryOrder E) (listSize : Nat) (k : Keeper E)
    (p : PassedPerm) : Outcome (Keeper E) := do
  k.builder.checkState
  let pre ← prePermutation listSize k.builder.addRemoveChanges p.toRangePerm
  let inPlace := k.builder.permutationChange.any fun change =>
    pre.fromIdx = change.fromIdx ∧ pre.toIdx = change.toIdx
  let b ←
    if k.kept = some p.array then nextPermutationKept order k.builder p.toRangePerm pre inPlace
    else k.builder.nextPermutation order listSize p.fromIdx p.toIdx p.perm
  .ok ⟨b, k.keptAfter p.array inPlace⟩

end OpenJfx.Collections.ListChangeBuilder
