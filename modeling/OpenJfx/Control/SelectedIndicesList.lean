import OpenJfx.Java.BitSet
import OpenJfx.Collections.ListChangeBuilder
import Mathlib.Data.List.Sort

/-!
The list of selected indices: the bits of a bit set in increasing order, with what it reports to
its listeners. The element that `get` has found last is left out: `indexOf` forgets it before
additions are reported.
-/

namespace OpenJfx.Control

open Java.Arrays Java.BitSets Collections.ListChange Collections.ListChangeBuilder

structure Change where
  list : List Nat
  subChanges : List (SubChange Nat)

structure SelectedIndicesList where
  bitset : BitSet
  atomicityCount : Nat
  fired : List Change

namespace SelectedIndicesList

def new : SelectedIndicesList := ⟨.new, 0, []⟩

def elements (s : SelectedIndicesList) : List Nat := s.bitset.bits

def isAtomic (s : SelectedIndicesList) : Bool := decide (0 < s.atomicityCount)

def startAtomic (s : SelectedIndicesList) : SelectedIndicesList :=
  { s with atomicityCount := s.atomicityCount + 1 }

def stopAtomic (s : SelectedIndicesList) : SelectedIndicesList :=
  { s with atomicityCount := s.atomicityCount - 1 }

def isSelected (s : SelectedIndicesList) (index : Nat) : Bool := s.bitset.get index

def size (s : SelectedIndicesList) : Nat := s.bitset.cardinality

def bitsetSize (s : SelectedIndicesList) : Nat := s.bitset.size

def isEmpty (s : SelectedIndicesList) : Bool := s.size == 0

def indexOf (s : SelectedIndicesList) (index : Nat) : Int :=
  if index ∈ s.elements then s.elements.idxOf index else -1

def IsValidIndex (itemCount : Nat) (index : Int) : Prop := 0 ≤ index ∧ index < itemCount

instance (itemCount : Nat) (index : Int) : Decidable (IsValidIndex itemCount index) :=
  inferInstanceAs (Decidable (_ ∧ _))

def callObservers (s : SelectedIndicesList) (subChanges : List (SubChange Nat)) :
    SelectedIndicesList :=
  { s with fired := s.fired ++ [⟨s.elements, subChanges⟩] }

/-- `_beginChange`, the given calls and `_endChange`. -/
def report (s : SelectedIndicesList) (calls : Builder Nat → Outcome (Builder Nat)) :
    Outcome SelectedIndicesList :=
  if s.isAtomic then return s
  else do
    let b ← calls Builder.new.beginChange
    let (_, fired) ← b.endChange
    return match fired with
      | some subChanges => s.callObservers subChanges
      | none => s

def set (itemCount : Nat) (s : SelectedIndicesList) (index : Int) :
    Outcome SelectedIndicesList :=
  if IsValidIndex itemCount index ∧ s.isSelected index.toNat = false then
    let s := { s with bitset := s.bitset.set index.toNat }
    let indicesIndex := s.indexOf index.toNat
    s.report fun b => b.nextAdd indicesIndex (indicesIndex + 1)
  else return s

def clearAll (s : SelectedIndicesList) : Outcome SelectedIndicesList :=
  let removed := s.elements
  { s with bitset := s.bitset.clearAll }.report fun b => b.nextRemoveAll 0 removed

def clear (s : SelectedIndicesList) (index : Nat) : Outcome SelectedIndicesList :=
  if s.isSelected index then
    { s with bitset := s.bitset.clear index }.report fun b => b.nextRemove index index
  else return s

def setTo (itemCount : Nat) (s : SelectedIndicesList) (index : Nat) (isSet : Bool) :
    Outcome SelectedIndicesList :=
  if isSet then s.set itemCount index else s.clear index

/-- `set(int index, int end, true)`. -/
def setRange (s : SelectedIndicesList) (index span : Nat) : Outcome SelectedIndicesList :=
  let s := { s with bitset := s.bitset.setRange index span }
  let indicesIndex := s.indexOf index
  s.report fun b => b.nextAdd indicesIndex (indicesIndex + span)

/-- The loop of `set(int index, int... indices)` over the new indices behind the first `pos`. -/
def reportRuns (size : Nat) : List Nat → Nat → Int → Int → Nat → Builder Nat →
    Outcome (Builder Nat)
  | [], _, _, _, _, b => return b
  | endValue :: rest, pos, start, endIndex, previousEndValue, b =>
    if previousEndValue + 1 ≠ endValue then do
      let b ← b.nextAdd start (endIndex + 1)
      reportRuns size rest (pos + 1) (endIndex + 1) (endIndex + 1) endValue b
    else if pos + 1 = size then do
      -- the range does not begin at `start` any more when a gap has been met before
      let b ← b.nextAdd start (start + (pos + 1))
      reportRuns size rest (pos + 1) start (endIndex + 1) endValue b
    else reportRuns size rest (pos + 1) start (endIndex + 1) endValue b

def sortedNewIndices (itemCount : Nat) (s : SelectedIndicesList) (indices : List Int) : List Nat :=
  (((indices.dedup.filter (IsValidIndex itemCount ·)).map Int.toNat).filter
    (s.isSelected · = false)).insertionSort (· ≤ ·)

def setAll (itemCount : Nat) (s : SelectedIndicesList) (index : Int) (indices : List Int) :
    Outcome SelectedIndicesList :=
  if indices = [] then s.set itemCount index
  else do
    let newIndices := s.sortedNewIndices itemCount (index :: indices)
    let s ← newIndices.foldlM (fun s i => s.set itemCount i) s.startAtomic
    let s := s.stopAtomic
    match newIndices with
    | [] => return s
    | [_index] => s.report fun b => b.nextAdd _index (_index + 1)
    | startValue :: rest =>
      let start := s.indexOf startValue
      s.report fun b => reportRuns newIndices.length rest 1 start (start + 1) startValue b

end SelectedIndicesList

end OpenJfx.Control
