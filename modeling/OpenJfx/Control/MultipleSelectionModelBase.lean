import OpenJfx.Control.SelectedIndicesList

/-!
`MultipleSelectionModelBase` over the items of a control. Two items are the same object exactly
when they are equal, and a null item is `none`.
-/

namespace OpenJfx.Control

open Java.Arrays Java.BitSets Collections.ListChange Collections.ListChangeBuilder

inductive SelectionMode where
  | single
  | multiple
deriving DecidableEq

structure MultipleSelectionModelBase (T : Type) where
  selectedIndices : SelectedIndicesList
  selectedIndex : Int
  selectedItem : Option T
  focusedIndex : Int
  selectionMode : SelectionMode

namespace MultipleSelectionModelBase

variable {T : Type}

def new (selectionMode : SelectionMode) : MultipleSelectionModelBase T :=
  ⟨.new, -1, none, -1, selectionMode⟩

def selected (m : MultipleSelectionModelBase T) : List Nat := m.selectedIndices.elements

def getModelItem (items : List (Option T)) (index : Int) : Option T :=
  if 0 ≤ index then items[index.toNat]?.join else none

def setSelectedIndex (items : List (Option T)) (m : MultipleSelectionModelBase T) (index : Int) :
    MultipleSelectionModelBase T :=
  if m.selectedIndex = index then m
  else { m with selectedIndex := index, selectedItem := getModelItem items index }

def focus (items : List (Option T)) (m : MultipleSelectionModelBase T) (index : Int) :
    MultipleSelectionModelBase T :=
  { m with focusedIndex := if 0 ≤ index ∧ index < items.length then index else -1 }

def onIndices (m : MultipleSelectionModelBase T)
    (call : SelectedIndicesList → Outcome SelectedIndicesList) :
    Outcome (MultipleSelectionModelBase T) := do
  let selectedIndices ← call m.selectedIndices
  return { m with selectedIndices }

def startAtomic (m : MultipleSelectionModelBase T) : MultipleSelectionModelBase T :=
  { m with selectedIndices := m.selectedIndices.startAtomic }

def stopAtomic (m : MultipleSelectionModelBase T) : MultipleSelectionModelBase T :=
  { m with selectedIndices := m.selectedIndices.stopAtomic }

def callObservers (m : MultipleSelectionModelBase T) (subChanges : List (SubChange Nat)) :
    MultipleSelectionModelBase T :=
  { m with selectedIndices := m.selectedIndices.callObservers subChanges }

def quietClearSelection (m : MultipleSelectionModelBase T) :
    Outcome (MultipleSelectionModelBase T) :=
  m.onIndices SelectedIndicesList.clearAll

section

variable [DecidableEq T] (items : List (Option T))

def isSelected (m : MultipleSelectionModelBase T) (index : Nat) : Bool :=
  if index < m.selectedIndices.bitsetSize then m.selectedIndices.isSelected index else false

def clearSelection (m : MultipleSelectionModelBase T) : Outcome (MultipleSelectionModelBase T) := do
  let m ← m.quietClearSelection
  if m.selectedIndices.isAtomic then return m
  else return (m.setSelectedIndex items (-1)).focus items (-1)

def clearSelectionAt (m : MultipleSelectionModelBase T) (index : Int) :
    Outcome (MultipleSelectionModelBase T) :=
  if index < 0 then return m
  else do
    let wasEmpty := m.selectedIndices.isEmpty
    let m ← m.onIndices (·.clear index.toNat)
    if !wasEmpty && m.selectedIndices.isEmpty then m.clearSelection items else return m

def selectRow (m : MultipleSelectionModelBase T) (row : Int) :
    Outcome (MultipleSelectionModelBase T) :=
  if m.selectedIndices.isSelected row.toNat then return m
  else if m.selectionMode = .single then do
    let m ← m.startAtomic.quietClearSelection
    m.stopAtomic.onIndices (·.set items.length row)
  else m.onIndices (·.set items.length row)

def select (m : MultipleSelectionModelBase T) (row : Int) :
    Outcome (MultipleSelectionModelBase T) :=
  if row = -1 then m.clearSelection items
  else if row < 0 ∨ row ≥ items.length then return m
  else do
    let isSameRow := row = m.selectedIndex
    let newItem := getModelItem items row
    let isSameItem := newItem ≠ none ∧ newItem = m.selectedItem
    let fireUpdatedItemEvent := isSameRow ∧ ¬isSameItem
    let m ← (m.focus items row).selectRow items row
    let m := m.setSelectedIndex items row
    return if fireUpdatedItemEvent then { m with selectedItem := newItem } else m

def selectItem (m : MultipleSelectionModelBase T) (obj : Option T) :
    Outcome (MultipleSelectionModelBase T) :=
  if obj = none ∧ m.selectionMode = .single then m.clearSelection items
  else
    let found := if obj = none then none else items.findIdx? (· = obj)
    match found with
    | some i =>
      if m.isSelected i then return m
      else do
        let m ← if m.selectionMode = .single then m.quietClearSelection else pure m
        m.select items i
    | none => return { m.setSelectedIndex items (-1) with selectedItem := obj }

def clearAndSelectChange (removed : List Nat) (retainedRow : Int) : List (SubChange Nat) :=
  let midIndex := if retainedRow ≥ removed.length then removed.length else retainedRow.toNat
  ⟨0, 0, some (removed.take midIndex), [], false⟩ ::
    if removed.drop midIndex = [] then [] else [⟨1, 1, some (removed.drop midIndex), [], false⟩]

def clearAndSelect (m : MultipleSelectionModelBase T) (row : Int) :
    Outcome (MultipleSelectionModelBase T) :=
  if row < 0 ∨ row ≥ items.length then m.clearSelection items
  else
    let wasSelected := m.isSelected row.toNat
    if wasSelected = true ∧ m.selectedIndices.size = 1 ∧
        m.selectedItem = getModelItem items row then return m
    else do
      let previousSelectedIndices := m.selected.filter (· ≠ row.toNat)
      let m ← m.startAtomic.clearSelection items
      let m ← m.select items row
      let m := m.stopAtomic
      if wasSelected then
        return m.callObservers (clearAndSelectChange previousSelectedIndices row)
      else
        let changeIndex := max 0 (m.selectedIndices.indexOf row.toNat)
        return m.callObservers
          [⟨changeIndex, changeIndex + 1, some previousSelectedIndices, [], false⟩]

def lastValid (indices : List Int) : Option Int :=
  (indices.filter (SelectedIndicesList.IsValidIndex items.length ·)).getLast?

def setAndSelect (m : MultipleSelectionModelBase T) (index : Int) :
    Outcome (MultipleSelectionModelBase T) := do
  let m ← m.onIndices (·.set items.length index)
  m.select items index

def selectEndMost (m : MultipleSelectionModelBase T) (rows : List Int) :
    Outcome (MultipleSelectionModelBase T) :=
  match lastValid items rows with
  | some index => m.setAndSelect items index
  | none => return m

def selectIndices (m : MultipleSelectionModelBase T) (row : Int) (rows : List Int) :
    Outcome (MultipleSelectionModelBase T) :=
  if rows = [] then m.select items row
  else
    match m.selectionMode with
    | .single => do
      let m ← m.quietClearSelection
      let m ← m.selectEndMost items rows
      if m.selectedIndices.isEmpty = true ∧ row > 0 ∧ row < items.length then
        m.setAndSelect items row
      else return m
    | .multiple => do
      let m ← m.onIndices (·.setAll items.length row rows)
      return match lastValid items (row :: rows) with
        | some lastIndex =>
          { (m.setSelectedIndex items lastIndex).focus items lastIndex with
            selectedItem := getModelItem items lastIndex }
        | none => m

def selectAll (m : MultipleSelectionModelBase T) : Outcome (MultipleSelectionModelBase T) :=
  if m.selectionMode = .single ∨ items.length = 0 then return m
  else do
    let rowCount := items.length
    let focusedIndex := m.focusedIndex
    let m ← m.clearSelection items
    let m ← m.onIndices (·.setRange 0 rowCount)
    let index := if focusedIndex = -1 then (rowCount : Int) - 1 else focusedIndex
    return (m.setSelectedIndex items index).focus items index

end

/-- The variables of `doShift`. -/
structure Shifting where
  selectedIndices : SelectedIndicesList
  perm : List Int
  idx : Nat

/-- A bit is moved, and `entry` is noted if it was set. -/
def Shifting.move (itemCount : Nat) (s : Shifting) (clearIndex setIndex : Nat) (entry : Int) :
    Outcome Shifting := do
  let selected := s.selectedIndices.isSelected clearIndex
  let selectedIndices ← s.selectedIndices.clear clearIndex
  let selectedIndices ← selectedIndices.setTo itemCount setIndex selected
  if selected then do
    let perm ← store s.perm s.idx entry
    return ⟨selectedIndices, perm, s.idx + 1⟩
  else return { s with selectedIndices }

/-- `doShift` without a callback. -/
def doShift (itemCount : Nat) (state : SelectedIndicesList × List Int) (shiftPair : Int × Int) :
    Outcome (SelectedIndicesList × List Int) :=
  let (selectedIndices, perm) := state
  if shiftPair.1 < 0 ∨ shiftPair.2 = 0 then return state
  else do
    let position := shiftPair.1.toNat
    let idx := perm.countP (-1 < ·)
    let selectedIndicesSize := selectedIndices.bitsetSize - idx
    let range := List.range' position (selectedIndicesSize - position)
    if 0 < shiftPair.2 then do
      let shift := shiftPair.2.toNat
      let s ← range.reverse.foldlM
        (fun (s : Shifting) i => s.move itemCount i (i + shift) (i + 1))
        ⟨selectedIndices, perm, idx⟩
      let selectedIndices ← s.selectedIndices.clear position
      return (selectedIndices, s.perm)
    else do
      let shift := (-shiftPair.2).toNat
      let s ← range.foldlM
        (fun (s : Shifting) i =>
          if i < shift ∨ i + 1 < position + shift then pure s
          else s.move itemCount (i + 1) (i + 1 - shift) i)
        ⟨selectedIndices, perm, idx⟩
      return (s.selectedIndices, s.perm)

def additions (list : List Nat) : Nat → List Nat → List (SubChange Nat)
  | fuel + 1, added :: rest =>
    let start := list.idxOf added
    let run := ((rest.zip (list.drop start)).takeWhile fun pair => pair.1 = pair.2).length
    if run < rest.length then
      ⟨start, start + 1 + run, some [], [], false⟩ :: additions list fuel (rest.drop run)
    else ⟨start, start + 1, some [], [], false⟩ :: additions list fuel rest
  | _, _ => []

def additionAndRemovedChange (added removed list : List Nat) : List (SubChange Nat) :=
  additions list added.length added ++
    if removed = [] then [] else [⟨0, 0, some removed, [], false⟩]

section

variable [DecidableEq T] (items : List (Option T))

/-- The shifts are applied from the highest position to the lowest one. -/
def sortedShifts (shifts : List (Int × Int)) : List (Int × Int) :=
  shifts.insertionSort fun s₁ s₂ => s₂.1 ≤ s₁.1

def newSelectionLead (selectedIndex : Int) (shifts : List (Int × Int)) : Int :=
  max 0 (selectedIndex + ((shifts.filter (·.1 ≤ selectedIndex)).map Prod.snd).sum)

def shiftLead (m : MultipleSelectionModelBase T) (shifts : List (Int × Int))
    (lowestShiftPosition : Int) (hasSelectionChanged : Bool) :
    Outcome (MultipleSelectionModelBase T) :=
  if m.selectedIndex ≥ lowestShiftPosition ∧ m.selectedIndex > -1 then
    let lead := newSelectionLead m.selectedIndex shifts
    let m := m.setSelectedIndex items lead
    if hasSelectionChanged then m.onIndices (·.set items.length lead) else m.select items lead
  else return m

def shiftSelection (m : MultipleSelectionModelBase T) (shifts : List (Int × Int)) :
    Outcome (MultipleSelectionModelBase T) :=
  if m.selectedIndices.size = 0 then return m
  else do
    let perm : List Int := List.replicate m.selectedIndices.bitsetSize (-1)
    let shifts := sortedShifts shifts
    let (lowestShiftPosition, _) ← load shifts ((shifts.length : Int) - 1)
    let selectedIndicesCopy := m.selected
    let selectedIndices :=
      { m.selectedIndices with bitset := m.selectedIndices.bitset.trimToSize }
    let (selectedIndices, perm) ←
      shifts.foldlM (doShift items.length) (selectedIndices.startAtomic, perm)
    let m := { m with selectedIndices := selectedIndices.stopAtomic }
    let hasSelectionChanged := decide (0 < perm.countP (-1 < ·))
    let m ← m.shiftLead items shifts lowestShiftPosition hasSelectionChanged
    if hasSelectionChanged then
      let removed := selectedIndicesCopy.filter (· ∉ m.selected)
      let added := m.selected.filter (· ∉ selectedIndicesCopy)
      let selectedIndices :=
        { m.selectedIndices with bitset := m.selectedIndices.bitset.trimToSize }
      return { m with selectedIndices }.callObservers
        (additionAndRemovedChange added removed m.selected)
    else return m

end

end MultipleSelectionModelBase

end OpenJfx.Control

namespace OpenJfx.Control

open Java.Arrays Java.BitSets Collections.ListChange

structure ListViewBitSetSelectionModel (T : Type) where
  base : MultipleSelectionModelBase T
  previousModelSize : Nat

namespace ListViewBitSetSelectionModel

open MultipleSelectionModelBase

variable {T : Type} [DecidableEq T] (items : List (Option T))

/-- The loop of `itemsContentObserver`; the flag is `doSelectionUpdate`. -/
def observe (state : MultipleSelectionModelBase T × Bool) (c : SubChange (Option T)) :
    Outcome (MultipleSelectionModelBase T × Bool) :=
  let (m, doSelectionUpdate) := state
  let selectedItem := m.selectedItem
  let selectedIndex := m.selectedIndex
  if items = [] then do
    let m ← m.clearSelection items
    return (m, doSelectionUpdate)
  else if selectedIndex = -1 ∧ selectedItem ≠ none then
    match items.findIdx? (· = selectedItem) with
    | some newIndex => return (m.setSelectedIndex items newIndex, false)
    | none => return state
  else if c.wasRemoved ∧ c.getRemovedSize = 1 ∧ c.wasAdded = false ∧ selectedItem ≠ none ∧
      c.getRemoved.head? = some selectedItem then
    if selectedIndex < items.length then
      let previousRow := if selectedIndex = 0 then 0 else selectedIndex - 1
      let newSelectedItem := getModelItem items previousRow
      if selectedItem ≠ newSelectedItem then do
        let m ← m.startAtomic.clearSelectionAt items selectedIndex
        let m ← m.stopAtomic.selectItem items newSelectedItem
        return (m, doSelectionUpdate)
      else return state
    else return state
  else return state

def updateReplaced (m : MultipleSelectionModelBase T) (previousModelSize : Nat)
    (c : SubChange (Option T)) : Outcome (MultipleSelectionModelBase T) :=
  if items = [] then m.clearSelection items
  else
    let index := m.selectedIndex
    if previousModelSize = c.getRemovedSize then m.clearSelection items
    else if index < items.length ∧ index ≥ 0 then do
      let m ← m.startAtomic.clearSelectionAt items index
      m.stopAtomic.select items index
    else m.clearSelection items

def updatePermutated (m : MultipleSelectionModelBase T) (c : SubChange (Option T)) :
    Outcome (MultipleSelectionModelBase T) := do
  let selectedIndices := m.selected
  let m ← m.clearSelection items
  let newIndices ← (selectedIndices.filter fun (i : Nat) => c.fromIdx ≤ i ∧ i < c.toIdx).mapM
    fun (i : Nat) => c.getPermutation i
  match newIndices with
  | [] => return m
  | [index] => m.select items index
  | index :: rest => m.selectIndices items index rest

def updateSubChange (previousModelSize : Nat)
    (state : MultipleSelectionModelBase T × List (Int × Int)) (c : SubChange (Option T)) :
    Outcome (MultipleSelectionModelBase T × List (Int × Int)) :=
  let (m, shifts) := state
  if c.wasAdded && c.wasRemoved then do
    let m ← updateReplaced items m previousModelSize c
    return (m, shifts)
  else if c.wasAdded || c.wasRemoved then
    let shift := if c.wasAdded then c.getAddedSize else -(c.getRemovedSize : Int)
    return (m, shifts ++ [(c.fromIdx, shift)])
  else if c.wasPermutated then do
    let m ← updatePermutated items m c
    return (m, shifts)
  else return state

def updateSelection (m : ListViewBitSetSelectionModel T) (changes : List (SubChange (Option T))) :
    Outcome (ListViewBitSetSelectionModel T) := do
  let (base, shifts) ← changes.foldlM (updateSubChange items m.previousModelSize) (m.base, [])
  let base ← if shifts = [] then pure base else base.shiftSelection items shifts
  return ⟨base, items.length⟩

/-- `onChanged` of `itemsContentObserver`, once the list holds `items`. -/
def onChanged (m : ListViewBitSetSelectionModel T) (changes : List (SubChange (Option T))) :
    Outcome (ListViewBitSetSelectionModel T) := do
  let (base, doSelectionUpdate) ← changes.foldlM (observe items) (m.base, true)
  let m : ListViewBitSetSelectionModel T := { m with base }
  if doSelectionUpdate then updateSelection items m changes else return m

end ListViewBitSetSelectionModel

end OpenJfx.Control
