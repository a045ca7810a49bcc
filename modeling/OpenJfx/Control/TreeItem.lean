import OpenJfx.Data.Hierarchy

namespace OpenJfx.Control.TreeItem

open Data.Hierarchy

structure Item where
  children : List Nat
  parent : Option Nat
  parentLinkCount : Int
  leaf : Bool
  expanded : Bool
  valid : Bool
  expandedDescendentCountDirty : Bool
  expandedDescendentCount : Nat

namespace Item

def new : Item :=
  { children := []
    parent := none
    parentLinkCount := 0
    leaf := true
    expanded := false
    valid := true
    expandedDescendentCountDirty := true
    expandedDescendentCount := 1 }

def markDirty (i : Item) : Item := { i with expandedDescendentCountDirty := true }

def validate (i : Item) : Item := { i with valid := true }

/-- The body of the loop in `updateChildrenParent`. -/
def updateParent (newParent : Option Nat) (i : Item) : Item :=
  let currentParent := i.parent
  let i := if i.parentLinkCount = 0 then { i with parent := newParent } else i
  if currentParent ≠ none ∧ currentParent = newParent then
    if newParent = none then { i with parentLinkCount := i.parentLinkCount - 1 }
    else { i with parentLinkCount := i.parentLinkCount + 1 }
  else i

end Item

/-- Items are objects that are identified by the order of their creation. -/
structure Heap where
  size : Nat
  item : Nat → Item

namespace Heap

def empty : Heap := ⟨0, fun _ => .new⟩

def update (h : Heap) (x : Nat) (f : Item → Item) : Heap :=
  { h with item := Function.update h.item x (f (h.item x)) }

def children (h : Heap) (x : Nat) : List Nat := (h.item x).children

def expanded (h : Heap) (x : Nat) : Bool := (h.item x).expanded

def create (h : Heap) : Heap :=
  { size := h.size + 1, item := Function.update h.item h.size .new }

/-- The items of the dispatch chain that `buildEventDispatchChain` makes, from the target
upwards. Along the links to the parents there are not more items than the heap has. -/
def dispatchChain (h : Heap) : Nat → Nat → List Nat
  | 0, x => [x]
  | fuel + 1, x =>
    x :: match (h.item x).parent with
      | some p => dispatchChain h fuel p
      | none => []

/-- `fireEvent` with an event that changes the number of expanded items: the `itemListener`
of every item of the chain is called. -/
def fireEvent (h : Heap) (x : Nat) : Heap :=
  (dispatchChain h h.size x).foldl (fun h y => h.update y .markDirty) h

/-- `isExpanded()`; reading a property makes it valid. -/
def isExpanded (h : Heap) (x : Nat) : Heap × Bool :=
  (h.update x .validate, h.expanded x)

/-- `setExpanded(value)`, with `invalidated()` of the property. -/
def setExpanded (h : Heap) (x : Nat) (value : Bool) : Heap :=
  if h.expanded x = value then h
  else
    let wasValid := (h.item x).valid
    let h := h.update x fun i => { i with expanded := value }
    if wasValid then
      let h := h.update x fun i => { i with valid := false }
      if (h.item x).leaf then h
      else
        let (h, _) := h.isExpanded x
        h.fireEvent x
    else h

def updateChildrenParent (h : Heap) (items : List Nat) (newParent : Option Nat) : Heap :=
  items.foldl (fun h x => h.update x (.updateParent newParent)) h

def childrenChanged (h : Heap) (x : Nat) (after added removed : List Nat) : Heap :=
  let h := h.update x fun i => { i with children := after }
  let h := h.update x .markDirty
  let h := h.update x fun i => { i with leaf := after.isEmpty }
  let h := h.updateChildrenParent removed none
  let h := h.updateChildrenParent added (some x)
  h.fireEvent x

section

variable (count : Heap → Nat → Heap × Nat)

/-- The body of the loop over the children. -/
def addChild (s : Heap × Nat) (child : Nat) : Heap × Nat :=
  let (h, expanded) := s.1.isExpanded child
  if expanded then
    let (h, n) := count h child
    (h, s.2 + n)
  else (h, s.2 + 1)

def updateExpandedDescendentCount (h : Heap) (x : Nat) : Heap × Nat :=
  let (h, n) :=
    if (h.item x).leaf then (h, 1)
    else
      let (h, expanded) := h.isExpanded x
      if expanded then (h.children x).foldl (addChild count) (h, 1) else (h, 1)
  (h.update x fun i => { i with expandedDescendentCount := n }, n)

end

/-- `getExpandedDescendentCount(reset)`. The calls go down the tree, which has not more
levels than the heap has items. -/
def getExpandedDescendentCount (reset : Bool) : Nat → Heap → Nat → Heap × Nat
  | 0, h, x => (h, (h.item x).expandedDescendentCount)
  | fuel + 1, h, x =>
    if reset ∨ (h.item x).expandedDescendentCountDirty then
      let (h, n) := updateExpandedDescendentCount (getExpandedDescendentCount reset fuel) h x
      (h.update x fun i => { i with expandedDescendentCountDirty := false }, n)
    else (h, (h.item x).expandedDescendentCount)

end Heap

end OpenJfx.Control.TreeItem
