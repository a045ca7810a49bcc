import OpenJfx.Data.Hierarchy

namespace OpenJfx.Scene.Traversal

open Data.Hierarchy

variable {N : Type}

inductive Direction
  | next
  | nextInLine
  | previous
  deriving DecidableEq

structure ParentTraversalEngine (N : Type) where
  canTraverse : Bool
  isParentTraversable : Bool
  select : N → Direction → Option N
  selectFirst : Option N
  selectLast : Option N

structure SceneGraph (N : Type) where
  nodes : Finset N
  root : N
  isParent : N → Bool
  getChildren : N → List N
  getParent : N → Option N
  isDisabled : N → Bool
  isTreeVisible : N → Bool
  isFocusTraversable : N → Bool
  getTraversalEngine : N → Option (ParentTraversalEngine N)

/-- A walk over the nodes that never comes to its end is `endless`. -/
inductive Failure
  | nullPointer
  | classCast
  | endless
  deriving DecidableEq

abbrev Search := Except Failure

namespace SceneGraph

variable (g : SceneGraph N)

/-- The calls go down the tree, which has not more levels. -/
def levels : Nat := g.nodes.card + 1

def isDisabledOrInvisible (node : N) : Bool := g.isDisabled node || !g.isTreeVisible node

def traversalEngine (node : N) : Option (ParentTraversalEngine N) :=
  if g.isParent node then g.getTraversalEngine node else none

def isTraversable (node : N) : Bool :=
  match g.traversalEngine node with
  | some engine => engine.isParentTraversable
  | none => g.isFocusTraversable node

def selectInside (ofEngine : ParentTraversalEngine N → Option N)
    (ofChildren : List N → Search (Option N)) (node : N) : Search (Option N) :=
  if g.isParent node then
    match g.traversalEngine node with
    | some engine =>
      if engine.canTraverse then .ok (ofEngine engine) else searchChildren
    | none => searchChildren
  else .ok none
where
  searchChildren : Search (Option N) :=
    if 0 < (g.getChildren node).length then ofChildren (g.getChildren node) else .ok none

/-- The loop of `findPreviousFocusableInList` over the nodes, the last one first. -/
def findPreviousInList (ofChildren : List N → Search (Option N)) : List N → Search (Option N)
  | [] => .ok none
  | prevNode :: rest =>
    if g.isDisabledOrInvisible prevNode then findPreviousInList ofChildren rest
    else do
      match ← g.selectInside ParentTraversalEngine.selectLast ofChildren prevNode with
      | some newNode => .ok (some newNode)
      | none =>
        if g.isTraversable prevNode then .ok (some prevNode)
        else findPreviousInList ofChildren rest

def findPreviousFocusableInList : Nat → List N → Int → Search (Option N)
  | 0, _, _ => .error .endless
  | fuel + 1, nodeList, startIndex =>
    g.findPreviousInList (fun list => findPreviousFocusableInList fuel list (list.length - 1))
      (nodeList.take (startIndex + 1).toNat).reverse

/-- The loop of `findNextFocusableInList`. -/
def findNextInList (ofChildren : List N → Search (Option N)) : List N → Search (Option N)
  | [] => .ok none
  | nextNode :: rest =>
    if g.isDisabledOrInvisible nextNode then findNextInList ofChildren rest
    else if g.isTraversable nextNode then .ok (some nextNode)
    else do
      match ← g.selectInside ParentTraversalEngine.selectFirst ofChildren nextNode with
      | some newNode => .ok (some newNode)
      | none => findNextInList ofChildren rest

def findNextFocusableInList : Nat → List N → Nat → Search (Option N)
  | 0, _, _ => .error .endless
  | fuel + 1, nodeList, startIndex =>
    g.findNextInList (fun list => findNextFocusableInList fuel list 0)
      (nodeList.drop startIndex)

def findPeers (node : N) : Option (List N) := (g.getParent node).map g.getChildren

section

variable [DecidableEq N]

def climbPrevious (root : N) : Nat → N → Option N → Search (Option N)
  | 0, _, _ => .error .endless
  | fuel + 1, startNode, newNode =>
    if newNode = none ∧ g.getParent startNode ≠ some root then
      match g.getParent startNode with
      | some parent =>
        let overridden := (g.getTraversalEngine parent).map (·.isParentTraversable)
        if overridden.getD (g.isFocusTraversable parent) then
          climbPrevious root fuel parent (some parent)
        else
          match g.findPeers parent with
          | some peerNodes => do
            let newNode ← g.findPreviousFocusableInList g.levels peerNodes
              (peerNodes.idxOf parent - 1)
            climbPrevious root fuel parent newNode
          | none => climbPrevious root fuel parent none
      -- The null parent becomes the start node, whose parent is asked for next.
      | none => .error .nullPointer
    else .ok newNode

def findPreviousFocusablePeer (node root : N) : Search (Option N) :=
  match g.findPeers node with
  | none =>
    if g.isParent node then
      g.findPreviousFocusableInList g.levels (g.getChildren node)
        ((g.getChildren node).length - 1)
    else .error .classCast
  | some parentNodes => do
    let newNode ← g.findPreviousFocusableInList g.levels parentNodes
      (parentNodes.idxOf node - 1)
    g.climbPrevious root g.levels node newNode

def climbNext (root : N) : Nat → N → Option N → Search (Option N)
  | 0, _, _ => .error .endless
  | fuel + 1, startNode, newNode =>
    if newNode = none ∧ g.getParent startNode ≠ some root then
      match g.getParent startNode with
      | some parent =>
        match g.findPeers parent with
        | some peerNodes => do
          let newNode ← g.findNextFocusableInList g.levels peerNodes
            (peerNodes.idxOf parent + 1)
          climbNext root fuel parent newNode
        | none => climbNext root fuel parent none
      | none => .error .nullPointer
    else .ok newNode

def findNextFocusablePeer (node root : N) (traverseIntoCurrent : Bool) : Search (Option N) := do
  let newNode ←
    if traverseIntoCurrent && g.isParent node then
      g.findNextFocusableInList g.levels (g.getChildren node) 0
    else .ok none
  match newNode with
  | some _ => g.climbNext root g.levels node newNode
  | none =>
    match g.findPeers node with
    | none => .ok none
    | some parentNodes => do
      let newNode ← g.findNextFocusableInList g.levels parentNodes (parentNodes.idxOf node + 1)
      g.climbNext root g.levels node newNode

end

def selectedByEngine (ofEngine : ParentTraversalEngine N → Option N) (p : N) : Option N :=
  match g.getTraversalEngine p with
  | some engine => if engine.canTraverse then ofEngine engine else none
  | none => none

def firstTargetIn (ofParent : N → Search (Option N)) : List N → Search (Option N)
  | [] => .ok none
  | n :: rest =>
    if g.isDisabledOrInvisible n then firstTargetIn ofParent rest
    else if g.isTraversable n then .ok (some n)
    else if g.isParent n then do
      match ← ofParent n with
      | some result => .ok (some result)
      | none => firstTargetIn ofParent rest
    else firstTargetIn ofParent rest

def getFirstTargetNode : Nat → N → Search (Option N)
  | 0, _ => .error .endless
  | fuel + 1, p =>
    if g.isDisabledOrInvisible p then .ok none
    else
      match g.selectedByEngine ParentTraversalEngine.selectFirst p with
      | some selected => .ok (some selected)
      | none => g.firstTargetIn (getFirstTargetNode fuel) (g.getChildren p)

/-- The loop of `getLastTargetNode` over the children, the last one first. -/
def lastTargetIn (ofParent : N → Search (Option N)) : List N → Search (Option N)
  | [] => .ok none
  | n :: rest =>
    if g.isDisabledOrInvisible n then lastTargetIn ofParent rest
    else do
      match ← if g.isParent n then ofParent n else .ok none with
      | some result => .ok (some result)
      | none => if g.isTraversable n then .ok (some n) else lastTargetIn ofParent rest

def getLastTargetNode : Nat → N → Search (Option N)
  | 0, _ => .error .endless
  | fuel + 1, p =>
    if g.isDisabledOrInvisible p then .ok none
    else
      match g.selectedByEngine ParentTraversalEngine.selectLast p with
      | some selected => .ok (some selected)
      | none => g.lastTargetIn (getLastTargetNode fuel) (g.getChildren p).reverse

section

variable [DecidableEq N]

/-- `ContainerTabOrder.select` with the root of the engine. -/
def select (node : N) : Direction → Search (Option N)
  | .next => g.findNextFocusablePeer node g.root true
  | .nextInLine => g.findNextFocusablePeer node g.root false
  | .previous => g.findPreviousFocusablePeer node g.root

def selectFirst : Search (Option N) := g.getFirstTargetNode g.levels g.root

def selectLast : Search (Option N) := g.getLastTargetNode g.levels g.root

/-- The loop of `trav` over the ancestors `p`, which asks the engines that override the
traversal: the node found, and otherwise from where and in which direction to go on. -/
def askEngines (node : N) :
    Nat → Option N → N → Direction → Search (Option N × N × Direction)
  | 0, _, _, _ => .error .endless
  | _ + 1, none, traverseNode, dir => .ok (none, traverseNode, dir)
  | fuel + 1, some p, traverseNode, dir =>
    match (g.getTraversalEngine p).filter (·.canTraverse) with
    | some engine =>
      match engine.select node dir with
      | some newNode => .ok (some newNode, traverseNode, dir)
      | none =>
        askEngines node fuel (g.getParent p) p (if dir = .next then .nextInLine else dir)
    | none => askEngines node fuel (g.getParent p) traverseNode dir

def trav (node : N) (dir : Direction) : Search (Option N) := do
  let (newNode, traverseNode, dir) ←
    g.askEngines node (g.levels + 1) (g.getParent node) node dir
  let newNode ← if newNode = none then g.select traverseNode dir else .ok newNode
  match newNode with
  | some _ => .ok newNode
  | none =>
    match dir with
    | .next | .nextInLine => g.selectFirst
    | .previous => g.selectLast

end

end SceneGraph

end OpenJfx.Scene.Traversal
