import OpenJfx.Data.Interleaving
import Mathlib.Algebra.BigOperators.Group.List.Basic
import Mathlib.Algebra.Order.Ring.Int

/-!
A resource pool without a parent and the resources that it manages, between the manager thread,
other threads that request disposals, and the garbage collector. What `cleanup` returns and what
it prints are left out, as are pools that share a parent. The flag of a resource and the weak
references are what the threads share, so a step of the manager thread reads one of them at most.
-/

namespace OpenJfx.Prism

open Data

structure ManagedResource where
  /-- `resource` is not null. -/
  hasResource : Bool
  lockcount : Nat
  employcount : Nat
  permanent : Bool
  mismatchDetected : Bool
  disposalRequested : Bool
  age : Nat
  /-- It has been unreachable and its weak reference is cleared. -/
  collected : Bool
  /-- How often `free` has been called. -/
  frees : Nat

namespace ManagedResource

def isValid (mr : ManagedResource) : Bool := mr.hasResource && !mr.disposalRequested

def isLocked (mr : ManagedResource) : Bool := mr.lockcount > 0

def isInteresting (mr : ManagedResource) : Bool := mr.employcount > 0

def unused : ManagedResource where
  hasResource := false
  lockcount := 0
  employcount := 0
  permanent := false
  mismatchDetected := false
  disposalRequested := false
  age := 0
  collected := false
  frees := 0

def new : ManagedResource := { unused with hasResource := true, lockcount := 1 }

def lock (mr : ManagedResource) : ManagedResource :=
  { mr with lockcount := mr.lockcount + 1, age := 0 }

/-- Without a lock `assertLocked` throws. -/
def unlock (mr : ManagedResource) : ManagedResource := { mr with lockcount := mr.lockcount - 1 }

def unlockall (mr : ManagedResource) : ManagedResource := { mr with lockcount := 0 }

def makePermanent (mr : ManagedResource) : ManagedResource :=
  if mr.isLocked then { mr with permanent := true } else mr

def contentsUseful (mr : ManagedResource) : ManagedResource :=
  if mr.isLocked then { mr with employcount := mr.employcount + 1 } else mr

def contentsNotUseful (mr : ManagedResource) : ManagedResource :=
  { mr with employcount := mr.employcount - 1 }

def setMismatched (mr : ManagedResource) : ManagedResource := { mr with mismatchDetected := true }

def forever : Nat := 1024

def bumpAge (mr : ManagedResource) : ManagedResource :=
  if mr.age < forever then { mr with age := mr.age + 1 } else mr

def free (mr : ManagedResource) : ManagedResource :=
  { mr with frees := mr.frees + 1, hasResource := false }

def request (mr : ManagedResource) : ManagedResource := { mr with disposalRequested := true }

def unrequest (mr : ManagedResource) : ManagedResource := { mr with disposalRequested := false }

def collect (mr : ManagedResource) : ManagedResource := { mr with collected := true }

/-- What `freeDisposalRequestedAndCheckResources` does to a resource that is not gone. -/
def check (forgiveStaleLocks : Bool) (mr : ManagedResource) : ManagedResource :=
  if mr.permanent then mr
  else
    let mr :=
      if mr.isLocked && !mr.mismatchDetected then
        if forgiveStaleLocks then mr.unlockall else mr.setMismatched
      else mr
    mr.bumpAge

end ManagedResource

/-- A node of the `WeakLinkedList`. -/
structure Link where
  resource : Nat
  size : Nat

/-- The exceptions of the accounting, and that of `setTarget`. -/
inductive PoolException where
  | negativeAmount
  | unmanagedResourceFreed
  | illegalTarget
deriving DecidableEq

/-- A call of `cleanup(needed)` in one of its passes: the first only unlinks, six have the stage
testers as predicates, and two are the last chance. -/
structure Cleanup where
  needed : Int
  wanted : Int
  pass : Nat
deriving DecidableEq

inductive Traversal where
  | cleanup (c : Cleanup)
  | check (forgiveStaleLocks : Bool)
deriving DecidableEq

/-- How far the manager thread is with the current node. -/
inductive Visit where
  | start
  /-- It has read the weak reference. -/
  | holding (id : Nat)
  /-- `_isgone` has found that the disposal was not requested. -/
  | unrequested (id : Nat)
deriving DecidableEq

inductive Control where
  | idle
  | freeing (freed : Nat) (index : Nat)
  | traversing (traversal : Traversal) (index : Nat) (visit : Visit)
deriving DecidableEq

/-- A resource that `cleanup` has freed, as it was then. -/
structure Freed where
  id : Nat
  locked : Bool
  permanent : Bool
  disposalRequested : Bool
deriving DecidableEq

structure BaseResourcePool where
  managedSize : Int
  origTarget : Int
  curTarget : Int
  maxSize : Int
  linked : List Link
  resources : Nat → ManagedResource
  created : Nat
  control : Control
  freedByCleanup : List Freed
  thrown : List PoolException

namespace BaseResourcePool

def new (target max : Int) : BaseResourcePool where
  managedSize := 0
  origTarget := target
  curTarget := target
  maxSize := max
  linked := []
  resources _ := .unused
  created := 0
  control := .idle
  freedByCleanup := []
  thrown := []

def modify (p : BaseResourcePool) (id : Nat) (f : ManagedResource → ManagedResource) :
    BaseResourcePool :=
  { p with resources := Function.update p.resources id (f (p.resources id)) }

def goto (p : BaseResourcePool) (control : Control) : BaseResourcePool :=
  { p with control := control }

def throw (p : BaseResourcePool) (e : PoolException) : BaseResourcePool :=
  { p with thrown := p.thrown ++ [e], control := .idle }

def setTarget (p : BaseResourcePool) (newTarget : Int) : BaseResourcePool :=
  if newTarget > p.maxSize ∨ newTarget < p.origTarget then p.throw .illegalTarget
  else { p with curTarget := newTarget, control := .idle }

def create (p : BaseResourcePool) (size : Nat) : BaseResourcePool :=
  { p with
    resources := Function.update p.resources p.created .new
    created := p.created + 1
    linked := ⟨p.created, size⟩ :: p.linked
    managedSize := p.managedSize + size }

/-- `recordFree` of the node's size, and then the node is left out. -/
def unlink (p : BaseResourcePool) (index : Nat) (link : Link) (next : Control) :
    BaseResourcePool :=
  let p := { p with managedSize := p.managedSize - link.size }
  if p.managedSize < 0 then p.throw .negativeAmount
  else { p with linked := p.linked.eraseIdx index, control := next }

/-- The start of `dispose` on the manager thread. -/
def dispose (p : BaseResourcePool) (id : Nat) : BaseResourcePool :=
  if (p.resources id).hasResource then
    (p.modify id fun mr => mr.free.unrequest).goto (.freeing id 0)
  else p

/-- One round of the loop of `resourceFreed`. -/
def resourceFreed (p : BaseResourcePool) (freed index : Nat) : BaseResourcePool :=
  match p.linked[index]? with
  | none => p.throw .unmanagedResourceFreed
  | some link =>
    if (p.resources link.resource).collected then p.unlink index link (.freeing freed index)
    else if link.resource = freed then p.unlink index link .idle
    else p.goto (.freeing freed (index + 1))

def stageTester (pass : Nat) (mr : ManagedResource) : Bool :=
  match pass with
  | 0 => false
  | 1 => !mr.isInteresting && mr.age > 1024
  | 2 => !mr.isInteresting && mr.age > 1024 / 2
  | 3 => !mr.isInteresting && mr.age > 10
  | 4 => mr.age > 1024
  | 5 => mr.age > 1024 / 2
  | 6 => mr.age > 100
  | _ => true

def cleanup (p : BaseResourcePool) (needed : Int) : BaseResourcePool :=
  if p.managedSize + needed ≤ p.curTarget then p
  else
    let wanted := p.curTarget.tdiv 16
    let wanted := if wanted < needed then needed else wanted
    p.goto (.traversing (.cleanup ⟨needed, wanted, 0⟩) 0 .start)

def grow (p : BaseResourcePool) (c : Cleanup) : BaseResourcePool :=
  let rem := p.maxSize - p.managedSize
  let wanted := if c.wanted > rem then c.needed else c.wanted
  if wanted ≤ rem then
    let grow := (p.maxSize - p.origTarget).tdiv 32
    let grow := if grow < wanted then wanted else if grow > rem then rem else grow
    p.setTarget (p.managedSize + grow)
  else p.goto (.traversing (.cleanup { c with wanted := wanted, pass := 7 }) 0 .start)

def afterPass (p : BaseResourcePool) (c : Cleanup) : BaseResourcePool :=
  if c.pass ≤ 6 then
    if p.managedSize + c.wanted ≤ p.curTarget then p.goto .idle
    else if c.pass < 6 then p.goto (.traversing (.cleanup { c with pass := c.pass + 1 }) 0 .start)
    else p.grow c
  else if p.managedSize + c.needed ≤ p.maxSize then
    if p.managedSize + c.needed > p.curTarget then p.setTarget (p.managedSize + c.needed)
    else p.goto .idle
  else if c.pass = 7 then p.goto (.traversing (.cleanup { c with pass := 8 }) 0 .start)
  else p.goto .idle

def freeIn (p : BaseResourcePool) (traversal : Traversal) (id : Nat) : BaseResourcePool :=
  let mr := p.resources id
  let p := p.modify id ManagedResource.free
  match traversal with
  | .cleanup _ =>
    { p with
      freedByCleanup :=
        p.freedByCleanup ++ [⟨id, mr.isLocked, mr.permanent, mr.disposalRequested⟩] }
  | .check _ => p

/-- The rest of a round of the loop, for a resource that is not gone. -/
def keepOrPrune (p : BaseResourcePool) (traversal : Traversal) (index : Nat) (link : Link) :
    BaseResourcePool :=
  let mr := p.resources link.resource
  match traversal with
  | .cleanup c =>
    if !mr.permanent && !mr.isLocked && stageTester c.pass mr then
      (p.freeIn traversal link.resource).unlink index link (.traversing traversal index .start)
    else p.goto (.traversing traversal (index + 1) .start)
  | .check forgiveStaleLocks =>
    (p.modify link.resource (ManagedResource.check forgiveStaleLocks)).goto
      (.traversing traversal (index + 1) .start)

def traverse (p : BaseResourcePool) (traversal : Traversal) (index : Nat) (visit : Visit) :
    BaseResourcePool :=
  let again : Control := .traversing traversal index .start
  match p.linked[index]? with
  | none =>
    match traversal with
    | .cleanup c => p.afterPass c
    | .check _ => p.goto .idle
  | some link =>
    match visit with
    | .start =>
      if (p.resources link.resource).collected then p.unlink index link again
      else p.goto (.traversing traversal index (.holding link.resource))
    | .holding id =>
      if (p.resources id).disposalRequested then
        ((p.freeIn traversal id).modify id ManagedResource.unrequest).unlink index link again
      else p.goto (.traversing traversal index (.unrequested id))
    | .unrequested id =>
      -- this reads the flag again
      if (p.resources id).isValid then p.keepOrPrune traversal index link
      else p.unlink index link again

/-- The resource that the manager thread has a reference to. -/
def held (p : BaseResourcePool) : Option Nat :=
  match p.control with
  | .idle | .traversing _ _ .start => none
  | .freeing id _ | .traversing _ _ (.holding id) | .traversing _ _ (.unrequested id) => some id

inductive Step where
  | create (size : Nat)
  | lock (id : Nat)
  | unlock (id : Nat)
  | makePermanent (id : Nat)
  | contentsUseful (id : Nat)
  | contentsNotUseful (id : Nat)
  | dispose (id : Nat)
  | cleanup (needed : Int)
  | freeDisposalRequestedAndCheckResources (forgiveStaleLocks : Bool)
  /-- The manager thread goes on with its call. -/
  | proceed
  /-- Another thread calls `dispose`. -/
  | request (id : Nat)
  /-- The garbage collector clears a weak reference. -/
  | collect (id : Nat)
deriving DecidableEq

def isReachable (p : BaseResourcePool) (id : Nat) : Bool :=
  decide (id < p.created) && !(p.resources id).collected

/-- A call on the manager thread that changes the fields of a resource. -/
def onResource (p : BaseResourcePool) (id : Nat) (f : ManagedResource → ManagedResource) :
    Option BaseResourcePool :=
  if p.control = .idle ∧ p.isReachable id then some (p.modify id f) else none

def step (p : BaseResourcePool) : Step → Option BaseResourcePool
  | .create size => if p.control = .idle then some (p.create size) else none
  | .lock id => p.onResource id .lock
  | .unlock id => p.onResource id .unlock
  | .makePermanent id => p.onResource id .makePermanent
  | .contentsUseful id => p.onResource id .contentsUseful
  | .contentsNotUseful id => p.onResource id .contentsNotUseful
  | .dispose id => if p.control = .idle ∧ p.isReachable id then some (p.dispose id) else none
  | .cleanup needed => if p.control = .idle then some (p.cleanup needed) else none
  | .freeDisposalRequestedAndCheckResources forgiveStaleLocks =>
    if p.control = .idle then
      some (p.goto (.traversing (.check forgiveStaleLocks) 0 .start))
    else none
  | .proceed =>
    match p.control with
    | .idle => none
    | .freeing freed index => some (p.resourceFreed freed index)
    | .traversing traversal index visit => some (p.traverse traversal index visit)
  | .request id => if p.isReachable id then some (p.modify id .request) else none
  | .collect id =>
    if p.isReachable id ∧ p.held ≠ some id then some (p.modify id .collect) else none

end BaseResourcePool

end OpenJfx.Prism
