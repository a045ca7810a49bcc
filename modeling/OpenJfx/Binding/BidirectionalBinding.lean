import OpenJfx.Binding.Notification
import Mathlib.Data.Sym.Sym2

/-!
`BidirectionalBinding` between objects of the class `IntegerProperty` that have no
other listeners. A property that is set notifies its bindings, and a binding that
is notified sets the property at its other end, unless it is already doing so.

The properties are in use, so the weak references to them are not cleared, and
none of them is bound to an observable value, so `set` does not throw and
`changed` does not get into its `catch` clause.
-/

namespace OpenJfx.Binding.BidirectionalBinding

open Java.Arrays Binding.ListenerArray Binding.ListenerHelper Binding.Notification

/-- A `BidirectionalIntegerBinding` object, or the `UntypedGenericBidirectionalBinding`
that `unbind` looks for. -/
structure BidirectionalIntegerBinding (P : Type) where
  identity : Nat
  property1 : P
  property2 : P

/-- An `IntegerPropertyBase`. It has no invalidation listeners. -/
structure IntegerProperty (P : Type) where
  value : Int32
  valid : Bool
  helper : Helper Empty (BidirectionalIntegerBinding P) Int32

/-- The properties, the flags `updating` of the bindings and the number of binding
objects made so far. -/
structure Store (P : Type) where
  properties : P → IntegerProperty P
  updating : Nat → Bool
  allocated : Nat

inductive CallFailure
  | illegalArgument (message : String)
  | listeners (failure : Failure)

variable {P : Type} [DecidableEq P]

def BidirectionalIntegerBinding.equals (this obj : BidirectionalIntegerBinding P) : Bool :=
  if this.identity = obj.identity then true
  else if this.property1 = obj.property1 ∧ this.property2 = obj.property2 then true
  else if this.property1 = obj.property2 ∧ this.property2 = obj.property1 then true
  else false

namespace Store

def modify (s : Store P) (p : P) (change : IntegerProperty P → IntegerProperty P) : Store P :=
  { s with properties := Function.update s.properties p (change (s.properties p)) }

def setUpdating (s : Store P) (b : BidirectionalIntegerBinding P) (updating : Bool) : Store P :=
  { s with updating := Function.update s.updating b.identity updating }

/-- `new BidirectionalIntegerBinding(property1, property2)`. -/
def newBinding (s : Store P) (property1 property2 : P) : BidirectionalIntegerBinding P × Store P :=
  (⟨s.allocated, property1, property2⟩, { s with allocated := s.allocated + 1 })

def get (s : Store P) (p : P) : Int32 × Store P :=
  ((s.properties p).value, s.modify p fun x => { x with valid := true })

def surroundings (s : Store P) (p : P) :
    Surroundings Empty (BidirectionalIntegerBinding P) Int32 where
  equalsI listener _ := nomatch listener
  equalsC := BidirectionalIntegerBinding.equals
  collectedI listener := nomatch listener
  collectedC _ := false
  value := some (s.properties p).value

/-- The new helper asks for the value, unless a `Generic` helper has just got one more
listener next to those it had. -/
def asksWhenAdded (before after : Helper Empty (BidirectionalIntegerBinding P) Int32) : Bool :=
  match before, after with
  | .generic _, .generic g => g.change.size = 1
  | _, _ => true

def asksWhenRemoved (before after : Helper Empty (BidirectionalIntegerBinding P) Int32) : Bool :=
  match before, after with
  | .generic _, .singleChange _ _ => true
  | _, _ => false

def addListener (s : Store P) (p : P) (listener : BidirectionalIntegerBinding P) :
    Outcome (Store P) := do
  let helper ← (s.properties p).helper.addChangeListener (s.surroundings p) listener
  let asks := asksWhenAdded (s.properties p).helper helper
  .ok (s.modify p fun x => { x with valid := x.valid || asks, helper := helper })

def removeListener (s : Store P) (p : P) (listener : BidirectionalIntegerBinding P) :
    Outcome (Store P) := do
  let helper ← (s.properties p).helper.removeChangeListener (s.surroundings p) listener
  let asks := asksWhenRemoved (s.properties p).helper helper
  .ok (s.modify p fun x => { x with valid := x.valid || asks, helper := helper })

def setCurrentValue (s : Store P) (p : P) (value : Int32) : Store P :=
  s.modify p fun x => { x with
    helper :=
      match x.helper with
      | .singleChange listener _ => .singleChange listener (some value)
      | .generic g => .generic { g with currentValue := some value }
      | helper => helper }

/-- The field of the helper. -/
def currentValue (s : Store P) (p : P) : Option Int32 :=
  match (s.properties p).helper with
  | .singleChange _ currentValue => currentValue
  | .generic g => g.currentValue
  | _ => none

def setLocked (s : Store P) (p : P) (locked : Bool) : Store P :=
  s.modify p fun x => { x with helper := x.helper.setLocked locked }

end Store

section

-- `IntegerProperty.set`, which the bindings call
variable (set : Store P → P → Int32 → Option (Store P))

def BidirectionalIntegerBinding.changed (b : BidirectionalIntegerBinding P) (s : Store P)
    (sourceProperty : P) (newValue : Int32) : Option (Store P) :=
  if s.updating b.identity then some s
  else do
    let s := s.setUpdating b true
    let s ← set s (if b.property1 = sourceProperty then b.property2 else b.property1) newValue
    some (s.setUpdating b false)

def BidirectionalIntegerBinding.notified (b : BidirectionalIntegerBinding P) (s : Store P) (p : P) :
    Option (Store P) :=
  match s.currentValue p with
  | some currentValue => b.changed set s p currentValue
  | none => some s

/-- The loop over the change listeners. An access that fails is reported like an
exception of a listener, and the loop goes on. -/
def notifyChange (changeListeners : Listeners (BidirectionalIntegerBinding P)) (s : Store P)
    (p : P) : Option (Store P) :=
  (List.range changeListeners.size).foldlM (fun s (i : Nat) =>
    match listenerAt (changeListeners.array.getD []) i with
    | .ok listener => listener.notified set s p
    | .error _ => some s) s

def hasChanged (oldValue : Option Int32) (value : Int32) : Bool :=
  HelperClass.expressionHelper.hasChanged (fun value oldValue => oldValue = some value) oldValue
    (some value)

/-- `ExpressionHelper.fireValueChangedEvent` for the helper of a property. There is no
invalidation listener to call. -/
def fireValueChangedEvent (s : Store P) (p : P) : Option (Store P) :=
  match (s.properties p).helper with
  | .null => some s
  | .singleInvalidation listener => nomatch listener
  | .singleChange listener oldValue =>
    let (value, s) := s.get p
    let s := s.setCurrentValue p value
    if hasChanged oldValue value then listener.notified set s p else some s
  | .generic g =>
    let s := s.setLocked p true
    let notified :=
      if 0 < g.change.size then
        let (value, s) := s.get p
        let s := s.setCurrentValue p value
        if hasChanged g.currentValue value then notifyChange set g.change s p else some s
      else some s
    notified.map fun s => s.setLocked p false

def markInvalid (s : Store P) (p : P) : Option (Store P) :=
  if (s.properties p).valid then
    fireValueChangedEvent set (s.modify p fun x => { x with valid := false }) p
  else some s

end

/-- `IntegerPropertyBase.set`, with a bound on the depth of the calls. -/
def set : Nat → Store P → P → Int32 → Option (Store P)
  | 0, _, _, _ => none
  | fuel + 1, s, p, newValue =>
    if (s.properties p).value ≠ newValue then
      markInvalid (set fuel) (s.modify p fun x => { x with value := newValue }) p
    else some s

def checkParameters (property1 property2 : P) : Except CallFailure Unit :=
  if property1 = property2 then .error (.illegalArgument "Cannot bind property to itself")
  else .ok ()

/-- What a call leaves: the properties, and the exception if it throws one. -/
abbrev Result (P : Type) := Store P × Except CallFailure Unit

def onBoth (edit : Store P → P → BidirectionalIntegerBinding P → Outcome (Store P))
    (s : Store P) (binding : BidirectionalIntegerBinding P) : Result P :=
  match edit s binding.property1 binding with
  | .error failure => (s, .error (.listeners failure))
  | .ok s =>
    match edit s binding.property2 binding with
    | .error failure => (s, .error (.listeners failure))
    | .ok s => (s, .ok ())

def bind (fuel : Nat) (s : Store P) (property1 property2 : P) : Option (Result P) :=
  match checkParameters property1 property2 with
  | .error failure => some (s, .error failure)
  | .ok () => do
    let (binding, s) := s.newBinding property1 property2
    let (value, s) := s.get property2
    let s ← set fuel s property1 value
    some (onBoth Store.addListener s binding)

def unbind (s : Store P) (property1 property2 : P) : Result P :=
  match checkParameters property1 property2 with
  | .error failure => (s, .error failure)
  | .ok () =>
    let (binding, s) := s.newBinding property1 property2
    onBoth Store.removeListener s binding

inductive Call (P : Type)
  | bind (property1 property2 : P)
  | unbind (property1 property2 : P)
  | set (property : P) (newValue : Int32)

def Call.run (fuel : Nat) (s : Store P) : Call P → Option (Result P)
  | .bind property1 property2 => BidirectionalBinding.bind fuel s property1 property2
  | .unbind property1 property2 => some (BidirectionalBinding.unbind s property1 property2)
  | .set property newValue => do
    let s ← BidirectionalBinding.set fuel s property newValue
    some (s, .ok ())

/-- The calls one after the other; one that throws does not keep the next from being made. -/
def runCalls (fuel : Nat) (calls : List (Call P)) (s : Store P) : Option (Store P) :=
  calls.foldlM (fun s call => (call.run fuel s).map Prod.fst) s

def Store.initial (values : P → Int32) : Store P where
  properties p := ⟨values p, true, .null⟩
  updating _ := false
  allocated := 0

/-- The exception that a call throws for its arguments. -/
def Call.check : Call P → Except CallFailure Unit
  | .bind property1 property2 => checkParameters property1 property2
  | .unbind property1 property2 => checkParameters property1 property2
  | .set _ _ => .ok ()

/-- The pairs of properties whose bindings are in force after a call, the oldest first.
A call of `unbind` takes one binding back, whichever way round it was made. -/
def Call.inForce (pairs : List (Sym2 P)) : Call P → List (Sym2 P)
  | .bind property1 property2 =>
    if property1 = property2 then pairs else pairs ++ [s(property1, property2)]
  | .unbind property1 property2 =>
    if property1 = property2 then pairs else pairs.erase s(property1, property2)
  | .set _ _ => pairs

def inForce (calls : List (Call P)) : List (Sym2 P) := calls.foldl Call.inForce []

/-- Chains of bindings in force lead from one property to the other. -/
def Connected (pairs : List (Sym2 P)) : P → P → Prop :=
  Relation.EqvGen fun p q => s(p, q) ∈ pairs

def Call.changes : Call P → Option P
  | .bind property1 property2 => if property1 = property2 then none else some property1
  | .unbind _ _ => none
  | .set property _ => some property

end OpenJfx.Binding.BidirectionalBinding
