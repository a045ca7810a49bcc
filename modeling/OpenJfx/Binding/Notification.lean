import OpenJfx.Binding.ListenerHelper

namespace OpenJfx.Binding.Notification

open Java.Arrays Binding.ListenerArray Binding.ListenerHelper Binding.ListenerStore

variable {I C V L : Type}

inductive HelperClass
  | listListenerHelper
  | expressionHelper

def HelperClass.hasChanged (cls : HelperClass) (equals : V → Option V → Bool)
    (oldValue newValue : Option V) : Bool :=
  match cls, newValue with
  | .listListenerHelper, _ => true
  | .expressionHelper, none => oldValue.isSome
  | .expressionHelper, some value => !equals value oldValue

/-- A `Generic` helper as an object whose arrays are objects too. -/
structure GenericObject (V : Type) where
  invalidation : Slots
  change : Slots
  locked : Bool
  currentValue : Option V

inductive HelperField (I C V : Type)
  | null
  | singleInvalidation (listener : I)
  | singleChange (listener : C) (currentValue : Option V)
  | generic (id : Nat)

/-- A call of `fireValueChangedEvent` on a `Generic` helper that is going on. -/
structure Frame (I C V : Type) where
  invalidation : Cursor
  change : Cursor
  start : Helper I C V

/-- The helper objects and their arrays are shared between the calls that are going on. -/
structure Machine (I C V : Type) where
  invalidationArrays : Arrays I
  changeArrays : Arrays C
  generics : List (GenericObject V)
  helper : HelperField I C V
  env : Surroundings I C V
  frames : List (Frame I C V)

namespace Machine

/-- The `Generic` helper that the observable has now. -/
def current (m : Machine I C V) : Option (GenericObject V) :=
  match m.helper with
  | .generic id => m.generics[id]?
  | _ => none

def valueOf (m : Machine I C V) (g : GenericObject V) : Generic I C V :=
  ⟨g.invalidation.listeners m.invalidationArrays, g.change.listeners m.changeArrays, g.locked,
    g.currentValue⟩

def view (m : Machine I C V) : Helper I C V :=
  match m.helper with
  | .null => .null
  | .singleInvalidation listener => .singleInvalidation listener
  | .singleChange listener value => .singleChange listener value
  | .generic id =>
    match m.generics[id]? with
    | some g => .generic (m.valueOf g)
    | none => .null

/-- The observable gets a new `Generic` helper. -/
def newGeneric (m : Machine I C V) (g : Generic I C V) : Machine I C V :=
  { m with
    invalidationArrays := (place m.invalidationArrays g.invalidation).1
    changeArrays := (place m.changeArrays g.change).1
    generics := m.generics ++
      [⟨(place m.invalidationArrays g.invalidation).2, (place m.changeArrays g.change).2, g.locked,
        g.currentValue⟩]
    helper := .generic m.generics.length }

def setGeneric (m : Machine I C V) (id : Nat) (g : GenericObject V) : Machine I C V :=
  { m with generics := m.generics.set id g }

def modifyGeneric (m : Machine I C V) (id : Nat) (change : GenericObject V → GenericObject V) :
    Machine I C V :=
  { m with generics := m.generics.modify id change }

def putInvalidation (m : Machine I C V) (id : Nat) (g : GenericObject V) (e : Edited I) :
    Machine I C V :=
  { m.setGeneric id { g with invalidation := (put m.invalidationArrays g.invalidation e).2 } with
    invalidationArrays := (put m.invalidationArrays g.invalidation e).1 }

def putChange (m : Machine I C V) (id : Nat) (g : GenericObject V) (e : Edited C) :
    Machine I C V :=
  { m.setGeneric id { g with change := (put m.changeArrays g.change e).2 } with
    changeArrays := (put m.changeArrays g.change e).1 }

def addInvalidationListener (m : Machine I C V) (listener : I) : Outcome (Machine I C V) :=
  match m.helper with
  | .null => .ok { m with helper := .singleInvalidation listener }
  | .singleInvalidation own => .ok (m.newGeneric (.twoInvalidations own listener))
  | .singleChange own _ => .ok (m.newGeneric (.oneOfEach m.env.value listener own))
  | .generic id =>
    match m.generics[id]? with
    | none => .error .nullPointer
    | some g => do
      let e ← addListener g.locked m.env.collectedI (m.valueOf g).invalidation listener
      .ok (m.putInvalidation id g e)

def addChangeListener (m : Machine I C V) (listener : C) : Outcome (Machine I C V) :=
  match m.helper with
  | .null => .ok { m with helper := .singleChange listener m.env.value }
  | .singleInvalidation own => .ok (m.newGeneric (.oneOfEach m.env.value own listener))
  | .singleChange own _ => .ok (m.newGeneric (.twoChanges m.env.value own listener))
  | .generic id =>
    match m.generics[id]? with
    | none => .error .nullPointer
    | some g => do
      let e ← addListener g.locked m.env.collectedC (m.valueOf g).change listener
      .ok (m.putChange id
        { g with currentValue := if e.size = 1 then m.env.value else g.currentValue } e)

def removeInvalidationListener (m : Machine I C V) (listener : I) : Outcome (Machine I C V) :=
  match m.helper with
  | .null => .ok m
  | .singleInvalidation own =>
    if m.env.equalsI listener own then .ok { m with helper := .null } else .ok m
  | .singleChange _ _ => .ok m
  | .generic id =>
    match m.generics[id]? with
    | none => .error .nullPointer
    | some g => do
      match ← removeListener m.env.equalsI g.locked (m.valueOf g).invalidation g.change.size
        listener with
      | .absent => .ok m
      | .onlyOther => do
        let own ← Helper.firstListener (m.valueOf g).change
        .ok { m with helper := .singleChange own m.env.value }
      | .emptied => .ok (m.setGeneric id { g with invalidation := ⟨none, 0⟩ })
      | .single own => .ok { m with helper := .singleInvalidation own }
      | .edited e => .ok (m.putInvalidation id g e)

def removeChangeListener (m : Machine I C V) (listener : C) : Outcome (Machine I C V) :=
  match m.helper with
  | .null => .ok m
  | .singleInvalidation _ => .ok m
  | .singleChange own _ =>
    if m.env.equalsC listener own then .ok { m with helper := .null } else .ok m
  | .generic id =>
    match m.generics[id]? with
    | none => .error .nullPointer
    | some g => do
      match ← removeListener m.env.equalsC g.locked (m.valueOf g).change g.invalidation.size
        listener with
      | .absent => .ok m
      | .onlyOther => do
        let own ← Helper.firstListener (m.valueOf g).invalidation
        .ok { m with helper := .singleInvalidation own }
      | .emptied => .ok (m.setGeneric id { g with change := ⟨none, 0⟩ })
      | .single own => .ok { m with helper := .singleChange own m.env.value }
      | .edited e => .ok (m.putChange id g e)

end Machine

inductive Edit (I C : Type)
  | addInvalidationListener (listener : I)
  | removeInvalidationListener (listener : I)
  | addChangeListener (listener : C)
  | removeChangeListener (listener : C)

def Machine.edit (m : Machine I C V) : Edit I C → Outcome (Machine I C V)
  | .addInvalidationListener listener => m.addInvalidationListener listener
  | .removeInvalidationListener listener => m.removeInvalidationListener listener
  | .addChangeListener listener => m.addChangeListener listener
  | .removeChangeListener listener => m.removeChangeListener listener

/-- What a call of `fireValueChangedEvent` did. A slot in which it found no
listener is reported as `none`. -/
structure Report (I C V : Type) where
  start : Helper I C V
  invalidated : List (Option I)
  oldValue : Option V
  newValue : Option V
  changed : List (Option C)

inductive Event (I C V : Type)
  | edited (before : Machine I C V) (edit : Edit I C)
  | fired (report : Report I C V)

structure State (I C V : Type) extends Machine I C V where
  log : List (Event I C V)

def State.record (st : State I C V) (event : Event I C V) : State I C V :=
  { st with log := st.log ++ [event] }

/-- One of the two loops of `fireValueChangedEvent`. -/
structure Side (I C V L : Type) where
  arrays : Machine I C V → Arrays L
  cursor : Frame I C V → Cursor
  setCursor : Frame I C V → Cursor → Frame I C V

def invalidationSide : Side I C V I :=
  ⟨(·.invalidationArrays), (·.invalidation), fun f c => { f with invalidation := c }⟩

def changeSide : Side I C V C :=
  ⟨(·.changeArrays), (·.change), fun f c => { f with change := c }⟩

def Side.advance (side : Side I C V L) (next : Nat) (f : Frame I C V) : Frame I C V :=
  side.setCursor f { side.cursor f with next := next }

def Side.readSlot (side : Side I C V L) (index : Nat) (st : State I C V) :
    Option L × State I C V :=
  match st.frames with
  | [] => (none, st)
  | f :: fs => (slotAt (side.arrays st.toMachine) (side.cursor f).ref index,
      { st with frames := side.advance (index + 1) f :: fs })

/-- A missing listener is a `NullPointerException`, which goes to the handler of
uncaught exceptions. -/
def callListener (respond : L → State I C V → Outcome (State I C V)) :
    Option L → State I C V → Outcome (State I C V)
  | some listener, st => respond listener st
  | none, st => .ok st

def notifyEach (side : Side I C V L) (respond : Nat → L → State I C V → Outcome (State I C V)) :
    Nat → Nat → State I C V → Outcome (State I C V × List (Option L))
  | 0, _, st => .ok (st, [])
  | count + 1, index, st => do
    let listener := (side.readSlot index st).1
    let st ← callListener (respond index) listener (side.readSlot index st).2
    let (st, told) ← notifyEach side respond count (index + 1) st
    .ok (st, listener :: told)

/-- `fireValueChangedEvent` of a `Generic` helper up to its loops. -/
def enter (id : Nat) (g : GenericObject V) (st : State I C V) : State I C V :=
  { st with
    toMachine := { st.modifyGeneric id fun g => { g with locked := true } with
      frames := ⟨g.invalidation.cursor, g.change.cursor, st.view⟩ :: st.frames } }

/-- Its `finally` block. -/
def leave (id : Nat) (st : State I C V) : State I C V :=
  { st with
    toMachine := { st.modifyGeneric id fun g => { g with locked := false } with
      frames := st.frames.tail } }

/-- The helper takes the new value over and gives the old one. -/
def takeValue (id : Nat) (st : State I C V) : Option V × State I C V :=
  ((st.generics[id]?).bind (·.currentValue),
    { st with
      toMachine := st.modifyGeneric id fun g => { g with currentValue := st.env.value } })

/-- What listeners and the code around them do: the listener at `index` responds to
a call by `respond index`. The surroundings may change at any time. -/
inductive Script (I C V : Type)
  | done
  | edit (edit : Edit I C) (rest : Script I C V)
  | surround (env : Surroundings I C V) (rest : Script I C V)
  | fire (respond : Nat → I ⊕ C → Script I C V) (rest : Script I C V)

section

variable (cls : HelperClass) (equals : V → Option V → Bool)

/-- The change listeners' part of `fireValueChangedEvent`. -/
def notifyChange (respond : Nat → C → State I C V → Outcome (State I C V)) (id curChangeSize : Nat)
    (start : Helper I C V) (st : State I C V) (invalidated : List (Option I)) :
    Outcome (State I C V × Report I C V) :=
  if 0 < curChangeSize then
    let oldValue := (takeValue id st).1
    let newValue := st.env.value
    if cls.hasChanged equals oldValue newValue then do
      let (st, changed) ← notifyEach changeSide respond curChangeSize 0 (takeValue id st).2
      .ok (st, ⟨start, invalidated, oldValue, newValue, changed⟩)
    else .ok ((takeValue id st).2, ⟨start, invalidated, oldValue, newValue, []⟩)
  else .ok (st, ⟨start, invalidated, none, none, []⟩)

def fireGeneric (respond : Nat → I ⊕ C → State I C V → Outcome (State I C V)) (id : Nat)
    (g : GenericObject V) (st : State I C V) : Outcome (State I C V) := do
  let (st', invalidated) ← notifyEach invalidationSide
    (fun index listener => respond index (.inl listener)) g.invalidation.size 0 (enter id g st)
  let (st', report) ← notifyChange cls equals (fun index listener => respond index (.inr listener))
    id g.change.size st.view st' invalidated
  .ok ((leave id st').record (.fired report))

def fireValueChangedEvent (respond : Nat → I ⊕ C → State I C V → Outcome (State I C V))
    (st : State I C V) : Outcome (State I C V) :=
  match st.helper with
  | .null => .ok st
  | .singleInvalidation listener => do
    let st' ← respond 0 (.inl listener) st
    .ok (st'.record (.fired ⟨st.view, [some listener], none, none, []⟩))
  | .singleChange listener oldValue =>
    let newValue := st.env.value
    let st' := { st with helper := .singleChange listener newValue }
    if cls.hasChanged equals oldValue newValue then do
      let st' ← respond 0 (.inr listener) st'
      .ok (st'.record (.fired ⟨st.view, [], oldValue, newValue, [some listener]⟩))
    else .ok (st'.record (.fired ⟨st.view, [], oldValue, newValue, []⟩))
  | .generic id =>
    match st.generics[id]? with
    | none => .error .nullPointer
    | some g => fireGeneric cls equals respond id g st

def run : Script I C V → State I C V → Outcome (State I C V)
  | .done, st => .ok st
  | .edit edit rest, st => do
    let m ← st.toMachine.edit edit
    run rest { toMachine := m, log := st.log ++ [.edited st.toMachine edit] }
  | .surround env rest, st => run rest { st with env := env }
  | .fire respond rest, st => do
    let st ← fireValueChangedEvent cls equals
      (fun index listener => run (respond index listener)) st
    run rest st

end

def State.initial (env : Surroundings I C V) : State I C V :=
  ⟨⟨[], [], [], .null, env, []⟩, []⟩

end OpenJfx.Binding.Notification
