import OpenJfx.Css.BitSet
import OpenJfx.Data.Chain

namespace OpenJfx.Css

open Data

inductive NodeOrientation
  | leftToRight
  | rightToLeft
  | inherit
  deriving DecidableEq

/-- The index that `StyleClassSet.getStyleClass` and `PseudoClassState.getPseudoClass`
have given to a name. -/
structure Registry where
  styleClass : String → Nat
  pseudoClass : String → Nat

/-- What the selectors read of a `Styleable`, apart from its parent. -/
structure Styleable where
  /-- `getNodeOrientation()` and `getEffectiveNodeOrientation()` of a `Node` -/
  orientation : Option (NodeOrientation × NodeOrientation)
  id : Option String
  typeSelector : Option String
  styleClass : List (Option String)
  pseudoClassStates : Option BitSet

structure SimpleSelector where
  name : String
  styleClassSet : BitSet
  id : String
  pseudoClassState : BitSet
  matchOnName : Bool
  matchOnId : Bool
  matchOnStyleClass : Bool
  nodeOrientation : NodeOrientation
  styleClassSet_trimmed : WordSet.Trimmed styleClassSet.bits
  pseudoClassState_trimmed : WordSet.Trimmed pseudoClassState.bits

namespace SimpleSelector

/-- The loops that add the names of a list, but for those that are `null` or empty. -/
def addNames (index : String → Nat) (set : BitSet) (names : List (Option String)) : BitSet :=
  names.foldl (fun set name =>
    match name with
    | none => set
    | some name => if name = "" then set else (set.add index (some name)).1) set

/-- `name.trim().isEmpty()`. -/
def isBlank (name : String) : Bool :=
  name.toList.all (· ≤ ' ')

/-- The same loop over the names of a node. For a blank one `getStyleClass` throws an
`IllegalArgumentException`, which is `none`. -/
def addStyleClasses (index : String → Nat) (set : BitSet) : List (Option String) → Option BitSet
  | [] => some set
  | none :: names => addStyleClasses index set names
  | some name :: names =>
    if name = "" then addStyleClasses index set names
    else if isBlank name then none
    else addStyleClasses index (set.add index (some name)).1 names

/-- `regionMatches` and `equalsIgnoreCase` with a character of `dir(rtl)`. Two letters
outside ASCII have an `i` as their lower case. -/
def equalsIgnoreCase (pattern c : Char) : Bool :=
  c == pattern || c.toLower == pattern ||
    pattern == 'i' && (c == Char.ofNat 0x130 || c == Char.ofNat 0x131)

def startsIgnoreCase : List Char → List Char → Bool
  | [], _ => true
  | _ :: _, [] => false
  | p :: pattern, c :: cs => equalsIgnoreCase p c && startsIgnoreCase pattern cs

def isDir (pclass : String) : Bool :=
  startsIgnoreCase "dir(".toList pclass.toList

def isDirRtl (pclass : String) : Bool :=
  startsIgnoreCase "dir(rtl)".toList pclass.toList && pclass.length == 8

def addPseudoClasses (index : String → Nat) (dir : NodeOrientation) (set : BitSet) :
    List (Option String) → NodeOrientation × BitSet
  | [] => (dir, set)
  | none :: pseudoClasses => addPseudoClasses index dir set pseudoClasses
  | some pclass :: pseudoClasses =>
    if pclass = "" then addPseudoClasses index dir set pseudoClasses
    else if isDir pclass then
      addPseudoClasses index (if isDirRtl pclass then .rightToLeft else .leftToRight) set
        pseudoClasses
    else addPseudoClasses index dir (set.add index (some pclass)).1 pseudoClasses

theorem trimmed_addNames (index : String → Nat) (names : List (Option String)) :
    ∀ {set : BitSet}, WordSet.Trimmed set.bits →
      WordSet.Trimmed (addNames index set names).bits := by
  induction names with
  | nil => exact fun h => h
  | cons name names ih =>
    intro set h
    apply ih
    cases name with
    | none => exact h
    | some name =>
      change WordSet.Trimmed (if name = "" then set else (set.add index (some name)).1).bits
      split_ifs
      · exact h
      · exact BitSet.add_trimmed index h name

theorem trimmed_addPseudoClasses (index : String → Nat) (pseudoClasses : List (Option String)) :
    ∀ (dir : NodeOrientation) {set : BitSet}, WordSet.Trimmed set.bits →
      WordSet.Trimmed (addPseudoClasses index dir set pseudoClasses).2.bits := by
  induction pseudoClasses with
  | nil => exact fun _ _ h => h
  | cons pclass pseudoClasses ih =>
    intro dir set h
    cases pclass with
    | none => exact ih dir h
    | some pclass =>
      rw [addPseudoClasses]
      split_ifs
      · exact ih dir h
      · exact ih _ h
      · exact ih _ h
      · exact ih dir (BitSet.add_trimmed index h pclass)

def new (registry : Registry) (name : Option String)
    (styleClasses pseudoClasses : List (Option String)) (id : Option String) : SimpleSelector :=
  let styleClassSet := addNames registry.styleClass BitSet.new styleClasses
  let pseudo := addPseudoClasses registry.pseudoClass .inherit BitSet.new pseudoClasses
  { name := name.getD "*"
    styleClassSet := styleClassSet
    id := id.getD ""
    pseudoClassState := pseudo.2
    matchOnName := name.isSome && name != some "" && name != some "*"
    matchOnId := id.isSome && id != some ""
    matchOnStyleClass := decide (styleClassSet.size > 0)
    nodeOrientation := pseudo.1
    styleClassSet_trimmed := trimmed_addNames _ _ WordSet.trimmed_nil
    pseudoClassState_trimmed := trimmed_addPseudoClasses _ _ _ WordSet.trimmed_nil }

/-- The functional pseudo-class `:dir()`. -/
def orientationMatches (sel : SimpleSelector) (styleable : Styleable) : Bool :=
  if sel.nodeOrientation = .inherit then true
  else
    match styleable.orientation with
    | none => true
    | some (orientation, effective) =>
      if orientation = .inherit then decide (effective = sel.nodeOrientation)
      else decide (orientation = sel.nodeOrientation)

/-- `none` is an exception. -/
def applies (registry : Registry) (sel : SimpleSelector) (styleable : Styleable) : Option Bool :=
  if !sel.orientationMatches styleable then some false
  else if sel.matchOnId && styleable.id != some sel.id then some false
  else if sel.matchOnName && styleable.typeSelector != some sel.name then some false
  else if sel.matchOnStyleClass then do
    let styleClassSet ← addStyleClasses registry.styleClass BitSet.new styleable.styleClass
    some (styleClassSet.containsAll (some sel.styleClassSet))
  else some true

def appliesCollecting (registry : Registry) (sel : SimpleSelector) (styleable : Styleable)
    (pseudoClasses : Option (List (Option BitSet))) (depth : Nat) :
    Option (Bool × Option (List (Option BitSet))) := do
  let applies ← sel.applies registry styleable
  if applies then
    some (true, pseudoClasses.map fun array =>
      array.modify depth fun set =>
        some ((set.getD BitSet.new).addAll (some sel.pseudoClassState)).1)
  else some (false, pseudoClasses)

def stateMatches (sel : SimpleSelector) (states : Option BitSet) : Bool :=
  match states with
  | none => false
  | some states => states.containsAll (some sel.pseudoClassState)

end SimpleSelector

end OpenJfx.Css

namespace OpenJfx.Css

open Data

inductive Combinator
  | child
  | descendant
  deriving DecidableEq

structure CompoundSelector where
  selectors : List SimpleSelector
  relationships : List Combinator
  /-- there is one combinator less than there are selectors -/
  relationships_length : relationships.length = selectors.length - 1

namespace CompoundSelector

/-- The states collected for each depth; none are collected for `null`. -/
abbrev TriggerStates := Option (List (Option BitSet))

def appliesToAncestor (applies : Styleable → List Styleable → TriggerStates → Nat →
    Option (Bool × TriggerStates)) :
    List Styleable → TriggerStates → Nat → Option (Bool × TriggerStates)
  | [], triggerStates, _ => some (false, triggerStates)
  | parent :: ancestors, triggerStates, depth => do
    let (answer, triggerStates) ← applies parent ancestors triggerStates (depth + 1)
    if answer then some (true, triggerStates)
    else appliesToAncestor applies ancestors triggerStates (depth + 1)

def appliesAbove (applies : Styleable → List Styleable → TriggerStates → Nat →
    Option (Bool × TriggerStates)) (relationship : Option Combinator) (ancestors : List Styleable)
    (triggerStates : TriggerStates) (depth : Nat) : Option (Bool × TriggerStates) :=
  if relationship = some .child then
    match ancestors with
    | [] => some (false, triggerStates)
    | parent :: ancestors => applies parent ancestors triggerStates (depth + 1)
  else appliesToAncestor applies ancestors triggerStates depth

def appliesAt (registry : Registry) (sel : CompoundSelector) :
    Nat → Styleable → List Styleable → TriggerStates → Nat → Option (Bool × TriggerStates)
  | index, styleable, ancestors, triggerStates, depth =>
    match sel.selectors[index]? with
    | none => some (false, triggerStates)
    | some selector => do
      let (applies, triggerStates) ←
        selector.appliesCollecting registry styleable triggerStates depth
      if !applies then some (false, triggerStates)
      else
        match index with
        | 0 => some (true, triggerStates)
        | index + 1 =>
          appliesAbove (appliesAt registry sel index) sel.relationships[index]? ancestors
            triggerStates depth

def applies (registry : Registry) (sel : CompoundSelector) (styleable : Styleable)
    (ancestors : List Styleable) : Option Bool := do
  let (applies, _) ← sel.appliesAt registry (sel.selectors.length - 1) styleable ancestors none 0
  some applies

def stateMatchesAncestor (applies : Styleable → Option Bool)
    (matches' : Styleable → List Styleable → Option Bool) : List Styleable → Option Bool
  | [] => some false
  | parent :: ancestors => do
    let answer ← applies parent
    if answer then matches' parent ancestors
    else stateMatchesAncestor applies matches' ancestors

def stateMatchesAbove (applies : Styleable → Option Bool)
    (matches' : Styleable → List Styleable → Option Bool) (relationship : Option Combinator)
    (ancestors : List Styleable) : Option Bool :=
  if relationship = some .child then
    match ancestors with
    | [] => some false
    | parent :: ancestors => do
      let answer ← applies parent
      if answer then matches' parent ancestors else some false
  else stateMatchesAncestor applies matches' ancestors

def partApplies (registry : Registry) (sel : CompoundSelector) (index : Nat)
    (styleable : Styleable) : Option Bool :=
  match sel.selectors[index]? with
  | none => some false
  | some selector => selector.applies registry styleable

def stateMatchesAt (registry : Registry) (sel : CompoundSelector) :
    Nat → Styleable → List Styleable → Option BitSet → Option Bool
  | index, _, ancestors, states =>
    match sel.selectors[index]? with
    | none => some false
    | some selector =>
      if !selector.stateMatches states then some false
      else
        match index with
        | 0 => some true
        | index + 1 =>
          stateMatchesAbove (sel.partApplies registry index)
            (fun parent ancestors =>
              stateMatchesAt registry sel index parent ancestors parent.pseudoClassStates)
            sel.relationships[index]? ancestors

def stateMatches (registry : Registry) (sel : CompoundSelector) (styleable : Styleable)
    (ancestors : List Styleable) (states : Option BitSet) : Option Bool :=
  sel.stateMatchesAt registry (sel.selectors.length - 1) styleable ancestors states

end CompoundSelector

end OpenJfx.Css
