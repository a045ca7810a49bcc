import Mathlib.Data.List.Basic

namespace OpenJfx.Data.Postfix

variable {α υ β : Type}

inductive Tree (α υ β : Type) where
  | atom (a : α)
  | unary (u : υ) (t : Tree α υ β)
  | binary (b : β) (l r : Tree α υ β)
  deriving DecidableEq

inductive Item (α υ β : Type) where
  | atom (a : α)
  | unary (u : υ)
  | binary (b : β)
  deriving DecidableEq

namespace Tree

def postorder : Tree α υ β → List (Item α υ β)
  | .atom a => [.atom a]
  | .unary u t => t.postorder ++ [.unary u]
  | .binary b l r => l.postorder ++ (r.postorder ++ [.binary b])

end Tree

/-- An atom is pushed, an operator takes its operands from the stack. -/
def Item.apply : Item α υ β → List (Tree α υ β) → Option (List (Tree α υ β))
  | .atom a, stack => some (.atom a :: stack)
  | .unary u, t :: stack => some (.unary u t :: stack)
  | .binary b, r :: l :: stack => some (.binary b l r :: stack)
  | _, _ => none

def build (items : List (Item α υ β)) (stack : List (Tree α υ β)) :
    Option (List (Tree α υ β)) :=
  items.foldlM (fun stack item => item.apply stack) stack

theorem build_append (items items' : List (Item α υ β)) (stack : List (Tree α υ β)) :
    build (items ++ items') stack = (build items stack).bind (build items') :=
  List.foldlM_append

theorem build_postorder (t : Tree α υ β) :
    ∀ stack, build t.postorder stack = some (t :: stack) := by
  induction t with
  | atom a => exact fun stack => rfl
  | unary u t ih =>
    intro stack
    rw [Tree.postorder, build_append, ih]
    rfl
  | binary b l r ihl ihr =>
    intro stack
    rw [Tree.postorder, build_append, ihl, Option.bind_some, build_append, ihr]
    rfl

def ofStack (stack : List (Tree α υ β)) : List (Item α υ β) :=
  stack.reverse.flatMap Tree.postorder

theorem ofStack_cons (t : Tree α υ β) (stack : List (Tree α υ β)) :
    ofStack (t :: stack) = ofStack stack ++ t.postorder := by
  simp [ofStack]

theorem ofStack_apply {item : Item α υ β} {stack stack' : List (Tree α υ β)}
    (h : item.apply stack = some stack') : ofStack stack' = ofStack stack ++ [item] := by
  unfold Item.apply at h
  split at h
  · cases h
    rw [ofStack_cons, Tree.postorder]
  · cases h
    rw [ofStack_cons, ofStack_cons, Tree.postorder, List.append_assoc]
  · cases h
    rw [ofStack_cons, ofStack_cons, ofStack_cons, Tree.postorder]
    simp only [List.append_assoc]
  · exact nomatch h

theorem ofStack_build (items : List (Item α υ β)) :
    ∀ {stack stack' : List (Tree α υ β)}, build items stack = some stack' →
      ofStack stack' = ofStack stack ++ items := by
  induction items with
  | nil =>
    intro stack stack' h
    cases h
    rw [List.append_nil]
  | cons item items ih =>
    intro stack stack' h
    rcases Option.bind_eq_some_iff.mp h with ⟨next, hitem, hrest⟩
    rw [ih hrest, ofStack_apply hitem, List.append_assoc, List.singleton_append]

theorem build_eq_iff {items : List (Item α υ β)} {t : Tree α υ β} :
    build items [] = some [t] ↔ items = t.postorder := by
  constructor
  · intro h
    have hitems := ofStack_build items h
    simpa [ofStack] using hitems.symm
  · intro h
    rw [h]
    exact build_postorder t []

end OpenJfx.Data.Postfix
