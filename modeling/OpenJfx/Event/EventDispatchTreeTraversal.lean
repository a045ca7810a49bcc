import OpenJfx.Event.EventDispatchTree

/-!
`EventDispatchTreeImpl.dispatchEvent` with dispatchers that forward the event:
the order in which they are called. The tail of the tree is restored when the
call returns but not in between two siblings, so that a leaf takes it away from
the siblings after it.
-/

namespace OpenJfx.Event.EventDispatchTreeTraversal

open Java.Arrays Data Event.EventDispatchTreeImpl Event.EventDispatchTreeImpl.TreeImpl Forest
open Event.EventDispatchTreeSlots Event.EventDispatchTreeTail Event.EventDispatchTree List

variable {D Ev : Type}

/-- The calls made for a level `f` with the tail `t`. -/
def visits (t : List D) : Forest D → List D
  | .nil => []
  | .node d .nil b => d :: t ++ visits [] b
  | .node d (.node d' c' b') b => d :: visits t (.node d' c' b') ++ visits t b

/-- The calls made for a tree with the root level `f` and the tail `t`. -/
def visitsFrom (t : List D) : Forest D → List D
  | .nil => t
  | .node d c b => visits t (.node d c b)

/-- The tail that is left after the subtrees `c` have been traversed. -/
def tailAfter (t : List D) : Forest D → List D
  | .nil => []
  | .node _ _ _ => t

theorem visits_node (t : List D) (d : D) (c b : Forest D) :
    visits t (.node d c b) = d :: visitsFrom t c ++ visits (tailAfter t c) b := by
  cases c <;> rfl

/-- The arrays are not written during a traversal. -/
structure SameArrays (s s' : TreeImpl D) : Prop where
  dispatchers : s'.dispatchers = s.dispatchers
  nextChildren : s'.nextChildren = s.nextChildren
  nextSiblings : s'.nextSiblings = s.nextSiblings
  expandTailFirstPath : s'.expandTailFirstPath = s.expandTailFirstPath

variable {s : TreeImpl D}

theorem SameArrays.trans {s₁ s₂ : TreeImpl D} (h : SameArrays s s₁) (h' : SameArrays s₁ s₂) :
    SameArrays s s₂ :=
  ⟨h'.dispatchers.trans h.dispatchers, h'.nextChildren.trans h.nextChildren,
    h'.nextSiblings.trans h.nextSiblings, h'.expandTailFirstPath.trans h.expandTailFirstPath⟩

variable {s' : TreeImpl D} {index : Int} {f : Forest D} {S : Finset Nat}

theorem SameArrays.denotes (h : SameArrays s s') (hf : Denotes s index f S) :
    Denotes s' index f S := by
  refine hf.congr fun i _ => ?_
  rw [slot, slot, h.dispatchers, h.nextChildren, h.nextSiblings]

theorem SameArrays.restore_eq (h : SameArrays s s') : restore s s' = s := by
  obtain ⟨hd, hc, hs, he⟩ := h
  rw [restore, hd, hc, hs, he]

def afterwards (s : TreeImpl D) : TreeImpl D :=
  if s.rootIndex = nullIndex ∧ s.tailFirstIndex = nullIndex then s else s.enterTail

theorem sameArrays_enterTail (s : TreeImpl D) : SameArrays s s.enterTail := by
  rw [enterTail]
  split_ifs <;> exact ⟨rfl, rfl, rfl, rfl⟩

theorem sameArrays_afterwards (s : TreeImpl D) : SameArrays s (afterwards s) := by
  rw [afterwards]
  split_ifs
  · exact ⟨rfl, rfl, rfl, rfl⟩
  · exact sameArrays_enterTail s

variable {t : List D} {T : Finset Nat}

theorem tail_afterwards {c : Forest D} (hc : Denotes s s.rootIndex c S)
    (ht : Denotes s s.tailFirstIndex (.path t) T) :
    ∃ T', Denotes (afterwards s) (afterwards s).tailFirstIndex (.path (tailAfter t c)) T' := by
  by_cases hroot : s.rootIndex = nullIndex
  · obtain rfl := hc.eq_nil.mp hroot
    have hnull : (afterwards s).tailFirstIndex = nullIndex := by
      rw [afterwards, enterTail]
      split_ifs with hnone
      · exact hnone.2
      · rfl
    rw [hnull]
    exact ⟨∅, .nil⟩
  · have hsame : afterwards s = s := by
      rw [afterwards, if_neg (fun h => hroot h.1), enterTail, if_neg hroot]
    have hne : c ≠ .nil := fun h => hroot (hc.eq_nil.mpr h)
    rw [hsame]
    cases c with
    | nil => exact absurd rfl hne
    | node d c b => exact ⟨T, ht⟩

def Traversal (dispatch : TreeImpl D → Outcome (Option Ev × List D × TreeImpl D)) (t : List D)
    (f : Forest D) : Prop :=
  ∀ (s : TreeImpl D) (S T : Finset Nat), Denotes s s.rootIndex f S →
    Denotes s s.tailFirstIndex (.path t) T →
    ∃ answer, dispatch s = .ok (answer, visitsFrom t f, afterwards s)

def TraversesBelow (dispatch : TreeImpl D → Outcome (Option Ev × List D × TreeImpl D)) :
    List D → Forest D → Prop
  | _, .nil => True
  | t, .node _ c b => Traversal dispatch t c ∧ TraversesBelow dispatch (tailAfter t c) b

theorem dispatchSiblings_spec (respond : D → Option Ev → Option Ev) (event : Ev)
    {dispatch : TreeImpl D → Outcome (Option Ev × List D × TreeImpl D)} (f : Forest D) :
    ∀ (fuel : Nat) (t : List D) (s : TreeImpl D) (index : Int) (S T : Finset Nat)
      (returnEvent : Option Ev), (labels f).length ≤ fuel → f ≠ .nil →
      TraversesBelow dispatch t f → Denotes s index f S →
      Denotes s s.tailFirstIndex (.path t) T →
      ∃ answer s', dispatchSiblings respond event dispatch fuel s index returnEvent =
        .ok (answer, visits t f, s') ∧ SameArrays s s' := by
  induction f with
  | nil => exact fun _ _ _ _ _ _ _ _ hne => absurd rfl hne
  | node d c b _ ihb =>
    intro fuel t s index S T returnEvent hfuel _ hbelow hf ht
    obtain ⟨fuel, rfl⟩ := Nat.exists_eq_succ_of_ne_zero
      (Nat.ne_of_gt (Nat.lt_of_lt_of_le (by simp [labels]) hfuel))
    simp only [labels, length_cons, Nat.succ_eq_add_one,
      Nat.add_le_add_iff_right] at hfuel
    obtain ⟨hc, hb⟩ := hbelow
    cases hf with
    | @node i _ child sibling _ _ C B hslot hC hB _ _ _ =>
      simp only [slot, Prod.mk.injEq] at hslot
      obtain ⟨hd, hchild, hsibling⟩ := hslot
      have hsame₁ : SameArrays s { s with rootIndex := child } := ⟨rfl, rfl, rfl, rfl⟩
      have hsame₂ := hsame₁.trans (sameArrays_afterwards { s with rootIndex := child })
      obtain ⟨answer, hdispatch⟩ := hc { s with rootIndex := child } C T (hsame₁.denotes hC)
        (hsame₁.denotes ht)
      obtain ⟨T', hT'⟩ := tail_afterwards (s := { s with rootIndex := child })
        (hsame₁.denotes hC) (hsame₁.denotes ht)
      have hsibling' : load (afterwards { s with rootIndex := child }).nextSiblings (i : Int) =
          .ok sibling := by
        rw [hsame₂.nextSiblings]
        exact load_eq_ok hsibling
      rw [dispatchSiblings, load_eq_ok hchild, load_eq_ok hd]
      simp only [hdispatch, ok_bind, hsibling']
      by_cases hlast : sibling = nullIndex
      · obtain rfl := hB.eq_nil.mp hlast
        refine ⟨mergeAnswers event returnEvent (respond d answer), _, ?_, hsame₂⟩
        rw [if_pos hlast, visits_node, visits, append_nil]
      · obtain ⟨answer', s', hrun, hsame'⟩ := ihb fuel (tailAfter t c) _ sibling B T'
          (mergeAnswers event returnEvent (respond d answer)) hfuel
          (fun h => hlast (hB.eq_nil.mpr h)) hb (hsame₂.denotes hB) hT'
        refine ⟨answer', s', ?_, hsame₂.trans hsame'⟩
        rw [if_neg hlast, hrun, ok_bind, visits_node]

theorem traversesBelow_of_height {dispatch : TreeImpl D → Outcome (Option Ev × List D × TreeImpl D)}
    (n : Nat) (h : ∀ (t : List D) (f : Forest D), (hang (.path t) f).height < n →
      Traversal dispatch t f) (f : Forest D) :
    ∀ t : List D, (graft (.path t) f).height ≤ n → TraversesBelow dispatch t f := by
  induction f with
  | nil => exact fun _ _ => trivial
  | node d c b _ ihb =>
    intro t hht
    rw [graft_node, height] at hht
    refine ⟨h t c (by omega), ihb _ ?_⟩
    cases c with
    | nil =>
      rw [tailAfter, path, (hang_nil_left b).2]
      have := (height_le_graft (.path t) b).1
      omega
    | node => exact (by omega : (graft (.path t) b).height ≤ n)

theorem dispatchLevels_enter (respond : D → Option Ev → Option Ev) (event : Ev) {fuel : Nat}
    (ih : ∀ (t : List D) (f : Forest D), (hang (.path t) f).height < fuel →
      Traversal (dispatchLevels respond event fuel) t f)
    (hsome : ¬ (s.rootIndex = nullIndex ∧ s.tailFirstIndex = nullIndex)) (hne : f ≠ .nil)
    (hf : Denotes s.enterTail s.enterTail.rootIndex f S)
    (ht : Denotes s.enterTail s.enterTail.tailFirstIndex (.path t) T)
    (hht : (graft (.path t) f).height ≤ fuel) :
    ∃ answer,
      dispatchLevels respond event (fuel + 1) s = .ok (answer, visits t f, s.enterTail) := by
  have hlen : (labels f).length ≤ fuel := by
    refine Nat.le_trans ?_ hht
    rw [← labels_graft (.path t)]
    exact length_labels_le_height _
  obtain ⟨answer, s', hrun, hsame⟩ := dispatchSiblings_spec respond event f fuel t s.enterTail
    s.enterTail.rootIndex S T none hlen hne (traversesBelow_of_height fuel ih f t hht) hf ht
  refine ⟨answer, ?_⟩
  rw [dispatchLevels, if_neg hsome]
  dsimp only
  rw [hrun, ok_bind, hsame.restore_eq]

theorem visits_nil (f : Forest D) : visits [] f = f.preorder := by
  induction f with
  | nil => rfl
  | node d c b ihc ihb =>
    cases c with
    | nil => rw [visits, ihb, preorder, preorder]
    | node d' c' b' => rw [visits, ihc, ihb, ← preorder]

theorem dispatchLevels_spec (respond : D → Option Ev → Option Ev) (event : Ev) (fuel : Nat) :
    ∀ (t : List D) (f : Forest D), (hang (.path t) f).height < fuel →
      Traversal (dispatchLevels respond event fuel) t f := by
  induction fuel with
  | zero => exact fun t f h => absurd h (Nat.not_lt_zero _)
  | succ fuel ih =>
    intro t f hht s S T hf ht
    by_cases hnone : s.rootIndex = nullIndex ∧ s.tailFirstIndex = nullIndex
    · obtain rfl := hf.eq_nil.mp hnone.1
      obtain rfl := path_eq_nil.mp (ht.eq_nil.mp hnone.2)
      refine ⟨some event, ?_⟩
      rw [dispatchLevels, if_pos hnone, afterwards, if_pos hnone, visitsFrom]
    · rw [afterwards, if_neg hnone]
      have hsame := sameArrays_enterTail s
      by_cases hroot : s.rootIndex = nullIndex
      · -- The tail takes the place of the root and leaves no tail.
        obtain rfl := hf.eq_nil.mp hroot
        have htail : s.tailFirstIndex ≠ nullIndex := fun h => hnone ⟨hroot, h⟩
        have henter : s.enterTail.rootIndex = s.tailFirstIndex ∧
            s.enterTail.tailFirstIndex = nullIndex := by
          rw [enterTail, if_pos hroot]
          exact ⟨rfl, rfl⟩
        obtain ⟨answer, hrun⟩ := dispatchLevels_enter respond event ih (t := []) hnone
          (fun h => htail (ht.eq_nil.mpr h)) (by rw [henter.1]; exact hsame.denotes ht)
          (by rw [henter.2]; exact .nil)
          (by rw [path, (hang_nil_left _).2]; exact Nat.lt_succ_iff.mp hht)
        refine ⟨answer, ?_⟩
        rw [hrun, visits_nil, preorder_path, visitsFrom]
      · have hne : f ≠ .nil := fun h => hroot (hf.eq_nil.mpr h)
        have henter : s.enterTail = s := by rw [enterTail, if_neg hroot]
        rw [hang_of_ne_nil hne] at hht
        obtain ⟨answer, hrun⟩ := dispatchLevels_enter respond event ih (t := t) hnone hne
          (by rw [henter]; exact hf) (by rw [henter]; exact ht) (Nat.lt_succ_iff.mp hht)
        refine ⟨answer, ?_⟩
        rw [hrun]
        cases f with
        | nil => exact absurd rfl hne
        | node d c b => rfl

theorem length_visits_le (t : List D) (f : Forest D) :
    (visits t f).length ≤ (graft (.path t) f).size ∧
      (visitsFrom t f).length ≤ (hang (.path t) f).size := by
  induction f generalizing t with
  | nil => exact ⟨Nat.le_refl _, by rw [visitsFrom, hang_nil, size_path]⟩
  | node d c b ihc ihb =>
    have hb : (visits (tailAfter t c) b).length ≤ (graft (.path t) b).size := by
      cases c with
      | nil =>
        have := (size_le_graft (.path t) b).1
        rw [tailAfter, visits_nil, length_preorder]
        exact this
      | node => exact (ihb t).1
    have hc := (ihc t).2
    have hvisits : (visits t (.node d c b)).length ≤
        (graft (.path t) (.node d c b)).size := by
      rw [visits_node, graft_node, size, length_append, length_cons]
      omega
    exact ⟨hvisits, hvisits⟩

theorem visits_eq_preorder_iff (ht : t ≠ []) (f : Forest D) :
    visits t f = (graft (.path t) f).preorder ↔ f.LeavesLast := by
  induction f with
  | nil => exact ⟨fun _ => trivial, fun _ => rfl⟩
  | node d c b ihc ihb =>
    rw [visits_node, graft_node, preorder]
    have hpath : path t ≠ .nil := fun h => ht (path_eq_nil.mp h)
    constructor
    · intro heq
      have hlen := congrArg List.length heq
      simp only [length_append, length_cons, length_preorder] at hlen
      cases c with
      | nil =>
        rw [tailAfter, visits_nil, visitsFrom, hang_nil, length_preorder,
          size_path] at hlen
        have hb : b = .nil := by
          by_contra hne
          have := size_lt_graft hpath hne
          omega
        subst hb
        exact ⟨fun _ => rfl, trivial, trivial⟩
      | node d' c' b' =>
        have hc := (length_visits_le t (.node d' c' b')).2
        have hb := (length_visits_le t b).1
        rw [tailAfter] at hlen heq
        obtain ⟨heqc, heqb⟩ := append_inj heq (by
          rw [length_cons, length_cons, length_preorder]
          omega)
        exact ⟨fun h => absurd h (by simp), ihc.mp (List.cons.inj heqc).2, ihb.mp heqb⟩
    · rintro ⟨hleaf, hc, hb⟩
      cases c with
      | nil =>
        rw [hleaf rfl, hang_nil, preorder_path]
        rfl
      | node d' c' b' => rw [visitsFrom, tailAfter, ihc.mpr hc, ihb.mpr hb, hang_node,
          graft_node]

theorem visitsFrom_eq_preorder_iff (t : List D) (f : Forest D) :
    visitsFrom t f = (hang (.path t) f).preorder ↔ t = [] ∨ f.LeavesLast := by
  cases f with
  | nil => simp [visitsFrom, preorder_path, LeavesLast]
  | node d c b =>
    by_cases ht : t = []
    · subst ht
      rw [visitsFrom, visits_nil, path, (hang_nil_left _).1]
      exact ⟨fun _ => .inl rfl, fun _ => rfl⟩
    · rw [or_iff_right ht]
      exact visits_eq_preorder_iff ht _

theorem denotes_unique {f' : Forest D} {S' : Finset Nat} (h : Denotes s index f S)
    (h' : Denotes s index f' S') : f = f' := by
  induction h generalizing f' S' with
  | nil => exact (h'.eq_nil.mp rfl).symm
  | @node i d child sibling c b C B hslot _ _ _ _ _ ihc ihb =>
    generalize hidx : (i : Int) = index at h'
    cases h' with
    | nil => simp [nullIndex] at hidx
    | @node i' d' child' sibling' c' b' C' B' hslot' hc' hb' _ _ _ =>
      obtain rfl := Int.ofNat.inj hidx
      rw [hslot] at hslot'
      obtain ⟨rfl, rfl, rfl⟩ := hslot'
      rw [ihc hc', ihb hb']

theorem represents_unique {f' : Forest D} {t' : List D} (h : Represents s f t)
    (h' : Represents s f' t') : f = f' ∧ t = t' := by
  obtain ⟨S, T, hS, hT, -⟩ := h.slots
  obtain ⟨S', T', hS', hT', -⟩ := h'.slots
  refine ⟨denotes_unique hS hS', ?_⟩
  rw [← preorder_path t, ← preorder_path t', denotes_unique hT.denotes hT'.denotes]

theorem dispatchEvent_spec (respond : D → Option Ev → Option Ev) (event : Ev)
    (h : Represents s f t) :
    ∃ answer, dispatchEvent respond event s = .ok (answer, visitsFrom t f, afterwards s) := by
  obtain ⟨S, T, hS, hT, -⟩ := h.slots
  exact dispatchLevels_spec respond event (s.reservedCount + 1) t f
    (Nat.lt_succ_of_le h.height_le) s S T hS hT.denotes

theorem afterwards_represents (h : Represents s f t) : Represents (afterwards s) f t ∨
      f = .nil ∧ Represents (afterwards s) (.path t) [] := by
  obtain ⟨S, T, hS, hT, -, -, hTlt⟩ := h.slots
  rw [afterwards]
  split_ifs with hnone
  · exact .inl h
  · rw [enterTail]
    split_ifs with hroot
    · refine .inr ⟨hS.eq_nil.mp hroot,
        ⟨h.sized.children_eq, h.sized.siblings_eq, h.sized.reserved_le⟩, distinct_path t, T,
        ∅, hT.denotes.congr fun _ _ => rfl, .nil, by simp, hTlt, by simp⟩
    · exact .inl h

/-- A dispatch that all dispatchers forward calls each node of the denoted forest in
preorder, leaves a tree that denotes the same forest, and can be repeated. -/
def Traverses (respond : D → Option Ev → Option Ev) (event : Ev) (s : TreeImpl D)
    (f : Forest D) : Prop :=
  ∃ answer s', dispatchEvent respond event s = .ok (answer, f.preorder, s') ∧ DenotesForest s' f ∧
    ∃ answer' s'', dispatchEvent respond event s' = .ok (answer', f.preorder, s'')

theorem Traverses.visited_eq {respond : D → Option Ev → Option Ev} {event : Ev} {answer : Option Ev}
    {visited : List D} (h : Traverses respond event s f)
    (hrun : dispatchEvent respond event s = .ok (answer, visited, s')) : visited = f.preorder := by
  obtain ⟨answer', s'', hrun', -⟩ := h
  rw [hrun, Except.ok.injEq, Prod.mk.injEq, Prod.mk.injEq] at hrun'
  exact hrun'.2.1

/-- There is no tail, or no leaf above the tail has a sibling after it. -/
def KeepsTail (s : TreeImpl D) : Prop :=
  ∃ f t, Represents s f t ∧ (t = [] ∨ f.LeavesLast)

theorem dispatchEvent_preorder (respond : D → Option Ev → Option Ev) (event : Ev)
    (h : Represents s f t) (hkeep : t = [] ∨ f.LeavesLast) :
    ∃ answer, dispatchEvent respond event s =
      .ok (answer, (hang (.path t) f).preorder, afterwards s) := by
  obtain ⟨answer, hrun⟩ := dispatchEvent_spec respond event h
  exact ⟨answer, by rw [hrun, (visitsFrom_eq_preorder_iff t f).mpr hkeep]⟩

theorem traverses_iff (respond : D → Option Ev → Option Ev) (event : Ev) (h : DenotesForest s f) :
    Traverses respond event s f ↔ KeepsTail s := by
  obtain ⟨g, t, hs, rfl⟩ := h
  constructor
  · intro htraverses
    obtain ⟨answer, hrun⟩ := dispatchEvent_spec respond event hs
    exact ⟨g, t, hs, (visitsFrom_eq_preorder_iff t g).mp (htraverses.visited_eq hrun)⟩
  · rintro ⟨g', t', hs', hkeep⟩
    obtain ⟨rfl, rfl⟩ := represents_unique hs hs'
    obtain ⟨answer, hrun⟩ := dispatchEvent_preorder respond event hs hkeep
    refine ⟨answer, afterwards s, hrun, ?_⟩
    rcases afterwards_represents hs with hafter | ⟨rfl, hafter⟩
    · refine ⟨⟨g, t, hafter, rfl⟩, ?_⟩
      obtain ⟨answer', hrun'⟩ := dispatchEvent_preorder respond event hafter hkeep
      exact ⟨answer', _, hrun'⟩
    · have hforest :
          hang (.path []) (.path t) = hang (.path t) (.nil : Forest D) := by
        rw [hang_nil, path, (hang_nil_left _).1]
      refine ⟨⟨.path t, [], hafter, hforest.symm⟩, ?_⟩
      obtain ⟨answer', hrun'⟩ := dispatchEvent_preorder respond event hafter (.inl rfl)
      rw [hforest] at hrun'
      exact ⟨answer', _, hrun'⟩

/-- A tree that some calls have built is traversed as it should be exactly if no leaf
above its tail has a sibling after it. -/
theorem runCalls_traverses_iff [DecidableEq D] (calls : List (Call D)) :
    ∃ trees, runCalls calls = .ok trees ∧
      List.Forall₂ (fun s f => DenotesForest s f ∧
        ∀ (respond : D → Option Ev → Option Ev) (event : Ev),
          Traverses respond event s f ↔ KeepsTail s) trees (forestsAfter calls) := by
  obtain ⟨trees, hrun, hdenotes⟩ := runCalls_spec calls
  exact ⟨trees, hrun, hdenotes.imp fun s f h =>
    ⟨h, fun respond event => traverses_iff respond event h⟩⟩

/-- Two trees are merged and the result gets a dispatcher at its end and one at its
front. The second leaf of the merged tree loses the tail. -/
def tailAfterTwoLeaves : List (Call Nat) :=
  [.createTree, .append 0 1, .createTree, .append 1 2, .mergeTree 0 1, .append 0 3, .prepend 0 9]

theorem tailAfterTwoLeaves_skips : ∃ trees s f answer s',
    runCalls tailAfterTwoLeaves = .ok trees ∧ trees[0]? = some s ∧
      (forestsAfter tailAfterTwoLeaves)[0]? = some f ∧ f.preorder = [9, 1, 3, 2, 3] ∧
      dispatchEvent (fun _ answer => answer) () s = .ok (answer, [9, 1, 3, 2], s') ∧
      ¬ Traverses (fun _ answer => answer) () s f := by
  refine ⟨_, _, _, _, _, rfl, rfl, rfl, rfl, rfl, ?_⟩
  intro htraverses
  exact absurd (htraverses.visited_eq rfl) (by decide)

end OpenJfx.Event.EventDispatchTreeTraversal
