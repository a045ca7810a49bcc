import OpenJfx.Java.Arrays
import OpenJfx.Data.Forest
import Mathlib.Data.Finset.Card

namespace OpenJfx.Event.EventDispatchTreeImpl

open Java.Arrays Data

variable {D : Type}

def capacityGrowthFactor : Nat := 8

def nullIndex : Int := -1

/-- The fields of the class. Arrays that are still null have no slots. -/
structure TreeImpl (D : Type) where
  dispatchers : List (Option D)
  nextChildren : List Int
  nextSiblings : List Int
  reservedCount : Nat
  rootIndex : Int
  tailFirstIndex : Int
  tailLastIndex : Int
  expandTailFirstPath : Bool

namespace TreeImpl

/-- `new EventDispatchTreeImpl()`, and so `createTree()`. -/
def new : TreeImpl D := ⟨[], [], [], 0, nullIndex, nullIndex, nullIndex, false⟩

def reset (s : TreeImpl D) : TreeImpl D :=
  { s with
    dispatchers := List.replicate s.reservedCount none ++ s.dispatchers.drop s.reservedCount
    reservedCount := 0
    rootIndex := nullIndex
    tailFirstIndex := nullIndex
    tailLastIndex := nullIndex }

def ensureCapacity (s : TreeImpl D) (size : Nat) : Outcome (TreeImpl D) :=
  let newCapacity := roundUp capacityGrowthFactor size
  if newCapacity = 0 then .ok s
  else if s.dispatchers.length < newCapacity then do
    let newDispatchers ← grown none s.dispatchers s.reservedCount newCapacity
    let newNextChildren ← grown 0 s.nextChildren s.reservedCount newCapacity
    let newNextSiblings ← grown 0 s.nextSiblings s.reservedCount newCapacity
    .ok { s with
      dispatchers := newDispatchers
      nextChildren := newNextChildren
      nextSiblings := newNextSiblings }
  else .ok s

def setDispatcher (s : TreeImpl D) (index : Int) (dispatcher : Option D) :
    Outcome (TreeImpl D) := do
  let dispatchers ← store s.dispatchers index dispatcher
  .ok { s with dispatchers := dispatchers }

def setNextChild (s : TreeImpl D) (index child : Int) : Outcome (TreeImpl D) := do
  let nextChildren ← store s.nextChildren index child
  .ok { s with nextChildren := nextChildren }

def setNextSibling (s : TreeImpl D) (index sibling : Int) : Outcome (TreeImpl D) := do
  let nextSiblings ← store s.nextSiblings index sibling
  .ok { s with nextSiblings := nextSiblings }

/-- The tail ends in the node at `index`. -/
def linkTail (s : TreeImpl D) (index : Int) : Outcome (TreeImpl D) :=
  if s.tailFirstIndex = nullIndex then .ok { s with tailFirstIndex := index }
  else s.setNextChild s.tailLastIndex index

def append (s : TreeImpl D) (eventDispatcher : D) : Outcome (TreeImpl D) := do
  let s ← s.ensureCapacity (s.reservedCount + 1)
  let index : Int := s.reservedCount
  let s ← s.setDispatcher index (some eventDispatcher)
  let s ← s.setNextSibling index nullIndex
  let s ← s.setNextChild index nullIndex
  let s ← s.linkTail index
  .ok { s with tailLastIndex := index, reservedCount := s.reservedCount + 1 }

def prepend (s : TreeImpl D) (eventDispatcher : D) : Outcome (TreeImpl D) := do
  let s ← s.ensureCapacity (s.reservedCount + 1)
  let index : Int := s.reservedCount
  let s ← s.setDispatcher index (some eventDispatcher)
  let s ← s.setNextSibling index nullIndex
  let s ← s.setNextChild index s.rootIndex
  .ok { s with rootIndex := index, reservedCount := s.reservedCount + 1 }

def getChildIndex (tree : TreeImpl D) (index : Int) : Outcome Int := do
  let childIndex ← load tree.nextChildren index
  if childIndex = nullIndex ∧ index ≠ tree.tailLastIndex then .ok tree.tailFirstIndex
  else .ok childIndex

/-- The tree that is read: another one, or the tree itself as it is by now. -/
def source (s : TreeImpl D) (srcTree : Option (TreeImpl D)) : TreeImpl D := srcTree.getD s

@[simp] theorem source_some (s t : TreeImpl D) : s.source (some t) = t := rfl

@[simp] theorem source_none (s : TreeImpl D) : s.source none = s := rfl

def copySubtree (copyLevel : TreeImpl D → Int → Outcome (Int × TreeImpl D))
    (srcTree : Option (TreeImpl D))
    (s : TreeImpl D) (srcIndex : Int) : Outcome (Int × TreeImpl D) := do
  let s ← s.ensureCapacity (s.reservedCount + 1)
  let dstIndex : Int := s.reservedCount
  let s := { s with reservedCount := s.reservedCount + 1 }
  let childIndex ← (s.source srcTree).getChildIndex srcIndex
  let (dstChildLevelIndex, s) ← copyLevel s childIndex
  let dispatcher ← load (s.source srcTree).dispatchers srcIndex
  let s ← s.setDispatcher dstIndex dispatcher
  let s ← s.setNextChild dstIndex dstChildLevelIndex
  .ok (dstIndex, s)

def copySiblings (copyLevel : TreeImpl D → Int → Outcome (Int × TreeImpl D))
    (srcTree : Option (TreeImpl D)) :
    Nat → TreeImpl D → Int → Int → Outcome (TreeImpl D)
  | 0, _, _, _ => .error (.illegalState "stack overflow")
  | fuel + 1, s, lastDstIndex, srcIndex =>
    if srcIndex = nullIndex then s.setNextSibling lastDstIndex nullIndex
    else do
      let (dstIndex, s) ← copySubtree copyLevel srcTree s srcIndex
      let s ← s.setNextSibling lastDstIndex dstIndex
      let srcIndex ← load (s.source srcTree).nextSiblings srcIndex
      copySiblings copyLevel srcTree fuel s dstIndex srcIndex

def copyTreeLevel (srcTree : Option (TreeImpl D)) : Nat → TreeImpl D → Int →
    Outcome (Int × TreeImpl D)
  | 0, _, _ => .error (.illegalState "stack overflow")
  | fuel + 1, s, srcLevelIndex =>
    if srcLevelIndex = nullIndex then .ok (nullIndex, s)
    else do
      let (dstLevelIndex, s) ← copySubtree (copyTreeLevel srcTree fuel) srcTree s srcLevelIndex
      let srcIndex ← load (s.source srcTree).nextSiblings srcLevelIndex
      let s ← copySiblings (copyTreeLevel srcTree fuel) srcTree fuel s dstLevelIndex srcIndex
      .ok (dstLevelIndex, s)

def attachTail (fuel : Nat) (s : TreeImpl D) (index : Int) : Outcome (TreeImpl D) :=
  if s.expandTailFirstPath then do
    let s ← s.setNextChild index s.tailFirstIndex
    .ok { s with expandTailFirstPath := false }
  else do
    let (childLevelIndex, s) ← copyTreeLevel none fuel s s.tailFirstIndex
    s.setNextChild index childLevelIndex

def expandNode (expandLevel : TreeImpl D → Int → Outcome (TreeImpl D)) (s : TreeImpl D)
    (index : Int) :
    Outcome (TreeImpl D) := do
  let childIndex ← load s.nextChildren index
  if childIndex ≠ nullIndex then expandLevel s childIndex
  else attachTail s.reservedCount s index

/-- `expandTail`; the loop over the siblings is a recursive call as well. -/
def expandTail : Nat → TreeImpl D → Int → Outcome (TreeImpl D)
  | 0, _, _ => .error (.illegalState "stack overflow")
  | fuel + 1, s, index =>
    if index = nullIndex then .ok s
    else do
      let s ← expandNode (expandTail fuel) s index
      let next ← load s.nextSiblings index
      expandTail fuel s next

section Merge

variable [DecidableEq D]

/-- The inner loop of `mergeTreeLevel`: the node of the destination level with the
given dispatcher (`nullIndex` if there is none) and the node before it. -/
def findSibling (s : TreeImpl D) (srcDispatcher : Option D) : Nat → Int → Int → Outcome (Int × Int)
  | 0, _, _ => .error (.illegalState "stack overflow")
  | fuel + 1, dstIndex, lastDstIndex =>
    if dstIndex = nullIndex then .ok (dstIndex, lastDstIndex)
    else do
      let dispatcher ← load s.dispatchers dstIndex
      if srcDispatcher = dispatcher then .ok (dstIndex, lastDstIndex)
      else do
        let next ← load s.nextSiblings dstIndex
        findSibling s srcDispatcher fuel next dstIndex

def addSibling (copyLevel : TreeImpl D → Int → Outcome (Int × TreeImpl D))
    (srcTree : Option (TreeImpl D))
    (s : TreeImpl D) (lastDstIndex srcIndex : Int) : Outcome (TreeImpl D) := do
  let (siblingIndex, s) ← copySubtree copyLevel srcTree s srcIndex
  let s ← s.setNextSibling lastDstIndex siblingIndex
  s.setNextSibling siblingIndex nullIndex

def mergeChildren (mergeLevel : TreeImpl D → Int → Int → Outcome (TreeImpl D))
    (copyLevel : TreeImpl D → Int → Outcome (Int × TreeImpl D)) (srcTree : Option (TreeImpl D))
    (s : TreeImpl D) (dstIndex srcIndex : Int) : Outcome (TreeImpl D) := do
  let nextDstLevelIndex ← load s.nextChildren dstIndex
  let nextSrcLevelIndex ← (s.source srcTree).getChildIndex srcIndex
  if nextDstLevelIndex ≠ nullIndex then mergeLevel s nextDstLevelIndex nextSrcLevelIndex
  else do
    let (nextDstLevelIndex, s) ← copyLevel s nextSrcLevelIndex
    s.setNextChild dstIndex nextDstLevelIndex

def mergeNode (mergeLevel : TreeImpl D → Int → Int → Outcome (TreeImpl D))
    (copyLevel : TreeImpl D → Int → Outcome (Int × TreeImpl D)) (srcTree : Option (TreeImpl D))
    (s : TreeImpl D) (dstLevelIndex srcIndex : Int) : Outcome (TreeImpl D) := do
  let srcDispatcher ← load (s.source srcTree).dispatchers srcIndex
  let (dstIndex, lastDstIndex) ←
    s.findSibling srcDispatcher (s.reservedCount + 1) dstLevelIndex dstLevelIndex
  if dstIndex = nullIndex then addSibling copyLevel srcTree s lastDstIndex srcIndex
  else mergeChildren mergeLevel copyLevel srcTree s dstIndex srcIndex

/-- `mergeTreeLevel`; the loop over the source siblings is a recursive call as well. -/
def mergeTreeLevel (srcTree : Option (TreeImpl D)) : Nat → TreeImpl D → Int → Int →
    Outcome (TreeImpl D)
  | 0, _, _, _ => .error (.illegalState "stack overflow")
  | fuel + 1, s, dstLevelIndex, srcIndex =>
    if srcIndex = nullIndex then .ok s
    else do
      let s ← mergeNode (mergeTreeLevel srcTree fuel) (copyTreeLevel srcTree fuel) srcTree s
        dstLevelIndex srcIndex
      let srcIndex ← load (s.source srcTree).nextSiblings srcIndex
      mergeTreeLevel srcTree fuel s dstLevelIndex srcIndex

/-- The first part of `mergeTree`: the tail becomes a part of the tree. -/
def absorbTail (s : TreeImpl D) : Outcome (TreeImpl D) :=
  if s.tailFirstIndex ≠ nullIndex then
    if s.rootIndex ≠ nullIndex then do
      let s ← expandTail (s.reservedCount + 1) { s with expandTailFirstPath := true } s.rootIndex
      .ok { s with tailFirstIndex := nullIndex, tailLastIndex := nullIndex }
    else
      .ok { s with
        rootIndex := s.tailFirstIndex
        tailFirstIndex := nullIndex
        tailLastIndex := nullIndex }
  else .ok s

def srcLevelIndex (treeImpl : TreeImpl D) : Int :=
  if treeImpl.rootIndex ≠ nullIndex then treeImpl.rootIndex else treeImpl.tailFirstIndex

/-- `mergeTree(tree)`; no tree stands for the tree itself. No chain of child and
sibling links is longer than the number of reserved slots. -/
def mergeTree (s : TreeImpl D) (tree : Option (TreeImpl D)) : Outcome (TreeImpl D) := do
  let s ← s.absorbTail
  let treeImpl := s.source tree
  let fuel := treeImpl.reservedCount + 1
  if s.rootIndex = nullIndex then do
    let (rootIndex, s) ← copyTreeLevel tree fuel s treeImpl.srcLevelIndex
    .ok { s with rootIndex := rootIndex }
  else mergeTreeLevel tree fuel s s.rootIndex treeImpl.srcLevelIndex

end Merge

section Dispatch

variable {Ev : Type}

/-- `returnEvent` after a branch has given its answer. -/
def mergeAnswers (event : Ev) (returnEvent branchReturnEvent : Option Ev) : Option Ev :=
  match branchReturnEvent with
  | none => returnEvent
  | some answer => if returnEvent.isSome then some event else some answer

/-- The loop of `dispatchEvent` over the siblings from `index` on, with the dispatchers
that were called. Each of them forwards the event to its tail, which is the tree itself,
and makes its own answer from the answer of the tail. -/
def dispatchSiblings (respond : D → Option Ev → Option Ev) (event : Ev)
    (dispatch : TreeImpl D → Outcome (Option Ev × List D × TreeImpl D)) :
    Nat → TreeImpl D → Int → Option Ev → Outcome (Option Ev × List D × TreeImpl D)
  | 0, _, _, _ => .error (.illegalState "stack overflow")
  | fuel + 1, s, index, returnEvent => do
    let childIndex ← load s.nextChildren index
    let dispatcher ← load s.dispatchers index
    match dispatcher with
    | none => .error .nullPointer
    | some d => do
      let (answer, visited, s) ← dispatch { s with rootIndex := childIndex }
      let returnEvent := mergeAnswers event returnEvent (respond d answer)
      let index ← load s.nextSiblings index
      if index = nullIndex then .ok (returnEvent, d :: visited, s)
      else do
        let (returnEvent, visited', s) ←
          dispatchSiblings respond event dispatch fuel s index returnEvent
        .ok (returnEvent, d :: visited ++ visited', s)

def enterTail (s : TreeImpl D) : TreeImpl D :=
  if s.rootIndex = nullIndex then
    { s with
      rootIndex := s.tailFirstIndex
      tailFirstIndex := nullIndex
      tailLastIndex := nullIndex }
  else s

def restore (saved s : TreeImpl D) : TreeImpl D :=
  { s with
    reservedCount := saved.reservedCount
    rootIndex := saved.rootIndex
    tailFirstIndex := saved.tailFirstIndex
    tailLastIndex := saved.tailLastIndex }

def dispatchLevels (respond : D → Option Ev → Option Ev) (event : Ev) :
    Nat → TreeImpl D → Outcome (Option Ev × List D × TreeImpl D)
  | 0, _ => .error (.illegalState "stack overflow")
  | fuel + 1, s =>
    if s.rootIndex = nullIndex ∧ s.tailFirstIndex = nullIndex then .ok (some event, [], s)
    else do
      let saved := s.enterTail
      let (returnEvent, visited, s) ← dispatchSiblings respond event
        (dispatchLevels respond event fuel) fuel saved saved.rootIndex none
      .ok (returnEvent, visited, restore saved s)

/-- `dispatchEvent(event)`: the answer, the dispatchers called in order, the tree
afterwards. -/
def dispatchEvent (respond : D → Option Ev → Option Ev) (event : Ev) (s : TreeImpl D) :
    Outcome (Option Ev × List D × TreeImpl D) :=
  dispatchLevels respond event (s.reservedCount + 1) s

end Dispatch

end TreeImpl

end OpenJfx.Event.EventDispatchTreeImpl

namespace OpenJfx.Event.EventDispatchTreeSlots

open Java.Arrays Data Event.EventDispatchTreeImpl Event.EventDispatchTreeImpl.TreeImpl

variable {D : Type}

def slot (s : TreeImpl D) (i : Nat) : Option (Option D) × Option Int × Option Int :=
  (s.dispatchers[i]?, s.nextChildren[i]?, s.nextSiblings[i]?)

structure Sized (s : TreeImpl D) : Prop where
  children_eq : s.nextChildren.length = s.dispatchers.length
  siblings_eq : s.nextSiblings.length = s.dispatchers.length
  reserved_le : s.reservedCount ≤ s.dispatchers.length

/-- The level at an index is the forest `f`, which occupies the slots `S` and no
slot twice. -/
inductive Denotes (s : TreeImpl D) : Int → Forest D → Finset Nat → Prop
  | nil : Denotes s nullIndex .nil ∅
  | node {i : Nat} {d : D} {child sibling : Int} {c b : Forest D} {C B : Finset Nat}
      (hslot : slot s i = (some (some d), some child, some sibling))
      (hc : Denotes s child c C) (hb : Denotes s sibling b B)
      (hiC : i ∉ C) (hiB : i ∉ B) (hCB : Disjoint C B) :
      Denotes s i (.node d c b) (insert i (C ∪ B))

/-- The level at an index as another tree sees it, where a leaf goes on with the
tail. The slots read are below `r`. -/
inductive Views (t : TreeImpl D) (r : Nat) : Int → Forest D → Prop
  | nil : Views t r nullIndex .nil
  | node {i : Nat} {d : D} {child sibling : Int} {c b : Forest D} (hi : i < r)
      (hd : t.dispatchers[i]? = some (some d)) (hchild : t.getChildIndex i = .ok child)
      (hsibling : t.nextSiblings[i]? = some sibling)
      (hc : Views t r child c) (hb : Views t r sibling b) : Views t r i (.node d c b)

structure Extends (M : Finset Nat) (s s' : TreeImpl D) : Prop where
  sized : Sized s'
  reserved_le : s.reservedCount ≤ s'.reservedCount
  slots : ∀ i, i < s.reservedCount → i ∉ M → slot s' i = slot s i
  root_eq : s'.rootIndex = s.rootIndex
  tailFirst_eq : s'.tailFirstIndex = s.tailFirstIndex
  tailLast_eq : s'.tailLastIndex = s.tailLastIndex

variable {s : TreeImpl D}

theorem Extends.refl (h : Sized s) : Extends ∅ s s :=
  ⟨h, Nat.le_refl _, fun _ _ _ => rfl, rfl, rfl, rfl⟩

theorem Extends.trans {M M' N : Finset Nat} {s₁ s₂ s₃ : TreeImpl D} (h : Extends M s₁ s₂)
    (h' : Extends M' s₂ s₃) (hM : ∀ i ∈ M, i < s₁.reservedCount → i ∈ N)
    (hM' : ∀ i ∈ M', i < s₁.reservedCount → i ∈ N) : Extends N s₁ s₃ := by
  have hle := h.reserved_le
  refine ⟨h'.sized, hle.trans h'.reserved_le, ?_, h'.root_eq.trans h.root_eq,
    h'.tailFirst_eq.trans h.tailFirst_eq, h'.tailLast_eq.trans h.tailLast_eq⟩
  intro i hi hN
  rw [h'.slots i (by omega) (fun hmem => hN (hM' i hmem hi)),
    h.slots i hi (fun hmem => hN (hM i hmem hi))]

variable {s' : TreeImpl D} {index : Int} {f : Forest D} {S : Finset Nat}

theorem Denotes.congr (h : Denotes s index f S) (hslots : ∀ i ∈ S, slot s' i = slot s i) :
    Denotes s' index f S := by
  induction h with
  | nil => exact .nil
  | node hslot _ _ hiC hiB hCB ihc ihb =>
    refine .node ((hslots _ (by simp)).trans hslot) (ihc ?_) (ihb ?_) hiC hiB hCB
    · intro i hi
      exact hslots i (by simp [hi])
    · intro i hi
      exact hslots i (by simp [hi])

theorem Denotes.extends {M : Finset Nat} (h : Denotes s index f S) (hext : Extends M s s')
    (hlt : ∀ i ∈ S, i < s.reservedCount) (hM : ∀ i ∈ S, i ∉ M) :
    Denotes s' index f S :=
  h.congr fun i hi => hext.slots i (hlt i hi) (hM i hi)

theorem Denotes.size_eq (h : Denotes s index f S) : S.card = f.size := by
  induction h with
  | nil => rfl
  | node _ _ _ hiC hiB hCB ihc ihb =>
    rw [Finset.card_insert_of_notMem (by simp [hiC, hiB]), Finset.card_union_of_disjoint hCB,
      ihc, ihb, Forest.size]

theorem Denotes.size_le (h : Denotes s index f S) (hlt : ∀ i ∈ S, i < s.reservedCount) :
    f.size ≤ s.reservedCount := by
  rw [← h.size_eq, ← Finset.card_range s.reservedCount]
  exact Finset.card_le_card fun i hi => Finset.mem_range.mpr (hlt i hi)

theorem Denotes.eq_nil (h : Denotes s index f S) : index = nullIndex ↔
    f = .nil := by
  cases h with
  | nil => simp
  | node => simp [nullIndex]

variable {i : Nat}

theorem getChildIndex_congr (h : s'.nextChildren[i]? = s.nextChildren[i]?)
    (hfst : s'.tailFirstIndex = s.tailFirstIndex) (hlast : s'.tailLastIndex = s.tailLastIndex) :
    s'.getChildIndex i = s.getChildIndex i := by
  simp only [getChildIndex, load, hfst, hlast, Int.toNat_natCast, h]

variable {srcTree : Option (TreeImpl D)} {r : Nat}

theorem Views.extends {M : Finset Nat} (h : Views (s.source srcTree) r index f)
    (hext : Extends M s s') (hr : srcTree = none → r ≤ s.reservedCount)
    (hM : srcTree = none → ∀ i ∈ M, r ≤ i) : Views (s'.source srcTree) r index f := by
  cases srcTree with
  | some t => exact h
  | none =>
    induction h with
    | nil => exact .nil
    | @node i d child sibling c b hi hd hchild hsibling _ _ ihc ihb =>
      have hslot := hext.slots i (by have := hr rfl; omega) (fun hmem => by
        have := hM rfl i hmem
        omega)
      simp only [slot, Prod.mk.injEq] at hslot
      refine .node hi (hslot.1.trans hd) ?_ (hslot.2.2.trans hsibling) ihc ihb
      exact (getChildIndex_congr hslot.2.1 hext.tailFirst_eq hext.tailLast_eq).trans hchild

variable {t : TreeImpl D} {d : D} {c b : Forest D}

theorem Views.exists_nat (h : Views t r index (.node d c b)) : ∃ i : Nat, index = i := by
  cases h with
  | node => exact ⟨_, rfl⟩

theorem Views.ne_null (h : Views t r index (.node d c b)) : index ≠ nullIndex := by
  obtain ⟨i, rfl⟩ := h.exists_nat
  simp only [nullIndex]
  omega

theorem Views.sibling (h : Views t r i (.node d c b)) :
    ∃ sibling, t.nextSiblings[i]? = some sibling ∧ Views t r sibling b := by
  generalize hidx : (i : Int) = index at h
  cases h with
  | node _ _ _ hsibling _ hb =>
    obtain rfl : i = _ := Int.ofNat.inj hidx
    exact ⟨_, hsibling, hb⟩

theorem Views.child (h : Views t r i (.node d c b)) :
    ∃ child, t.getChildIndex i = .ok child ∧ Views t r child c := by
  generalize hidx : (i : Int) = index at h
  cases h with
  | node _ _ hchild _ hc _ =>
    exact ⟨_, hchild, hc⟩

theorem Views.dispatcher (h : Views t r i (.node d c b)) :
    t.dispatchers[i]? = some (some d) := by
  generalize hidx : (i : Int) = index at h
  cases h with
  | node _ hd _ _ _ _ =>
    obtain rfl : i = _ := Int.ofNat.inj hidx
    exact hd

theorem ensureCapacity_spec (h : Sized s) :
    ∃ s', s.ensureCapacity (s.reservedCount + 1) = .ok s' ∧ Extends ∅ s s' ∧
      s'.reservedCount = s.reservedCount ∧ s'.expandTailFirstPath = s.expandTailFirstPath ∧
      s'.reservedCount < s'.dispatchers.length := by
  have hcap := le_roundUp (show 0 < capacityGrowthFactor by decide) (s.reservedCount + 1)
  have hkids := h.children_eq
  have hsiblings := h.siblings_eq
  have hle := h.reserved_le
  rw [ensureCapacity]
  generalize roundUp capacityGrowthFactor (s.reservedCount + 1) = newCapacity at hcap
  simp only [show newCapacity ≠ 0 by omega, if_false]
  by_cases hgrow : s.dispatchers.length < newCapacity
  · obtain ⟨ds, hds, hdslen, hdseq⟩ := grown_spec none hle (show _ ≤ newCapacity by omega)
    obtain ⟨cs, hcs, hcslen, hcseq⟩ :=
      grown_spec 0 (hkids ▸ hle : s.reservedCount ≤ s.nextChildren.length)
        (show _ ≤ newCapacity by omega)
    obtain ⟨bs, hbs, hbslen, hbseq⟩ :=
      grown_spec 0 (hsiblings ▸ hle : s.reservedCount ≤ s.nextSiblings.length)
        (show _ ≤ newCapacity by omega)
    refine ⟨{ s with dispatchers := ds, nextChildren := cs, nextSiblings := bs }, ?_,
      ⟨⟨hcslen.trans hdslen.symm, hbslen.trans hdslen.symm, ?_⟩, Nat.le_refl _, ?_, rfl, rfl, rfl⟩,
      rfl, rfl, ?_⟩
    · rw [if_pos hgrow, hds, ok_bind, hcs, ok_bind, hbs, ok_bind]
    · show s.reservedCount ≤ ds.length
      omega
    · intro i hi _
      simp only [slot, hdseq i hi, hcseq i hi, hbseq i hi]
    · show s.reservedCount < ds.length
      omega
  · exact ⟨s, by rw [if_neg hgrow], .refl h, rfl, rfl, by omega⟩

/-- One slot is written and nothing else changes. -/
structure Writes (s : TreeImpl D) (i : Nat) (value : Option (Option D) × Option Int × Option Int)
    (s' : TreeImpl D) : Prop where
  sized : Sized s'
  reserved_eq : s'.reservedCount = s.reservedCount
  capacity_eq : s'.dispatchers.length = s.dispatchers.length
  flag_eq : s'.expandTailFirstPath = s.expandTailFirstPath
  root_eq : s'.rootIndex = s.rootIndex
  tailFirst_eq : s'.tailFirstIndex = s.tailFirstIndex
  tailLast_eq : s'.tailLastIndex = s.tailLastIndex
  here : slot s' i = value
  others : ∀ j, j ≠ i → slot s' j = slot s j

theorem Writes.extends {value : Option (Option D) × Option Int × Option Int}
    (h : Writes s i value s') :
    Extends {i} s s' :=
  ⟨h.sized, Nat.le_of_eq h.reserved_eq.symm, fun j _ hj => h.others j (by simpa using hj),
    h.root_eq, h.tailFirst_eq, h.tailLast_eq⟩

section Set

variable {s : TreeImpl D} (hs : Sized s) {i : Nat} (hi : i < s.dispatchers.length)

include hs hi

theorem setDispatcher_spec (d : Option D) :
    ∃ s', s.setDispatcher i d = .ok s' ∧ Writes s i (some d, (slot s i).2) s' := by
  refine ⟨{ s with dispatchers := s.dispatchers.set i d }, ?_, ⟨?_, ?_, ?_⟩, rfl, ?_, rfl, rfl, rfl,
    rfl, ?_, ?_⟩
  · rw [setDispatcher, store_eq_set _ hi, ok_bind]
  · simpa using hs.children_eq
  · simpa using hs.siblings_eq
  · simpa using hs.reserved_le
  · simp
  · simp [slot, hi]
  · intro j hj
    simp only [slot, List.getElem?_set_ne (Ne.symm hj)]

theorem setNextChild_spec (child : Int) :
    ∃ s', s.setNextChild i child = .ok s' ∧
      Writes s i ((slot s i).1, some child, (slot s i).2.2) s' := by
  have hi' : i < s.nextChildren.length := hs.children_eq ▸ hi
  refine ⟨{ s with nextChildren := s.nextChildren.set i child }, ?_,
    ⟨?_, hs.siblings_eq, hs.reserved_le⟩, rfl, rfl, rfl, rfl, rfl, rfl, ?_, ?_⟩
  · rw [setNextChild, store_eq_set _ hi', ok_bind]
  · simpa using hs.children_eq
  · simp [slot, hi']
  · intro j hj
    simp only [slot, List.getElem?_set_ne (Ne.symm hj)]

theorem setNextSibling_spec (sibling : Int) :
    ∃ s', s.setNextSibling i sibling = .ok s' ∧
      Writes s i ((slot s i).1, (slot s i).2.1, some sibling) s' := by
  have hi' : i < s.nextSiblings.length := hs.siblings_eq ▸ hi
  refine ⟨{ s with nextSiblings := s.nextSiblings.set i sibling }, ?_,
    ⟨hs.children_eq, ?_, hs.reserved_le⟩, rfl, rfl, rfl, rfl, rfl, rfl, ?_, ?_⟩
  · rw [setNextSibling, store_eq_set _ hi', ok_bind]
  · simpa using hs.siblings_eq
  · simp [slot, hi']
  · intro j hj
    simp only [slot, List.getElem?_set_ne (Ne.symm hj)]

end Set

structure Copied (s : TreeImpl D) (d : D) (c : Forest D) (s' : TreeImpl D) : Prop where
  ext : Extends ∅ s s'
  reserved_lt : s.reservedCount < s'.reservedCount
  flag_eq : s'.expandTailFirstPath = s.expandTailFirstPath
  node : ∃ child C, (slot s' s.reservedCount).1 = some (some d) ∧
    (slot s' s.reservedCount).2.1 = some child ∧ Denotes s' child c C ∧
    ∀ i ∈ C, s.reservedCount < i ∧ i < s'.reservedCount

def CopiesLevel (srcTree : Option (TreeImpl D))
    (copyLevel : TreeImpl D → Int → Outcome (Int × TreeImpl D)) (r : Nat) (f : Forest D) : Prop :=
  ∀ {s : TreeImpl D} {index : Int}, Sized s → Views (s.source srcTree) r index f →
    (srcTree = none → r ≤ s.reservedCount) →
    ∃ j s' S, copyLevel s index = .ok (j, s') ∧ Extends ∅ s s' ∧
      s'.expandTailFirstPath = s.expandTailFirstPath ∧ Denotes s' j f S ∧
      ∀ i ∈ S, s.reservedCount ≤ i ∧ i < s'.reservedCount

theorem copySubtree_spec {copyLevel : TreeImpl D → Int → Outcome (Int × TreeImpl D)}
    (hcopy : CopiesLevel srcTree copyLevel r c) (hs : Sized s)
    (hview : Views (s.source srcTree) r i (.node d c b))
    (hr : srcTree = none → r ≤ s.reservedCount) :
    ∃ s', copySubtree copyLevel srcTree s i = .ok ((s.reservedCount : Int), s') ∧
      Copied s d c s' := by
  obtain ⟨s₁, hs₁, hext₁, hres₁, hflag₁, hroom⟩ := ensureCapacity_spec hs
  have hext₂ : Extends ∅ s { s₁ with reservedCount := s₁.reservedCount + 1 } := by
    refine ⟨⟨hext₁.sized.children_eq, hext₁.sized.siblings_eq, hroom⟩, ?_, hext₁.slots,
      hext₁.root_eq, hext₁.tailFirst_eq, hext₁.tailLast_eq⟩
    show s.reservedCount ≤ s₁.reservedCount + 1
    omega
  have hview₂ := hview.extends hext₂ hr (by simp)
  obtain ⟨child, hchild, hviewc⟩ : ∃ child, (TreeImpl.source
      { s₁ with reservedCount := s₁.reservedCount + 1 } srcTree).getChildIndex i = .ok child ∧
      Views (TreeImpl.source { s₁ with reservedCount := s₁.reservedCount + 1 } srcTree)
        r child c := by
    cases hview₂ with
    | node _ _ hchild _ hc _ => exact ⟨_, hchild, hc⟩
  obtain ⟨j, s₃, C, hcopied, hext₃, hflag₃, hC, hCrange⟩ := hcopy hext₂.sized hviewc (by
    intro hnone
    have := hr hnone
    show r ≤ s₁.reservedCount + 1
    omega)
  have hext : Extends ∅ s s₃ := hext₂.trans hext₃ (by simp) (by simp)
  have hres₃ : s.reservedCount < s₃.reservedCount := by
    have := hext₃.reserved_le
    simp only at this
    omega
  have hd : (s₃.source srcTree).dispatchers[i]? = some (some d) := by
    cases hview.extends hext hr (by simp) with
    | node _ hd => exact hd
  obtain ⟨s₄, hs₄, hw₄⟩ := setDispatcher_spec hext.sized
    (hres₃.trans_le hext.sized.reserved_le) (some d)
  obtain ⟨s₅, hs₅, hw₅⟩ := setNextChild_spec hw₄.sized
    (hw₄.capacity_eq ▸ hres₃.trans_le hext.sized.reserved_le) j
  have hother : ∀ k, k ≠ s.reservedCount → slot s₅ k = slot s₃ k := fun k hk => by
    rw [hw₅.others k hk, hw₄.others k hk]
  refine ⟨s₅, ?_, ?_, ?_, ?_, j, C, ?_, ?_, ?_, ?_⟩
  · rw [copySubtree, hs₁, ok_bind]
    simp only [hchild, ok_bind, hcopied, load_eq_ok hd]
    rw [hres₁, hs₄, ok_bind, hs₅, ok_bind]
  · exact (hext.trans (N := ∅) hw₄.extends (by simp) (by simp)).trans hw₅.extends (by simp)
      (by simp)
  · rw [hw₅.reserved_eq, hw₄.reserved_eq]
    exact hres₃
  · rw [hw₅.flag_eq, hw₄.flag_eq, hflag₃]
    exact hflag₁
  · rw [hw₅.here, hw₄.here]
  · rw [hw₅.here]
  · refine hC.congr fun k hk => hother k ?_
    have := (hCrange k hk).1
    simp only at this
    omega
  · intro k hk
    have := hCrange k hk
    simp only at this
    rw [hw₅.reserved_eq, hw₄.reserved_eq]
    omega

/-- What the sibling loop does for the remaining siblings `f`: the last copied
node is linked to their copies. -/
def CopiesSiblings (srcTree : Option (TreeImpl D)) (fuel loopFuel r : Nat) (f : Forest D) : Prop :=
  ∀ {s : TreeImpl D} {index : Int} {last : Nat}, Sized s → Views (s.source srcTree) r index f →
    (srcTree = none → r ≤ last) → last < s.reservedCount →
    ∃ j s' S, copySiblings (copyTreeLevel srcTree fuel) srcTree loopFuel s last index = .ok s' ∧
      Extends {last} s s' ∧ s'.expandTailFirstPath = s.expandTailFirstPath ∧
      slot s' last = ((slot s last).1, (slot s last).2.1, some j) ∧ Denotes s' j f S ∧
      ∀ i ∈ S, s.reservedCount ≤ i ∧ i < s'.reservedCount

theorem copyTreeLevel_spec (srcTree : Option (TreeImpl D)) (r : Nat) (f : Forest D) :
    (∀ fuel, f.height < fuel → CopiesLevel srcTree (copyTreeLevel srcTree fuel) r f) ∧
      ∀ fuel loopFuel, f.height ≤ fuel → f.height < loopFuel →
        CopiesSiblings srcTree fuel loopFuel r f := by
  induction f with
  | nil =>
    refine ⟨?_, ?_⟩
    · intro fuel hfuel s index hs hview _
      obtain ⟨fuel, rfl⟩ : ∃ n, fuel = n + 1 := ⟨fuel - 1, by omega⟩
      cases hview
      exact ⟨nullIndex, s, ∅, by rw [copyTreeLevel, if_pos rfl], .refl hs, rfl, .nil, by simp⟩
    · intro fuel loopFuel _ hloop s index last hs hview _ hlast
      obtain ⟨loopFuel, rfl⟩ : ∃ n, loopFuel = n + 1 := ⟨loopFuel - 1, by omega⟩
      cases hview
      obtain ⟨s', hs', hw⟩ := setNextSibling_spec hs (hlast.trans_le hs.reserved_le) nullIndex
      exact ⟨nullIndex, s', ∅, by rw [copySiblings, if_pos rfl, hs'], hw.extends, hw.flag_eq,
        hw.here, .nil, by simp⟩
  | node d c b ihc ihb =>
    simp only [Forest.height]
    refine ⟨?_, ?_⟩
    · intro fuel hfuel s index hs hview hr
      obtain ⟨fuel, rfl⟩ : ∃ n, fuel = n + 1 := ⟨fuel - 1, by omega⟩
      have hnonnull : index ≠ nullIndex := hview.ne_null
      obtain ⟨i, rfl⟩ := hview.exists_nat
      obtain ⟨s₁, hs₁, hcopied⟩ := copySubtree_spec (ihc.1 fuel (by omega)) hs hview hr
      obtain ⟨child, C, hd, hchild, hC, hCrange⟩ := hcopied.node
      obtain ⟨sibling, hsibling, hviewb⟩ := (hview.extends hcopied.ext hr (by simp)).sibling
      obtain ⟨j, s₂, B, hs₂, hext₂, hflag₂, hslot, hB, hBrange⟩ :=
        ihb.2 fuel fuel (by omega) (by omega) hcopied.ext.sized hviewb hr hcopied.reserved_lt
      have hCs₂ : Denotes s₂ child c C := hC.extends hext₂ (fun k hk => (hCrange k hk).2) (by
        intro k hk
        have := (hCrange k hk).1
        simp only [Finset.mem_singleton]
        omega)
      refine ⟨(s.reservedCount : Int), s₂, insert s.reservedCount (C ∪ B), ?_, ?_, ?_, ?_, ?_⟩
      · rw [copyTreeLevel, if_neg hnonnull, hs₁, ok_bind]
        simp only [load_eq_ok hsibling, ok_bind, hs₂]
      · exact hcopied.ext.trans hext₂ (by simp) (by simp)
      · rw [hflag₂, hcopied.flag_eq]
      · refine .node ?_ hCs₂ hB ?_ ?_ ?_
        · rw [hslot, hd, hchild]
        · intro hmem
          exact Nat.lt_irrefl _ (hCrange _ hmem).1
        · intro hmem
          have := (hBrange _ hmem).1
          have := hcopied.reserved_lt
          omega
        · refine Finset.disjoint_left.mpr fun k hk hk' => ?_
          have := (hCrange k hk).2
          have := (hBrange k hk').1
          omega
      · have := hcopied.reserved_lt
        have := hext₂.reserved_le
        intro k hk
        rcases Finset.mem_insert.mp hk with rfl | hk
        · omega
        · rcases Finset.mem_union.mp hk with hk | hk
          · have := hCrange k hk
            omega
          · have := hBrange k hk
            omega
    · intro fuel loopFuel hfuel hloop s index last hs hview hr hlast
      obtain ⟨loopFuel, rfl⟩ : ∃ n, loopFuel = n + 1 := ⟨loopFuel - 1, by omega⟩
      have hnonnull : index ≠ nullIndex := hview.ne_null
      obtain ⟨i, rfl⟩ := hview.exists_nat
      have hr' : srcTree = none → r ≤ s.reservedCount := fun h => (hr h).trans hlast.le
      obtain ⟨s₁, hs₁, hcopied⟩ := copySubtree_spec (ihc.1 fuel (by omega)) hs hview hr'
      obtain ⟨child, C, hd, hchild, hC, hCrange⟩ := hcopied.node
      have hlast₁ := hlast.trans hcopied.reserved_lt
      obtain ⟨s₂, hs₂, hw₂⟩ := setNextSibling_spec hcopied.ext.sized
        (hlast₁.trans_le hcopied.ext.sized.reserved_le) s.reservedCount
      have hext₂ : Extends {last} s s₂ := hcopied.ext.trans hw₂.extends (by simp) (by simp)
      obtain ⟨sibling, hsibling, hviewb⟩ := (hview.extends hext₂ hr' (by simpa using hr)).sibling
      obtain ⟨j, s₃, B, hs₃, hext₃, hflag₃, hslot, hB, hBrange⟩ :=
        ihb.2 fuel loopFuel (by omega) (by omega) hw₂.sized hviewb hr'
          (hw₂.reserved_eq ▸ hcopied.reserved_lt)
      have hC₃ : Denotes s₃ child c C := by
        refine (hC.congr fun k hk => hw₂.others k ?_).extends hext₃ ?_ ?_
        · have := (hCrange k hk).1
          omega
        · intro k hk
          exact hw₂.reserved_eq ▸ (hCrange k hk).2
        · intro k hk
          have := (hCrange k hk).1
          simp only [Finset.mem_singleton]
          omega
      have hfst : slot s₂ s.reservedCount = slot s₁ s.reservedCount :=
        hw₂.others _ (by omega)
      refine ⟨(s.reservedCount : Int), s₃, insert s.reservedCount (C ∪ B), ?_, ?_, ?_, ?_, ?_, ?_⟩
      · rw [copySiblings, if_neg hnonnull, hs₁, ok_bind]
        simp only [hs₂, ok_bind, load_eq_ok hsibling, hs₃]
      · exact hext₂.trans hext₃ (by simp) (by simp)
      · rw [hflag₃, hw₂.flag_eq, hcopied.flag_eq]
      · rw [hext₃.slots last (hw₂.reserved_eq ▸ hlast₁) (by simp; omega), hw₂.here,
          hcopied.ext.slots last hlast (by simp)]
      · refine .node ?_ hC₃ hB ?_ ?_ ?_
        · rw [hslot, hfst, hd, hchild]
        · intro hmem
          exact Nat.lt_irrefl _ (hCrange _ hmem).1
        · intro hmem
          have := (hBrange _ hmem).1
          have := hcopied.reserved_lt
          have := hw₂.reserved_eq
          omega
        · refine Finset.disjoint_left.mpr fun k hk hk' => ?_
          have := (hCrange k hk).2
          have := (hBrange k hk').1
          have := hw₂.reserved_eq
          omega
      · have := hcopied.reserved_lt
        have := hext₃.reserved_le
        have := hw₂.reserved_eq
        intro k hk
        rcases Finset.mem_insert.mp hk with rfl | hk
        · omega
        · rcases Finset.mem_union.mp hk with hk | hk
          · have := hCrange k hk
            omega
          · have := hBrange k hk
            omega

end OpenJfx.Event.EventDispatchTreeSlots
