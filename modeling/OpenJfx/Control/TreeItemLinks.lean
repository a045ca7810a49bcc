import OpenJfx.Control.TreeItemCounts

namespace OpenJfx.Control.TreeItem

namespace Item

theorem updateParent_none (n : Nat) (i : Item) :
    ((updateParent none)^[n] i).children = i.children ∧
      ((updateParent none)^[n] i).parentLinkCount = i.parentLinkCount ∧
      ((updateParent none)^[n] i).parent =
        if i.parentLinkCount = 0 ∧ 0 < n then none else i.parent := by
  induction n generalizing i with
  | zero => simp
  | succ n ih =>
    rw [Function.iterate_succ_apply]
    obtain ⟨hkids, hcnt, hpar⟩ := ih (updateParent none i)
    rw [hkids, hcnt, hpar]
    by_cases hzero : i.parentLinkCount = 0
    · simp [updateParent, hzero]
    · simp [updateParent, hzero]

theorem updateParent_some (x n : Nat) (i : Item) :
    ((updateParent (some x))^[n] i).children = i.children ∧
      ((updateParent (some x))^[n] i).parentLinkCount =
        (if i.parent = some x then i.parentLinkCount + n
        else if i.parentLinkCount = 0 then ((n - 1 : Nat) : Int) else i.parentLinkCount) ∧
      ((updateParent (some x))^[n] i).parent =
        if i.parentLinkCount = 0 ∧ 0 < n then some x else i.parent := by
  induction n generalizing i with
  | zero => by_cases hzero : i.parentLinkCount = 0 <;> simp [hzero]
  | succ n ih =>
    rw [Function.iterate_succ_apply]
    obtain ⟨hkids, hcnt, hpar⟩ := ih (updateParent (some x) i)
    rw [hkids, hcnt, hpar]
    by_cases hmatch : i.parent = some x <;> by_cases hzero : i.parentLinkCount = 0
    · simp [updateParent, hzero, hmatch]
      omega
    · simp [updateParent, hzero, hmatch]
      omega
    · simp [updateParent, hzero, hmatch]
    · simp [updateParent, hzero, hmatch]

end Item

namespace Heap

open List

variable {h : Heap}

theorem updateChildrenParent_iterate (items : List Nat) (newParent : Option Nat) (y : Nat) :
    ∀ h : Heap, (h.updateChildrenParent items newParent).item y =
      (Item.updateParent newParent)^[items.count y] (h.item y) := by
  induction items with
  | nil => exact fun h => rfl
  | cons x items ih =>
    intro h
    rw [updateChildrenParent, foldl_cons, ← updateChildrenParent, ih, update_item]
    by_cases hx : y = x
    · rw [if_pos hx, hx, count_cons_self, Function.iterate_succ_apply]
    · rw [if_neg hx, count_cons_of_ne (Ne.symm hx)]

/-- A change of the list of children of an item: what is reported as added and removed. -/
structure ChildrenEdit where
  item : Nat
  after : List Nat
  added : List Nat
  removed : List Nat

def edit (h : Heap) (e : ChildrenEdit) : Heap :=
  h.childrenChanged e.item e.after e.added e.removed

def SingleOwner (children : Nat → List Nat) : Prop :=
  ∀ p q y, y ∈ children p → y ∈ children q → p = q

/-- The change tells how the list has been edited, and leaves every item in one list at most. -/
def Edits (h : Heap) (e : ChildrenEdit) : Prop :=
  (∃ kept, (h.children e.item).Perm (kept ++ e.removed) ∧ e.after.Perm (kept ++ e.added)) ∧
    SingleOwner (Function.update h.children e.item e.after)

/-- The parent links are the children lists, read backwards. -/
def ParentsRight (h : Heap) : Prop := ∀ y p, (h.item y).parent = some p ↔ y ∈ h.children p

/-- No item whose links have been counted loses its last occurrence. -/
def KeepsCounted (h : Heap) (e : ChildrenEdit) : Prop :=
  ∀ y ∈ h.children e.item, (h.item y).parentLinkCount ≠ 0 → y ∈ e.after

def IsRun : Heap → List ChildrenEdit → Prop
  | _, [] => True
  | h, e :: es => h.Edits e ∧ IsRun (h.edit e) es

def AtStates (P : Heap → Prop) : Heap → List ChildrenEdit → Prop
  | h, [] => P h
  | h, e :: es => P h ∧ AtStates P (h.edit e) es

def AtSteps (P : Heap → ChildrenEdit → Prop) : Heap → List ChildrenEdit → Prop
  | _, [] => True
  | h, e :: es => P h e ∧ AtSteps P (h.edit e) es

structure Counted (h : Heap) : Prop where
  right : h.ParentsRight
  nonneg : ∀ y, 0 ≤ (h.item y).parentLinkCount
  parent_ne : ∀ y, (h.item y).parentLinkCount ≠ 0 → (h.item y).parent ≠ none
  le : ∀ y p, (((h.children p).count y : Nat) : Int) ≤ (h.item y).parentLinkCount + 1

/-- What an edit of the children of `x` does to an item that occurs `removed` times among the
removed and `added` times among the added ones. -/
def relinked (x removed added : Nat) (i : Item) : Option Nat × Int :=
  let parent := if i.parentLinkCount = 0 ∧ 0 < removed then none else i.parent
  (if i.parentLinkCount = 0 ∧ 0 < added then some x else parent,
    if parent = some x then i.parentLinkCount + added
    else if i.parentLinkCount = 0 then ((added - 1 : Nat) : Int) else i.parentLinkCount)

theorem edit_item (h : Heap) (e : ChildrenEdit) (y : Nat) :
    (h.edit e).children y = Function.update h.children e.item e.after y ∧
      (((h.edit e).item y).parent, ((h.edit e).item y).parentLinkCount) =
        relinked e.item (e.removed.count y) (e.added.count y) (h.item y) := by
  rw [Heap.edit, childrenChanged]
  generalize hh : ((h.update e.item fun i => { i with children := e.after }).update e.item
    .markDirty).update e.item (fun i => { i with leaf := e.after.isEmpty }) = h₁
  have hitem : h₁.item y = if y = e.item then { h.item y with
      children := e.after, leaf := e.after.isEmpty, expandedDescendentCountDirty := true }
      else h.item y := by
    rw [← hh, update_item, update_item, update_item]
    split_ifs <;> rfl
  have hshape := (fireEvent_shape ((h₁.updateChildrenParent e.removed none).updateChildrenParent
    e.added (some e.item)) e.item).shape y
  rw [updateChildrenParent_iterate, updateChildrenParent_iterate] at hshape
  obtain ⟨hkids, hcnt, hpar⟩ := Item.updateParent_some e.item (e.added.count y)
    ((Item.updateParent none)^[e.removed.count y] (h₁.item y))
  obtain ⟨hkids', hcnt', hpar'⟩ := Item.updateParent_none (e.removed.count y) (h₁.item y)
  rw [hkids'] at hkids
  rw [hcnt', hpar'] at hcnt hpar
  have hsame : (h₁.item y).parent = (h.item y).parent ∧
      (h₁.item y).parentLinkCount = (h.item y).parentLinkCount := by
    rw [hitem]
    split_ifs <;> exact ⟨rfl, rfl⟩
  rw [hsame.1, hsame.2] at hcnt hpar
  refine ⟨(congrArg Prod.fst hshape).trans (hkids.trans ?_), ?_⟩
  · rw [hitem, Function.update_apply]
    split_ifs <;> rfl
  · rw [relinked, Prod.mk.injEq]
    exact ⟨(congrArg (·.2.1) hshape).trans hpar, (congrArg (·.2.2.1) hshape).trans hcnt⟩

structure Listed (h : Heap) (e : ChildrenEdit) (kept : List Nat) (y : Nat) : Prop where
  before : y ∈ h.children e.item ↔ y ∈ kept ∨ y ∈ e.removed
  after : y ∈ e.after ↔ y ∈ kept ∨ y ∈ e.added
  children : ∀ p, y ∈ (h.edit e).children p ↔ if p = e.item then y ∈ e.after else y ∈ h.children p
  owner : ∀ p, p ≠ e.item → y ∈ h.children p → y ∉ e.after

variable {e : ChildrenEdit}

theorem Edits.listed (he : h.Edits e) : ∃ kept : List Nat,
    (h.children e.item).Perm (kept ++ e.removed) ∧ e.after.Perm (kept ++ e.added) ∧
      ∀ y, h.Listed e kept y := by
  obtain ⟨⟨kept, hbef, hafter⟩, hsingle⟩ := he
  refine ⟨kept, hbef, hafter, fun y => ⟨by rw [hbef.mem_iff, mem_append],
    by rw [hafter.mem_iff, mem_append], fun p => ?_, fun p hp hy hy' => hp ?_⟩⟩
  · rw [(h.edit_item e p).1, Function.update_apply]
    split_ifs <;> rfl
  · exact hsingle p e.item y (by rwa [Function.update_of_ne hp]) (by rwa [Function.update_self])

theorem Counted.parentsRight_edit_iff (hc : h.Counted) (he : h.Edits e) :
    (h.edit e).ParentsRight ↔ h.KeepsCounted e := by
  obtain ⟨kept, hbef, -, hlisted⟩ := he.listed
  have hpar : ∀ y, ((h.edit e).item y).parent =
      (relinked e.item (e.removed.count y) (e.added.count y) (h.item y)).1 := fun y =>
    congrArg Prod.fst (h.edit_item e y).2
  simp only [relinked, count_pos_iff] at hpar
  constructor
  · intro hright y hy hne
    have hp := hpar y
    rw [if_neg (by simp [hne]), if_neg (by simp [hne]), (hc.right y e.item).mpr hy] at hp
    have hmem := (hright y e.item).mp hp
    rwa [(hlisted y).children, if_pos rfl] at hmem
  · intro hkeeps y p
    obtain ⟨hmem, hmem', hkids, howner⟩ := hlisted y
    have hright := hc.right y
    rw [hpar]
    by_cases hzero : (h.item y).parentLinkCount = 0
    · have hle := hc.le y e.item
      simp only [hzero, true_and]
      by_cases hadded : y ∈ e.added
      · grind
      · by_cases hrem : y ∈ e.removed
        · -- the last occurrence is removed
          grind
        · grind
    · have hlisted := hc.parent_ne y hzero
      have hkeeps := hkeeps y
      obtain ⟨q, hq⟩ := Option.ne_none_iff_exists'.mp hlisted
      grind

theorem Counted.edit (hc : h.Counted) (he : h.Edits e) (hright : (h.edit e).ParentsRight) :
    (h.edit e).Counted := by
  obtain ⟨kept, hbef, hafter, hlisted⟩ := he.listed
  have hlinks := fun y => (h.edit_item e y).2
  simp only [relinked, Prod.mk.injEq] at hlinks
  refine ⟨hright, fun y => ?_, fun y => ?_, fun y p => ?_⟩
  · have := hc.nonneg y
    rw [(hlinks y).2]
    split_ifs <;> omega
  · have hne := hc.parent_ne y
    grind
  · have hle := hc.le y p
    have hne := hc.parent_ne y
    have hright' := hc.right y
    obtain ⟨hmem, hmem', -, howner⟩ := hlisted y
    rw [(h.edit_item e p).1, (hlinks y).2, Function.update_apply]
    by_cases hp : p = e.item
    · have hlost : (h.item y).parentLinkCount ≠ 0 → (h.item y).parent ≠ some e.item →
          y ∉ e.after := by
        intro hzero hother
        obtain ⟨q, hq⟩ := Option.ne_none_iff_exists'.mp (hne hzero)
        exact howner q (fun heq => hother (heq ▸ hq)) ((hright' q).mp hq)
      grind
    · split_ifs <;> omega

theorem atStates_head {P : Heap → Prop} {es : List ChildrenEdit} (h : Heap)
    (hes : AtStates P h es) : P h := by
  cases es with
  | nil => exact hes
  | cons e es => exact hes.1

theorem Counted.atStates_iff (es : List ChildrenEdit) :
    ∀ {h : Heap}, h.Counted → IsRun h es →
      (AtStates ParentsRight h es ↔ AtSteps KeepsCounted h es) := by
  induction es with
  | nil => exact fun hc _ => iff_of_true hc.right trivial
  | cons e es ih =>
    intro h hc hrun
    have hstep := hc.parentsRight_edit_iff hrun.1
    constructor
    · rintro ⟨-, hes⟩
      have hright := atStates_head _ hes
      exact ⟨hstep.mp hright, (ih (hc.edit hrun.1 hright) hrun.2).mp hes⟩
    · rintro ⟨hkeeps, hes⟩
      exact ⟨hc.right, (ih (hc.edit hrun.1 (hstep.mpr hkeeps)) hrun.2).mpr hes⟩

/-- Items without children. -/
def fresh (size : Nat) : Heap := ⟨size, fun _ => .new⟩

theorem counted_fresh (size : Nat) : (fresh size).Counted where
  right _ _ := iff_of_false nofun not_mem_nil
  nonneg _ := le_rfl
  parent_ne _ hne := absurd rfl hne
  le _ _ := by simp [fresh, children, Item.new]

/-- In every run, the parents are right all the time exactly when no step takes an item whose
links have been counted out of its list altogether. -/
theorem parentsRight_iff (size : Nat) (es : List ChildrenEdit) (hrun : IsRun (fresh size) es) :
    AtStates ParentsRight (fresh size) es ↔ AtSteps KeepsCounted (fresh size) es :=
  (counted_fresh size).atStates_iff es hrun

theorem singleOwner_update {cs : List Nat} {p : Nat} {children : Nat → List Nat}
    (h : ∀ q, q ≠ p → children q = []) : SingleOwner (Function.update children p cs) := by
  have hmem : ∀ q y, y ∈ Function.update children p cs q → q = p := by
    intro q y hy
    by_contra hne
    rw [Function.update_of_ne hne, h q hne] at hy
    exact not_mem_nil hy
  exact fun q r y hq hr => (hmem q y hq).trans (hmem r y hr).symm

/-- An item is added, added once more, and taken out. -/
def addedTwice : List ChildrenEdit :=
  [⟨0, [1], [1], []⟩, ⟨0, [1, 1], [1], []⟩, ⟨0, [], [], [1, 1]⟩]

theorem isRun_addedTwice : IsRun (fresh 2) addedTwice := by
  have hedit : ∀ (h : Heap) (e : ChildrenEdit), e.item = 0 → (∀ q, q ≠ 0 → h.children q = []) →
      ∀ q, q ≠ 0 → (h.edit e).children q = [] := by
    intro h e he hnil q hq
    rw [(h.edit_item e q).1, Function.update_of_ne (he ▸ hq), hnil q hq]
  have hnil : ∀ q, q ≠ 0 → (fresh 2).children q = [] := fun q _ => rfl
  refine ⟨⟨⟨[], by decide, by decide⟩, singleOwner_update hnil⟩,
    ⟨⟨[1], by decide, by decide⟩, singleOwner_update (hedit _ _ rfl hnil)⟩,
    ⟨⟨[], by decide, by decide⟩, singleOwner_update (hedit _ _ rfl (hedit _ _ rfl hnil))⟩, trivial⟩

theorem parentsRight_added : AtStates ParentsRight (fresh 2) [⟨0, [1], [1], []⟩] :=
  (parentsRight_iff 2 [⟨0, [1], [1], []⟩] ⟨isRun_addedTwice.1, trivial⟩).mpr ⟨nofun, trivial⟩

theorem not_parentsRight :
    IsRun (fresh 2) addedTwice ∧ ¬ AtStates ParentsRight (fresh 2) addedTwice := by
  refine ⟨isRun_addedTwice, fun h => ?_⟩
  have hlast := (h.2.2.2 1 0).mp (by decide)
  revert hlast
  decide

end Heap

end OpenJfx.Control.TreeItem
