import OpenJfx.Control.TreeUtil

namespace OpenJfx.Control.TreeUtil

open Data.Hierarchy Control.TreeItem Control.TreeItem.Heap List

section

variable (children : Nat → List Nat) (expanded : Nat → Bool) (root : Nat)

/-- The item is a later sibling of the root or is shown below one, in an expanded parent. -/
inductive BehindRoot : Nat → Prop
  | sibling {p i : Nat} {front back : List Nat} (hexp : expanded p = true)
      (hp : children p = front ++ root :: back) (hi : i ∈ back) : BehindRoot i
  | child {p i : Nat} (hp : BehindRoot p) (hexp : expanded p = true) (hi : i ∈ children p) :
      BehindRoot i

end

section

variable {children : Nat → List Nat} {expanded : Nat → Bool} {root : Nat}

theorem BehindRoot.exists_parent {i : Nat} (hi : BehindRoot children expanded root i) :
    ∃ p, expanded p = true ∧ i ∈ children p := by
  cases hi with
  | @sibling p _ front back hexp hp hi => exact ⟨p, hexp, by simp [hp, hi]⟩
  | @child p _ _ hexp hi => exact ⟨p, hexp, hi⟩

theorem behindRoot_iff (hf : IsForest children) {p i : Nat} {front back : List Nat}
    (hp : children p = front ++ i :: back) (hexp : expanded p = true) :
    BehindRoot children expanded root i ↔
      root ∈ front ∨ BehindRoot children expanded root p := by
  have hmem : i ∈ children p := by simp [hp]
  constructor
  · intro hi
    cases hi with
    | @sibling q _ front' back' _ hq hi =>
      left
      obtain rfl := hf.parent_unique p q i hmem (by simp [hq, hi])
      have hnd := hf.nodup p
      obtain ⟨between, after, rfl⟩ := append_of_mem hi
      have hsplit : front ++ i :: back = (front' ++ root :: between) ++ i :: after := by
        rw [← hp, hq, append_assoc, cons_append]
      rw [hp, nodup_append, nodup_cons] at hnd
      have hfront : i ∉ front := fun hmem' => hnd.2.2 i hmem' i (by simp) rfl
      rw [((append_cons_inj_of_notMem hfront hnd.2.1.1).mp hsplit).1]
      simp
    | @child q _ hbehind _ hi =>
      right
      rwa [hf.parent_unique p q i hmem hi]
  · rintro (hroot | hbehind)
    · obtain ⟨front', between, rfl⟩ := append_of_mem hroot
      exact .sibling hexp (by rw [hp, append_assoc, cons_append]) (by simp)
    · exact .child hbehind hexp hmem

variable {h : Heap} (treeItemCountDirty isShowRoot : Bool) (root : Nat)

theorem addSiblings_root (siblings : List Nat) (hroot : root ∈ siblings) :
    ∀ (h : Heap) (row : Int), Sound h →
      ∃ r, row < r ∧ (addSiblings treeItemCountDirty isShowRoot root h row siblings).2 =
        .error (if isShowRoot then r else -1) := by
  induction siblings with
  | nil => exact absurd hroot not_mem_nil
  | cons c cs ih =>
    intro h row hs
    have hcnt := (getExpandedDescendantCount_queries treeItemCountDirty (h := h) c).refreshes hs
    have hlen := getExpandedDescendantCount_eq treeItemCountDirty hs c
    have hpos : 0 < (h.rows c).length := by simp [rows_eq hs.toLinked]
    simp only [addSiblings]
    by_cases hc : c = root
    · rw [if_pos hc]
      exact ⟨_, by omega, rfl⟩
    · rw [if_neg hc]
      have hrest : root ∈ cs := (mem_cons.mp hroot).resolve_left (Ne.symm hc)
      obtain ⟨r, hr, heq⟩ := ih hrest _ (row +
        (getExpandedDescendantCount treeItemCountDirty h c).2) hcnt.2
      exact ⟨r, by omega, heq⟩

theorem climb_sibling (hs : Sound h) (fuel : Nat) (row : Int) {front back : List Nat} {i p : Nat}
    (hp : h.children p = front ++ i :: back) (hexp : h.expanded p = true) (hir : i ≠ root)
    (hfront : root ∈ front) :
    ∃ r, row < r ∧ (climb treeItemCountDirty isShowRoot root (fuel + 1) h row i (some p)).2 =
      if isShowRoot then r else -1 := by
  have hnd := hs.forest.nodup p
  rw [hp, nodup_append] at hnd
  have hi : i ∉ front := fun hmem => hnd.2.2 i hmem i (by simp) rfl
  have hexpd := (Queries.isExpanded p .refl : Queries h _).refreshes hs
  have hsiblings : siblingsBefore ((h.isExpanded p).1.children p) i = front.reverse := by
    rw [hexpd.1.children, hp, siblingsBefore_append hi]
  obtain ⟨r, hrow, hres⟩ := addSiblings_root treeItemCountDirty isShowRoot root front.reverse
    (mem_reverse.mpr hfront) (h.isExpanded p).1 row hexpd.2
  refine ⟨r, hrow, ?_⟩
  have hcond : (h.isExpanded p).2 = true := hexp
  simp only [climb, if_neg hir, hcond, hsiblings]
  rcases hadd : addSiblings treeItemCountDirty isShowRoot root (h.isExpanded p).1 row
    front.reverse with ⟨h₁, result⟩
  rw [hadd] at hres
  subst hres
  rfl

/-- The way up from an item that lies neither at nor below the root. -/
theorem climb_foreign (fuel : Nat) :
    ∀ {h : Heap} {rank : Nat → Nat} (row : Int) (i : Nat), Sound h → Ranked h.children rank →
      (∀ x, rank x ≤ h.size) → h.size < fuel + rank i →
      ¬ Relation.ReflTransGen (Child h.children) root i → 0 ≤ row →
      (row = 0 ∨ (h.item i).parent ≠ none) →
      ((climb treeItemCountDirty isShowRoot root fuel h row i (h.item i).parent).2 = -1 ↔
        ¬ (isShowRoot = true ∧ BehindRoot h.children h.expanded root i)) := by
  induction fuel with
  | zero =>
    intro h rank row i _ _ hle hfuel
    have := hle i
    omega
  | succ fuel ih =>
    intro h rank row i hs hrank hle hfuel hforeign hrow hstart
    have hir : i ≠ root := by
      rintro rfl
      exact hforeign .refl
    cases hpar : (h.item i).parent with
    | none =>
      have hzero : row = 0 := hstart.resolve_right (not_not.mpr hpar)
      have hnot : ¬ BehindRoot h.children h.expanded root i := by
        intro hbehind
        obtain ⟨p, -, hmem⟩ := hbehind.exists_parent
        have hp := (hs.parent i p).mpr hmem
        rw [hpar] at hp
        cases hp
      simp [climb, hzero, hnot]
    | some p =>
      have hmem : i ∈ h.children p := (hs.parent i p).mp hpar
      obtain ⟨front, back, hp⟩ := append_of_mem hmem
      cases hexp : h.expanded p with
      | false =>
        have hcond : (h.isExpanded p).2 = false := hexp
        have hnot : ¬ BehindRoot h.children h.expanded root i := by
          intro hbehind
          obtain ⟨q, hq, hmem'⟩ := hbehind.exists_parent
          rw [hs.forest.parent_unique q p i hmem' hmem, hexp] at hq
          cases hq
        simp [climb, hir, hcond, hnot]
      | true =>
        rw [behindRoot_iff hs.forest hp hexp]
        by_cases hfront : root ∈ front
        · obtain ⟨r, hr, hclimb⟩ := climb_sibling treeItemCountDirty isShowRoot root hs fuel
            row hp hexp hir hfront
          rw [hclimb]
          cases isShowRoot with
          | false => simp
          | true => simpa [hfront] using (show r ≠ -1 by omega)
        · obtain ⟨h', hr, hs', hclimb⟩ := climb_up treeItemCountDirty isShowRoot root hs fuel
            row hp hexp hir hfront
          have hforeign' : ¬ Relation.ReflTransGen (Child h.children) root p :=
            fun hbelow => hforeign (hbelow.tail hmem)
          have hpr : p ≠ root := by
            rintro rfl
            exact hforeign' .refl
          rw [hclimb, ← hr.children, ← hr.expanded]
          split_ifs with hnone
          · have hnot : ¬ BehindRoot h'.children h'.expanded root p := by
              intro hbehind
              obtain ⟨q, -, hq⟩ := hbehind.exists_parent
              have hpar' := (hs'.parent p q).mpr hq
              rw [hnone.1] at hpar'
              cases hpar'
            simp [hfront, hnot]
          · have hri := hrank p i hmem
            have hrank' : Ranked h'.children rank := by rwa [hr.children]
            rw [ih _ p hs' hrank' (by rwa [hr.size]) (by rw [hr.size]; omega)
              (by rwa [hr.children]) (by omega) (.inr fun h => hnone ⟨h, hpr⟩)]
            simp [hfront]

end

/-- In every state that operations lead to, the row of an item outside the tree of the root is
`-1` exactly when the root is not shown or the item does not lie behind it. -/
theorem getRow_foreign_iff {h : Heap} (hreachable : Reachable h) (root item : Nat)
    (treeItemCountDirty isShowRoot : Bool) (hne : item ≠ root)
    (hbelow : ¬ Relation.TransGen (Child h.children) root item) :
    (getRow treeItemCountDirty isShowRoot root h item).2 = -1 ↔
      ¬ (isShowRoot = true ∧ BehindRoot h.children h.expanded root item) := by
  have hs := hreachable.sound
  obtain ⟨rank, hrank, hle⟩ := hs.exists_rank
  rw [getRow, if_neg fun heq => hne heq.2]
  refine climb_foreign treeItemCountDirty isShowRoot root
    (h.size + 1) 0 item hs hrank hle (by omega)
    ?_ le_rfl (.inl rfl)
  rw [Relation.reflTransGen_iff_eq_or_transGen]
  rintro (heq | htrans)
  · exact hne heq
  · exact hbelow htrans

/-- Two items have been added to the first one, which has then been expanded. -/
def twoSiblings : Heap :=
  (empty.create.create.create.childrenChanged 0 [1, 2] [1, 2] []).setExpanded 0 true

theorem reachable_twoSiblings : Reachable twoSiblings := by
  refine .setExpanded 0 true (.childrenChanged (.create (.create (.create .empty))) ?_)
  refine ⟨by decide, by decide, ⟨[], by decide, by decide⟩, isForest_new ?_ (by decide) (by decide)⟩
  intro x
  simp only [children, create, Function.update_apply]
  split_ifs <;> rfl

theorem not_below_twoSiblings (i : Nat) :
    ¬ Relation.TransGen (Child twoSiblings.children) 1 i := by
  intro hi
  obtain ⟨c, hc, -⟩ := Relation.TransGen.head'_iff.mp hi
  cases hc

theorem getRow_foreign_twoSiblings : (getRow false false 1 twoSiblings 2).2 = -1 :=
  (getRow_foreign_iff reachable_twoSiblings 1 2 false false (by decide)
    (not_below_twoSiblings 2)).mpr (by simp)

/-- The second child has a row in the tree of the first one. -/
theorem not_getRow_foreign :
    Reachable twoSiblings ∧ ¬ Relation.TransGen (Child twoSiblings.children) 1 2 ∧
      (getRow false true 1 twoSiblings 2).2 = 1 :=
  ⟨reachable_twoSiblings, not_below_twoSiblings 2, by decide⟩

end OpenJfx.Control.TreeUtil
