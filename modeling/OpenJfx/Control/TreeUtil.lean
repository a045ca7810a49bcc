import OpenJfx.Control.TreeItemRun

/-!
`javafx.scene.control.TreeUtil`: the item of a row and the row of an item. One
function walks down and leaves out whole subtrees by their counts, the other
one walks up and adds the counts of the siblings before the item.
-/

namespace OpenJfx.Control.TreeUtil

open Data.Hierarchy Control.TreeItem Control.TreeItem.Heap List

section

variable (treeItemCountDirty : Bool)

def getExpandedDescendantCount (h : Heap) (node : Nat) : Heap × Nat :=
  if (h.item node).leaf then (h, 1)
  else getExpandedDescendentCount treeItemCountDirty (h.size + 1) h node

section

variable (getItem : Heap → Nat → Int → Heap × Option Nat)

def searchChildren : Heap → List Nat → Int → Heap × Option Nat
  | h, [], _ => (h, none)
  | h, child :: children, idx =>
    if idx = 0 then (h, some child)
    else if (h.item child).leaf then searchChildren h children (idx - 1)
    else
      let (h, expanded) := h.isExpanded child
      if expanded then
        let (h, expandedChildCount) := getExpandedDescendantCount treeItemCountDirty h child
        if idx ≥ expandedChildCount then searchChildren h children (idx - expandedChildCount)
        else
          match getItem h child idx with
          | (h, some result) => (h, some result)
          | (h, none) => searchChildren h children (idx - 1)
      else searchChildren h children (idx - 1)

end

def getItem : Nat → Heap → Nat → Int → Heap × Option Nat
  | 0, h, _, _ => (h, none)
  | fuel + 1, h, parent, itemIndex =>
    if itemIndex = 0 then (h, some parent)
    else
      let (h, n) := getExpandedDescendantCount treeItemCountDirty h parent
      if itemIndex ≥ n then (h, none)
      else searchChildren treeItemCountDirty (getItem fuel) h (h.children parent) (itemIndex - 1)

variable (isShowRoot : Bool) (root : Nat)

def siblingsBefore (siblings : List Nat) (i : Nat) : List Nat :=
  (siblings.take ((siblings.idxOf? i).getD 0)).reverse

/-- The loop over the siblings; an error is a `return` in it. -/
def addSiblings : Heap → Int → List Nat → Heap × Except Int Int
  | h, row, [] => (h, .ok row)
  | h, row, sibling :: siblings =>
    let (h, n) := getExpandedDescendantCount treeItemCountDirty h sibling
    let row := row + n
    if sibling = root then (h, .error (if isShowRoot then row else -1))
    else addSiblings h row siblings

/-- The loop that goes from `i` to its parent `p`, and what is returned after it. -/
def climb : Nat → Heap → Int → Nat → Option Nat → Heap × Int
  | 0, h, _, _, _ => (h, -1)
  | fuel + 1, h, row, i, p =>
    match p with
    | none => (h, if row = 0 then -1 else if isShowRoot then row else row - 1)
    | some p =>
      if i = root then (h, if isShowRoot then row else row - 1)
      else
        let (h, expanded) := h.isExpanded p
        if expanded then
          match addSiblings treeItemCountDirty isShowRoot root h row
            (siblingsBefore (h.children p) i) with
          | (h, .error result) => (h, result)
          | (h, .ok row) =>
            if (h.item p).parent = none ∧ p ≠ root then (h, -1)
            else climb fuel h (row + 1) p (h.item p).parent
        else (h, -1)

def getRow (h : Heap) (item : Nat) : Heap × Int :=
  if isShowRoot ∧ item = root then (h, 0)
  else climb treeItemCountDirty isShowRoot root (h.size + 1) h 0 item (h.item item).parent

end

inductive Queries (h : Heap) : Heap → Prop
  | refl : Queries h h
  | isExpanded {h' : Heap} (x : Nat) : Queries h h' → Queries h (h'.isExpanded x).1
  | getExpandedDescendentCount {h' : Heap} (reset : Bool) (x : Nat) :
      Queries h h' → Queries h (getExpandedDescendentCount reset (h'.size + 1) h' x).1

section

variable {h h' : Heap}

theorem Queries.trans {h₁ : Heap} (hq : Queries h h₁) (hq' : Queries h₁ h') : Queries h h' := by
  induction hq' with
  | refl => exact hq
  | isExpanded x _ ih => exact .isExpanded x ih
  | getExpandedDescendentCount reset x _ ih => exact .getExpandedDescendentCount reset x ih

theorem Queries.refreshes (hq : Queries h h') (hs : Sound h) : Refreshes h h' ∧ Sound h' := by
  induction hq with
  | refl => exact ⟨.refl h, hs⟩
  | isExpanded x _ ih =>
    exact ⟨ih.1.trans (refreshes_validate _ x), sound_validate ih.2 x⟩
  | getExpandedDescendentCount reset x _ ih =>
    obtain ⟨hr, hs', -⟩ := getExpandedDescendentCount_spec ih.2 reset x
    exact ⟨ih.1.trans hr, hs'⟩

variable (treeItemCountDirty : Bool)

theorem getExpandedDescendantCount_queries (x : Nat) :
    Queries h (getExpandedDescendantCount treeItemCountDirty h x).1 := by
  rw [getExpandedDescendantCount]
  split_ifs
  · exact .refl
  · exact .getExpandedDescendentCount treeItemCountDirty x .refl

theorem getExpandedDescendantCount_eq (hs : Sound h) (x : Nat) :
    (getExpandedDescendantCount treeItemCountDirty h x).2 = (h.rows x).length := by
  rw [getExpandedDescendantCount]
  split_ifs with hleaf
  · rw [hs.leaf, List.isEmpty_iff] at hleaf
    rw [rows_of_nil hs.toLinked hleaf]
    rfl
  · exact (getExpandedDescendentCount_spec hs treeItemCountDirty x).2.2

def Finds (h : Heap) (find : Heap → Nat → Int → Heap × Option Nat) (x : Nat) : Prop :=
  ∀ h' (idx : Nat), Refreshes h h' → Sound h' → (find h' x idx).2 = (h.rows x)[idx]?

theorem searchChildren_eq {find : Heap → Nat → Int → Heap × Option Nat} (cs : List Nat) :
    ∀ (h' : Heap) (idx : Nat), (∀ c ∈ cs, Finds h find c) → Refreshes h h' → Sound h' →
      (searchChildren treeItemCountDirty find h' cs idx).2 = (cs.flatMap h.rows)[idx]? := by
  induction cs with
  | nil => exact fun h' idx _ _ _ => rfl
  | cons c cs ih =>
    intro h' idx hfind hr hs
    have hrest : ∀ c' ∈ cs, Finds h find c' := fun c' hc' => hfind c' (by simp [hc'])
    have hexpd := (Queries.isExpanded c .refl : Queries h' _).refreshes hs
    have hcnt := (getExpandedDescendantCount_queries treeItemCountDirty
      (h := (h'.isExpanded c).1) c).refreshes hexpd.2
    rw [flatMap_cons]
    have hskip : ∀ h'', h.rows c = [c] → Refreshes h h'' → Sound h'' → idx ≠ 0 →
        (searchChildren treeItemCountDirty find h'' cs ((idx : Int) - 1)).2 =
          (h.rows c ++ cs.flatMap h.rows)[idx]? := by
      intro h'' hrow hr' hs' hidx
      have hcast : (idx : Int) - 1 = ((idx - 1 : Nat) : Int) := by omega
      rw [hcast, ih h'' (idx - 1) hrest hr' hs', hrow]
      have hlen : [c].length ≤ idx := Nat.pos_of_ne_zero hidx
      exact (getElem?_append_right hlen).symm
    simp only [searchChildren]
    split_ifs with hzero hleaf hexp hge
    · have hidx : idx = 0 := by omega
      rw [hidx, ← hr.rows, rows_eq hs.toLinked]
      rfl
    · rw [hs.leaf, List.isEmpty_iff, hr.children] at hleaf
      refine hskip h' ?_ hr hs (by omega)
      rw [← hr.rows, rows_of_nil hs.toLinked (by rw [hr.children]; exact hleaf)]
    · rw [getExpandedDescendantCount_eq treeItemCountDirty hexpd.2, hexpd.1.rows,
        hr.rows] at hge ⊢
      have hcast : (idx : Int) - (h.rows c).length = ((idx - (h.rows c).length : Nat) : Int) := by
        omega
      rw [hcast, ih _ _ hrest ((hr.trans hexpd.1).trans hcnt.1) hcnt.2]
      exact (getElem?_append_right (by omega)).symm
    · rw [getExpandedDescendantCount_eq treeItemCountDirty hexpd.2, hexpd.1.rows,
        hr.rows] at hge
      have hcall := hfind c (by simp) _ idx ((hr.trans hexpd.1).trans hcnt.1) hcnt.2
      rw [getElem?_eq_getElem (by omega)] at hcall
      rw [getElem?_append_left (by omega), getElem?_eq_getElem (by omega)]
      split
      · rename_i h₁ result heq
        rw [heq] at hcall
        exact hcall
      · rename_i h₁ heq
        rw [heq] at hcall
        cases hcall
    · refine hskip _ ?_ (hr.trans hexpd.1) hexpd.2 (by omega)
      rw [← hr.rows, rows_of_not_expanded hs.toLinked]
      simpa [isExpanded] using hexp

variable {rank : Nat → Nat}

theorem getItem_eq (fuel : Nat) :
    ∀ (h : Heap) (x : Nat) (itemIndex : Nat), Ranked h.children rank → rank x < fuel → Sound h →
      (getItem treeItemCountDirty fuel h x itemIndex).2 = (h.rows x)[itemIndex]? := by
  induction fuel with
  | zero => exact fun h x itemIndex _ hfuel _ => absurd hfuel (Nat.not_lt_zero _)
  | succ fuel ih =>
    intro h x itemIndex hrank hfuel hs
    have hcnt := (getExpandedDescendantCount_queries treeItemCountDirty (h := h) x).refreshes hs
    have hlen := getExpandedDescendantCount_eq treeItemCountDirty hs x
    simp only [getItem]
    split_ifs with hzero hge
    · have hidx : itemIndex = 0 := by omega
      rw [hidx, rows_eq hs.toLinked]
      rfl
    · rw [getElem?_eq_none (by omega)]
    · rw [hlen] at hge
      have hcast : (itemIndex : Int) - 1 = ((itemIndex - 1 : Nat) : Int) := by omega
      have hfinds : ∀ c ∈ h.children x, Finds h (getItem treeItemCountDirty fuel) c := by
        intro c hc h' idx hr hs'
        rw [← hr.rows]
        refine ih h' c idx (by rwa [hr.children]) ?_ hs'
        have := hrank x c hc
        omega
      rw [hcast, hcnt.1.children,
        searchChildren_eq treeItemCountDirty (h := h) _ _ _ hfinds hcnt.1 hcnt.2]
      have hexp : h.expanded x = true := by
        cases hexp : h.expanded x with
        | true => rfl
        | false =>
          rw [rows_of_not_expanded hs.toLinked hexp] at hge
          simp at hge
          omega
      rw [rows_eq hs.toLinked x, hexp]
      obtain ⟨k, rfl⟩ : ∃ k, itemIndex = k + 1 := ⟨itemIndex - 1, by omega⟩
      rfl

variable (isShowRoot : Bool) (root : Nat)

theorem addSiblings_queries (siblings : List Nat) :
    ∀ (h : Heap) (row : Int),
      Queries h (addSiblings treeItemCountDirty isShowRoot root h row siblings).1 := by
  induction siblings with
  | nil => exact fun h row => .refl
  | cons c cs ih =>
    intro h row
    have hcnt := getExpandedDescendantCount_queries treeItemCountDirty (h := h) c
    simp only [addSiblings]
    split_ifs
    · exact hcnt
    · exact hcnt
    · exact hcnt.trans (ih _ _)

theorem addSiblings_eq (siblings : List Nat) (hroot : root ∉ siblings) :
    ∀ (h : Heap) (row : Int), Sound h →
      (addSiblings treeItemCountDirty isShowRoot root h row siblings).2 =
        .ok (row + ((siblings.flatMap h.rows).length : Nat)) := by
  induction siblings with
  | nil => exact fun h row _ => by simp [addSiblings]
  | cons c cs ih =>
    intro h row hs
    rw [mem_cons, not_or] at hroot
    have hcnt := (getExpandedDescendantCount_queries treeItemCountDirty (h := h) c).refreshes hs
    simp only [addSiblings, if_neg (Ne.symm hroot.1)]
    rw [ih hroot.2 _ _ hcnt.2, getExpandedDescendantCount_eq treeItemCountDirty hs c,
      hcnt.1.rows, flatMap_cons, length_append]
    push_cast
    rw [Int.add_assoc]

variable {front back : List Nat} {i : Nat}

theorem siblingsBefore_append (hi : i ∉ front) :
    siblingsBefore (front ++ i :: back) i = front.reverse := by
  have hidx : (front ++ i :: back).idxOf? i = some front.length := by
    induction front with
    | nil => simp [idxOf?_cons]
    | cons c front ih =>
      rw [mem_cons, not_or] at hi
      rw [cons_append, idxOf?_cons, ih hi.2]
      simp [Ne.symm hi.1]
  rw [siblingsBefore, hidx, Option.getD_some, take_left]

theorem climb_up (hs : Sound h) (fuel : Nat) (row : Int) {p : Nat}
    (hp : h.children p = front ++ i :: back) (hexp : h.expanded p = true) (hir : i ≠ root)
    (hfront : root ∉ front) :
    ∃ h', Refreshes h h' ∧ Sound h' ∧
      (climb treeItemCountDirty isShowRoot root (fuel + 1) h row i (some p)).2 =
        if (h'.item p).parent = none ∧ p ≠ root then -1
        else (climb treeItemCountDirty isShowRoot root fuel h'
          (row + ((front.flatMap h.rows).length : Nat) + 1) p (h'.item p).parent).2 := by
  have hnd := hs.forest.nodup p
  rw [hp, nodup_append] at hnd
  have hi : i ∉ front := fun hmem => hnd.2.2 i hmem i (by simp) rfl
  have hexpd := (Queries.isExpanded p .refl : Queries h _).refreshes hs
  have hadd := (addSiblings_queries treeItemCountDirty isShowRoot root front.reverse
    (h.isExpanded p).1 row).refreshes hexpd.2
  have hrow := addSiblings_eq treeItemCountDirty isShowRoot root front.reverse
    (fun hmem => hfront (mem_reverse.mp hmem)) (h.isExpanded p).1 row hexpd.2
  have hlen : (front.reverse.flatMap h.rows).length = (front.flatMap h.rows).length :=
    ((reverse_perm front).flatMap_right h.rows).length_eq
  rw [hexpd.1.rows, hlen] at hrow
  refine ⟨_, hexpd.1.trans hadd.1, hadd.2, ?_⟩
  have hsiblings : siblingsBefore ((h.isExpanded p).1.children p) i = front.reverse := by
    rw [hexpd.1.children, hp, siblingsBefore_append hi]
  have hcond : (h.isExpanded p).2 = true := hexp
  simp only [climb, if_neg hir, hcond, if_true, hsiblings]
  rcases hres : addSiblings treeItemCountDirty isShowRoot root (h.isExpanded p).1 row
    front.reverse with ⟨h₁, result⟩
  rw [hres] at hrow
  subst hrow
  simp only [apply_ite Prod.snd]

theorem climb_step (hs : Sound h) (fuel : Nat) (row : Int) {p : Nat}
    (hp : h.children p = front ++ i :: back) (hexp : h.expanded p = true)
    (hroot : Relation.ReflTransGen (Child h.children) root p) :
    ∃ h', Refreshes h h' ∧ Sound h' ∧
      (climb treeItemCountDirty isShowRoot root (fuel + 1) h row i (some p)).2 =
        (climb treeItemCountDirty isShowRoot root fuel h'
          (row + ((front.flatMap h.rows).length : Nat) + 1) p (h'.item p).parent).2 := by
  have hbelow : ∀ c ∈ h.children p, c ≠ root := by
    rintro c hc rfl
    exact hs.forest.acyclic c (.tail' hroot hc)
  obtain ⟨h', hr, hs', hclimb⟩ := climb_up treeItemCountDirty isShowRoot root hs fuel row hp hexp
    (hbelow i (by rw [hp]; simp)) (fun hmem => hbelow root (by rw [hp]; simp [hmem]) rfl)
  refine ⟨h', hr, hs', ?_⟩
  have hlast : ¬ ((h'.item p).parent = none ∧ p ≠ root) := by
    rintro ⟨hnone, hne⟩
    rcases Relation.ReflTransGen.cases_tail hroot with heq | ⟨q, _, hq⟩
    · exact hne heq
    · have hpar := (hs'.parent p q).mpr (by rwa [hr.children])
      rw [hnone] at hpar
      cases hpar
  rw [hclimb, if_neg hlast]

def atRoot (row : Int) : Int := if isShowRoot then row else row - 1

theorem climb_root (fuel : Nat) {row : Int} (hrow : 0 < row) (p : Option Nat) :
    (climb treeItemCountDirty isShowRoot root (fuel + 1) h row root p).2 =
      atRoot isShowRoot row := by
  cases p with
  | none => simp [climb, atRoot, hrow.ne']
  | some p => simp [climb, atRoot]

theorem climb_shown (hs : Sound h) (hrank : Ranked h.children rank) (hle : ∀ x, rank x ≤ h.size)
    (hi : Shown h.children h.expanded root i) :
    ∃ front back, h.rows root = front ++ h.rows i ++ back ∧
      ∀ (fuel : Nat) (h' : Heap) (row : Int), h.size < fuel + rank i → 0 ≤ row →
        Refreshes h h' → Sound h' →
        (climb treeItemCountDirty isShowRoot root fuel h' row i (h'.item i).parent).2 =
          atRoot isShowRoot (row + (front.length : Nat)) := by
  -- the rows of an expanded item around those of its child
  have hsplit : ∀ {p i : Nat} {before after : List Nat}, h.expanded p = true →
      h.children p = before ++ i :: after →
      h.rows p = (p :: before.flatMap h.rows) ++ h.rows i ++ after.flatMap h.rows := by
    intro p i before after hexp hp
    rw [rows_eq hs.toLinked p, hexp, hp]
    simp
  induction hi with
  | @child i hexp hc =>
    rcases append_of_mem hc with ⟨before, after, hp⟩
    refine ⟨_, _, hsplit hexp hp, ?_⟩
    intro fuel h' row hfuel hrow hr hs'
    have hri := hrank root i hc
    have hroot := hle root
    obtain ⟨fuel, rfl⟩ : ∃ k, fuel = k + 1 + 1 := ⟨fuel - 2, by omega⟩
    have hpar : (h'.item i).parent = some root :=
      (hs'.parent i root).mpr (by rwa [hr.children])
    obtain ⟨h₁, -, -, hstep⟩ := climb_step treeItemCountDirty isShowRoot root hs'
      (fuel + 1) row (by rw [hr.children, hp]) (by rw [hr.expanded, hexp]) .refl
    rw [hpar, hstep, climb_root treeItemCountDirty isShowRoot root fuel (by omega), hr.rows]
    congr 1
    rw [length_cons]
    omega
  | @further p i hp hexp hc ih =>
    rcases ih with ⟨front, back, hrows, hclimb⟩
    rcases append_of_mem hc with ⟨before, after, hkids⟩
    refine ⟨front ++ (p :: before.flatMap h.rows), after.flatMap h.rows ++ back, ?_, ?_⟩
    · rw [hrows, hsplit hexp hkids]
      simp only [append_assoc]
    · intro fuel h' row hfuel hrow hr hs'
      have hri := hrank p i hc
      have hsize := hle p
      obtain ⟨fuel, rfl⟩ : ∃ k, fuel = k + 1 := ⟨fuel - 1, by omega⟩
      have hpar : (h'.item i).parent = some p := (hs'.parent i p).mpr (by rwa [hr.children])
      obtain ⟨h₁, hr₁, hs₁, hstep⟩ := climb_step treeItemCountDirty isShowRoot root hs'
        fuel row (by rw [hr.children, hkids]) (by rw [hr.expanded, hexp])
        (by rw [hr.children]; exact hp.below_root.to_reflTransGen)
      rw [hpar, hstep, hclimb fuel h₁ _ (by omega) (by omega) (hr.trans hr₁) hs₁, hr.rows]
      congr 1
      rw [length_append, length_cons]
      omega

theorem climb_hidden (hrank : Ranked h.children rank) (hle : ∀ x, rank x ≤ h.size)
    (hi : Relation.TransGen (Child h.children) root i)
    (hhidden : ¬ Shown h.children h.expanded root i) :
    ∀ (fuel : Nat) (h' : Heap) (row : Int), h.size < fuel + rank i → Refreshes h h' → Sound h' →
      (climb treeItemCountDirty isShowRoot root fuel h' row i (h'.item i).parent).2 = -1 := by
  have hcollapsed : ∀ {p i : Nat} (fuel : Nat) (h' : Heap) (row : Int),
      Relation.ReflTransGen (Child h.children) root p → i ∈ h.children p →
      h.expanded p = false → Refreshes h h' → Sound h' →
      (climb treeItemCountDirty isShowRoot root (fuel + 1) h' row i (some p)).2 = -1 := by
    intro p i fuel h' row hp hc hexp hr hs'
    have hir : i ≠ root := by
      rintro rfl
      refine hs'.forest.acyclic i ?_
      rw [hr.children]
      exact .tail' hp hc
    have hcond : (h'.isExpanded p).2 = false := by
      change h'.expanded p = false
      rw [hr.expanded, hexp]
    simp only [climb, if_neg hir, hcond, Bool.false_eq_true, if_false]
  induction hi with
  | @single i hc =>
    intro fuel h' row hfuel hr hs'
    have hri := hrank root i hc
    have hsize := hle root
    obtain ⟨fuel, rfl⟩ : ∃ k, fuel = k + 1 := ⟨fuel - 1, by omega⟩
    have hpar : (h'.item i).parent = some root :=
      (hs'.parent i root).mpr (by rwa [hr.children])
    rw [hpar]
    refine hcollapsed fuel h' row .refl hc ?_ hr hs'
    exact Bool.eq_false_iff.mpr fun hexp => hhidden (.child hexp hc)
  | @tail p i hp hc ih =>
    intro fuel h' row hfuel hr hs'
    have hri := hrank p i hc
    have hsize := hle p
    obtain ⟨fuel, rfl⟩ : ∃ k, fuel = k + 1 := ⟨fuel - 1, by omega⟩
    have hpar : (h'.item i).parent = some p := (hs'.parent i p).mpr (by rwa [hr.children])
    rw [hpar]
    cases hexp : h.expanded p with
    | false => exact hcollapsed fuel h' row hp.to_reflTransGen hc hexp hr hs'
    | true =>
      rcases append_of_mem hc with ⟨before, after, hkids⟩
      obtain ⟨h₁, hr₁, hs₁, hstep⟩ := climb_step treeItemCountDirty isShowRoot root hs'
        fuel row (by rw [hr.children, hkids]) (by rw [hr.expanded, hexp])
        (by rw [hr.children]; exact hp.to_reflTransGen)
      rw [hstep]
      exact ih (fun hshown => hhidden (.further hshown hexp hc)) fuel h₁ _ (by omega)
        (hr.trans hr₁) hs₁

theorem getRow_root (hroot : isShowRoot = false) :
    (getRow treeItemCountDirty isShowRoot root h root).2 = -1 := by
  subst hroot
  rw [getRow]
  cases (h.item root).parent with
  | none => rfl
  | some p => simp [climb]

theorem getRow_shown (hs : Sound h) {item : Nat}
    (hitem : Shown h.children h.expanded root item) :
    ∃ front back, h.rows root = front ++ item :: back ∧
      ∀ h', Queries h h' → (getRow treeItemCountDirty isShowRoot root h' item).2 =
        atRoot isShowRoot (front.length : Nat) := by
  rcases hs.exists_rank with ⟨rank, hrank, hle⟩
  rcases climb_shown treeItemCountDirty isShowRoot root hs hrank hle hitem with
    ⟨front, back, hrows, hclimb⟩
  rcases (show ∃ below, h.rows item = item :: below from ⟨_, rows_eq hs.toLinked item⟩) with
    ⟨below, hbelow⟩
  refine ⟨front, below ++ back, by rw [hrows, hbelow]; simp, ?_⟩
  intro h' hq
  rcases hq.refreshes hs with ⟨hr, hs'⟩
  have hne : item ≠ root := by
    rintro rfl
    exact hs.forest.acyclic item hitem.below_root
  rw [getRow, if_neg (fun heq => hne heq.2),
    hclimb (h'.size + 1) h' 0 (by rw [hr.size]; omega) le_rfl hr hs', Int.zero_add]

end

/-- The number of rows above the first one that is shown. -/
def offset (isShowRoot : Bool) : Nat := if isShowRoot then 0 else 1

/-- In every state that operations lead to, the row with the number `r` holds the `r`-th of the
items that are shown, and the row of this item is `r`, also after further queries. An item of
the tree that is not shown has no row. -/
theorem getRow_getItem {h : Heap} (hreachable : Reachable h) (root : Nat) (isShowRoot : Bool)
    (treeItemCountDirty : Bool) :
    (∀ (r item : Nat), (h.rows root)[r + offset isShowRoot]? = some item ↔
      (getItem treeItemCountDirty (h.size + 1) h root (r + offset isShowRoot : Nat)).2 =
        some item) ∧
    (∀ (r item : Nat), (h.rows root)[r + offset isShowRoot]? = some item →
      ∀ h', Queries h h' → (getRow treeItemCountDirty isShowRoot root h' item).2 = r) ∧
    (∀ item, Relation.TransGen (Child h.children) root item →
      ¬ Shown h.children h.expanded root item →
      (getRow treeItemCountDirty isShowRoot root h item).2 = -1) ∧
    (isShowRoot = false → (getRow treeItemCountDirty isShowRoot root h root).2 = -1) := by
  have hs := hreachable.sound
  rcases hs.exists_rank with ⟨rank, hrank, hle⟩
  have hnodup : (h.rows root).Nodup := nodup_preorder hs.forest hrank h.size root (hle root)
  have hmem : ∀ {y}, y ∈ h.rows root ↔ y = root ∨ Shown h.children h.expanded root y :=
    mem_preorder_iff hrank h.size root (hle root)
  refine ⟨?_, ?_, ?_, getRow_root treeItemCountDirty isShowRoot root⟩
  · intro r item
    have hroot := hle root
    rw [getItem_eq treeItemCountDirty (h.size + 1) h root _ hrank (by omega) hs]
  · intro r item hitem h' hq
    rcases hmem.mp (mem_of_getElem? hitem) with rfl | hshown
    · -- the item is the root, which is shown then
      have hfirst : (h.rows item)[0]? = some item := by
        rw [rows_eq hs.toLinked]
        rfl
      have hzero : 0 = r + offset isShowRoot :=
        (getElem?_inj (List.getElem?_eq_some_iff.mp hfirst).1 hnodup).mp
          (hfirst.trans hitem.symm)
      cases isShowRoot with
      | false => simp [offset] at hzero
      | true =>
        have hr : r = 0 := by simpa [offset] using hzero.symm
        rw [hr, getRow, if_pos ⟨rfl, rfl⟩]
        rfl
    · rcases getRow_shown treeItemCountDirty isShowRoot root hs hshown with
        ⟨front, back, hrows, hrow⟩
      have hfront : (h.rows root)[front.length]? = some item := by
        rw [hrows]
        simp
      have hlen : front.length = r + offset isShowRoot :=
        (getElem?_inj (List.getElem?_eq_some_iff.mp hfront).1 hnodup).mp
          (hfront.trans hitem.symm)
      rw [hrow h' hq, hlen, atRoot]
      cases isShowRoot with
      | false => simp [offset]
      | true => simp [offset]
  · intro item hbelow hhidden
    have hne : item ≠ root := by
      rintro rfl
      exact hs.forest.acyclic item hbelow
    rw [getRow, if_neg (fun heq => hne heq.2)]
    exact climb_hidden treeItemCountDirty isShowRoot root hrank hle hbelow hhidden (h.size + 1) h 0
      (by omega) (.refl h) hs

theorem getRow_getItem_twoItems :
    (getItem false (twoItems.size + 1) twoItems 0 1).2 = some 1 ∧
      (getRow false false 0 twoItems 1).2 = 0 := by
  have h := getRow_getItem reachable_twoItems 0 false false
  exact ⟨(h.1 0 1).mp (by decide), h.2.1 0 1 (by decide) twoItems .refl⟩

end OpenJfx.Control.TreeUtil
