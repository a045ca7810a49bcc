import OpenJfx.Control.TreeItem

namespace OpenJfx.Control.TreeItem

open Data.Hierarchy List

def Item.shape (i : Item) : List Nat × Option Nat × Int × Bool × Bool :=
  (i.children, i.parent, i.parentLinkCount, i.leaf, i.expanded)

namespace Heap

/-- The item and what is shown below it, from top to bottom. -/
def rows (h : Heap) (x : Nat) : List Nat := preorder h.children h.expanded h.size x

def dirty (h : Heap) (x : Nat) : Bool := (h.item x).expandedDescendentCountDirty

def valid (h : Heap) (x : Nat) : Bool := (h.item x).valid

structure Clean (h : Heap) (x : Nat) : Prop where
  count : (h.item x).expandedDescendentCount = (h.rows x).length
  valid : h.children x ≠ [] → h.valid x = true
  below : h.expanded x = true → ∀ c ∈ h.children x, h.children c ≠ [] →
    h.valid c = true ∧ (h.expanded c = true → h.dirty c = false)

structure Linked (h : Heap) : Prop where
  forest : IsForest h.children
  bound : ∀ x c, c ∈ h.children x → x < h.size ∧ c < h.size
  parent : ∀ x p, (h.item x).parent = some p ↔ x ∈ h.children p
  linkCount : ∀ x, (h.item x).parentLinkCount = 0
  leaf : ∀ x, (h.item x).leaf = (h.children x).isEmpty

structure Sound (h : Heap) : Prop extends Linked h where
  clean : ∀ x, h.dirty x = false → h.Clean x

section

variable {h h' : Heap}

theorem Linked.exists_rank (hl : Linked h) :
    ∃ rank, Ranked h.children rank ∧ ∀ x, rank x ≤ h.size := by
  obtain ⟨rank, hrank, hle⟩ := hl.forest.exists_rank (Finset.range h.size)
    (fun x c hc => Finset.mem_range.mpr (hl.bound x c hc).2)
  exact ⟨rank, hrank, fun x => by simpa using hle x⟩

theorem update_item (h : Heap) (x y : Nat) (f : Item → Item) :
    (h.update x f).item y = if y = x then f (h.item y) else h.item y := by
  split_ifs with heq
  · subst heq
    exact Function.update_self ..
  · exact Function.update_of_ne heq ..

theorem linked_congr (hl : Linked h) (hsize : h'.size = h.size)
    (hkids : ∀ x, h'.children x = h.children x)
    (hpar : ∀ x, (h'.item x).parent = (h.item x).parent)
    (hcnt : ∀ x, (h'.item x).parentLinkCount = (h.item x).parentLinkCount)
    (hleaf : ∀ x, (h'.item x).leaf = (h.item x).leaf) : Linked h' := by
  have hfun : h'.children = h.children := funext hkids
  constructor
  · rw [hfun]
    exact hl.forest
  · rw [hfun, hsize]
    exact hl.bound
  · intro x p
    rw [hfun, hpar]
    exact hl.parent x p
  · intro x
    rw [hcnt]
    exact hl.linkCount x
  · intro x
    rw [hfun, hleaf]
    exact hl.leaf x

/-- The heaps differ in caches and flags only. -/
structure SameShape (h h' : Heap) : Prop where
  size : h'.size = h.size
  shape : ∀ x, (h'.item x).shape = (h.item x).shape

namespace SameShape

theorem children (hr : SameShape h h') : h'.children = h.children :=
  funext fun x => congrArg Prod.fst (hr.shape x)

theorem expanded (hr : SameShape h h') : h'.expanded = h.expanded :=
  funext fun x => congrArg (fun s => s.2.2.2.2) (hr.shape x)

theorem rows (hr : SameShape h h') : h'.rows = h.rows := by
  funext x
  rw [Heap.rows, Heap.rows, hr.children, hr.expanded, hr.size]

theorem linked (hr : SameShape h h') (hl : Linked h) : Linked h' :=
  linked_congr hl hr.size (fun x => congrFun hr.children x)
    (fun x => congrArg (fun s => s.2.1) (hr.shape x))
    (fun x => congrArg (fun s => s.2.2.1) (hr.shape x))
    (fun x => congrArg (fun s => s.2.2.2.1) (hr.shape x))

end SameShape

/-- Only caches have been filled and properties been validated. -/
structure Refreshes (h h' : Heap) : Prop extends SameShape h h' where
  valid : ∀ x, h.valid x = true → h'.valid x = true
  dirty : ∀ x, h.dirty x = false → h'.dirty x = false

namespace Refreshes

theorem refl (h : Heap) : Refreshes h h :=
  ⟨⟨rfl, fun _ => rfl⟩, fun _ hx => hx, fun _ hx => hx⟩

theorem trans {h₁ : Heap} (h₀ : Refreshes h h₁) (h₂ : Refreshes h₁ h') : Refreshes h h' :=
  ⟨⟨h₂.size.trans h₀.size, fun x => (h₂.shape x).trans (h₀.shape x)⟩,
    fun x hx => h₂.valid x (h₀.valid x hx), fun x hx => h₂.dirty x (h₀.dirty x hx)⟩

theorem clean (hr : Refreshes h h') {x : Nat} (hc : h.Clean x)
    (hcnt : (h'.item x).expandedDescendentCount = (h.item x).expandedDescendentCount) :
    h'.Clean x := by
  refine ⟨by rw [hcnt, hc.count, hr.rows], ?_, ?_⟩
  · rw [hr.children]
    exact fun hne => hr.valid x (hc.valid hne)
  · rw [hr.expanded, hr.children]
    intro hx c hmem hne
    obtain ⟨hvalid, hdirty⟩ := hc.below hx c hmem hne
    exact ⟨hr.valid c hvalid, fun hexp => hr.dirty c (hdirty hexp)⟩

end Refreshes

theorem sound_of_refreshes (hs : Sound h) (hr : Refreshes h h')
    (hclean : ∀ x, h'.dirty x = false → h'.Clean x ∨ h.dirty x = false ∧
      (h'.item x).expandedDescendentCount = (h.item x).expandedDescendentCount) : Sound h' := by
  refine ⟨hr.linked hs.toLinked, ?_⟩
  intro x hx
  rcases hclean x hx with hc | ⟨hdirty, hcnt⟩
  · exact hc
  · exact hr.clean (hs.clean x hdirty) hcnt

theorem refreshes_validate (h : Heap) (x : Nat) : Refreshes h (h.update x .validate) := by
  refine ⟨⟨rfl, ?_⟩, ?_, ?_⟩
  · intro y
    rw [update_item]
    split_ifs <;> rfl
  · intro y hy
    rw [valid, update_item]
    split_ifs
    · rfl
    · exact hy
  · intro y hy
    rw [dirty, update_item]
    split_ifs
    · exact hy
    · exact hy

theorem sound_validate (hs : Sound h) (x : Nat) : Sound (h.update x .validate) := by
  refine sound_of_refreshes hs (refreshes_validate h x) ?_
  intro y hy
  refine .inr ?_
  rw [dirty, update_item] at hy
  rw [update_item]
  split_ifs at hy ⊢
  · exact ⟨hy, rfl⟩
  · exact ⟨hy, rfl⟩

theorem rows_eq (hl : Linked h) (x : Nat) :
    h.rows x = x :: if h.expanded x then (h.children x).flatMap h.rows else [] := by
  obtain ⟨rank, hrank, hle⟩ := hl.exists_rank
  exact preorder_eq hrank (hle x)

variable {x : Nat}

theorem rows_of_not_expanded (hl : Linked h) (hx : h.expanded x = false) :
    h.rows x = [x] := by
  rw [rows_eq hl, hx]
  rfl

theorem rows_of_nil (hl : Linked h) (hx : h.children x = []) : h.rows x = [x] := by
  rw [rows_eq hl, hx]
  simp

def Visited (h : Heap) (c : Nat) : Prop :=
  h.valid c = true ∧ (h.expanded c = true → h.dirty c = false)

theorem Visited.refreshes {c : Nat} (hv : h.Visited c) (hr : Refreshes h h') : h'.Visited c :=
  ⟨hr.valid c hv.1, fun hexp => hr.dirty c (hv.2 (by rwa [hr.expanded] at hexp))⟩

/-- What a call of the count for an item does in a heap of the same shape as `h`. -/
def Counts (h : Heap) (count : Heap → Nat → Heap × Nat) (c : Nat) : Prop :=
  ∀ h', Refreshes h h' → Sound h' → Refreshes h' (count h' c).1 ∧ Sound (count h' c).1 ∧
    (count h' c).1.dirty c = false ∧ (count h' c).2 = (h'.rows c).length

variable {count : Heap → Nat → Heap × Nat}

theorem Counts.refreshes {c : Nat} (hc : Counts h count c) (hr : Refreshes h h') :
    Counts h' count c :=
  fun h₁ hr₁ => hc h₁ (hr.trans hr₁)

theorem addChild_spec {c : Nat} (hcnt : Counts h count c) (hs : Sound h) (n : Nat) :
    Refreshes h (addChild count (h, n) c).1 ∧ Sound (addChild count (h, n) c).1 ∧
      (addChild count (h, n) c).1.Visited c ∧
      (addChild count (h, n) c).2 = n + (h.rows c).length := by
  have hr := refreshes_validate h c
  have hs' := sound_validate hs c
  have hvalid : (h.update c .validate).valid c = true := by
    rw [valid, update_item, if_pos rfl]
    rfl
  cases hexp : h.expanded c with
  | true =>
    obtain ⟨hr₁, hs₁, hdirty, hn⟩ := hcnt _ hr hs'
    simp only [addChild, isExpanded, hexp, if_true]
    refine ⟨hr.trans hr₁, hs₁, ⟨hr₁.valid c hvalid, fun _ => hdirty⟩, ?_⟩
    rw [hn, hr.rows]
  | false =>
    simp only [addChild, isExpanded, hexp, Bool.false_eq_true, if_false]
    refine ⟨hr, hs', ⟨hvalid, fun hexp' => ?_⟩, ?_⟩
    · rw [hr.expanded, hexp] at hexp'
      cases hexp'
    · rw [rows_of_not_expanded hs.toLinked hexp]
      rfl

theorem foldl_addChild (cs : List Nat) :
    ∀ (h : Heap) (n : Nat), (∀ c ∈ cs, Counts h count c) → Sound h →
      Refreshes h (cs.foldl (addChild count) (h, n)).1 ∧
      Sound (cs.foldl (addChild count) (h, n)).1 ∧
      (∀ c ∈ cs, (cs.foldl (addChild count) (h, n)).1.Visited c) ∧
      (cs.foldl (addChild count) (h, n)).2 = n + (cs.flatMap h.rows).length := by
  induction cs with
  | nil =>
    intro h n _ hs
    exact ⟨.refl h, hs, by simp, by simp⟩
  | cons c cs ih =>
    intro h n hcnt hs
    obtain ⟨hr₁, hs₁, hv₁, hn₁⟩ := addChild_spec (hcnt c (by simp)) hs n
    obtain ⟨hr₂, hs₂, hv₂, hn₂⟩ := ih (addChild count (h, n) c).1 (addChild count (h, n) c).2
      (fun d hd => (hcnt d (by simp [hd])).refreshes hr₁) hs₁
    rw [foldl_cons]
    refine ⟨hr₁.trans hr₂, hs₂, ?_, ?_⟩
    · intro d hd
      rcases mem_cons.mp hd with rfl | hd
      · exact hv₁.refreshes hr₂
      · exact hv₂ d hd
    · rw [hn₂, hn₁, hr₁.rows, flatMap_cons, length_append, Nat.add_assoc]

theorem store_spec (hs : Sound h) {n : Nat} (hn : n = (h.rows x).length)
    (hvalid : h.children x ≠ [] → h.valid x = true)
    (hbelow : h.expanded x = true → ∀ c ∈ h.children x, h.Visited c)
    (hstore : h' = (h.update x fun i => { i with expandedDescendentCount := n }).update x
      fun i => { i with expandedDescendentCountDirty := false }) :
    Refreshes h h' ∧ Sound h' ∧ h'.dirty x = false := by
  have hitem : ∀ y, h'.item y = if y = x then
      { h.item y with expandedDescendentCount := n, expandedDescendentCountDirty := false }
      else h.item y := by
    intro y
    rw [hstore, update_item, update_item]
    split_ifs <;> rfl
  have hr : Refreshes h h' := by
    refine ⟨⟨by rw [hstore]; rfl, ?_⟩, ?_, ?_⟩
    · intro y
      rw [hitem]
      split_ifs <;> rfl
    · intro y hy
      rw [valid, hitem]
      split_ifs
      · exact hy
      · exact hy
    · intro y hy
      rw [dirty, hitem]
      split_ifs
      · rfl
      · exact hy
  refine ⟨hr, ?_, by rw [dirty, hitem, if_pos rfl]⟩
  refine sound_of_refreshes hs hr ?_
  intro y hy
  by_cases hyx : y = x
  · subst hyx
    refine .inl ⟨?_, ?_, ?_⟩
    · rw [hitem, if_pos rfl, hr.rows]
      exact hn
    · rw [hr.children]
      exact fun hne => hr.valid y (hvalid hne)
    · rw [hr.expanded, hr.children]
      intro hexp c hc _
      have hv : h'.Visited c := (hbelow hexp c hc).refreshes hr
      rw [Visited, hr.expanded] at hv
      exact hv
  · refine .inr ?_
    rw [dirty, hitem, if_neg hyx] at hy
    rw [hitem, if_neg hyx]
    exact ⟨hy, rfl⟩

theorem updateExpandedDescendentCount_spec (hs : Sound h)
    (hcnt : ∀ c ∈ h.children x, Counts h count c) :
    ∃ h₁, updateExpandedDescendentCount count h x =
        (h₁.update x fun i => { i with expandedDescendentCount := (h.rows x).length },
          (h.rows x).length) ∧
      Refreshes h h₁ ∧ Sound h₁ ∧ (h₁.children x ≠ [] → h₁.valid x = true) ∧
      (h₁.expanded x = true → ∀ c ∈ h₁.children x, h₁.Visited c) := by
  have hleaf := hs.leaf x
  rw [updateExpandedDescendentCount]
  cases hkids : h.children x with
  | nil =>
    rw [hkids] at hleaf
    simp only [hleaf]
    refine ⟨h, ?_, .refl h, hs, fun hne => absurd hkids hne, ?_⟩
    · rw [rows_of_nil hs.toLinked hkids]
      rfl
    · rw [hkids]
      simp
  | cons c cs =>
    rw [hkids] at hleaf
    simp only [hleaf, isEmpty_cons, Bool.false_eq_true, if_false]
    have hr := refreshes_validate h x
    have hs' := sound_validate hs x
    have hvalid : (h.update x .validate).valid x = true := by
      rw [valid, update_item, if_pos rfl]
      rfl
    cases hexp : h.expanded x with
    | true =>
      simp only [isExpanded, hexp, if_true]
      obtain ⟨hr₁, hs₁, hv, hn⟩ := foldl_addChild (h.children x) (h.update x .validate) 1
        (fun c hc => (hcnt c hc).refreshes hr) hs'
      rw [hr.children]
      refine ⟨_, ?_, hr.trans hr₁, hs₁, fun _ => hr₁.valid x hvalid, ?_⟩
      · have hlen : (h.rows x).length =
            ((h.children x).foldl (addChild count) (h.update x .validate, 1)).2 := by
          rw [hn, hr.rows, rows_eq hs.toLinked, if_pos hexp, length_cons, Nat.add_comm]
        rw [hlen]
      · rw [hr₁.children, hr.children]
        exact fun _ => hv
    | false =>
      simp only [isExpanded, hexp]
      refine ⟨h.update x .validate, ?_, hr, hs', fun _ => hvalid, ?_⟩
      · rw [rows_of_not_expanded hs.toLinked hexp]
        rfl
      · rw [hr.expanded, hexp]
        intro h
        cases h

theorem getExpandedDescendentCount_counts (reset : Bool) {rank : Nat → Nat} (fuel : Nat) :
    ∀ (h : Heap) (x : Nat), Ranked h.children rank → rank x < fuel →
      Counts h (getExpandedDescendentCount reset fuel) x := by
  induction fuel with
  | zero => exact fun h x _ hx => absurd hx (Nat.not_lt_zero _)
  | succ fuel ih =>
    intro h x hrank hx h₁ hr₁ hs₁
    rw [getExpandedDescendentCount]
    split_ifs with hdirty
    · have hrank₁ : Ranked h₁.children rank := by
        rw [hr₁.children]
        exact hrank
      have hcnt : ∀ c ∈ h₁.children x,
          Counts h₁ (getExpandedDescendentCount reset fuel) c := by
        intro c hc
        have := hrank₁ x c hc
        exact ih h₁ c hrank₁ (by omega)
      obtain ⟨h₂, hupd, hr₂, hs₂, hvalid, hbelow⟩ :=
        updateExpandedDescendentCount_spec hs₁ hcnt
      simp only [hupd]
      obtain ⟨hr₃, hs₃, hclean⟩ := store_spec (n := (h₁.rows x).length) hs₂ (by rw [hr₂.rows])
        hvalid hbelow rfl
      exact ⟨hr₂.trans hr₃, hs₃, hclean, trivial⟩
    · have hclean : h₁.dirty x = false := by
        rw [dirty]
        simpa using fun hd => hdirty (.inr hd)
      exact ⟨.refl h₁, hs₁, hclean, (hs₁.clean x hclean).count⟩

theorem getExpandedDescendentCount_spec (hs : Sound h) (reset : Bool) (x : Nat) :
    Refreshes h (getExpandedDescendentCount reset (h.size + 1) h x).1 ∧
      Sound (getExpandedDescendentCount reset (h.size + 1) h x).1 ∧
      (getExpandedDescendentCount reset (h.size + 1) h x).2 = (h.rows x).length := by
  obtain ⟨rank, hrank, hle⟩ := hs.exists_rank
  have hx := hle x
  obtain ⟨hr, hs', -, hn⟩ := getExpandedDescendentCount_counts reset (h.size + 1) h x hrank
    (by omega) h (.refl h) hs
  exact ⟨hr, hs', hn⟩

theorem foldl_markDirty (chain : List Nat) :
    ∀ h : Heap, (chain.foldl (fun h y => h.update y .markDirty) h).size = h.size ∧
      ∀ y, (chain.foldl (fun h y => h.update y .markDirty) h).item y =
        if y ∈ chain then (h.item y).markDirty else h.item y := by
  induction chain with
  | nil => exact fun h => ⟨rfl, fun y => by simp⟩
  | cons x chain ih =>
    intro h
    obtain ⟨hsize, hitem⟩ := ih (h.update x .markDirty)
    refine ⟨by rw [foldl_cons, hsize]; rfl, ?_⟩
    intro y
    rw [foldl_cons, hitem, update_item]
    simp only [mem_cons]
    by_cases hy : y = x
    · subst hy
      simp only [true_or]
      split_ifs <;> rfl
    · simp only [hy, false_or, if_false]

theorem mem_dispatchChain_self (h : Heap) (fuel x : Nat) : x ∈ dispatchChain h fuel x := by
  cases fuel <;> simp [dispatchChain]

theorem dispatchChain_closed (hl : Linked h) {rank : Nat → Nat} (hrank : Ranked h.children rank)
    (hle : ∀ x, rank x ≤ h.size) (fuel : Nat) :
    ∀ x, h.size ≤ rank x + fuel → ∀ y p, y ∈ dispatchChain h fuel x → y ∈ h.children p →
      p ∈ dispatchChain h fuel x := by
  induction fuel with
  | zero =>
    intro x hx y p hy hp
    have hlt := hrank p y hp
    have := hle p
    rw [dispatchChain, mem_singleton] at hy
    subst hy
    omega
  | succ fuel ih =>
    intro x hx y p hy hp
    rw [dispatchChain, mem_cons] at hy ⊢
    refine .inr ?_
    rcases hy with rfl | hy
    · rw [(hl.parent y p).mpr hp]
      exact mem_dispatchChain_self h fuel p
    · cases hpar : (h.item x).parent with
      | none =>
        rw [hpar] at hy
        simp at hy
      | some q =>
        rw [hpar] at hy
        have := hrank q x ((hl.parent x q).mp hpar)
        exact ih q (by omega) y p hy hp

theorem fireEvent_shape (h : Heap) (x : Nat) : SameShape h (h.fireEvent x) := by
  obtain ⟨hsize, hitem⟩ := foldl_markDirty (dispatchChain h h.size x) h
  refine ⟨hsize, ?_⟩
  intro y
  rw [fireEvent, hitem]
  split_ifs <;> rfl

/-- Nothing that an item shows lies outside a set of items that has all parents of its
members, unless the item belongs to the set. -/
theorem mem_of_shown (hforest : IsForest h.children) {y : Nat} {chain : List Nat}
    (hother : ∀ z, z ≠ x → h'.children z = h.children z)
    (hclosed : ∀ z p, z ∈ chain → z ∈ h'.children p → p ∈ chain) {w : Nat}
    (hshown : Shown h.children h.expanded y w) (hw : w ∈ chain)
    (habove : w = x ∨ Relation.TransGen (Child h.children) w x) : y ∈ chain := by
  have hup : ∀ {z c}, c ∈ h.children z → (c = x ∨ Relation.TransGen (Child h.children) c x) →
      Relation.TransGen (Child h.children) z x := by
    rintro z c hc (rfl | hcx)
    · exact .single hc
    · exact .head hc hcx
  have hne : ∀ {z}, Relation.TransGen (Child h.children) z x → z ≠ x := by
    rintro z hz rfl
    exact hforest.acyclic z hz
  induction hshown with
  | child _ hc =>
    have hyx := hup hc habove
    exact hclosed _ y hw (by rwa [hother y (hne hyx)])
  | @further z c _ _ hc ih =>
    have hzx := hup hc habove
    exact ih (hclosed _ z hw (by rwa [hother z (hne hzx)])) (.inr hzx)

theorem sound_fireEvent (hs : Sound h) (hl' : Linked h') (hsize : h'.size = h.size)
    (hkids : ∀ y, y ≠ x → h'.children y = h.children y)
    (hexpd : ∀ y, y ≠ x → h'.expanded y = h.expanded y)
    (hdirty : ∀ y, y ≠ x → h'.dirty y = h.dirty y)
    (hvalid : ∀ y, y ≠ x → h.valid y = true → h'.valid y = true) (hcnt : ∀ y, y ≠ x →
      (h'.item y).expandedDescendentCount = (h.item y).expandedDescendentCount) :
    Sound (h'.fireEvent x) := by
  obtain ⟨rank, hrank, hle⟩ := hl'.exists_rank
  obtain ⟨rank₀, hrank₀, hle₀⟩ := hs.exists_rank
  have hclosed := dispatchChain_closed hl' hrank hle h'.size x (by omega)
  have hself := mem_dispatchChain_self h' h'.size x
  have hshape := fireEvent_shape h' x
  have hitem : ∀ y, (h'.fireEvent x).item y = if y ∈ dispatchChain h' h'.size x then
      (h'.item y).markDirty else h'.item y := (foldl_markDirty _ h').2
  refine ⟨hshape.linked hl', ?_⟩
  intro y hy
  have hy₁ : y ∉ dispatchChain h' h'.size x ∧ h'.dirty y = false := by
    rw [dirty, hitem] at hy
    split_ifs at hy with hmem
    · cases hy
    · exact ⟨hmem, hy⟩
  obtain ⟨hnot, hdirty₁⟩ := hy₁
  have hyx : y ≠ x := fun heq => hnot (heq ▸ hself)
  have hclean := hs.clean y (by rw [← hdirty y hyx]; exact hdirty₁)
  -- the changed item is not shown below this one
  have hshown : ∀ z, Shown h.children h.expanded y z → z ≠ x := by
    rintro z hz rfl
    exact hnot (mem_of_shown hs.forest hkids hclosed hz hself (.inl rfl))
  refine ⟨?_, ?_, ?_⟩
  · rw [hitem, if_neg hnot, hcnt y hyx, hclean.count, hshape.rows]
    refine congrArg List.length ?_
    rw [rows, rows, hsize]
    refine (preorder_congr hrank₀ h.size y (hle₀ y) ?_).symm
    rintro z (rfl | hz)
    · exact ⟨hkids z hyx, .inl (hexpd z hyx)⟩
    · exact ⟨hkids z (hshown z hz), .inl (hexpd z (hshown z hz))⟩
  · rw [hshape.children, hkids y hyx, valid, hitem, if_neg hnot]
    exact fun hne => hvalid y hyx (hclean.valid hne)
  · rw [hshape.expanded, hexpd y hyx, hshape.children, hkids y hyx]
    intro hexp c hc hne
    have hcx : c ≠ x := hshown c (.child hexp hc)
    have hcnot : c ∉ dispatchChain h' h'.size x := by
      intro hmem
      exact hnot (hclosed c y hmem (by rwa [hkids y hyx]))
    rw [hkids c hcx] at hne
    obtain ⟨hv, hd⟩ := hclean.below hexp c hc hne
    rw [valid, dirty, hitem, if_neg hcnot, hexpd c hcx]
    refine ⟨hvalid c hcx hv, ?_⟩
    intro hexp'
    exact (hdirty c hcx).trans (hd hexp')

theorem visited_of_shown (hs : Sound h) {y z : Nat} (hy : h.dirty y = false)
    (hshown : Shown h.children h.expanded y z) (hz : h.children z ≠ []) : h.Visited z := by
  induction hshown with
  | child hexp hc => exact (hs.clean y hy).below hexp _ hc hz
  | @further w c _ hw hc ih =>
    have hwdirty := (ih (ne_nil_of_mem hc)).2 hw
    exact (hs.clean w hwdirty).below hw c hc hz

theorem sound_silent (hs : Sound h) (value valid : Bool)
    (hx : h.children x = [] ∨ h.valid x = false) :
    Sound (h.update x fun i => { i with expanded := value, valid := valid }) := by
  obtain ⟨rank, hrank, hle⟩ := hs.exists_rank
  have hitem := update_item h x (f := fun i => { i with expanded := value, valid := valid })
  generalize hh' : (h.update x fun i => { i with expanded := value, valid := valid }) = h' at hitem
  have hsize : h'.size = h.size := by rw [← hh']; rfl
  have hkids : h'.children = h.children := by
    funext y
    rw [children, hitem]
    split_ifs <;> rfl
  have hdirty : ∀ y, h'.dirty y = h.dirty y := by
    intro y
    rw [dirty, hitem]
    split_ifs <;> rfl
  have hother : ∀ y, y ≠ x → h'.item y = h.item y := fun y hy => by rw [hitem, if_neg hy]
  refine ⟨?_, ?_⟩
  · refine linked_congr hs.toLinked hsize (congrFun hkids) ?_ ?_ ?_
    all_goals intro y
    all_goals rw [hitem]
    all_goals split_ifs <;> rfl
  · intro y hy
    rw [hdirty] at hy
    have hclean := hs.clean y hy
    -- the item is a leaf wherever it is shown
    have hleaf : y = x ∨ Shown h.children h.expanded y x → h.children x = [] := by
      intro hyx
      rcases hx with hx | hx
      · exact hx
      · by_contra hne
        rcases hyx with rfl | hshown
        · rw [hclean.valid hne] at hx
          cases hx
        · rw [(visited_of_shown hs hy hshown hne).1] at hx
          cases hx
    refine ⟨?_, ?_, ?_⟩
    · have hcnt : (h'.item y).expandedDescendentCount = (h.item y).expandedDescendentCount := by
        rw [hitem]
        split_ifs <;> rfl
      rw [hcnt, hclean.count]
      refine congrArg List.length ?_
      rw [rows, rows, hsize]
      refine (preorder_congr hrank h.size y (hle y) ?_).symm
      intro z hz
      refine ⟨congrFun hkids z, ?_⟩
      by_cases hzx : z = x
      · subst hzx
        exact .inr (hleaf (hz.imp Eq.symm id))
      · exact .inl (by rw [expanded, hother z hzx]; rfl)
    · rw [hkids]
      intro hne
      have hyx : y ≠ x := fun heq => hne (heq ▸ hleaf (.inl heq))
      rw [Heap.valid, hother y hyx]
      exact hclean.valid hne
    · rw [hkids]
      intro hexp c hc hne
      have hyx : y ≠ x := fun heq => by
        have := hleaf (.inl heq)
        rw [← heq] at this
        exact ne_nil_of_mem hc this
      rw [expanded, hother y hyx] at hexp
      have hcx : c ≠ x := fun heq => hne (heq ▸ hleaf (.inr (heq ▸ .child hexp hc)))
      rw [Heap.valid, expanded, hdirty, hother c hcx]
      exact hclean.below hexp c hc hne

theorem sound_setExpanded (hs : Sound h) (x : Nat) (value : Bool) :
    Sound (h.setExpanded x value) := by
  have hleaf := hs.leaf x
  rw [setExpanded]
  split_ifs with hsame
  · exact hs
  · cases hvalid : (h.item x).valid with
    | false => exact sound_silent hs value (h.item x).valid (.inr hvalid)
    | true =>
      have htwice : ((h.update x fun i => { i with expanded := value }).update x
          fun i => { i with valid := false }) =
            h.update x fun i => { i with expanded := value, valid := false } := by
        simp [update]
      simp only [htwice]
      have hleaf' :
        ((h.update x fun i => { i with expanded := value, valid := false }).item x).leaf =
          (h.item x).leaf := by
        rw [update_item, if_pos rfl]
      rw [hleaf', hleaf]
      cases hkids : h.children x with
      | nil => exact sound_silent hs value false (.inl hkids)
      | cons c cs =>
        simp only [isExpanded]
        have hitem :
          ∀ y, ((h.update x fun i => { i with expanded := value, valid := false }).update
            x .validate).item y =
              if y = x then { h.item y with expanded := value, valid := true }
              else h.item y := by
          intro y
          rw [update_item, update_item]
          split_ifs <;> rfl
        have hother : ∀ y, y ≠ x → ((h.update x fun i =>
            { i with expanded := value, valid := false }).update x .validate).item y =
              h.item y := fun y hy => by rw [hitem, if_neg hy]
        refine sound_fireEvent hs ?_ rfl ?_ ?_ ?_ ?_ ?_
        · refine linked_congr hs.toLinked rfl ?_ ?_ ?_ ?_
          all_goals intro y
          all_goals try rw [children]
          all_goals rw [hitem]
          all_goals split_ifs <;> rfl
        · exact fun y hy => congrArg Item.children (hother y hy)
        · exact fun y hy => congrArg Item.expanded (hother y hy)
        · exact fun y hy => congrArg Item.expandedDescendentCountDirty (hother y hy)
        · exact fun y hy hv => (congrArg Item.valid (hother y hy)).trans hv
        · exact fun y hy => congrArg Item.expandedDescendentCount (hother y hy)

theorem updateChildrenParent_item (newParent : Option Nat) (items : List Nat) :
    ∀ h : Heap, items.Nodup → (∀ x, (h.item x).parentLinkCount = 0) →
      (∀ x ∈ items, newParent ≠ none → (h.item x).parent ≠ newParent) →
      (h.updateChildrenParent items newParent).size = h.size ∧
      ∀ y, (h.updateChildrenParent items newParent).item y =
        if y ∈ items then { h.item y with parent := newParent } else h.item y := by
  induction items with
  | nil => exact fun h _ _ _ => ⟨rfl, fun y => by simp [updateChildrenParent]⟩
  | cons x items ih =>
    intro h hnd hcnt hpar
    obtain ⟨hx, hnd'⟩ := nodup_cons.mp hnd
    have hupd : (h.item x).updateParent newParent = { h.item x with parent := newParent } := by
      have hne : ¬ ((h.item x).parent ≠ none ∧ (h.item x).parent = newParent) := by
        rintro ⟨hsome, heq⟩
        exact hpar x (by simp) (heq ▸ hsome) heq
      simp only [Item.updateParent, hcnt x, if_true, if_neg hne]
    have hitem : ∀ y, (h.update x (.updateParent newParent)).item y =
        if y = x then { h.item y with parent := newParent } else h.item y := by
      intro y
      rw [update_item]
      split_ifs with hy
      · rw [hy, hupd]
      · rfl
    obtain ⟨hsize, hrest⟩ := ih (h.update x (.updateParent newParent)) hnd'
      (fun y => by rw [hitem]; split_ifs <;> exact hcnt y)
      (fun y hy hne => by
        have hyx : y ≠ x := fun heq => hx (heq ▸ hy)
        rw [hitem, if_neg hyx]
        exact hpar y (by simp [hy]) hne)
    refine ⟨hsize, ?_⟩
    intro y
    have := hrest y
    rw [hitem] at this
    refine this.trans ?_
    simp only [mem_cons]
    by_cases hy : y = x
    · subst hy
      simp only [true_or, if_neg hx]
    · simp only [hy, false_or, if_false]

structure Edit (h : Heap) (x : Nat) (after added removed : List Nat) : Prop where
  lt_size : x < h.size
  added_lt : ∀ c ∈ added, c < h.size
  parts : ∃ kept, (h.children x).Perm (kept ++ removed) ∧ after.Perm (kept ++ added)
  forest : IsForest (Function.update h.children x after)

variable {after added removed : List Nat}

theorem Edit.disjoint (hs : Sound h) (hedit : h.Edit x after added removed) :
    ∃ kept : List Nat, (∀ c, c ∈ h.children x ↔ c ∈ kept ∨ c ∈ removed) ∧
      (∀ c, c ∈ after ↔ c ∈ kept ∨ c ∈ added) ∧ (∀ c ∈ kept, c ∉ removed ∧ c ∉ added) ∧
      removed.Nodup ∧ added.Nodup := by
  obtain ⟨kept, hbef, hafter⟩ := hedit.parts
  have hnd := hbef.nodup_iff.mp (hs.forest.nodup x)
  have hnd' := hedit.forest.nodup x
  rw [Function.update_self, hafter.nodup_iff] at hnd'
  rw [nodup_append] at hnd hnd'
  refine ⟨kept, ?_, ?_, ?_, hnd.2.1, hnd'.2.1⟩
  · intro c
    rw [hbef.mem_iff, mem_append]
  · intro c
    rw [hafter.mem_iff, mem_append]
  · intro c hc
    exact ⟨fun hr => hnd.2.2 c hc c hr rfl, fun ha => hnd'.2.2 c hc c ha rfl⟩

theorem relinked_item (hs : Sound h)
    (hedit : h.Edit x after added removed) {h₁ : Heap} (hsize : h₁.size = h.size)
    (hitem : ∀ y, h₁.item y = if y = x then { h.item y with
      children := after, leaf := after.isEmpty, expandedDescendentCountDirty := true }
      else h.item y) :
    ((h₁.updateChildrenParent removed none).updateChildrenParent added (some x)).size = h.size ∧
      ∀ y, ((h₁.updateChildrenParent removed none).updateChildrenParent added (some x)).item y =
        { h₁.item y with parent :=
            (if y ∈ added then some x else if y ∈ removed then none else (h.item y).parent) } := by
  obtain ⟨kept, hmem, -, hkept, hrem, hadded⟩ := hedit.disjoint hs
  have hlink : ∀ y, (h₁.item y).parentLinkCount = 0 := by
    intro y
    rw [hitem]
    split_ifs <;> exact hs.linkCount y
  have hpar : ∀ y, (h₁.item y).parent = (h.item y).parent := by
    intro y
    rw [hitem]
    split_ifs <;> rfl
  obtain ⟨hsize₂, hitem₂⟩ := updateChildrenParent_item none removed h₁ hrem hlink
    (fun _ _ hne => absurd rfl hne)
  -- none of the added items is a child of `x` at this time
  obtain ⟨hsize₃, hitem₃⟩ := updateChildrenParent_item (some x) added
    (h₁.updateChildrenParent removed none) hadded
    (fun y => by rw [hitem₂]; split_ifs <;> exact hlink y)
    (fun y hy _ => by
      rw [hitem₂]
      split_ifs with hr
      · simp
      · rw [hpar]
        intro hp
        rcases (hmem y).mp ((hs.parent y x).mp hp) with hk | hr'
        · exact (hkept y hk).2 hy
        · exact hr hr')
  refine ⟨by rw [hsize₃, hsize₂, hsize], ?_⟩
  intro y
  rw [hitem₃, hitem₂]
  split_ifs
  · rfl
  · rfl
  · rfl
  · rw [← hpar]

theorem sound_childrenChanged (hs : Sound h) (hedit : h.Edit x after added removed) :
    Sound (h.childrenChanged x after added removed) := by
  obtain ⟨kept, hmem, hmem', hkept, -, -⟩ := hedit.disjoint hs
  have hforest := hedit.forest
  rw [childrenChanged]
  generalize hh₁ : ((h.update x fun i => { i with children := after }).update x .markDirty).update x
    (fun i => { i with leaf := after.isEmpty }) = h₁
  have hitem₁ : ∀ y, h₁.item y = if y = x then { h.item y with
      children := after, leaf := after.isEmpty, expandedDescendentCountDirty := true }
      else h.item y := by
    intro y
    rw [← hh₁, update_item, update_item, update_item]
    split_ifs <;> rfl
  obtain ⟨hsize, hitem⟩ := relinked_item hs hedit (show h₁.size = h.size by rw [← hh₁]; rfl) hitem₁
  generalize (h₁.updateChildrenParent removed none).updateChildrenParent added (some x) = h₂
    at hsize hitem
  have hother : ∀ y, y ≠ x → h₂.item y = { h.item y with parent :=
      (if y ∈ added then some x else if y ∈ removed then none else (h.item y).parent) } := by
    intro y hy
    rw [hitem, hitem₁, if_neg hy]
  have hkids : h₂.children = Function.update h.children x after := by
    funext y
    rw [children, hitem, hitem₁]
    by_cases hy : y = x
    · subst hy
      rw [Function.update_self, if_pos rfl]
    · rw [Function.update_of_ne hy, if_neg hy]
      rfl
  refine sound_fireEvent hs ?_ hsize ?_ ?_ ?_ ?_ ?_
  · constructor
    · rw [hkids]
      exact hforest
    · rw [hkids, hsize]
      intro y c hc
      by_cases hy : y = x
      · subst hy
        rw [Function.update_self, hmem'] at hc
        rcases hc with hc | hc
        · exact hs.bound y c ((hmem c).mpr (.inl hc))
        · exact ⟨hedit.lt_size, hedit.added_lt c hc⟩
      · rw [Function.update_of_ne hy] at hc
        exact hs.bound y c hc
    · intro y p
      rw [hitem, hkids]
      split_ifs with ha hr
      · have hyx : y ∈ Function.update h.children x after x := by
          rw [Function.update_self, hmem']
          exact .inr ha
        constructor
        · rintro ⟨⟩
          exact hyx
        · intro hp
          rw [hforest.parent_unique x p y hyx hp]
      · refine iff_of_false (by simp) ?_
        intro hp
        by_cases hpx : p = x
        · subst hpx
          rw [Function.update_self, hmem'] at hp
          rcases hp with hk | ha'
          · exact (hkept y hk).1 hr
          · exact ha ha'
        · rw [Function.update_of_ne hpx] at hp
          exact hpx (hs.forest.parent_unique p x y hp ((hmem y).mpr (.inr hr)))
      · rw [hs.parent y p]
        by_cases hpx : p = x
        · subst hpx
          rw [Function.update_self, hmem, hmem']
          simp [ha, hr]
        · rw [Function.update_of_ne hpx]
    · intro y
      rw [hitem]
      rw [hitem₁]
      split_ifs <;> exact hs.linkCount y
    · intro y
      rw [hkids, hitem]
      rw [hitem₁]
      by_cases hy : y = x
      · subst hy
        rw [Function.update_self, if_pos rfl]
      · rw [Function.update_of_ne hy, if_neg hy]
        exact hs.leaf y
  · intro y hy
    rw [hkids, Function.update_of_ne hy]
  · intro y hy
    rw [expanded, hother y hy, expanded]
  · intro y hy
    rw [dirty, hother y hy, dirty]
  · intro y hy hv
    rw [valid, hother y hy]
    exact hv
  · intro y hy
    rw [hother y hy]

theorem sound_create (hs : Sound h) : Sound h.create := by
  obtain ⟨rank, hrank, hle⟩ := hs.exists_rank
  have hnil : h.children h.size = [] := by
    refine eq_nil_iff_forall_not_mem.mpr fun c hc => ?_
    exact Nat.lt_irrefl _ (hs.bound h.size c hc).1
  have hitem : ∀ y, h.create.item y = if y = h.size then .new else h.item y := by
    intro y
    split_ifs with hy
    · subst hy
      exact Function.update_self ..
    · exact Function.update_of_ne hy ..
  have hkids : h.create.children = h.children := by
    funext y
    rw [children, hitem]
    split_ifs with hy
    · rw [hy, hnil]
      rfl
    · rfl
  have hother : ∀ y c, c ∈ h.children y → h.create.item y = h.item y ∧
      h.create.item c = h.item c := by
    intro y c hc
    obtain ⟨hylt, hclt⟩ := hs.bound y c hc
    rw [hitem, hitem, if_neg (by omega), if_neg (by omega)]
    exact ⟨rfl, rfl⟩
  refine ⟨⟨?_, ?_, ?_, ?_, ?_⟩, ?_⟩
  · rw [hkids]
    exact hs.forest
  · rw [hkids]
    intro y c hc
    obtain ⟨hylt, hclt⟩ := hs.bound y c hc
    exact ⟨Nat.lt_succ_of_lt hylt, Nat.lt_succ_of_lt hclt⟩
  · intro y p
    rw [hkids, hitem]
    split_ifs with hy
    · refine iff_of_false (by simp [Item.new]) ?_
      intro hp
      have := (hs.bound p y hp).2
      omega
    · exact hs.parent y p
  · intro y
    rw [hitem]
    split_ifs
    · rfl
    · exact hs.linkCount y
  · intro y
    rw [hkids, hitem]
    split_ifs with hy
    · rw [hy, hnil]
      rfl
    · exact hs.leaf y
  · intro y hy
    have hyne : y ≠ h.size := by
      rintro rfl
      rw [dirty, hitem, if_pos rfl] at hy
      cases hy
    have hsame : h.create.item y = h.item y := by rw [hitem, if_neg hyne]
    rw [dirty, hsame] at hy
    have hclean := hs.clean y hy
    refine ⟨?_, ?_, ?_⟩
    · rw [hsame, hclean.count]
      refine congrArg List.length ?_
      rw [rows, preorder_fuel hrank h.size (h.size + 1) y (hle y) (Nat.le_succ_of_le (hle y))]
      refine (preorder_congr hrank (h.size + 1) y (Nat.le_succ_of_le (hle y)) ?_).symm
      intro z _
      refine ⟨congrFun hkids z, ?_⟩
      by_cases hz : z = h.size
      · exact .inr (hz ▸ hnil)
      · exact .inl (by rw [expanded, hitem, if_neg hz]; rfl)
    · rw [hkids, valid, hsame]
      exact hclean.valid
    · rw [hkids, expanded, hsame]
      intro hexp c hc hne
      rw [valid, expanded, dirty, (hother y c hc).2]
      exact hclean.below hexp c hc hne

end

end Heap

end OpenJfx.Control.TreeItem
