import OpenJfx.Event.EventDispatchTreeImpl

namespace OpenJfx.Event.EventDispatchTreeMerge

open Java.Arrays Data Event.EventDispatchTreeImpl Event.EventDispatchTreeImpl.TreeImpl
open Event.EventDispatchTreeSlots List

variable {D : Type}

/-- The level at `level` has become `f'`, by changes to its own slots `S` and new
ones. -/
def Becomes (s : TreeImpl D) (S : Finset Nat) (s' : TreeImpl D) (level : Int)
    (f' : Forest D) : Prop :=
  Extends S s s' ∧ ∃ S', Denotes s' level f' S' ∧ (∀ i ∈ S', i < s'.reservedCount) ∧
    ∀ i ∈ S', i ∈ S ∨ s.reservedCount ≤ i

theorem Becomes.trans {s₁ s₂ s₃ : TreeImpl D} {S : Finset Nat} {level : Int} {f₂ f₃ : Forest D}
    (h : Becomes s₁ S s₂ level f₂)
    (h' : ∀ S₂, Denotes s₂ level f₂ S₂ → (∀ i ∈ S₂, i < s₂.reservedCount) →
      Becomes s₂ S₂ s₃ level f₃) : Becomes s₁ S s₃ level f₃ := by
  obtain ⟨hext, S₂, hS₂, hlt₂, hmem₂⟩ := h
  obtain ⟨hext', S₃, hS₃, hlt₃, hmem₃⟩ := h' S₂ hS₂ hlt₂
  have hle := hext.reserved_le
  refine ⟨hext.trans hext' (fun i hi _ => hi) ?_, S₃, hS₃, hlt₃, ?_⟩
  · intro i hi hlt
    rcases hmem₂ i hi with hi | hi
    · exact hi
    · omega
  · intro i hi
    rcases hmem₃ i hi with hi | hi
    · exact hmem₂ i hi
    · exact .inr (by omega)

/-- The search ended behind the last node, `j`: a new level can be linked there. -/
def EndsAt (s : TreeImpl D) (level : Int) (f : Forest D) (S : Finset Nat) (j : Nat) : Prop :=
  j ∈ S ∧ ∀ {s' : TreeImpl D} {k : Int} {g : Forest D} {B : Finset Nat},
    (∀ i ∈ S, i ≠ j → slot s' i = slot s i) →
    slot s' j = ((slot s j).1, (slot s j).2.1, some k) → Denotes s' k g B → Disjoint S B →
    Denotes s' level (f.join g) (S ∪ B)

theorem addSibling_spec {t : TreeImpl D} {copyLevel : TreeImpl D → Int → Outcome (Int × TreeImpl D)}
    {r i : Nat} {d : D} {c b : Forest D} (hcopy : CopiesLevel (some t) copyLevel r c)
    (hview : Views t r i (.node d c b)) {s : TreeImpl D} {level : Int} {f : Forest D}
    {S : Finset Nat}
    (hs : Sized s) (hlt : ∀ i ∈ S, i < s.reservedCount) {j : Nat} (hj : EndsAt s level f S j) :
    ∃ s', addSibling copyLevel (some t) s j i = .ok s' ∧
      Becomes s S s' level (f.join (.node d c .nil)) := by
  obtain ⟨s₁, hs₁, hcopied⟩ := copySubtree_spec (s := s) hcopy hs hview (by simp)
  obtain ⟨child, C, hd, hchild, hC, hCrange⟩ := hcopied.node
  obtain ⟨hjS, hwand⟩ := hj
  have hjlt := hlt j hjS
  have hlt₁ := hcopied.reserved_lt
  have hle₁ := hcopied.ext.sized.reserved_le
  obtain ⟨s₂, hs₂, hw₂⟩ := setNextSibling_spec (i := j) hcopied.ext.sized (by omega) s.reservedCount
  obtain ⟨s₃, hs₃, hw₃⟩ := setNextSibling_spec (i := s.reservedCount) hw₂.sized
    (by rw [hw₂.capacity_eq]; omega) nullIndex
  have hnew : slot s₃ s.reservedCount = (some (some d), some child, some nullIndex) := by
    rw [hw₃.here, hw₂.others _ (by omega), hd, hchild]
  have hC₃ : Denotes s₃ child c C := hC.congr fun k hk => by
    have := hCrange k hk
    rw [hw₃.others k (by omega), hw₂.others k (by omega)]
  have hres₃ : s₃.reservedCount = s₁.reservedCount := by rw [hw₃.reserved_eq, hw₂.reserved_eq]
  refine ⟨s₃, ?_, ?_, S ∪ insert s.reservedCount (C ∪ ∅), ?_, ?_, ?_⟩
  · rw [addSibling, hs₁, ok_bind]
    simp only [hs₂, ok_bind, hs₃]
  · refine (hcopied.ext.trans (N := {j}) hw₂.extends (by simp) (by simp)).trans hw₃.extends ?_ ?_
    · intro k hk _
      exact Finset.mem_singleton.mp hk ▸ hjS
    · intro k hk hklt
      rw [Finset.mem_singleton.mp hk] at hklt
      omega
  · refine hwand ?_ ?_ (.node hnew hC₃ .nil ?_ (by simp) (by simp)) ?_
    · intro k hk hkj
      have := hlt k hk
      rw [hw₃.others k (by omega), hw₂.others k hkj, hcopied.ext.slots k this (by simp)]
    · rw [hw₃.others j (by omega), hw₂.here, hcopied.ext.slots j hjlt (by simp)]
    · intro hmem
      exact Nat.lt_irrefl _ (hCrange _ hmem).1
    · refine Finset.disjoint_left.mpr fun k hk hk' => ?_
      have := hlt k hk
      simp only [Finset.union_empty, Finset.mem_insert] at hk'
      rcases hk' with rfl | hk'
      · omega
      · have := hCrange k hk'
        omega
  · intro k hk
    simp only [Finset.union_empty, Finset.mem_union, Finset.mem_insert] at hk
    rcases hk with hk | rfl | hk
    · have := hlt k hk
      omega
    · omega
    · have := hCrange k hk
      omega
  · intro k hk
    simp only [Finset.union_empty, Finset.mem_union, Finset.mem_insert] at hk
    rcases hk with hk | rfl | hk
    · exact .inl hk
    · exact .inr (Nat.le_refl _)
    · exact .inr (hCrange k hk).1.le

/-- `idx` is the node behind the siblings `pre` of the level. -/
def Reaches (s : TreeImpl D) : Forest D → Int → Int → Prop
  | .nil, level, idx => level = idx
  | .node d _ b, level, idx => ∃ (i : Nat) (sibling : Int), level = i ∧
      s.dispatchers[i]? = some (some d) ∧ s.nextSiblings[i]? = some sibling ∧
      Reaches s b sibling idx

theorem Reaches.next {s : TreeImpl D} {pre : Forest D} {d : D} {c : Forest D} {i : Nat}
    {sibling : Int} (hd : s.dispatchers[i]? = some (some d))
    (hsibling : s.nextSiblings[i]? = some sibling) :
    ∀ level : Int, Reaches s pre level i → Reaches s (pre.join (.node d c .nil)) level sibling := by
  induction pre with
  | nil =>
    intro level hreach
    exact ⟨i, sibling, hreach, hd, hsibling, rfl⟩
  | node e c' b _ ihb =>
    rintro level ⟨k, next, rfl, hk, hnext, hrest⟩
    exact ⟨k, next, rfl, hk, hnext, ihb next hrest⟩

section Merge

variable [DecidableEq D]

/-- The search ended at the node `j` with the dispatcher `d`: its children can be
exchanged. -/
def StopsAt (s : TreeImpl D) (level : Int) (f : Forest D) (S : Finset Nat) (d : D) (j : Nat)
    (child : Int) (c : Forest D) (C : Finset Nat) : Prop :=
  j ∈ S ∧ C ⊆ S ∧ j ∉ C ∧ (slot s j).2.1 = some child ∧ Denotes s child c C ∧
    ∀ (s' : TreeImpl D) (child' : Int) (C' : Finset Nat) (update : Forest D → Forest D)
      (fresh : Forest D), (∀ i ∈ S, i ≠ j → i ∉ C → slot s' i = slot s i) →
      slot s' j = ((slot s j).1, some child', (slot s j).2.2) → Denotes s' child' (update c) C' →
      (∀ i ∈ C', i ∈ S → i ∈ C) →
      ∃ S', Denotes s' level (Forest.insertWith d update fresh f) S' ∧ ∀ i ∈ S', i ∈ S ∨ i ∈ C'

variable {s : TreeImpl D} {level : Int} {f : Forest D} {S : Finset Nat}

theorem findSibling_spec (h : Denotes s level f S) (d : D) :
    ∀ (fuel : Nat) (last : Int), f.labels.length < fuel →
      (d ∉ f.labels ∧ ∃ last', s.findSibling (some d) fuel level last = .ok (nullIndex, last') ∧
        (f = .nil ∧ last' = last ∨ ∃ j : Nat, last' = j ∧ EndsAt s level f S j)) ∨
      ∃ (j : Nat) (last' child : Int) (c : Forest D) (C : Finset Nat),
        s.findSibling (some d) fuel level last = .ok ((j : Int), last') ∧
        StopsAt s level f S d j child c C := by
  induction h with
  | nil =>
    intro fuel last hfuel
    obtain ⟨fuel, rfl⟩ : ∃ n, fuel = n + 1 := ⟨fuel - 1, by omega⟩
    exact .inl ⟨by simp [Forest.labels], last, by rw [findSibling, if_pos rfl], .inl ⟨rfl, rfl⟩⟩
  | @node i e child sibling c b C B hslot hc hb hiC hiB hCB _ ihb =>
    intro fuel last hfuel
    obtain ⟨fuel, rfl⟩ : ∃ n, fuel = n + 1 := ⟨fuel - 1, by omega⟩
    have hnonnull : (i : Int) ≠ nullIndex := by
      simp only [nullIndex]
      omega
    have hparts := hslot
    simp only [slot, Prod.mk.injEq] at hparts
    by_cases heq : d = e
    · subst heq
      refine .inr ⟨i, last, child, c, C, ?_, by simp, ?_, hiC, by simp [hslot], hc, ?_⟩
      · rw [findSibling, if_neg hnonnull, load_eq_ok hparts.1, ok_bind, if_pos rfl]
      · intro k hk
        simp [hk]
      · intro s' child' C' update fresh hsame hhere hc' hC'
        refine ⟨insert i (C' ∪ B), ?_, ?_⟩
        · rw [Forest.insertWith, if_pos rfl]
          refine .node (by rw [hhere, hslot]) hc'
            (hb.congr fun k hk => hsame k ?_ ?_ ?_) ?_ hiB ?_
          · simp [hk]
          · rintro rfl
            exact hiB hk
          · intro hk'
            exact Finset.disjoint_left.mp hCB hk' hk
          · intro hmem
            exact hiC (hC' i hmem (by simp))
          · refine Finset.disjoint_left.mpr fun k hk hk' => ?_
            exact Finset.disjoint_left.mp hCB (hC' k hk (by simp [hk'])) hk'
        · intro k hk
          simp only [Finset.mem_insert, Finset.mem_union] at hk ⊢
          rcases hk with rfl | hk | hk
          · exact .inl (.inl rfl)
          · exact .inr hk
          · exact .inl (.inr (.inr hk))
    · have hstep : ∀ last, s.findSibling (some d) (fuel + 1) i last =
          s.findSibling (some d) fuel sibling i := by
        intro last
        rw [findSibling, if_neg hnonnull, load_eq_ok hparts.1, ok_bind,
          if_neg (by simpa using heq), load_eq_ok hparts.2.2, ok_bind]
      rw [hstep]
      have hne : e ≠ d := fun h => heq h.symm
      rcases ihb fuel i (by simp only [Forest.labels, length_cons] at hfuel; omega) with
        ⟨hd, last', hfind, hend⟩ | ⟨j, last', child', c', C', hfind, hj, hC', hjC', hchild', hc',
          hwand⟩
      · refine .inl ⟨by simp [Forest.labels, heq, hd], last', hfind, .inr ?_⟩
        rcases hend with ⟨rfl, rfl⟩ | ⟨j, rfl, hj, hwand⟩
        · refine ⟨i, rfl, by simp, ?_⟩
          intro s' k g B' hsame hhere hg hdisj
          cases hb
          simp only [Finset.union_empty, Finset.disjoint_left, Finset.mem_insert] at hsame hdisj ⊢
          have hci : Denotes s' child c C := hc.congr fun k hk => hsame k (.inr hk) (by
            rintro rfl
            exact hiC hk)
          rw [Finset.insert_union]
          refine .node (by rw [hhere, hslot]) hci hg hiC (hdisj (.inl rfl)) ?_
          exact Finset.disjoint_left.mpr fun k hk => hdisj (.inr hk)
        · have hij : i ≠ j := by
            rintro rfl
            exact hiB hj
          refine ⟨j, rfl, by simp [hj], ?_⟩
          intro s' k g B' hsame hhere hg hdisj
          simp only [Finset.disjoint_left, Finset.mem_insert, Finset.mem_union] at hsame hdisj
          have hrest := hwand (fun k hk => hsame k (.inr (.inr hk))) hhere hg
            (Finset.disjoint_left.mpr fun k hk => hdisj (.inr (.inr hk)))
          have hci : Denotes s' child c C := hc.congr fun k hk => hsame k (.inr (.inl hk)) (by
            rintro rfl
            exact Finset.disjoint_left.mp hCB hk hj)
          rw [Finset.insert_union, Finset.union_assoc]
          refine .node ((hsame i (.inl rfl) hij).trans hslot) hci hrest hiC ?_ ?_
          · simp only [Finset.mem_union, not_or]
            exact ⟨hiB, hdisj (.inl rfl)⟩
          · refine Finset.disjoint_left.mpr fun k hk hk' => ?_
            rcases Finset.mem_union.mp hk' with hk' | hk'
            · exact Finset.disjoint_left.mp hCB hk hk'
            · exact hdisj (.inr (.inl hk)) hk'
      · have hij : i ≠ j := by
          rintro rfl
          exact hiB hj
        refine .inr ⟨j, last', child', c', C', hfind, by simp [hj], ?_, hjC', hchild', hc', ?_⟩
        · intro k hk
          simp [hC' hk]
        · intro s' child'' C'' update fresh hsame hhere hc'' hC''
          simp only [Finset.mem_insert, Finset.mem_union] at hsame hC'' ⊢
          obtain ⟨B', hB', hB'mem⟩ := hwand s' child'' C'' update fresh
            (fun k hk => hsame k (.inr (.inr hk))) hhere hc''
            (fun k hk hkB => hC'' k hk (.inr (.inr hkB)))
          have hiC' : i ∉ C' := fun hmem => hiB (hC' hmem)
          have hci : Denotes s' child c C := by
            refine hc.congr fun k hk => hsame k (.inr (.inl hk)) ?_ ?_
            · rintro rfl
              exact Finset.disjoint_left.mp hCB hk hj
            · intro hk'
              exact Finset.disjoint_left.mp hCB hk (hC' hk')
          refine ⟨insert i (C ∪ B'), ?_, ?_⟩
          · rw [Forest.insertWith, if_neg hne]
            refine .node ((hsame i (.inl rfl) hij hiC').trans hslot) hci hB' hiC ?_ ?_
            · intro hmem
              rcases hB'mem i hmem with hmem | hmem
              · exact hiB hmem
              · exact hiC' (hC'' i hmem (.inl rfl))
            · refine Finset.disjoint_left.mpr fun k hk hk' => ?_
              rcases hB'mem k hk' with hk' | hk'
              · exact Finset.disjoint_left.mp hCB hk hk'
              · exact Finset.disjoint_left.mp hCB hk (hC' (hC'' k hk' (.inr (.inl hk))))
          · intro k hk
            simp only [Finset.mem_insert, Finset.mem_union] at hk
            rcases hk with rfl | hk | hk
            · exact .inl (.inl rfl)
            · exact .inl (.inr (.inl hk))
            · rcases hB'mem k hk with hk | hk
              · exact .inl (.inr (.inr hk))
              · exact .inr hk

def MergesLevel (mergeLevel : TreeImpl D → Int → Int → Outcome (TreeImpl D)) (srcIndex : Int)
    (g : Forest D) : Prop :=
  ∀ {s : TreeImpl D} {level : Int} {f : Forest D} {S : Finset Nat}, Sized s → Denotes s level f S →
    f ≠ .nil → (∀ i ∈ S, i < s.reservedCount) →
    ∃ s', mergeLevel s level srcIndex = .ok s' ∧ Becomes s S s' level (Forest.merge g f)

variable {t : TreeImpl D} {mergeLevel : TreeImpl D → Int → Int → Outcome (TreeImpl D)}
  {copyLevel : TreeImpl D → Int → Outcome (Int × TreeImpl D)} {r i : Nat} {d : D} {c : Forest D}

theorem mergeChildren_spec {srcChild : Int} (hcopy : CopiesLevel (some t) copyLevel r c)
    (hmerge : MergesLevel mergeLevel srcChild c) (hdist : c.Distinct)
    (hsrc : t.getChildIndex i = .ok srcChild) (hview : Views t r srcChild c) {child : Int}
    {c₀ : Forest D} {C₀ : Finset Nat} (hs : Sized s) (hlt : ∀ i ∈ S, i < s.reservedCount) {j : Nat}
    (hj : StopsAt s level f S d j child c₀ C₀) (fresh : Forest D) :
    ∃ s', mergeChildren mergeLevel copyLevel (some t) s j i = .ok s' ∧
      Becomes s S s' level (Forest.insertWith d (Forest.merge c) fresh f) := by
  obtain ⟨hjS, hC₀S, hjC₀, hchild, hc₀, hwand⟩ := hj
  have hload : load s.nextChildren j = .ok child := load_eq_ok hchild
  have hjlt := hlt j hjS
  by_cases hnull : child = nullIndex
  · obtain rfl := hc₀.eq_nil.mp hnull
    obtain ⟨k, s₁, C, hs₁, hext₁, -, hC, hCrange⟩ := hcopy (s := s) hs hview (by simp)
    have hle₁ := hext₁.reserved_le
    have hroom := hext₁.sized.reserved_le
    obtain ⟨s₂, hs₂, hw₂⟩ := setNextChild_spec (i := j) hext₁.sized (by omega) k
    have hext₂ : Extends S s s₂ := hext₁.trans hw₂.extends (by simp) (by
      intro x hx _
      exact Finset.mem_singleton.mp hx ▸ hjS)
    obtain ⟨S', hS', hmem⟩ := hwand s₂ k C (Forest.merge c) fresh (by
        intro x hx hxj _
        rw [hw₂.others x hxj, hext₁.slots x (hlt x hx) (by simp)])
      (by rw [hw₂.here, hext₁.slots j hjlt (by simp)])
      (by
        rw [Forest.merge_nil_right hdist]
        refine hC.congr fun x hx => hw₂.others x ?_
        have := hCrange x hx
        omega)
      (by
        intro x hx hxS
        have := hCrange x hx
        have := hlt x hxS
        omega)
    refine ⟨s₂, ?_, hext₂, S', hS', ?_, ?_⟩
    · rw [mergeChildren, hload, ok_bind, source_some, hsrc, ok_bind, if_neg (by simp [hnull]), hs₁,
        ok_bind]
      exact hs₂
    · intro x hx
      rw [hw₂.reserved_eq]
      rcases hmem x hx with hx | hx
      · have := hlt x hx
        omega
      · exact (hCrange x hx).2
    · intro x hx
      rcases hmem x hx with hx | hx
      · exact .inl hx
      · exact .inr (hCrange x hx).1
  · obtain ⟨s₁, hs₁, hext₁, C, hC, hClt, hCmem⟩ := hmerge hs hc₀ (fun h => hnull (hc₀.eq_nil.mpr h))
      (fun x hx => hlt x (hC₀S hx))
    have hle₁ := hext₁.reserved_le
    obtain ⟨S', hS', hmem⟩ := hwand s₁ child C (Forest.merge c) fresh
      (by
        intro x hx _ hxC₀
        exact hext₁.slots x (hlt x hx) hxC₀)
      (by rw [hext₁.slots j hjlt hjC₀, ← hchild])
      hC
      (by
        intro x hx hxS
        rcases hCmem x hx with hx | hx
        · exact hx
        · have := hlt x hxS
          omega)
    refine ⟨s₁, ?_, ?_, S', hS', ?_, ?_⟩
    · rw [mergeChildren, hload, ok_bind, source_some, hsrc, ok_bind, if_pos hnull, hs₁]
    · exact ⟨hext₁.sized, hext₁.reserved_le,
        fun x hx hxS => hext₁.slots x hx fun hxC => hxS (hC₀S hxC), hext₁.root_eq,
        hext₁.tailFirst_eq, hext₁.tailLast_eq⟩
    · intro x hx
      rcases hmem x hx with hx | hx
      · have := hlt x hx
        omega
      · exact hClt x hx
    · intro x hx
      rcases hmem x hx with hx | hx
      · exact .inl hx
      · rcases hCmem x hx with hx | hx
        · exact .inl (hC₀S hx)
        · exact .inr hx

theorem mergeNode_spec {b : Forest D} (hview : Views t r i (.node d c b)) (hdist : c.Distinct)
    (hcopy : CopiesLevel (some t) copyLevel r c)
    (hmerge : ∀ srcChild, Views t r srcChild c → MergesLevel mergeLevel srcChild c) (hs : Sized s)
    (h : Denotes s level f S) (hf : f ≠ .nil) (hlt : ∀ i ∈ S, i < s.reservedCount) :
    ∃ s', mergeNode mergeLevel copyLevel (some t) s level i = .ok s' ∧
      Becomes s S s' level (Forest.insertWith d (Forest.merge c) (Forest.merge c .nil) f) := by
  have hd : t.dispatchers[i]? = some (some d) := hview.dispatcher
  have hfuel : f.labels.length < s.reservedCount + 1 := by
    have := h.size_le hlt
    have := f.length_labels_le_size
    omega
  obtain ⟨srcChild, hsrc, hviewc⟩ := hview.child
  rw [mergeNode, source_some, load_eq_ok hd, ok_bind]
  rcases findSibling_spec h d (s.reservedCount + 1) level hfuel with
    ⟨hnew, last, hfind, ⟨rfl, -⟩ | ⟨j, rfl, hj⟩⟩ | ⟨j, last, child, c₀, C₀, hfind, hj⟩
  · exact absurd rfl hf
  · obtain ⟨s', hs', hbecomes⟩ := addSibling_spec hcopy hview hs hlt hj
    refine ⟨s', ?_, ?_⟩
    · rw [hfind, ok_bind]
      exact (if_pos rfl).trans hs'
    · rwa [Forest.insertWith_new hnew, Forest.merge_nil_right hdist]
  · obtain ⟨s', hs', hbecomes⟩ := mergeChildren_spec hcopy (hmerge srcChild hviewc) hdist hsrc
      hviewc hs hlt hj (Forest.merge c .nil)
    refine ⟨s', ?_, hbecomes⟩
    rw [hfind, ok_bind]
    refine (if_neg ?_).trans hs'
    simp only [nullIndex]
    omega

theorem mergeTreeLevel_spec (g : Forest D) (hg : g.Distinct) :
    ∀ (fuel : Nat) (srcIndex : Int), g.height < fuel → Views t r srcIndex g →
      MergesLevel (mergeTreeLevel (some t) fuel) srcIndex g := by
  induction g with
  | nil =>
    intro fuel srcIndex hfuel hview s level f S hs h _ hlt
    obtain ⟨fuel, rfl⟩ : ∃ n, fuel = n + 1 := ⟨fuel - 1, by omega⟩
    cases hview
    refine ⟨s, by rw [mergeTreeLevel, if_pos rfl], ?_, S, h, hlt, fun i hi => .inl hi⟩
    exact (Extends.refl hs).trans (.refl hs) (by simp) (by simp)
  | node d c b ihc ihb =>
    intro fuel srcIndex hfuel hview s level f S hs h hf hlt
    simp only [Forest.height] at hfuel
    obtain ⟨-, hc, hb⟩ := hg
    obtain ⟨fuel, rfl⟩ : ∃ n, fuel = n + 1 := ⟨fuel - 1, by omega⟩
    have hnonnull := hview.ne_null
    obtain ⟨i, rfl⟩ := hview.exists_nat
    obtain ⟨sibling, hsibling, hviewb⟩ := hview.sibling
    obtain ⟨s₁, hs₁, hbecomes₁⟩ := mergeNode_spec hview hc
      ((copyTreeLevel_spec (some t) r c).1 fuel (by omega))
      (fun srcChild hviewc => ihc hc fuel srcChild (by omega) hviewc) hs h hf hlt
    obtain ⟨S₁, hS₁, hlt₁, -⟩ := hbecomes₁.2
    obtain ⟨s₂, hs₂, -⟩ := ihb hb fuel sibling (by omega) hviewb hbecomes₁.1.sized hS₁
      (Forest.insertWith_ne_nil _ _ _ _) hlt₁
    refine ⟨s₂, ?_, ?_⟩
    · rw [mergeTreeLevel, if_neg hnonnull, hs₁, ok_bind, source_some, load_eq_ok hsibling,
        ok_bind, hs₂]
    · refine hbecomes₁.trans fun S₂ hS₂ hlt₂ => ?_
      obtain ⟨s₂', hs₂', hbecomes₂⟩ := ihb hb fuel sibling (by omega) hviewb hbecomes₁.1.sized hS₂
        (Forest.insertWith_ne_nil _ _ _ _) hlt₂
      rw [hs₂] at hs₂'
      cases hs₂'
      exact hbecomes₂

theorem Reaches.findSibling_eq {pre : Forest D} (hd : s.dispatchers[i]? = some (some d))
    (hnew : d ∉ pre.labels) :
    ∀ (level last : Int) (fuel : Nat), Reaches s pre level i → pre.labels.length < fuel →
      ∃ last', s.findSibling (some d) fuel level last = .ok ((i : Int), last') := by
  induction pre with
  | nil =>
    intro level last fuel hreach hfuel
    obtain ⟨fuel, rfl⟩ : ∃ n, fuel = n + 1 := ⟨fuel - 1, by omega⟩
    obtain rfl : level = i := hreach
    exact ⟨last, by
      rw [findSibling, if_neg (by simp only [nullIndex]; omega), load_eq_ok hd, ok_bind,
        if_pos rfl]⟩
  | node e c b _ ihb =>
    intro level last fuel hreach hfuel
    obtain ⟨fuel, rfl⟩ : ∃ n, fuel = n + 1 := ⟨fuel - 1, by omega⟩
    obtain ⟨k, sibling, rfl, hk, hsibling, hrest⟩ := hreach
    simp only [Forest.labels, mem_cons, not_or, length_cons] at hnew hfuel
    obtain ⟨last', hfind⟩ := ihb hnew.2 sibling k fuel hrest (by omega)
    refine ⟨last', ?_⟩
    rw [findSibling, if_neg (by simp only [nullIndex]; omega), load_eq_ok hk, ok_bind,
      if_neg (by simpa using hnew.1), load_eq_ok hsibling, ok_bind, hfind]

theorem mergeTreeLevel_self (htail : s.tailFirstIndex = nullIndex) (g : Forest D) :
    ∀ (fuel : Nat) (level idx : Int) (pre : Forest D) (B : Finset Nat), g.height < fuel →
      Denotes s idx g B → Reaches s pre level idx → (pre.join g).Distinct →
      (∀ i ∈ B, i < s.reservedCount) → pre.labels.length + g.labels.length ≤ s.reservedCount →
      mergeTreeLevel none fuel s level idx = .ok s := by
  induction g with
  | nil =>
    intro fuel level idx pre B hfuel h _ _ _ _
    obtain ⟨fuel, rfl⟩ : ∃ n, fuel = n + 1 := ⟨fuel - 1, by omega⟩
    cases h
    rw [mergeTreeLevel, if_pos rfl]
  | node d c b ihc ihb =>
    intro fuel level idx pre B hfuel h hreach hdist hlt hlen
    obtain ⟨fuel, rfl⟩ : ∃ n, fuel = n + 1 := ⟨fuel - 1, by omega⟩
    simp only [Forest.height, Forest.labels, length_cons] at hfuel hlen
    obtain ⟨hnew, hcdistinct⟩ := hdist.of_join_node
    cases h with
    | @node i _ child sibling _ _ C B hslot hc hb hiC hiB hCB =>
      simp only [slot, Prod.mk.injEq] at hslot
      obtain ⟨hd, hchild, hsibling⟩ := hslot
      have hnonnull : (i : Int) ≠ nullIndex := by
        simp only [nullIndex]
        omega
      obtain ⟨last, hfind⟩ := Reaches.findSibling_eq hd hnew level level (s.reservedCount + 1)
        hreach (by omega)
      have hclt : ∀ k ∈ C, k < s.reservedCount := fun k hk => hlt k (by simp [hk])
      have hsrc : s.getChildIndex i = .ok child := by
        rw [getChildIndex, load_eq_ok hchild, ok_bind]
        split
        · next hleaf => rw [htail, hleaf.1]
        · rfl
      have hmerged : mergeChildren (mergeTreeLevel none fuel) (copyTreeLevel none fuel) none s
          i i = .ok s := by
        rw [mergeChildren, load_eq_ok hchild, ok_bind, source_none, hsrc, ok_bind]
        by_cases hnull : child = nullIndex
        · obtain ⟨fuel, rfl⟩ : ∃ n, fuel = n + 1 := ⟨fuel - 1, by omega⟩
          obtain ⟨hlen', hget⟩ := List.getElem?_eq_some_iff.mp hchild
          rw [hnull]
          show s.setNextChild i nullIndex = .ok s
          rw [setNextChild, store_eq_set _ hlen', ok_bind, ← hnull, ← hget,
            set_getElem_self]
        · rw [if_pos hnull]
          refine ihc fuel child child .nil C (by omega) hc rfl hcdistinct hclt ?_
          have := hc.size_le hclt
          have := c.length_labels_le_size
          simp only [Forest.labels, length_nil]
          omega
      have hnode : mergeNode (mergeTreeLevel none fuel) (copyTreeLevel none fuel) none s level
          i = .ok s := by
        rw [mergeNode, source_none, load_eq_ok hd, ok_bind, hfind, ok_bind]
        exact (if_neg hnonnull).trans hmerged
      rw [mergeTreeLevel, hnode, ok_bind, source_none, load_eq_ok hsibling]
      refine ihb fuel level sibling (pre.join (.node d c .nil)) B (by omega) hb
        (Reaches.next hd hsibling level hreach) ?_ (fun k hk => hlt k (by simp [hk])) ?_
      · rwa [← Forest.join_node_assoc]
      · rw [Forest.labels_join]
        simp only [Forest.labels, length_append, length_cons, length_nil]
        omega

end Merge

end OpenJfx.Event.EventDispatchTreeMerge
