import OpenJfx.Event.EventDispatchTreeImpl

namespace OpenJfx.Event.EventDispatchTreeTail

open Java.Arrays Data Event.EventDispatchTreeImpl Event.EventDispatchTreeImpl.TreeImpl
open Event.EventDispatchTreeSlots

variable {D : Type}

/-- The tail: a path of nodes without siblings from `first` to `last`. -/
inductive TailPath (s : TreeImpl D) : Int → Int → List D → Finset Nat → Prop
  | nil : TailPath s nullIndex nullIndex [] ∅
  | last {i : Nat} {d : D} (hslot : slot s i = (some (some d), some nullIndex, some nullIndex)) :
      TailPath s i i [d] {i}
  | cons {i j : Nat} {last : Int} {d e : D} {l : List D} {T : Finset Nat}
      (hslot : slot s i = (some (some d), some (j : Int), some nullIndex))
      (hrest : TailPath s j last (e :: l) T) (hi : i ∉ T) :
      TailPath s i last (d :: e :: l) (insert i T)

namespace TailPath

variable {s s' : TreeImpl D} {first last : Int} {l : List D} {T : Finset Nat}

theorem congr (h : TailPath s first last l T) (hslots : ∀ i ∈ T, slot s' i = slot s i) :
    TailPath s' first last l T := by
  induction h with
  | nil => exact .nil
  | last hslot => exact .last ((hslots _ (by simp)).trans hslot)
  | cons hslot _ hi ih =>
    exact .cons ((hslots _ (by simp)).trans hslot) (ih fun k hk => hslots k (by simp [hk])) hi

theorem denotes (h : TailPath s first last l T) : Denotes s first (.path l) T := by
  induction h with
  | nil => exact .nil
  | last hslot =>
    simpa [Forest.path] using Denotes.node hslot .nil .nil (by simp) (by simp) (by simp)
  | cons hslot _ hi ih =>
    simpa [Forest.path] using Denotes.node hslot ih .nil hi (by simp) (by simp)

theorem of_nil (h : TailPath s first last [] T) :
    first = nullIndex ∧ last = nullIndex ∧ T = ∅ := by
  cases h
  exact ⟨rfl, rfl, rfl⟩

theorem last_mem (h : TailPath s first last l T) (hl : l ≠ []) : ∃ k ∈ T, last = (k : Nat) := by
  induction h with
  | nil => exact absurd rfl hl
  | last => exact ⟨_, by simp, rfl⟩
  | cons _ _ _ ih =>
    obtain ⟨k, hk, hlast⟩ := ih (by simp)
    exact ⟨k, by simp [hk], hlast⟩

theorem concat {last r : Nat} {d : D} (h : TailPath s first last l T) (hr : r ∉ T)
    (hsame : ∀ i ∈ T, i ≠ last → slot s' i = slot s i)
    (hlast : slot s' last = ((slot s last).1, some (r : Int), (slot s last).2.2))
    (hnew : slot s' r = (some (some d), some nullIndex, some nullIndex)) :
    TailPath s' first r (l ++ [d]) (insert r T) := by
  generalize hk : (last : Int) = k at h
  induction h with
  | nil => exact absurd hk (by simp only [nullIndex]; omega)
  | @last i e hslot =>
    obtain rfl : last = i := Int.ofNat.inj hk
    rw [Finset.pair_comm]
    refine .cons (by rw [hlast, hslot]) (.last hnew) ?_
    simpa [eq_comm] using hr
  | @cons i j _ e e' l T hslot hrest hi ih =>
    subst hk
    simp only [Finset.mem_insert, not_or] at hr hsame
    have hne : i ≠ last := by
      rintro rfl
      obtain ⟨k, hk, hlast'⟩ := hrest.last_mem (by simp)
      obtain rfl : i = k := Int.ofNat.inj hlast'
      exact hi hk
    rw [Finset.insert_comm]
    refine .cons ((hsame i (.inl rfl) hne).trans hslot)
      (ih hr.2 (fun k hk => hsame k (.inr hk)) rfl) ?_
    simp only [Finset.mem_insert, not_or]
    exact ⟨fun h => hr.1 h.symm, hi⟩

theorem views {r : Nat} (h : TailPath s first last l T) (hlast : s.tailLastIndex = last)
    (hlt : ∀ i ∈ T, i < r) :
    Views s r first (.path l) := by
  induction h with
  | nil => exact .nil
  | @last i d hslot =>
    simp only [slot, Prod.mk.injEq] at hslot
    refine .node (hlt _ (by simp)) hslot.1 ?_ hslot.2.2 .nil .nil
    rw [getChildIndex, load_eq_ok hslot.2.1, ok_bind, if_neg (by simp [hlast])]
  | @cons i j last d e l T hslot hrest hi ih =>
    simp only [slot, Prod.mk.injEq] at hslot
    refine .node (hlt _ (by simp)) hslot.1 ?_ hslot.2.2
      (ih hlast fun k hk => hlt k (by simp [hk])) .nil
    rw [getChildIndex, load_eq_ok hslot.2.1, ok_bind, if_neg (by simp only [nullIndex]; omega)]

end TailPath

/-- What `expandTail` does for the level `f`: the tail `t`, whose own slots `T` are
used for the first leaf, stands below all leaves. -/
def Expands (expandLevel : TreeImpl D → Int → Outcome (TreeImpl D)) (t : List D) (f : Forest D) :
    Prop :=
  ∀ {s : TreeImpl D} {level : Int} {S T : Finset Nat}, Sized s → Denotes s level f S →
    TailPath s s.tailFirstIndex s.tailLastIndex t T → Disjoint S T →
    (∀ i ∈ S, i < s.reservedCount) → (∀ i ∈ T, i < s.reservedCount) →
    ∃ s' S', expandLevel s level = .ok s' ∧ Extends S s s' ∧
      s'.expandTailFirstPath = (s.expandTailFirstPath && decide (level = nullIndex)) ∧
      Denotes s' level (.graft (.path t) f) S' ∧ (∀ i ∈ S', i < s'.reservedCount) ∧
      ∀ i ∈ S', i ∈ S ∨ s.reservedCount ≤ i ∨ s.expandTailFirstPath = true ∧ i ∈ T

theorem attachTail_spec {s : TreeImpl D} {t : List D} {i : Nat} {T : Finset Nat} (hs : Sized s)
    (htail : TailPath s s.tailFirstIndex s.tailLastIndex t T) (hi : i < s.reservedCount)
    (hiT : i ∉ T) (hTlt : ∀ k ∈ T, k < s.reservedCount) :
    ∃ s' child C, attachTail s.reservedCount s i = .ok s' ∧ Extends {i} s s' ∧
      s'.expandTailFirstPath = false ∧
      slot s' i = ((slot s i).1, some child, (slot s i).2.2) ∧ Denotes s' child (.path t) C ∧
      (∀ k ∈ C, k < s'.reservedCount) ∧
      ∀ k ∈ C, s.reservedCount ≤ k ∨ s.expandTailFirstPath = true ∧ k ∈ T := by
  have hroom := hi.trans_le hs.reserved_le
  rw [attachTail]
  by_cases hflag : s.expandTailFirstPath
  · obtain ⟨s₁, hs₁, hw⟩ := setNextChild_spec hs hroom s.tailFirstIndex
    refine ⟨{ s₁ with expandTailFirstPath := false }, s.tailFirstIndex, T, ?_, ?_, rfl, hw.here,
      ?_, ?_, ?_⟩
    · rw [if_pos hflag, hs₁, ok_bind]
    · exact ⟨⟨hw.sized.children_eq, hw.sized.siblings_eq, hw.sized.reserved_le⟩,
        hw.extends.reserved_le, hw.extends.slots, hw.root_eq, hw.tailFirst_eq, hw.tailLast_eq⟩
    · refine htail.denotes.congr fun k hk => hw.others k ?_
      rintro rfl
      exact hiT hk
    · intro k hk
      exact hw.reserved_eq ▸ hTlt k hk
    · intro k hk
      exact .inr ⟨hflag, hk⟩
  · have hht : (Forest.path t).height < s.reservedCount := by
      have hcard : (insert i T).card ≤ s.reservedCount := by
        rw [← Finset.card_range s.reservedCount]
        refine Finset.card_le_card fun k hk => Finset.mem_range.mpr ?_
        rcases Finset.mem_insert.mp hk with rfl | hk
        · exact hi
        · exact hTlt k hk
      rw [Finset.card_insert_of_notMem hiT, htail.denotes.size_eq] at hcard
      have := (Forest.path t).height_le_size
      omega
    obtain ⟨child, s₁, C, hs₁, hext₁, hflag₁, hC, hCrange⟩ :=
      (copyTreeLevel_spec none s.reservedCount (.path t)).1 s.reservedCount hht hs
        (htail.views rfl hTlt) (fun _ => Nat.le_refl _)
    have hle := hext₁.reserved_le
    have hroom₁ := hext₁.sized.reserved_le
    obtain ⟨s₂, hs₂, hw⟩ := setNextChild_spec (i := i) hext₁.sized (by omega) child
    refine ⟨s₂, child, C, ?_, hext₁.trans hw.extends (by simp) (by simp), ?_, ?_, ?_, ?_, ?_⟩
    · rw [if_neg hflag, hs₁, ok_bind]
      exact hs₂
    · rw [hw.flag_eq, hflag₁]
      simpa using hflag
    · rw [hw.here, hext₁.slots i hi (by simp)]
    · refine hC.congr fun k hk => hw.others k ?_
      have := (hCrange k hk).1
      omega
    · intro k hk
      exact hw.reserved_eq ▸ (hCrange k hk).2
    · intro k hk
      exact .inl (hCrange k hk).1

theorem expandNode_spec {expandLevel : TreeImpl D → Int → Outcome (TreeImpl D)} {s : TreeImpl D}
    {t : List D} {i : Nat} {d : D} {child sibling : Int} {c : Forest D} {C T : Finset Nat}
    (hexpand : Expands expandLevel t c) (hs : Sized s)
    (hslot : slot s i = (some (some d), some child, some sibling)) (hc : Denotes s child c C)
    (htail : TailPath s s.tailFirstIndex s.tailLastIndex t T) (hiC : i ∉ C) (hiT : i ∉ T)
    (hCT : Disjoint C T) (hi : i < s.reservedCount) (hClt : ∀ k ∈ C, k < s.reservedCount)
    (hTlt : ∀ k ∈ T, k < s.reservedCount) :
    ∃ s' child' C', expandNode expandLevel s i = .ok s' ∧ Extends (insert i C) s s' ∧
      s'.expandTailFirstPath = false ∧ slot s' i = (some (some d), some child', some sibling) ∧
      Denotes s' child' (.hang (.path t) c) C' ∧ (∀ k ∈ C', k < s'.reservedCount) ∧
      ∀ k ∈ C', k ∈ C ∨ s.reservedCount ≤ k ∨ s.expandTailFirstPath = true ∧ k ∈ T := by
  have hchild : s.nextChildren[i]? = some child := congrArg (·.2.1) hslot
  rw [expandNode, load_eq_ok hchild, ok_bind]
  by_cases hnull : child = nullIndex
  · obtain rfl := hc.eq_nil.mp hnull
    obtain ⟨s', child', C', hs', hext, hflag, hslot', hC', hlt', hmem'⟩ :=
      attachTail_spec hs htail hi hiT hTlt
    refine ⟨s', child', C', by rw [if_neg (by simp [hnull]), hs'], ?_, hflag, ?_, hC', hlt',
      fun k hk => .inr (hmem' k hk)⟩
    · exact (Extends.refl hs).trans hext (by simp) (by simp)
    · rw [hslot', hslot]
  · obtain ⟨s', C', hs', hext, hflag, hC', hlt', hmem'⟩ := hexpand hs hc htail hCT hClt hTlt
    refine ⟨s', child, C', by rw [if_pos hnull, hs'], ?_, ?_, ?_, ?_, hlt', hmem'⟩
    · exact (Extends.refl hs).trans hext (by simp) (fun k hk _ => Finset.mem_insert_of_mem hk)
    · rw [hflag, decide_eq_false hnull, Bool.and_false]
    · rw [hext.slots i hi hiC, hslot]
    · rwa [Forest.hang_of_ne_nil (fun h => hnull (hc.eq_nil.mpr h))]

theorem expandTail_spec (t : List D) (f : Forest D) :
    ∀ fuel, f.height < fuel → Expands (expandTail fuel) t f := by
  induction f with
  | nil =>
    intro fuel hfuel s level S T hs h htail _ _ _
    obtain ⟨fuel, rfl⟩ : ∃ n, fuel = n + 1 := ⟨fuel - 1, by omega⟩
    cases h
    exact ⟨s, ∅, by rw [expandTail, if_pos rfl], .refl hs, by simp, .nil, by simp, by simp⟩
  | node d c b ihc ihb =>
    intro fuel hfuel s level S T hs h htail hST hlt hTlt
    obtain ⟨fuel, rfl⟩ : ∃ n, fuel = n + 1 := ⟨fuel - 1, by omega⟩
    simp only [Forest.height] at hfuel
    cases h with
    | @node i _ child sibling _ _ C B hslot hc hb hiC hiB hCB =>
      simp only [Finset.disjoint_left, Finset.mem_insert, Finset.mem_union] at hST hlt
      have hnonnull : (i : Int) ≠ nullIndex := by
        simp only [nullIndex]
        omega
      obtain ⟨s₁, child', C', hs₁, hext₁, hflag₁, hslot₁, hC', hC'lt, hC'mem⟩ :=
        expandNode_spec (ihc fuel (by omega)) hs hslot hc htail hiC (hST (.inl rfl))
          (Finset.disjoint_left.mpr fun k hk => hST (.inr (.inl hk))) (hlt i (.inl rfl))
          (fun k hk => hlt k (.inr (.inl hk))) hTlt
      have hle₁ := hext₁.reserved_le
      have hb₁ : Denotes s₁ sibling b B := by
        refine hb.extends hext₁ (fun k hk => hlt k (.inr (.inr hk))) fun k hk => ?_
        simp only [Finset.mem_insert, not_or]
        refine ⟨?_, fun hk' => Finset.disjoint_left.mp hCB hk' hk⟩
        rintro rfl
        exact hiB hk
      have htail₁ : TailPath s₁ s₁.tailFirstIndex s₁.tailLastIndex t T := by
        rw [hext₁.tailFirst_eq, hext₁.tailLast_eq]
        refine htail.congr fun k hk => hext₁.slots k (hTlt k hk) ?_
        simp only [Finset.mem_insert, not_or]
        refine ⟨?_, fun hk' => hST (.inr (.inl hk')) hk⟩
        rintro rfl
        exact hST (.inl rfl) hk
      obtain ⟨s₂, B', hs₂, hext₂, hflag₂, hB', hB'lt, hB'mem⟩ :=
        ihb fuel (by omega) hext₁.sized hb₁ htail₁
          (Finset.disjoint_left.mpr fun k hk => hST (.inr (.inr hk)))
          (fun k hk => (hlt k (.inr (.inr hk))).trans_le hle₁)
          (fun k hk => (hTlt k hk).trans_le hle₁)
      have hle₂ := hext₂.reserved_le
      -- New nodes of the first child level are not among the slots of the siblings.
      have hC'B : ∀ k ∈ C', k ∉ B := by
        intro k hk hkB
        have := hlt k (.inr (.inr hkB))
        rcases hC'mem k hk with hk | hk | ⟨-, hk⟩
        · exact Finset.disjoint_left.mp hCB hk hkB
        · omega
        · exact hST (.inr (.inr hkB)) hk
      have hB'old : ∀ k ∈ B', k ∈ B ∨ s₁.reservedCount ≤ k := by
        intro k hk
        rcases hB'mem k hk with hk | hk | ⟨hk, -⟩
        · exact .inl hk
        · exact .inr hk
        · simp [hflag₁] at hk
      have hsibling : s₁.nextSiblings[i]? = some sibling := congrArg (·.2.2) hslot₁
      have hilt := hlt i (.inl rfl)
      refine ⟨s₂, insert i (C' ∪ B'), ?_, ?_, ?_, ?_, ?_, ?_⟩
      · rw [expandTail, if_neg hnonnull, hs₁, ok_bind, load_eq_ok hsibling, ok_bind, hs₂]
      · refine hext₁.trans hext₂ ?_ ?_
        · intro k hk _
          rcases Finset.mem_insert.mp hk with rfl | hk
          · simp
          · simp [hk]
        · intro k hk _
          simp [hk]
      · rw [hflag₂, hflag₁, decide_eq_false hnonnull, Bool.false_and, Bool.and_false]
      · rw [Forest.graft_node]
        refine .node ((hext₂.slots i (by omega) hiB).trans hslot₁)
          (hC'.extends hext₂ hC'lt hC'B) hB' ?_ ?_ ?_
        · intro hmem
          rcases hC'mem i hmem with hmem | hmem | ⟨-, hmem⟩
          · exact hiC hmem
          · omega
          · exact hST (.inl rfl) hmem
        · intro hmem
          rcases hB'old i hmem with hmem | hmem
          · exact hiB hmem
          · omega
        · refine Finset.disjoint_left.mpr fun k hk hk' => ?_
          rcases hB'old k hk' with hk' | hk'
          · exact hC'B k hk hk'
          · have := hC'lt k hk
            omega
      · intro k hk
        simp only [Finset.mem_insert, Finset.mem_union] at hk
        rcases hk with rfl | hk | hk
        · omega
        · exact (hC'lt k hk).trans_le hle₂
        · exact hB'lt k hk
      · intro k hk
        simp only [Finset.mem_insert, Finset.mem_union] at hk ⊢
        rcases hk with rfl | hk | hk
        · exact .inl (.inl rfl)
        · rcases hC'mem k hk with hk | hk | hk
          · exact .inl (.inr (.inl hk))
          · exact .inr (.inl hk)
          · exact .inr (.inr hk)
        · rcases hB'old k hk with hk | hk
          · exact .inl (.inr (.inr hk))
          · exact .inr (.inl (hle₁.trans hk))

end OpenJfx.Event.EventDispatchTreeTail
