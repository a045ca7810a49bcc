import OpenJfx.Event.EventDispatchTreeTail
import OpenJfx.Event.EventDispatchTreeMerge

namespace OpenJfx.Event.EventDispatchTree

open Java.Arrays Data Event.EventDispatchTreeImpl Event.EventDispatchTreeImpl.TreeImpl Forest
open Event.EventDispatchTreeSlots Event.EventDispatchTreeTail Event.EventDispatchTreeMerge List

variable {D : Type}

/-- The nodes below the root form the forest `f`, the tail the path `t`. -/
structure Represents (s : TreeImpl D) (f : Forest D) (t : List D) : Prop where
  sized : Sized s
  distinct : f.Distinct
  slots : ∃ S T, Denotes s s.rootIndex f S ∧
    TailPath s s.tailFirstIndex s.tailLastIndex t T ∧ Disjoint S T ∧
    (∀ i ∈ S, i < s.reservedCount) ∧ ∀ i ∈ T, i < s.reservedCount

theorem new_represents : Represents (new : TreeImpl D) .nil [] :=
  ⟨⟨rfl, rfl, Nat.le_refl _⟩, trivial, ∅, ∅, .nil, .nil, by simp, by simp, by simp⟩

variable {s : TreeImpl D}

theorem reset_represents (hs : Sized s) : Represents s.reset .nil [] := by
  have hle := hs.reserved_le
  have hkids := hs.children_eq
  have hsiblings := hs.siblings_eq
  refine ⟨⟨?_, ?_, Nat.zero_le _⟩, trivial, ∅, ∅, .nil, .nil, by simp, by simp, by simp⟩
  · simp only [reset, length_append, length_replicate, length_drop]
    omega
  · simp only [reset, length_append, length_replicate, length_drop]
    omega

variable {t : List D}

theorem path_eq_nil : path t = .nil ↔ t = [] := by
  cases t with
  | nil => simp [path]
  | cons d t => simp [path]

theorem newSlot_spec (hs : Sized s) (d : D) (child : Int) :
    ∃ s₁ s₂ s₃ s', s.ensureCapacity (s.reservedCount + 1) = .ok s₁ ∧
      s₁.setDispatcher s.reservedCount (some d) = .ok s₂ ∧
      s₂.setNextSibling s.reservedCount nullIndex = .ok s₃ ∧
      s₃.setNextChild s.reservedCount child = .ok s' ∧ Extends ∅ s s' ∧
      s₁.reservedCount = s.reservedCount ∧ s₃.rootIndex = s.rootIndex ∧
      s'.reservedCount = s.reservedCount ∧ s'.reservedCount < s'.dispatchers.length ∧
      slot s' s.reservedCount = (some (some d), some child, some nullIndex) := by
  obtain ⟨s₁, hs₁, hext₁, hres₁, -, hroom⟩ := ensureCapacity_spec hs
  rw [hres₁] at hroom
  obtain ⟨s₂, hs₂, hw₂⟩ := setDispatcher_spec hext₁.sized hroom (some d)
  obtain ⟨s₃, hs₃, hw₃⟩ := setNextSibling_spec (i := s.reservedCount) hw₂.sized
    (by rw [hw₂.capacity_eq]; exact hroom) nullIndex
  obtain ⟨s₄, hs₄, hw₄⟩ := setNextChild_spec (i := s.reservedCount) hw₃.sized
    (by rw [hw₃.capacity_eq, hw₂.capacity_eq]; exact hroom) child
  have hext₂ : Extends ∅ s s₂ := hext₁.trans hw₂.extends (by simp) (by simp)
  have hext₃ : Extends ∅ s s₃ := hext₂.trans hw₃.extends (by simp) (by simp)
  refine ⟨s₁, s₂, s₃, s₄, hs₁, hs₂, hs₃, hs₄, hext₃.trans hw₄.extends (by simp) (by simp), hres₁,
    hext₃.root_eq, ?_, ?_, ?_⟩
  · rw [hw₄.reserved_eq, hw₃.reserved_eq, hw₂.reserved_eq, hres₁]
  · rw [hw₄.reserved_eq, hw₃.reserved_eq, hw₂.reserved_eq, hres₁, hw₄.capacity_eq, hw₃.capacity_eq,
      hw₂.capacity_eq]
    exact hroom
  · rw [hw₄.here, hw₃.here, hw₂.here]

variable {f : Forest D}

theorem prepend_spec (h : Represents s f t) (d : D) :
    ∃ s', s.prepend d = .ok s' ∧ Represents s' (.node d f .nil) t := by
  obtain ⟨S, T, hS, hT, hST, hSlt, hTlt⟩ := h.slots
  obtain ⟨s₁, s₂, s₃, s₄, hs₁, hs₂, hs₃, hs₄, hext, hres₁, hroot₃, hres₄, hroom, hslot⟩ :=
    newSlot_spec h.sized d s.rootIndex
  refine ⟨{ s₄ with rootIndex := s.reservedCount, reservedCount := s₄.reservedCount + 1 }, ?_,
    ⟨hext.sized.children_eq, hext.sized.siblings_eq, hroom⟩,
    ⟨by simp [labels], h.distinct, trivial⟩, insert s.reservedCount (S ∪ ∅), T, ?_, ?_, ?_,
    ?_, ?_⟩
  · rw [prepend, hs₁, ok_bind]
    simp only [hres₁]
    rw [hs₂, ok_bind, hs₃, ok_bind, hroot₃, hs₄, ok_bind]
  · refine .node hslot (hS.congr fun i hi => hext.slots i (hSlt i hi) (by simp)) .nil ?_ (by simp)
      (by simp)
    intro hmem
    exact Nat.lt_irrefl _ (hSlt _ hmem)
  · rw [hext.tailFirst_eq, hext.tailLast_eq]
    exact hT.congr fun i hi => hext.slots i (hTlt i hi) (by simp)
  · simp only [Finset.union_empty, Finset.disjoint_insert_left]
    exact ⟨fun hmem => Nat.lt_irrefl _ (hTlt _ hmem), hST⟩
  · intro i hi
    show i < s₄.reservedCount + 1
    simp only [Finset.union_empty, Finset.mem_insert] at hi
    rcases hi with rfl | hi
    · omega
    · have := hSlt i hi
      omega
  · intro i hi
    show i < s₄.reservedCount + 1
    have := hTlt i hi
    omega

theorem append_spec (h : Represents s f t) (d : D) :
    ∃ s', s.append d = .ok s' ∧ Represents s' f (t ++ [d]) := by
  obtain ⟨S, T, hS, hT, hST, hSlt, hTlt⟩ := h.slots
  obtain ⟨s₁, s₂, s₃, s₄, hs₁, hs₂, hs₃, hs₄, hext, hres₁, -, hres₄, hroom, hslot⟩ :=
    newSlot_spec h.sized d nullIndex
  have hnew : s.reservedCount ∉ T := fun hmem => Nat.lt_irrefl _ (hTlt _ hmem)
  -- The node is linked to the tail; slots outside the tail are not touched.
  obtain ⟨s₅, hs₅, hsized₅, hres₅, hlen₅, hroot₅, hS₅, hT₅⟩ : ∃ s₅,
      s₄.linkTail s.reservedCount = .ok s₅ ∧ Sized s₅ ∧ s₅.reservedCount = s.reservedCount ∧
      s₅.dispatchers.length = s₄.dispatchers.length ∧ s₅.rootIndex = s.rootIndex ∧
      (∀ i ∈ S, slot s₅ i = slot s i) ∧
      TailPath s₅ s₅.tailFirstIndex s.reservedCount (t ++ [d]) (insert s.reservedCount T) := by
    rw [linkTail, hext.tailFirst_eq]
    by_cases hnull : s.tailFirstIndex = nullIndex
    · obtain rfl : t = [] := path_eq_nil.mp (hT.denotes.eq_nil.mp hnull)
      obtain ⟨-, -, rfl⟩ := hT.of_nil
      exact ⟨{ s₄ with tailFirstIndex := s.reservedCount }, if_pos hnull,
        ⟨hext.sized.children_eq, hext.sized.siblings_eq, hext.sized.reserved_le⟩, hres₄, rfl,
        hext.root_eq, fun i hi => hext.slots i (hSlt i hi) (by simp), .last hslot⟩
    · have ht : t ≠ [] := by
        rintro rfl
        exact hnull (hT.denotes.eq_nil.mpr rfl)
      obtain ⟨k, hk, hlast⟩ := hT.last_mem ht
      have hklt := hTlt k hk
      obtain ⟨s₅, hs₅, hw₅⟩ := setNextChild_spec (i := k) hext.sized (by omega) s.reservedCount
      have hsame : ∀ i, i < s.reservedCount → i ≠ k → slot s₅ i = slot s i := fun i hi hik => by
        rw [hw₅.others i hik, hext.slots i hi (by simp)]
      refine ⟨s₅, ?_, hw₅.sized, hw₅.reserved_eq.trans hres₄, hw₅.capacity_eq,
        hw₅.root_eq.trans hext.root_eq, ?_, ?_⟩
      · rw [if_neg hnull, hext.tailLast_eq, hlast, hs₅]
      · intro i hi
        refine hsame i (hSlt i hi) ?_
        rintro rfl
        exact Finset.disjoint_left.mp hST hi hk
      · rw [hw₅.tailFirst_eq, hext.tailFirst_eq]
        rw [hlast] at hT
        refine hT.concat hnew (fun i hi => hsame i (hTlt i hi)) ?_ ?_
        · rw [hw₅.here, hext.slots k hklt (by simp)]
        · rw [hw₅.others _ (by omega), hslot]
  refine ⟨{ s₅ with tailLastIndex := s.reservedCount, reservedCount := s₅.reservedCount + 1 }, ?_,
    ⟨hsized₅.children_eq, hsized₅.siblings_eq, ?_⟩, h.distinct, S, insert s.reservedCount T, ?_,
    hT₅.congr (fun _ _ => rfl), ?_, ?_, ?_⟩
  · rw [append, hs₁, ok_bind]
    simp only [hres₁]
    rw [hs₂, ok_bind, hs₃, ok_bind, hs₄, ok_bind, hs₅, ok_bind]
  · show s₅.reservedCount + 1 ≤ s₅.dispatchers.length
    omega
  · rw [hroot₅]
    exact hS.congr hS₅
  · simp only [Finset.disjoint_insert_right]
    exact ⟨fun hmem => Nat.lt_irrefl _ (hSlt _ hmem), hST⟩
  · intro i hi
    show i < s₅.reservedCount + 1
    have := hSlt i hi
    omega
  · intro i hi
    show i < s₅.reservedCount + 1
    rcases Finset.mem_insert.mp hi with rfl | hi
    · omega
    · have := hTlt i hi
      omega

theorem views_graft {r : Nat} {T : Finset Nat}
    (hT : TailPath s s.tailFirstIndex s.tailLastIndex t T) (hTlt : ∀ i ∈ T, i < r) {index : Int}
    {S : Finset Nat} (h : Denotes s index f S) (hST : Disjoint S T) (hSlt : ∀ i ∈ S, i < r) :
    Views s r index (.graft (.path t) f) := by
  induction h with
  | nil => exact .nil
  | @node i d child sibling c b C B hslot hc hb _ _ _ ihc ihb =>
    simp only [Finset.disjoint_left, Finset.mem_insert, Finset.mem_union] at hST hSlt
    have hviewc := ihc (Finset.disjoint_left.mpr fun k hk => hST (.inr (.inl hk)))
      fun k hk => hSlt k (.inr (.inl hk))
    have hviewb := ihb (Finset.disjoint_left.mpr fun k hk => hST (.inr (.inr hk)))
      fun k hk => hSlt k (.inr (.inr hk))
    simp only [slot, Prod.mk.injEq] at hslot
    obtain ⟨hd, hchild, hsibling⟩ := hslot
    rw [graft_node]
    by_cases hnull : child = nullIndex
    · obtain rfl := hc.eq_nil.mp hnull
      have hne : (i : Int) ≠ s.tailLastIndex := by
        intro heq
        by_cases ht : t = []
        · subst ht
          have hlast := hT.of_nil.2.1
          simp only [nullIndex] at hlast
          omega
        · obtain ⟨k, hk, hlast⟩ := hT.last_mem ht
          obtain rfl : i = k := Int.ofNat.inj (heq.trans hlast)
          exact hST (.inl rfl) hk
      refine .node (hSlt i (.inl rfl)) hd ?_ hsibling (hT.views rfl hTlt) hviewb
      rw [getChildIndex, load_eq_ok hchild, ok_bind, if_pos ⟨hnull, hne⟩]
    · rw [hang_of_ne_nil (fun h => hnull (hc.eq_nil.mpr h))]
      refine .node (hSlt i (.inl rfl)) hd ?_ hsibling hviewc hviewb
      rw [getChildIndex, load_eq_ok hchild, ok_bind, if_neg (fun h => hnull h.1)]

theorem Represents.views (h : Represents s f t) :
    Views s s.reservedCount s.srcLevelIndex (.hang (.path t) f) := by
  obtain ⟨S, T, hS, hT, hST, hSlt, hTlt⟩ := h.slots
  rw [srcLevelIndex]
  by_cases hroot : s.rootIndex = nullIndex
  · obtain rfl := hS.eq_nil.mp hroot
    rw [if_neg (by simp [hroot])]
    exact hT.views rfl hTlt
  · rw [if_pos hroot, hang_of_ne_nil (fun h => hroot (hS.eq_nil.mpr h))]
    exact views_graft hT hTlt hS hST hSlt

theorem Represents.height_le (h : Represents s f t) :
    (hang (.path t) f).height ≤ s.reservedCount := by
  obtain ⟨S, T, hS, hT, hST, hSlt, hTlt⟩ := h.slots
  have hcard : (S ∪ T).card ≤ s.reservedCount := by
    rw [← Finset.card_range s.reservedCount]
    refine Finset.card_le_card fun i hi => Finset.mem_range.mpr ?_
    rcases Finset.mem_union.mp hi with hi | hi
    · exact hSlt i hi
    · exact hTlt i hi
  rw [Finset.card_union_of_disjoint hST, hS.size_eq, hT.denotes.size_eq] at hcard
  have := (height_graft_le (.path t) f).2
  have := f.height_le_size
  have := (path t).height_le_size
  omega

theorem absorbTail_spec (h : Represents s f t) :
    ∃ s', s.absorbTail = .ok s' ∧ Represents s' (.hang (.path t) f) [] := by
  obtain ⟨S, T, hS, hT, hST, hSlt, hTlt⟩ := h.slots
  rw [absorbTail]
  by_cases htail : s.tailFirstIndex = nullIndex
  · obtain rfl : t = [] := path_eq_nil.mp (hT.denotes.eq_nil.mp htail)
    refine ⟨s, if_neg (by simp [htail]), ?_⟩
    rw [path, (hang_nil_left f).1]
    exact h
  · rw [if_pos htail]
    by_cases hroot : s.rootIndex = nullIndex
    · obtain rfl := hS.eq_nil.mp hroot
      refine ⟨{ s with
          rootIndex := s.tailFirstIndex
          tailFirstIndex := nullIndex
          tailLastIndex := nullIndex }, by rw [if_neg (by simp [hroot])],
        ⟨h.sized.children_eq, h.sized.siblings_eq, h.sized.reserved_le⟩, distinct_path t, T,
        ∅, hT.denotes.congr fun _ _ => rfl, .nil, by simp, hTlt, by simp⟩
    · have hsized : Sized { s with expandTailFirstPath := true } :=
        ⟨h.sized.children_eq, h.sized.siblings_eq, h.sized.reserved_le⟩
      have hht : f.height < s.reservedCount + 1 := by
        have := hS.size_le hSlt
        have := f.height_le_size
        omega
      obtain ⟨s₁, S', hs₁, hext, -, hS', hS'lt, -⟩ :=
        expandTail_spec t f (s.reservedCount + 1) hht hsized (hS.congr fun _ _ => rfl)
          (hT.congr fun _ _ => rfl) hST hSlt hTlt
      refine ⟨{ s₁ with tailFirstIndex := nullIndex, tailLastIndex := nullIndex }, ?_,
        ⟨hext.sized.children_eq, hext.sized.siblings_eq, hext.sized.reserved_le⟩, ?_, S', ∅, ?_,
        .nil, by simp, hS'lt, by simp⟩
      · rw [if_pos hroot, hs₁, ok_bind]
      · exact (distinct_graft (distinct_path t) h.distinct).2
      · rw [hext.root_eq, hang_of_ne_nil (fun h => hroot (hS.eq_nil.mpr h))]
        exact hS'.congr fun _ _ => rfl

/-- The tree denotes the forest: what its root denotes, with its tail below every
leaf. -/
def DenotesForest (s : TreeImpl D) (f : Forest D) : Prop :=
  ∃ g t, Represents s g t ∧ f = .hang (.path t) g

theorem DenotesForest.distinct (h : DenotesForest s f) :
    f.Distinct := by
  obtain ⟨g, t, hs, rfl⟩ := h
  exact (distinct_graft (distinct_path t) hs.distinct).2

def callOn (trees : List (TreeImpl D)) (tree : Nat) (f : TreeImpl D → Outcome (TreeImpl D)) :
    Outcome (List (TreeImpl D)) :=
  match trees[tree]? with
  | some s => do
    let s ← f s
    .ok (trees.set tree s)
  | none => .ok trees

theorem callOn_spec {trees : List (TreeImpl D)} {forests : List (Forest D)}
    (h : List.Forall₂ DenotesForest trees forests) (tree : Nat)
    {f : TreeImpl D → Outcome (TreeImpl D)} {g : Forest D → Forest D}
    (hf : ∀ s u, trees[tree]? = some s → forests[tree]? = some u → DenotesForest s u →
      ∃ s', f s = .ok s' ∧ DenotesForest s' (g u)) :
    ∃ trees', callOn trees tree f = .ok trees' ∧
      List.Forall₂ DenotesForest trees' (forests.modify tree g) := by
  induction h generalizing tree with
  | nil => exact ⟨[], by simp [callOn], by simp⟩
  | @cons s u trees forests hsu hrest ih =>
    cases tree with
    | zero =>
      obtain ⟨s', hs', hdenotes⟩ := hf s u rfl rfl hsu
      exact ⟨s' :: trees, by simp [callOn, hs'], .cons hdenotes hrest⟩
    | succ tree =>
      obtain ⟨trees', htrees', hdenotes⟩ := ih tree fun s u hs hu => hf s u hs hu
      refine ⟨s :: trees', ?_, .cons hsu hdenotes⟩
      simp only [callOn, getElem?_cons_succ] at htrees' ⊢
      rcases hget : trees[tree]? with _ | s₀
      · simpa [hget] using htrees'
      · rcases hfs : f s₀ with _ | s₁
        · simp [hget, hfs] at htrees'
        · simpa [hget, hfs] using htrees'

theorem forall₂_getElem? {trees : List (TreeImpl D)} {forests : List (Forest D)}
    (h : List.Forall₂ DenotesForest trees forests) (i : Nat) :
    (trees[i]? = none ∧ forests[i]? = none) ∨
      ∃ s f, trees[i]? = some s ∧ forests[i]? = some f ∧ DenotesForest s f := by
  induction h generalizing i with
  | nil => simp
  | @cons s f trees forests hsf _ ih =>
    cases i with
    | zero => exact .inr ⟨s, f, rfl, rfl, hsf⟩
    | succ i => exact ih i

section Merge

variable [DecidableEq D]

theorem mergeTree_spec {s src : TreeImpl D} {f g : Forest D} {t u : List D} (h : Represents s f t)
    (hsrc : Represents src g u) :
    ∃ s', s.mergeTree (some src) = .ok s' ∧
      Represents s' (.merge (.hang (.path u) g) (.hang (.path t) f)) [] := by
  obtain ⟨s₁, hs₁, h₁⟩ := absorbTail_spec h
  obtain ⟨S, T, hS, hT, -, hSlt, hTlt⟩ := h₁.slots
  have hdist := (distinct_graft (distinct_path u) hsrc.distinct).2
  have hht : (hang (.path u) g).height < src.reservedCount + 1 :=
    Nat.lt_succ_of_le hsrc.height_le
  simp only [mergeTree, hs₁, ok_bind, source_some]
  by_cases hroot : s₁.rootIndex = nullIndex
  · obtain ⟨j, s₂, B, hs₂, hext, -, hB, hBrange⟩ :=
      (copyTreeLevel_spec (some src) src.reservedCount _).1 (src.reservedCount + 1) hht
        h₁.sized hsrc.views (by simp)
    refine ⟨{ s₂ with rootIndex := j }, ?_, ?_⟩
    · rw [if_pos hroot, hs₂, ok_bind]
    · rw [hS.eq_nil.mp hroot, merge_nil_right hdist]
      have hnil := hT.of_nil
      refine ⟨⟨hext.sized.children_eq, hext.sized.siblings_eq, hext.sized.reserved_le⟩, hdist,
        B, ∅, hB.congr fun _ _ => rfl, ?_, by simp, fun i hi => (hBrange i hi).2, by simp⟩
      rw [hext.tailFirst_eq, hext.tailLast_eq, hnil.1, hnil.2.1]
      exact .nil
  · obtain ⟨s₂, hs₂, hext, S', hS', hS'lt, -⟩ :=
      mergeTreeLevel_spec _ hdist (src.reservedCount + 1) src.srcLevelIndex hht hsrc.views
        h₁.sized hS (fun h => hroot (hS.eq_nil.mpr h)) hSlt
    have hnil := hT.of_nil
    refine ⟨s₂, by rw [if_neg hroot, hs₂], hext.sized, distinct_merge _ h₁.distinct, S', ∅,
      ?_, ?_, by simp, hS'lt, by simp⟩
    · rw [hext.root_eq]
      exact hS'
    · rw [hext.tailFirst_eq, hext.tailLast_eq, hnil.1, hnil.2.1]
      exact .nil

theorem mergeTree_self_spec {s : TreeImpl D} {f : Forest D} {t : List D} (h : Represents s f t) :
    ∃ s', s.mergeTree none = .ok s' ∧ Represents s' (.hang (.path t) f) [] := by
  obtain ⟨s₁, hs₁, h₁⟩ := absorbTail_spec h
  obtain ⟨S, T, hS, hT, -, hSlt, hTlt⟩ := h₁.slots
  have hnil := hT.of_nil
  refine ⟨s₁, ?_, h₁⟩
  simp only [mergeTree, hs₁, ok_bind, source_none]
  by_cases hroot : s₁.rootIndex = nullIndex
  · have hlevel : s₁.srcLevelIndex = nullIndex := by
      rw [srcLevelIndex, if_neg (by simp [hroot]), hnil.1]
    rw [if_pos hroot, hlevel, copyTreeLevel, if_pos rfl, ok_bind]
    rw [← hroot]
  · have hht : (hang (.path t) f).height < s₁.reservedCount + 1 := by
      have := hS.size_le hSlt
      have := (hang (.path t) f).height_le_size
      omega
    have hlen : (hang (.path t) f).labels.length ≤ s₁.reservedCount :=
      (length_labels_le_size _).trans (hS.size_le hSlt)
    rw [if_neg hroot, srcLevelIndex, if_pos hroot]
    exact mergeTreeLevel_self hnil.1 _ (s₁.reservedCount + 1) s₁.rootIndex s₁.rootIndex .nil S
      hht hS rfl h₁.distinct hSlt (by simpa [labels] using hlen)

/-- The calls on the trees of a program, which are named by their order of
creation. -/
inductive Call (D : Type)
  | createTree
  | append (tree : Nat) (eventDispatcher : D)
  | prepend (tree : Nat) (eventDispatcher : D)
  | mergeTree (tree other : Nat)
  | reset (tree : Nat)

def Call.run (trees : List (TreeImpl D)) : Call D → Outcome (List (TreeImpl D))
  | .createTree => .ok (trees ++ [new])
  | .append tree d => callOn trees tree fun s => s.append d
  | .prepend tree d => callOn trees tree fun s => s.prepend d
  | .reset tree => callOn trees tree fun s => .ok s.reset
  | .mergeTree tree other =>
    match trees[other]? with
    | some src => callOn trees tree fun s => s.mergeTree (if tree = other then none else some src)
    | none => .ok trees

def Call.onForests (forests : List (Forest D)) : Call D → List (Forest D)
  | .createTree => forests ++ [.nil]
  | .append tree d => forests.modify tree fun f => .hang (.path [d]) f
  | .prepend tree d => forests.modify tree fun f => .node d f .nil
  | .reset tree => forests.modify tree fun _ => .nil
  | .mergeTree tree other =>
    match forests[other]? with
    | some g => forests.modify tree fun f => .merge g f
    | none => forests

theorem run_spec {trees : List (TreeImpl D)} {forests : List (Forest D)}
    (h : List.Forall₂ DenotesForest trees forests) (call : Call D) :
    ∃ trees', call.run trees = .ok trees' ∧
      List.Forall₂ DenotesForest trees' (call.onForests forests) := by
  cases call with
  | createTree =>
    refine ⟨trees ++ [new], rfl, rel_append h ?_⟩
    exact .cons ⟨.nil, [], new_represents, rfl⟩ .nil
  | append tree d =>
    refine callOn_spec h tree ?_
    rintro s _ - - ⟨g, t, hs, rfl⟩
    obtain ⟨s', hs', h'⟩ := append_spec hs d
    exact ⟨s', hs', g, t ++ [d], h', by rw [path_concat, hang_hang]⟩
  | prepend tree d =>
    refine callOn_spec h tree ?_
    rintro s _ - - ⟨g, t, hs, rfl⟩
    obtain ⟨s', hs', h'⟩ := prepend_spec hs d
    exact ⟨s', hs', .node d g .nil, t, h', by rw [hang_node, graft_nil]⟩
  | reset tree =>
    refine callOn_spec h tree ?_
    rintro s _ - - ⟨g, t, hs, rfl⟩
    exact ⟨s.reset, rfl, .nil, [], reset_represents hs.sized, rfl⟩
  | mergeTree tree other =>
    simp only [Call.run, Call.onForests]
    rcases forall₂_getElem? h other with ⟨hnone, hnone'⟩ | ⟨src, g, hsrc, hg, g₀, u, hsrc', rfl⟩
    · rw [hnone, hnone']
      exact ⟨trees, rfl, h⟩
    · rw [hsrc, hg]
      refine callOn_spec h tree ?_
      rintro s _ hs hf ⟨f₀, t, hs', rfl⟩
      by_cases heq : tree = other
      · subst heq
        obtain ⟨s', hmerged, h'⟩ := mergeTree_self_spec hs'
        refine ⟨s', by rw [if_pos rfl, hmerged], _, [], h', ?_⟩
        rw [hf] at hg
        rw [← Option.some.inj hg, path, (hang_nil_left _).1]
        exact merge_self
          (distinct_graft (distinct_path t) hs'.distinct).2
      · obtain ⟨s', hmerged, h'⟩ := mergeTree_spec hs' hsrc'
        refine ⟨s', by rw [if_neg heq, hmerged], _, [], h', ?_⟩
        rw [path, (hang_nil_left _).1]

/-- A sequence of calls, from a program without trees. -/
def runCalls (calls : List (Call D)) : Outcome (List (TreeImpl D)) :=
  calls.foldlM Call.run []

def forestsAfter (calls : List (Call D)) : List (Forest D) :=
  calls.foldl Call.onForests []

theorem runCalls_spec (calls : List (Call D)) :
    ∃ trees, runCalls calls = .ok trees ∧
      List.Forall₂ DenotesForest trees (forestsAfter calls) := by
  have hrun : ∀ {trees : List (TreeImpl D)} {forests : List (Forest D)},
      List.Forall₂ DenotesForest trees forests →
        ∃ trees', calls.foldlM Call.run trees = .ok trees' ∧
        List.Forall₂ DenotesForest trees' (calls.foldl Call.onForests forests) := by
    induction calls with
    | nil =>
      intro trees forests h
      exact ⟨trees, rfl, h⟩
    | cons call calls ih =>
      intro trees forests h
      obtain ⟨trees₁, hcall, h₁⟩ := run_spec h call
      obtain ⟨trees₂, hcalls, h₂⟩ := ih h₁
      exact ⟨trees₂, by rw [foldlM_cons, hcall, ok_bind, hcalls], h₂⟩
  exact hrun .nil

/-- The paths of `h` are those of both. -/
structure IsUnion (f g h : Forest D) : Prop where
  distinct : h.Distinct
  hasPath : ∀ p, h.HasPath p ↔ f.HasPath p ∨ g.HasPath p
  keepsLeaf : ∀ p, f.IsLeafPath p ∨ g.IsLeafPath p → h.HasPath p
  isLeafPath : ∀ p, h.IsLeafPath p ↔ (f.HasPath p ∨ g.HasPath p) ∧
    ∀ q, q ≠ [] → ¬ f.HasPath (p ++ q) ∧ ¬ g.HasPath (p ++ q)

theorem isUnion_merge {f : Forest D} (hf : f.Distinct) (g : Forest D) :
    IsUnion f g (.merge g f) := by
  have hpath := hasPath_merge g f
  refine ⟨distinct_merge g hf, hpath, ?_, ?_⟩
  · rintro p (hleaf | hleaf)
    · exact (hpath p).mpr (.inl hleaf.hasPath)
    · exact (hpath p).mpr (.inr hleaf.hasPath)
  · intro p
    rw [isLeafPath_iff (distinct_merge g hf)]
    simp only [hpath, not_or]

/-- Whatever the sequence of calls, every tree denotes the forest that the model
has for it, and the union of any two of these forests loses no path. -/
theorem runCalls_denotes (calls : List (Call D)) :
    ∃ trees, runCalls calls = .ok trees ∧
      List.Forall₂ DenotesForest trees (forestsAfter calls) ∧
      ∀ f ∈ forestsAfter calls, f.Distinct ∧
        ∀ g ∈ forestsAfter calls, IsUnion f g (.merge g f) := by
  obtain ⟨trees, hrun, h⟩ := runCalls_spec calls
  refine ⟨trees, hrun, h, ?_⟩
  intro f hf
  obtain ⟨i, hi⟩ := getElem?_of_mem hf
  rcases forall₂_getElem? h i with ⟨-, hnone⟩ | ⟨s, f', -, hf', hdenotes⟩
  · rw [hi] at hnone
    simp at hnone
  · rw [hi] at hf'
    obtain rfl := Option.some.inj hf'
    exact ⟨hdenotes.distinct, fun g _ => isUnion_merge hdenotes.distinct g⟩

end Merge

end OpenJfx.Event.EventDispatchTree
