import Mathlib.Data.List.Basic

/-!
Forests of labelled nodes, written by first child and next sibling: grafting
below all leaves, the union that merges siblings with equal labels, and the
paths that lead down from the roots.
-/

namespace OpenJfx.Data

open List

inductive Forest (D : Type)
  | nil
  | node (label : D) (children siblings : Forest D)

namespace Forest

variable {D : Type}

def path : List D → Forest D
  | [] => .nil
  | d :: l => .node d (path l) .nil

/-- `t` below every leaf; an empty forest has none. -/
def graft (t : Forest D) : Forest D → Forest D
  | .nil => .nil
  | .node d .nil s => .node d t (graft t s)
  | .node d (.node d' c' s') s => .node d (graft t (.node d' c' s')) (graft t s)

/-- `t` below every leaf, or `t` itself when there is nothing to put it below. -/
def hang (t : Forest D) : Forest D → Forest D
  | .nil => t
  | .node d c s => graft t (.node d c s)

@[simp] theorem hang_nil (t : Forest D) : hang t .nil = t := rfl

@[simp] theorem graft_nil (t : Forest D) : graft t .nil = .nil := rfl

@[simp] theorem graft_node (t : Forest D) (d : D) (c s : Forest D) :
    graft t (.node d c s) = .node d (hang t c) (graft t s) := by
  cases c <;> rfl

@[simp] theorem hang_node (t : Forest D) (d : D) (c s : Forest D) :
    hang t (.node d c s) = .node d (hang t c) (graft t s) :=
  graft_node t d c s

variable {f : Forest D}

theorem hang_of_ne_nil (h : f ≠ .nil) (t : Forest D) : hang t f = graft t f := by
  cases f with
  | nil => exact absurd rfl h
  | node d c s => rfl

theorem graft_graft_and_below_hang (t u f : Forest D) :
    graft u (graft t f) = graft (hang u t) f ∧ hang u (hang t f) = hang (hang u t) f := by
  induction f with
  | nil => exact ⟨rfl, rfl⟩
  | node d c s ihc ihs =>
    refine ⟨?_, ?_⟩
    · rw [graft_node, graft_node, graft_node, ihc.2, ihs.1]
    · rw [hang_node, hang_node, hang_node, ihc.2, ihs.1]

theorem hang_hang (t u f : Forest D) : hang u (hang t f) = hang (hang u t) f :=
  (graft_graft_and_below_hang t u f).2

theorem hang_nil_left (f : Forest D) : hang .nil f = f ∧ graft .nil f = f := by
  induction f with
  | nil => exact ⟨rfl, rfl⟩
  | node d c s ihc ihs => rw [hang_node, graft_node, ihc.1, ihs.2]; exact ⟨rfl, rfl⟩

theorem path_concat (l : List D) (d : D) : path (l ++ [d]) = hang (path [d]) (path l) := by
  induction l with
  | nil => rfl
  | cons e l ih => simp [path, ih]

/-- The length of the longest chain of child and sibling steps. -/
def height : Forest D → Nat
  | .nil => 0
  | .node _ c s => max (height c) (height s) + 1

def size : Forest D → Nat
  | .nil => 0
  | .node _ c s => size c + size s + 1

theorem height_le_size (f : Forest D) : height f ≤ size f := by
  induction f with
  | nil => exact Nat.le_refl 0
  | node d c s ihc ihs =>
    simp only [height, size]
    omega

theorem height_graft_le (t f : Forest D) :
    height (graft t f) ≤ height f + height t ∧ height (hang t f) ≤ height f + height t := by
  induction f with
  | nil =>
    simp only [graft_nil, hang_nil]
    omega
  | node d c s ihc ihs =>
    rw [hang_node, graft_node]
    simp only [height]
    omega

def labels : Forest D → List D
  | .nil => []
  | .node d _ s => d :: labels s

theorem length_labels_le_size (f : Forest D) : (labels f).length ≤ size f := by
  induction f with
  | nil => exact Nat.le_refl 0
  | node d c s _ ihs =>
    simp only [labels, length_cons, size]
    omega

theorem length_labels_le_height (f : Forest D) : (labels f).length ≤ height f := by
  induction f with
  | nil => exact Nat.le_refl 0
  | node d c s _ ihs =>
    simp only [labels, length_cons, height]
    omega

def Distinct : Forest D → Prop
  | .nil => True
  | .node d c s => d ∉ labels s ∧ Distinct c ∧ Distinct s

theorem labels_graft (t f : Forest D) : labels (graft t f) = labels f := by
  induction f with
  | nil => rfl
  | node d c s _ ihs => rw [graft_node, labels, labels, ihs]

theorem distinct_path (l : List D) : Distinct (path l) := by
  induction l with
  | nil => trivial
  | cons d l ih => exact ⟨by simp [labels], ih, trivial⟩

theorem distinct_graft {t : Forest D} (ht : Distinct t) (hf : Distinct f) :
    Distinct (graft t f) ∧ Distinct (hang t f) := by
  induction f with
  | nil => exact ⟨trivial, ht⟩
  | node d c s ihc ihs =>
    obtain ⟨hd, hc, hs⟩ := hf
    rw [hang_node, graft_node]
    exact ⟨⟨labels_graft t s ▸ hd, (ihc hc).2, (ihs hs).1⟩,
      ⟨labels_graft t s ▸ hd, (ihc hc).2, (ihs hs).1⟩⟩

/-- The siblings of `f` followed by those of `g`. -/
def join : Forest D → Forest D → Forest D
  | .nil, g => g
  | .node d c s, g => .node d c (join s g)

theorem labels_join (f g : Forest D) : labels (join f g) = labels f ++ labels g := by
  induction f with
  | nil => rfl
  | node d c s _ ihs => rw [join, labels, ihs, labels, cons_append]

theorem join_node_assoc (f : Forest D) (d : D) (c s : Forest D) :
    join f (.node d c s) = join (join f (.node d c .nil)) s := by
  induction f with
  | nil => rfl
  | node d' c' s' _ ihs => rw [join, join, join, ihs]

theorem join_nil (f : Forest D) : join f .nil = f := by
  induction f with
  | nil => rfl
  | node d' c' s' _ ihs => rw [join, ihs]

theorem Distinct.of_join_node {c s : Forest D} {d : D} (h : Distinct (join f (.node d c s))) :
    d ∉ labels f ∧ Distinct c := by
  induction f with
  | nil => exact ⟨by simp [labels], h.2.1⟩
  | node d' c' s' _ ih =>
    obtain ⟨hd', -, hs'⟩ := h
    obtain ⟨hd, hc⟩ := ih hs'
    refine ⟨?_, hc⟩
    rw [labels, mem_cons, not_or]
    refine ⟨?_, hd⟩
    rintro rfl
    exact hd' (by rw [labels_join]; simp [labels])

section Merge

variable [DecidableEq D]

/-- Give the children of the first node labelled `d` to `update`, or put a new
last node with the children `fresh`. -/
def insertWith (d : D) (update : Forest D → Forest D) (fresh : Forest D) : Forest D → Forest D
  | .nil => .node d fresh .nil
  | .node d' c s =>
    if d' = d then .node d' (update c) s else .node d' c (insertWith d update fresh s)

/-- `merge src dst`: the union of two forests. The nodes of `dst` come first;
nodes with equal labels are merged. -/
def merge : Forest D → Forest D → Forest D
  | .nil, dst => dst
  | .node d c s, dst => merge s (insertWith d (merge c) (merge c .nil) dst)

theorem labels_insertWith (d : D) (update : Forest D → Forest D) (fresh f : Forest D) :
    labels (insertWith d update fresh f) =
      if d ∈ labels f then labels f else labels f ++ [d] := by
  induction f with
  | nil => simp [insertWith, labels]
  | node d' c s _ ihs =>
    by_cases heq : d' = d
    · simp [insertWith, labels, heq]
    · have hne : ¬ d = d' := fun h => heq h.symm
      simp only [insertWith, if_neg heq, labels, ihs, mem_cons, hne, false_or]
      split <;> rfl

theorem insertWith_ne_nil (d : D) (update : Forest D → Forest D) (fresh f : Forest D) :
    insertWith d update fresh f ≠ .nil := by
  cases f with
  | nil => simp [insertWith]
  | node d' c s =>
    simp only [insertWith]
    split <;> simp

variable {d : D} {f : Forest D}

theorem distinct_insertWith {update : Forest D → Forest D} {fresh : Forest D}
    (hupd : ∀ c, Distinct c → Distinct (update c)) (hfresh : Distinct fresh) (hf : Distinct f) :
    Distinct (insertWith d update fresh f) := by
  induction f with
  | nil => exact ⟨by simp [labels], hfresh, trivial⟩
  | node d' c s _ ihs =>
    obtain ⟨hd, hc, hs⟩ := hf
    by_cases heq : d' = d
    · simp only [insertWith, if_pos heq]
      exact ⟨hd, hupd c hc, hs⟩
    · simp only [insertWith, if_neg heq]
      refine ⟨?_, hc, ihs hs⟩
      rw [labels_insertWith]
      split
      · exact hd
      · simp [hd, heq]

theorem distinct_merge (g : Forest D) (hf : Distinct f) : Distinct (merge g f) := by
  induction g generalizing f with
  | nil => exact hf
  | node d c s ihc ihs =>
    refine ihs (distinct_insertWith ?_ ?_ hf)
    · intro c' hc'
      exact ihc hc'
    · exact ihc trivial

theorem insertWith_new (h : d ∉ labels f) (update : Forest D → Forest D) (fresh : Forest D) :
    insertWith d update fresh f = join f (.node d fresh .nil) := by
  induction f with
  | nil => rfl
  | node d' c s _ ihs =>
    simp only [labels, mem_cons, not_or] at h
    rw [insertWith, if_neg (fun heq => h.1 heq.symm), ihs h.2, join]

theorem merge_eq_join {g : Forest D} (hg : Distinct g) (hlabels : ∀ d ∈ labels g, d ∉ labels f) :
    merge g f = join f g := by
  induction g generalizing f with
  | nil => rw [merge, join_nil]
  | node d c s ihc ihs =>
    obtain ⟨hd, hc, hs⟩ := hg
    have hfresh : merge c .nil = c := by
      rw [ihc hc (by simp [labels])]
      rfl
    rw [merge, insertWith_new (hlabels d (by simp [labels])), hfresh, join_node_assoc f d c s]
    refine ihs hs ?_
    intro e he
    rw [labels_join, labels, labels, mem_append, mem_singleton, not_or]
    refine ⟨hlabels e (by simp [labels, he]), ?_⟩
    rintro rfl
    exact hd he

theorem merge_nil_right {g : Forest D} (hg : Distinct g) : merge g .nil = g :=
  merge_eq_join hg (by simp [labels])

theorem insertWith_join (h : d ∉ labels f) (update : Forest D → Forest D) (fresh c s : Forest D) :
    insertWith d update fresh (join f (.node d c s)) = join f (.node d (update c) s) := by
  induction f with
  | nil => rw [join, insertWith, if_pos rfl, join]
  | node d' c' s' _ ihs =>
    simp only [labels, mem_cons, not_or] at h
    rw [join, insertWith, if_neg (fun heq => h.1 heq.symm), ihs h.2, join]

theorem merge_suffix_self {g : Forest D} (h : Distinct (join f g)) :
    merge g (join f g) = join f g := by
  induction g generalizing f with
  | nil => rfl
  | node d c s ihc ihs =>
    have hg := h.of_join_node
    have hkids : merge c c = c := ihc (f := .nil) hg.2
    rw [merge, insertWith_join hg.1, hkids, join_node_assoc]
    exact ihs (by rwa [← join_node_assoc])

theorem merge_self (h : Distinct f) : merge f f = f :=
  merge_suffix_self (f := .nil) h

end Merge

/-- The labels of all nodes, parents before their children. -/
def preorder : Forest D → List D
  | .nil => []
  | .node d c s => d :: preorder c ++ preorder s

@[simp] theorem length_preorder (f : Forest D) : (preorder f).length = size f := by
  induction f with
  | nil => rfl
  | node d c s ihc ihs =>
    rw [preorder, length_append, length_cons, size]
    omega

theorem preorder_path (l : List D) : preorder (path l) = l := by
  induction l with
  | nil => rfl
  | cons d l ih => rw [path, preorder, ih, preorder, append_nil]

theorem size_path (l : List D) : size (path l) = l.length := by
  rw [← length_preorder, preorder_path]

theorem height_le_graft (t f : Forest D) :
    height f ≤ height (graft t f) ∧ height f ≤ height (hang t f) := by
  induction f with
  | nil => exact ⟨Nat.le_refl 0, Nat.zero_le _⟩
  | node d c s ihc ihs =>
    rw [hang_node, graft_node]
    simp only [height]
    omega

theorem size_le_graft (t f : Forest D) :
    size f ≤ size (graft t f) ∧ size f ≤ size (hang t f) := by
  induction f with
  | nil => exact ⟨Nat.le_refl 0, Nat.zero_le _⟩
  | node d c s ihc ihs =>
    rw [hang_node, graft_node]
    simp only [size]
    omega

theorem size_lt_graft {t : Forest D} (ht : t ≠ .nil) (hf : f ≠ .nil) :
    size f < size (graft t f) := by
  induction f with
  | nil => exact absurd rfl hf
  | node d c s ihc _ =>
    have hs := (size_le_graft t s).1
    rw [graft_node, size, size]
    cases c with
    | nil =>
      cases t with
      | nil => exact absurd rfl ht
      | node e c' s' =>
        simp only [hang_nil, size]
        omega
    | node e c' s' =>
      have hc := ihc (by simp)
      rw [← hang_of_ne_nil (by simp)] at hc
      omega

def LeavesLast : Forest D → Prop
  | .nil => True
  | .node _ c s => (c = .nil → s = .nil) ∧ LeavesLast c ∧ LeavesLast s

/-- A non-empty path that starts at a root and goes down. -/
def HasPath : Forest D → List D → Prop
  | .nil, _ => False
  | .node d c s, p => (∃ q, p = d :: q ∧ (q = [] ∨ HasPath c q)) ∨ HasPath s p

def IsLeafPath : Forest D → List D → Prop
  | .nil, _ => False
  | .node d c s, p => (∃ q, p = d :: q ∧ (q = [] ∧ c = .nil ∨ IsLeafPath c q)) ∨ IsLeafPath s p

theorem IsLeafPath.hasPath {p : List D} (h : IsLeafPath f p) : HasPath f p := by
  induction f generalizing p with
  | nil => exact h
  | node d c s ihc ihs =>
    rcases h with ⟨q, rfl, ⟨rfl, -⟩ | hq⟩ | hs
    · exact .inl ⟨[], rfl, .inl rfl⟩
    · exact .inl ⟨q, rfl, .inr (ihc hq)⟩
    · exact .inr (ihs hs)

theorem hasPath_insertWith [DecidableEq D] {d : D} {update : Forest D → Forest D}
    {fresh g : Forest D} (hupd : ∀ c p, HasPath (update c) p ↔ HasPath c p ∨ HasPath g p)
    (hfresh : ∀ p, HasPath fresh p ↔ HasPath g p) (p : List D) :
    HasPath (insertWith d update fresh f) p ↔
      HasPath f p ∨ ∃ q, p = d :: q ∧ (q = [] ∨ HasPath g q) := by
  induction f with
  | nil => simp [insertWith, HasPath, hfresh]
  | node d' c s _ ihs =>
    by_cases heq : d' = d
    · subst heq
      simp only [insertWith, if_true, HasPath, hupd]
      constructor
      · rintro (⟨q, rfl, rfl | hc | hg⟩ | hs)
        · exact .inl (.inl ⟨[], rfl, .inl rfl⟩)
        · exact .inl (.inl ⟨q, rfl, .inr hc⟩)
        · exact .inr ⟨q, rfl, .inr hg⟩
        · exact .inl (.inr hs)
      · rintro ((⟨q, rfl, rfl | hc⟩ | hs) | ⟨q, rfl, rfl | hg⟩)
        · exact .inl ⟨[], rfl, .inl rfl⟩
        · exact .inl ⟨q, rfl, .inr (.inl hc)⟩
        · exact .inr hs
        · exact .inl ⟨[], rfl, .inl rfl⟩
        · exact .inl ⟨q, rfl, .inr (.inr hg)⟩
    · simp only [insertWith, if_neg heq, HasPath, ihs, or_assoc]

theorem hasPath_merge [DecidableEq D] (g f : Forest D) (p : List D) :
    HasPath (merge g f) p ↔ HasPath f p ∨ HasPath g p := by
  induction g generalizing f p with
  | nil => simp [merge, HasPath]
  | node d c s ihc ihs =>
    rw [merge, ihs, hasPath_insertWith (g := c) (fun c' q => ihc c' q)
      (fun q => by rw [ihc]; simp [HasPath]), HasPath, or_assoc]

theorem labels_of_hasPath {d : D} {q : List D} (h : HasPath f (d :: q)) :
    d ∈ labels f := by
  induction f with
  | nil => exact absurd h id
  | node d' c s _ ihs =>
    rcases h with ⟨q', heq, -⟩ | hs
    · obtain ⟨rfl, -⟩ := List.cons.inj heq
      simp [labels]
    · exact mem_cons_of_mem _ (ihs hs)

theorem exists_hasPath (h : f ≠ .nil) : ∃ p, p ≠ [] ∧ HasPath f p := by
  cases f with
  | nil => exact absurd rfl h
  | node d c s => exact ⟨[d], by simp, .inl ⟨[], rfl, .inl rfl⟩⟩

theorem not_hasPath_nil (f : Forest D) : ¬ HasPath f [] := by
  induction f with
  | nil => exact id
  | node d c s _ ihs =>
    rintro (⟨q, hq, -⟩ | hs)
    · simp at hq
    · exact ihs hs

theorem isLeafPath_iff (hf : Distinct f) (p : List D) :
    IsLeafPath f p ↔ HasPath f p ∧ ∀ q, q ≠ [] → ¬ HasPath f (p ++ q) := by
  induction f generalizing p with
  | nil => simp [IsLeafPath, HasPath]
  | node d c s ihc ihs =>
    obtain ⟨hd, hc, hs⟩ := hf
    constructor
    · intro h
      refine ⟨h.hasPath, ?_⟩
      rintro q hq (⟨q', heq, hq'⟩ | hext)
      · rcases h with ⟨p', rfl, ⟨rfl, rfl⟩ | hp'⟩ | hsib
        · obtain rfl : q = q' := by simpa using heq
          rcases hq' with rfl | hq'
          · exact hq rfl
          · exact hq'
        · obtain rfl : p' ++ q = q' := by simpa using heq
          rcases hq' with hnil | hq'
          · exact hq (append_eq_nil_iff.mp hnil).2
          · exact ((ihc hc p').mp hp').2 q hq hq'
        · rcases p with _ | ⟨e, p⟩
          · exact not_hasPath_nil _ hsib.hasPath
          · obtain ⟨rfl, -⟩ : e = d ∧ p ++ q = q' := by simpa using heq
            exact hd (labels_of_hasPath hsib.hasPath)
      · rcases h with ⟨p', rfl, -⟩ | hsib
        · exact hd (labels_of_hasPath hext)
        · exact ((ihs hs p).mp hsib).2 q hq hext
    · rintro ⟨⟨p', rfl, hp'⟩ | hsib, hend⟩
      · refine .inl ⟨p', rfl, ?_⟩
        rcases hp' with rfl | hp'
        · refine .inl ⟨rfl, ?_⟩
          by_contra hne
          obtain ⟨q, hq, hpath⟩ := exists_hasPath hne
          exact hend q hq (.inl ⟨q, rfl, .inr hpath⟩)
        · refine .inr ((ihc hc p').mpr ⟨hp', ?_⟩)
          intro q hq hpath
          exact hend q hq (.inl ⟨p' ++ q, rfl, .inr hpath⟩)
      · refine .inr ((ihs hs p).mpr ⟨hsib, ?_⟩)
        intro q hq hpath
        exact hend q hq (.inr hpath)

end Forest

end OpenJfx.Data
