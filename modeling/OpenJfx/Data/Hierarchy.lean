import Mathlib.Data.Set.Card

namespace OpenJfx.Data.Hierarchy

open List

variable {α : Type}

def Child (children : α → List α) (x c : α) : Prop := c ∈ children x

/-- Every node occurs at most once in at most one list of children, and none lies below
itself. -/
structure IsForest (children : α → List α) : Prop where
  nodup : ∀ x, (children x).Nodup
  parent_unique : ∀ x y c, c ∈ children x → c ∈ children y → x = y
  acyclic : ∀ x, ¬ Relation.TransGen (Child children) x x

/-- A bound for the number of levels below a node. -/
def Ranked (children : α → List α) (rank : α → Nat) : Prop :=
  ∀ x c, c ∈ children x → rank c < rank x

theorem IsForest.exists_rank {children : α → List α} (h : IsForest children) (nodes : Finset α)
    (hnodes : ∀ x c, c ∈ children x → c ∈ nodes) :
    ∃ rank, Ranked children rank ∧ ∀ x, rank x ≤ nodes.card := by
  classical
  refine ⟨fun x => (nodes.filter (Relation.TransGen (Child children) x)).card, ?_, ?_⟩
  · intro x c hc
    refine Finset.card_lt_card (Finset.ssubset_iff_of_subset ?_ |>.mpr ?_)
    · intro y hy
      rw [Finset.mem_filter] at hy ⊢
      exact ⟨hy.1, .head hc hy.2⟩
    · refine ⟨c, ?_, ?_⟩
      · rw [Finset.mem_filter]
        exact ⟨hnodes x c hc, .single hc⟩
      · rw [Finset.mem_filter]
        exact fun hself => h.acyclic c hself.2
  · intro x
    exact Finset.card_filter_le _ _

section

variable (children : α → List α) (unfolded : α → Bool)

/-- The node and what is shown below it, in the order of the display. -/
def preorder : Nat → α → List α
  | 0, x => [x]
  | fuel + 1, x => x :: if unfolded x then (children x).flatMap (preorder fuel) else []

/-- The node `y` lies below `x`, and all nodes above it up to `x` are unfolded. -/
inductive Shown (x : α) : α → Prop
  | child {c : α} (hx : unfolded x = true) (hc : c ∈ children x) : Shown x c
  | further {y c : α} (h : Shown x y) (hy : unfolded y = true) (hc : c ∈ children y) : Shown x c

end

section

variable {children : α → List α} {unfolded : α → Bool} {rank : α → Nat}

variable {x c y : α}

theorem Shown.head (hx : unfolded x = true) (hc : c ∈ children x)
    (h : Shown children unfolded c y) :
    Shown children unfolded x y := by
  induction h with
  | child hc' hmem => exact .further (.child hx hc) hc' hmem
  | further _ hy hmem ih => exact .further ih hy hmem

theorem Shown.unfolded_root (h : Shown children unfolded x y) : unfolded x = true := by
  induction h with
  | child hx _ => exact hx
  | further _ _ _ ih => exact ih

theorem Shown.cases_head (h : Shown children unfolded x y) :
    ∃ c ∈ children x, c = y ∨ Shown children unfolded c y := by
  induction h with
  | @child c _ hc => exact ⟨c, hc, .inl rfl⟩
  | further _ hy hc ih =>
    obtain ⟨c', hc', h' | h'⟩ := ih
    · subst h'
      exact ⟨c', hc', .inr (.child hy hc)⟩
    · exact ⟨c', hc', .inr (.further h' hy hc)⟩

theorem Shown.below_root (h : Shown children unfolded x y) :
    Relation.TransGen (Child children) x y := by
  induction h with
  | child _ hc => exact .single hc
  | further _ _ hc ih => exact .tail ih hc

theorem Ranked.eq_nil (h : Ranked children rank) (hx : rank x = 0) : children x = [] := by
  cases hc : children x with
  | nil => rfl
  | cons c rest =>
    have := h x c (by rw [hc]; exact mem_cons_self)
    omega

theorem Ranked.transGen_lt (h : Ranked children rank)
    (hxy : Relation.TransGen (Child children) x y) :
    rank y < rank x := by
  induction hxy with
  | single hc => exact h _ _ hc
  | tail _ hc ih => exact Nat.lt_trans (h _ _ hc) ih

theorem preorder_fuel (h : Ranked children rank) (fuel : Nat) :
    ∀ (fuel' : Nat) (x : α), rank x ≤ fuel → rank x ≤ fuel' →
      preorder children unfolded fuel x = preorder children unfolded fuel' x := by
  induction fuel with
  | zero =>
    intro fuel' x hx _
    have hnil := h.eq_nil (Nat.le_zero.mp hx)
    cases fuel' with
    | zero => rfl
    | succ fuel' => simp [preorder, hnil]
  | succ fuel ih =>
    intro fuel' x hx hx'
    cases fuel' with
    | zero =>
      have hnil := h.eq_nil (Nat.le_zero.mp hx')
      simp [preorder, hnil]
    | succ fuel' =>
      have hkids : (children x).flatMap (preorder children unfolded fuel) =
          (children x).flatMap (preorder children unfolded fuel') := by
        refine flatMap_congr ?_
        intro c hc
        have := h x c hc
        exact ih fuel' c (by omega) (by omega)
      simp only [preorder, hkids]

theorem preorder_eq (h : Ranked children rank) {fuel : Nat} (hx : rank x ≤ fuel) :
    preorder children unfolded fuel x =
      x :: if unfolded x then (children x).flatMap (preorder children unfolded fuel) else [] := by
  rw [preorder_fuel h fuel (fuel + 1) x hx (by omega), preorder]

theorem mem_preorder_iff (h : Ranked children rank) (fuel : Nat) :
    ∀ x, rank x ≤ fuel →
      (y ∈ preorder children unfolded fuel x ↔ y = x ∨ Shown children unfolded x y) := by
  intro x
  induction hr : rank x using Nat.strong_induction_on generalizing x with
  | _ r ih =>
    intro hfuel
    subst hr
    rw [preorder_eq h hfuel, mem_cons]
    refine or_congr_right ?_
    split_ifs with hx
    · rw [mem_flatMap]
      constructor
      · rintro ⟨c, hc, hy⟩
        have hlt := h x c hc
        rcases (ih (rank c) hlt c rfl (by omega)).mp hy with rfl | hy
        · exact .child hx hc
        · exact .head hx hc hy
      · intro hy
        obtain ⟨c, hc, hcy⟩ := hy.cases_head
        have hlt := h x c hc
        exact ⟨c, hc, (ih (rank c) hlt c rfl (by omega)).mpr (hcy.imp Eq.symm id)⟩
    · constructor
      · simp
      · exact fun hy => absurd hy.unfolded_root hx

theorem IsForest.siblings_disjoint (hforest : IsForest children) (h : Ranked children rank) {d : α}
    (hc : c ∈ children x) (hd : d ∈ children x)
    (hcy : y = c ∨ Relation.TransGen (Child children) c y)
    (hdy : y = d ∨ Relation.TransGen (Child children) d y) : c = d := by
  have hunique : Relator.RightUnique (Function.swap (Child children)) :=
    fun y p q hp hq => hforest.parent_unique p q y hp hq
  have hup : ∀ {z : α}, y = z ∨ Relation.TransGen (Child children) z y →
      Relation.ReflTransGen (Function.swap (Child children)) y z := by
    rintro z (rfl | hz)
    · exact .refl
    · exact (Relation.transGen_swap.mpr hz).to_reflTransGen
  -- one of the two is reached from the other, but its parent lies above both
  have hnot : ∀ {u v : α}, u ∈ children x → v ∈ children x →
      Relation.ReflTransGen (Function.swap (Child children)) u v → u = v := by
    intro u v hu hv huv
    rcases Relation.ReflTransGen.cases_head huv with heq | ⟨p, hp, hpv⟩
    · exact heq
    · obtain rfl : x = p := hforest.parent_unique x p u hu hp
      have hle : rank x ≤ rank v := by
        rcases Relation.reflTransGen_iff_eq_or_transGen.mp hpv with rfl | hxv
        · exact le_refl _
        · exact Nat.le_of_lt (h.transGen_lt (Relation.transGen_swap.mp hxv))
      have := h x v hv
      omega
  rcases Relation.ReflTransGen.total_of_right_unique hunique (hup hcy) (hup hdy) with hcd | hdc
  · exact hnot hc hd hcd
  · exact (hnot hd hc hdc).symm

theorem nodup_preorder (hforest : IsForest children) (h : Ranked children rank) (fuel : Nat) :
    ∀ x, rank x ≤ fuel → (preorder children unfolded fuel x).Nodup := by
  intro x
  induction hr : rank x using Nat.strong_induction_on generalizing x with
  | _ r ih =>
    intro hfuel
    subst hr
    have hmem : ∀ c ∈ children x, ∀ {y}, y ∈ preorder children unfolded fuel c →
        y = c ∨ Relation.TransGen (Child children) c y := by
      intro c hc y hy
      have := h x c hc
      exact ((mem_preorder_iff h fuel c (by omega)).mp hy).imp id Shown.below_root
    rw [preorder_eq h hfuel, nodup_cons]
    split_ifs with hx
    · constructor
      · rw [mem_flatMap]
        rintro ⟨c, hc, hxc⟩
        rcases hmem c hc hxc with rfl | hcx
        · exact hforest.acyclic x (.single hc)
        · exact hforest.acyclic x (.head hc hcx)
      · rw [nodup_flatMap]
        constructor
        · intro c hc
          have := h x c hc
          exact ih (rank c) this c rfl (by omega)
        · refine (hforest.nodup x).imp_of_mem ?_
          intro c d hc hd hne y hyc hyd
          exact hne (hforest.siblings_disjoint h hc hd (hmem c hc hyc) (hmem d hd hyd))
    · exact ⟨by simp, nodup_nil⟩

theorem length_preorder (hforest : IsForest children) (h : Ranked children rank) {fuel : Nat}
    (hx : rank x ≤ fuel) :
    (preorder children unfolded fuel x).length =
      1 + Set.ncard {y | Shown children unfolded x y} := by
  classical
  obtain ⟨rest, hrest⟩ : ∃ rest, preorder children unfolded fuel x = x :: rest :=
    ⟨_, preorder_eq h hx⟩
  have hnd : (preorder children unfolded fuel x).Nodup := nodup_preorder hforest h fuel x hx
  rw [hrest, nodup_cons] at hnd
  have hset : {y | Shown children unfolded x y} = (rest.toFinset : Set α) := by
    ext y
    have hiff : y ∈ preorder children unfolded fuel x ↔ y = x ∨ Shown children unfolded x y :=
      mem_preorder_iff h fuel x hx
    rw [hrest, mem_cons] at hiff
    rw [Finset.mem_coe, mem_toFinset]
    constructor
    · intro hy
      rcases hiff.mpr (.inr hy) with rfl | hmem
      · exact absurd hy.below_root (hforest.acyclic y)
      · exact hmem
    · intro hy
      rcases hiff.mp (.inr hy) with rfl | hshown
      · exact absurd hy hnd.1
      · exact hshown
  rw [hset, Set.ncard_coe_finset, toFinset_card_of_nodup hnd.2, hrest, length_cons,
    Nat.add_comm]

theorem preorder_congr {children' : α → List α} {unfolded' : α → Bool}
    (h : Ranked children rank) (fuel : Nat) :
    ∀ x, rank x ≤ fuel →
      (∀ y, y = x ∨ Shown children unfolded x y → children' y = children y ∧
        (unfolded' y = unfolded y ∨ children y = [])) →
      preorder children' unfolded' fuel x = preorder children unfolded fuel x := by
  induction fuel with
  | zero => exact fun x _ _ => rfl
  | succ fuel ih =>
    intro x hx hsame
    obtain ⟨hkids, hunfolded⟩ := hsame x (.inl rfl)
    rw [preorder, preorder, hkids]
    rcases hunfolded with hunfolded | hnil
    · rw [hunfolded]
      split_ifs with hopen
      · refine congrArg _ (flatMap_congr ?_)
        intro c hc
        have := h x c hc
        refine ih c (by omega) ?_
        rintro y (rfl | hy)
        · exact hsame y (.inr (.child hopen hc))
        · exact hsame y (.inr (.head hopen hc hy))
      · rfl
    · simp [hnil]

end

end OpenJfx.Data.Hierarchy
