import Mathlib.Data.List.Cycle
import OpenJfx.Scene.TabOrderHelper

namespace OpenJfx.Scene.Traversal

open Data.Hierarchy List

variable {N : Type}

namespace SceneGraph

variable (g : SceneGraph N)

/-- The links of the nodes belong together, and what is disabled or invisible is so with all that
lies below it. -/
structure WellFormed : Prop where
  forest : IsForest g.getChildren
  mem_nodes : ∀ p c, c ∈ g.getChildren p → c ∈ g.nodes
  getParent_iff : ∀ p c, g.getParent c = some p ↔ c ∈ g.getChildren p
  isParent : ∀ p c, c ∈ g.getChildren p → g.isParent p = true
  isDisabled : ∀ p c, c ∈ g.getChildren p → g.isDisabled p = true → g.isDisabled c = true
  isTreeVisible : ∀ p c, c ∈ g.getChildren p → g.isTreeVisible c = true → g.isTreeVisible p = true
  root_top : g.getParent g.root = none

def isTarget (node : N) : Bool := !g.isDisabledOrInvisible node && g.isFocusTraversable node

def targets (x : N) : List N :=
  (preorder g.getChildren (fun _ => true) g.nodes.card x).filter g.isTarget

def below (x : N) : List N := (g.getChildren x).flatMap g.targets

/-- The nodes below the root that can take the focus, in preorder. -/
def focusables : List N :=
  (preorder g.getChildren (fun _ => true) g.nodes.card g.root).tail.filter g.isTarget

/-- The scene graphs that the results are about, with a bound for the levels below a node. -/
structure Plain (rank : N → Nat) : Prop extends WellFormed g where
  noEngine : ∀ p, g.getTraversalEngine p = none
  ranked : Ranked g.getChildren rank
  rank_le : ∀ x, rank x ≤ g.nodes.card

end SceneGraph

open SceneGraph

@[simp] theorem ok_bind {α β : Type} (value : α) (f : α → Search β) :
    (Except.ok value : Search α) >>= f = f value := rfl

section

variable {g : SceneGraph N} {rank : N → Nat} {x p c : N}

theorem targets_eq (h : g.Plain rank) (x : N) :
    g.targets x = (if g.isTarget x then [x] else []) ++ g.below x := by
  rw [targets, preorder_eq h.ranked (h.rank_le x), if_pos rfl, filter_cons,
    filter_flatMap]
  split
  · rfl
  · rfl

theorem targets_of_isTarget (h : g.Plain rank) (hx : g.isTarget x = true) :
    g.targets x = x :: g.below x := by
  rw [targets_eq h, if_pos hx, singleton_append]

theorem targets_of_not (h : g.Plain rank) (hx : g.isTarget x = false) :
    g.targets x = g.below x := by
  rw [targets_eq h, hx, if_neg Bool.false_ne_true, nil_append]

theorem focusables_eq (h : g.Plain rank) : g.focusables = g.below g.root := by
  rw [focusables, preorder_eq h.ranked (h.rank_le g.root), if_pos rfl, tail_cons,
    filter_flatMap]
  rfl

theorem hidden_child (h : g.WellFormed) (hc : c ∈ g.getChildren p)
    (hp : g.isDisabledOrInvisible p = true) : g.isDisabledOrInvisible c = true := by
  rw [isDisabledOrInvisible, Bool.or_eq_true, Bool.not_eq_true'] at hp ⊢
  rcases hp with hdisabled | hinvisible
  · exact .inl (h.isDisabled p c hc hdisabled)
  · refine .inr (Bool.eq_false_iff.mpr fun hvisible => ?_)
    rw [h.isTreeVisible p c hc hvisible] at hinvisible
    cases hinvisible

theorem targets_of_hidden (h : g.Plain rank) (hx : g.isDisabledOrInvisible x = true) :
    g.targets x = [] := by
  refine filter_eq_nil_iff.mpr fun y hy => ?_
  have hidden : g.isDisabledOrInvisible y = true := by
    rcases (mem_preorder_iff h.ranked _ x (h.rank_le x)).mp hy with rfl | hshown
    · exact hx
    · induction hshown with
      | child _ hc => exact hidden_child h.toWellFormed hc hx
      | further hz _ hc ih =>
        refine hidden_child h.toWellFormed hc
          (ih ((mem_preorder_iff h.ranked _ x (h.rank_le x)).mpr (.inr hz)))
  rw [isTarget, hidden]
  exact Bool.false_ne_true

theorem isTarget_of_shown (hx : g.isDisabledOrInvisible x = false) :
    g.isTarget x = g.isFocusTraversable x := by
  rw [isTarget, hx, Bool.not_false, Bool.true_and]

theorem traversalEngine_eq_none (h : g.Plain rank) (x : N) : g.traversalEngine x = none := by
  rw [SceneGraph.traversalEngine, h.noEngine, ite_self]

theorem isTraversable_eq (h : g.Plain rank) (x : N) :
    g.isTraversable x = g.isFocusTraversable x := by
  rw [SceneGraph.isTraversable, traversalEngine_eq_none h]

theorem getChildren_of_not_isParent (h : g.WellFormed) (hx : ¬g.isParent x = true) :
    g.getChildren x = [] :=
  eq_nil_iff_forall_not_mem.mpr fun c hc => hx (h.isParent x c hc)

variable {ofChildren : List N → Search (Option N)}

theorem selectInside_spec (h : g.Plain rank) (ofEngine : ParentTraversalEngine N → Option N)
    {result : Option N}
    (hkids : g.getChildren x ≠ [] → ofChildren (g.getChildren x) = .ok result)
    (hnil : g.getChildren x = [] → result = none) :
    g.selectInside ofEngine ofChildren x = .ok result := by
  rw [selectInside, traversalEngine_eq_none h]
  dsimp only
  split
  case isTrue =>
    rw [selectInside.searchChildren]
    split
    case isTrue hsome => exact hkids (length_pos_iff.mp hsome)
    case isFalse hnone => rw [hnil (length_eq_zero_iff.mp (by omega))]
  case isFalse hpar => rw [hnil (getChildren_of_not_isParent h.toWellFormed hpar)]

theorem below_of_nil (hx : g.getChildren x = []) : g.below x = [] := by
  rw [below, hx, flatMap_nil]

theorem findNextInList_spec (h : g.Plain rank) (nodes : List N) :
    (∀ x ∈ nodes, g.getChildren x ≠ [] →
      ofChildren (g.getChildren x) = .ok (g.below x).head?) →
    g.findNextInList ofChildren nodes = .ok (nodes.flatMap g.targets).head? := by
  induction nodes with
  | nil => exact fun _ => rfl
  | cons x nodes ih =>
    intro hkids
    have hrest := ih fun y hy => hkids y (mem_cons_of_mem x hy)
    rw [findNextInList, flatMap_cons]
    split
    case isTrue hidden => rw [targets_of_hidden h hidden, nil_append, hrest]
    case isFalse hshown =>
      have htarget := isTarget_of_shown (Bool.not_eq_true _ ▸ hshown)
      rw [isTraversable_eq h]
      split
      case isTrue htrav =>
        rw [targets_of_isTarget h (htarget.trans htrav)]
        rfl
      case isFalse htrav =>
        rw [targets_of_not h (htarget.trans (Bool.not_eq_true _ ▸ htrav)),
          selectInside_spec h _ (hkids x mem_cons_self)
            fun hnil => by rw [below_of_nil hnil]; rfl, ok_bind, head?_append]
        rcases (g.below x).head? with _ | newNode
        · exact hrest
        · rfl

theorem findNextFocusableInList_spec (h : g.Plain rank) (fuel : Nat) :
    ∀ (nodeList : List N) (startIndex : Nat), (∀ x ∈ nodeList, rank x ≤ fuel) →
      g.findNextFocusableInList (fuel + 1) nodeList startIndex =
        .ok ((nodeList.drop startIndex).flatMap g.targets).head? := by
  induction fuel with
  | zero =>
    intro nodeList startIndex hrank
    refine findNextInList_spec h _ fun x hx hne => ?_
    have hzero := Nat.le_zero.mp (hrank x (mem_of_mem_drop hx))
    exact absurd (h.ranked.eq_nil hzero) hne
  | succ fuel ih =>
    intro nodeList startIndex hrank
    refine findNextInList_spec h _ fun x hx _ => ?_
    refine ih _ 0 fun c hc => ?_
    have := hrank x (mem_of_mem_drop hx)
    have := h.ranked x c hc
    omega

theorem findPreviousInList_spec (h : g.Plain rank) (nodes : List N) :
    (∀ x ∈ nodes, g.getChildren x ≠ [] →
      ofChildren (g.getChildren x) = .ok (g.below x).getLast?) →
    g.findPreviousInList ofChildren nodes = .ok (nodes.reverse.flatMap g.targets).getLast? := by
  induction nodes with
  | nil => exact fun _ => rfl
  | cons x nodes ih =>
    intro hkids
    have hrest := ih fun y hy => hkids y (mem_cons_of_mem x hy)
    rw [findPreviousInList, reverse_cons, flatMap_append, flatMap_cons,
      flatMap_nil, append_nil]
    split
    case isTrue hidden => rw [targets_of_hidden h hidden, append_nil, hrest]
    case isFalse hshown =>
      have htarget := isTarget_of_shown (Bool.not_eq_true _ ▸ hshown)
      rw [isTraversable_eq h, selectInside_spec h _ (hkids x mem_cons_self)
        fun hnil => by rw [below_of_nil hnil]; rfl, ok_bind, targets_eq h, getLast?_append,
        getLast?_append, htarget]
      rcases (g.below x).getLast? with _ | newNode
      · dsimp only
        split
        · rfl
        · exact hrest
      · rfl

theorem findPreviousFocusableInList_spec (h : g.Plain rank) (fuel : Nat) :
    ∀ (nodeList : List N) (startIndex : Int), (∀ x ∈ nodeList, rank x ≤ fuel) →
      g.findPreviousFocusableInList (fuel + 1) nodeList startIndex =
        .ok ((nodeList.take (startIndex + 1).toNat).flatMap g.targets).getLast? := by
  induction fuel with
  | zero =>
    intro nodeList startIndex hrank
    rw [findPreviousFocusableInList, findPreviousInList_spec h _, reverse_reverse]
    intro x hx hne
    have hzero := Nat.le_zero.mp (hrank x (mem_of_mem_take (mem_reverse.mp hx)))
    exact absurd (h.ranked.eq_nil hzero) hne
  | succ fuel ih =>
    intro nodeList startIndex hrank
    rw [findPreviousFocusableInList, findPreviousInList_spec h _, reverse_reverse]
    intro x hx _
    rw [ih, Int.sub_add_cancel, Int.toNat_natCast, take_length, below]
    intro c hc
    have := hrank x (mem_of_mem_take (mem_reverse.mp hx))
    have := h.ranked x c hc
    omega

theorem selectedByEngine_eq_none (h : g.Plain rank)
    (ofEngine : ParentTraversalEngine N → Option N) (x : N) :
    g.selectedByEngine ofEngine x = none := by
  rw [selectedByEngine, h.noEngine]

theorem firstTargetIn_spec (h : g.Plain rank) {ofParent : N → Search (Option N)}
    (nodes : List N) :
    (∀ n ∈ nodes, g.isDisabledOrInvisible n = false → ofParent n = .ok (g.below n).head?) →
    g.firstTargetIn ofParent nodes = .ok (nodes.flatMap g.targets).head? := by
  induction nodes with
  | nil => exact fun _ => rfl
  | cons n nodes ih =>
    intro hparents
    have hrest := ih fun m hm => hparents m (mem_cons_of_mem n hm)
    rw [firstTargetIn, flatMap_cons]
    split
    case isTrue hidden => rw [targets_of_hidden h hidden, nil_append, hrest]
    case isFalse hshown =>
      have hshown := Bool.eq_false_iff.mpr hshown
      have htarget := isTarget_of_shown hshown
      rw [isTraversable_eq h]
      split
      case isTrue htrav =>
        rw [targets_of_isTarget h (htarget.trans htrav)]
        rfl
      case isFalse htrav =>
        rw [targets_of_not h (htarget.trans (Bool.eq_false_iff.mpr htrav))]
        split
        case isTrue =>
          rw [hparents n mem_cons_self hshown, head?_append]
          rcases (g.below n).head? with _ | result
          · exact hrest
          · rfl
        case isFalse hpar =>
          rw [below_of_nil (getChildren_of_not_isParent h.toWellFormed hpar),
            nil_append, hrest]

theorem getFirstTargetNode_spec (h : g.Plain rank) (fuel : Nat) :
    ∀ p, rank p ≤ fuel → g.isDisabledOrInvisible p = false →
      g.getFirstTargetNode (fuel + 1) p = .ok (g.below p).head? := by
  induction fuel with
  | zero =>
    intro p hrank hshown
    have hnil := h.ranked.eq_nil (Nat.le_zero.mp hrank)
    rw [getFirstTargetNode, hshown, selectedByEngine_eq_none h, hnil, below_of_nil hnil]
    rfl
  | succ fuel ih =>
    intro p hrank hshown
    rw [getFirstTargetNode, hshown, selectedByEngine_eq_none h]
    refine firstTargetIn_spec h _ fun n hn hshown' => ih n ?_ hshown'
    have := h.ranked p n hn
    omega

theorem lastTargetIn_spec (h : g.Plain rank) {ofParent : N → Search (Option N)}
    (nodes : List N) :
    (∀ n ∈ nodes, g.isDisabledOrInvisible n = false → ofParent n = .ok (g.below n).getLast?) →
    g.lastTargetIn ofParent nodes = .ok (nodes.reverse.flatMap g.targets).getLast? := by
  induction nodes with
  | nil => exact fun _ => rfl
  | cons n nodes ih =>
    intro hparents
    have hrest := ih fun m hm => hparents m (mem_cons_of_mem n hm)
    rw [lastTargetIn, reverse_cons, flatMap_append, flatMap_cons,
      flatMap_nil, append_nil]
    split
    case isTrue hidden => rw [targets_of_hidden h hidden, append_nil, hrest]
    case isFalse hshown =>
      have hshown := Bool.eq_false_iff.mpr hshown
      rw [isTraversable_eq h, targets_eq h, getLast?_append, getLast?_append,
        isTarget_of_shown hshown]
      dsimp only
      split
      case isTrue =>
        rw [hparents n mem_cons_self hshown, ok_bind]
        rcases (g.below n).getLast? with _ | result
        · dsimp only
          split
          · rfl
          · exact hrest
        · rfl
      case isFalse hpar =>
        rw [below_of_nil (getChildren_of_not_isParent h.toWellFormed hpar), ok_bind]
        dsimp only
        split
        · rfl
        · exact hrest

theorem getLastTargetNode_spec (h : g.Plain rank) (fuel : Nat) :
    ∀ p, rank p ≤ fuel → g.isDisabledOrInvisible p = false →
      g.getLastTargetNode (fuel + 1) p = .ok (g.below p).getLast? := by
  induction fuel with
  | zero =>
    intro p hrank hshown
    have hnil := h.ranked.eq_nil (Nat.le_zero.mp hrank)
    rw [getLastTargetNode, hshown, selectedByEngine_eq_none h, hnil, below_of_nil hnil]
    rfl
  | succ fuel ih =>
    intro p hrank hshown
    rw [getLastTargetNode, hshown, if_neg Bool.false_ne_true, selectedByEngine_eq_none h]
    rw [lastTargetIn_spec h, reverse_reverse, below]
    refine fun n hn hshown' => ih n ?_ hshown'
    have := h.ranked p n (mem_reverse.mp hn)
    omega

/-- What stands before and behind the subtree of a node in the tab order: on the way up, the
siblings to either side, and before the node also its ancestors. -/
inductive Around (g : SceneGraph N) : N → List N → List N → Prop
  | top {left right : List N} {x : N} (heq : g.getChildren g.root = left ++ x :: right) :
      Around g x (left.flatMap g.targets) (right.flatMap g.targets)
  | deeper {p x : N} {before after left right : List N} (h : Around g p before after)
      (heq : g.getChildren p = left ++ x :: right) :
      Around g x (before ++ (if g.isTarget p then [p] else []) ++ left.flatMap g.targets)
        (right.flatMap g.targets ++ after)

theorem exists_around (hx : Relation.TransGen (Child g.getChildren) g.root x) :
    ∃ before after, Around g x before after := by
  induction hx with
  | single hc =>
    rcases append_of_mem hc with ⟨left, right, heq⟩
    exact ⟨_, _, .top heq⟩
  | tail _ hc ih =>
    rcases ih with ⟨before, after, hp⟩
    rcases append_of_mem hc with ⟨left, right, heq⟩
    exact ⟨_, _, .deeper hp heq⟩

theorem Around.below_root (h : g.Plain rank) {before after : List N}
    (hx : Around g x before after) : g.below g.root = before ++ g.targets x ++ after := by
  induction hx with
  | top heq => rw [SceneGraph.below, heq, flatMap_append, flatMap_cons, append_assoc]
  | @deeper p x before after left right _ heq ih =>
    have hp : g.below p = left.flatMap g.targets ++ (g.targets x ++ right.flatMap g.targets) := by
      rw [SceneGraph.below, heq, flatMap_append, flatMap_cons]
    rw [ih, targets_eq h p, hp]
    simp only [append_assoc]

theorem Around.ne_root (h : g.Plain rank) {before after : List N} (hx : Around g x before after) :
    x ≠ g.root := by
  rintro rfl
  have hpar : ∃ p, g.getParent g.root = some p := by
    rcases hx with ⟨heq⟩ | ⟨_, heq⟩
    · exact ⟨_, (h.getParent_iff _ _).mpr (heq ▸ mem_append_right _ mem_cons_self)⟩
    · exact ⟨_, (h.getParent_iff _ _).mpr (heq ▸ mem_append_right _ mem_cons_self)⟩
  rcases hpar with ⟨p, hp⟩
  rw [h.root_top] at hp
  cases hp

end

section

variable [DecidableEq N] {g : SceneGraph N} {rank : N → Nat} {x p : N}
  {before after left right : List N}

theorem idxOf_of_nodup (h : (left ++ x :: right).Nodup) :
    (left ++ x :: right).idxOf x = left.length := by
  have hnot : x ∉ left := fun hx => disjoint_of_nodup_append h hx mem_cons_self
  rw [idxOf_append_of_notMem hnot, idxOf_cons_self, Nat.add_zero]

omit [DecidableEq N] in
theorem findPeers_eq (h : g.Plain rank) (heq : g.getChildren p = left ++ x :: right) :
    g.getParent x = some p ∧ g.findPeers x = some (left ++ x :: right) := by
  have hpar : g.getParent x = some p :=
    (h.getParent_iff p x).mpr (heq ▸ mem_append_right _ mem_cons_self)
  exact ⟨hpar, by rw [findPeers, hpar, Option.map_some, heq]⟩

omit [DecidableEq N] in
theorem nodup_peers (h : g.Plain rank) (heq : g.getChildren p = left ++ x :: right) :
    (left ++ x :: right).Nodup := heq ▸ h.forest.nodup p

theorem findNext_right (h : g.Plain rank) (heq : g.getChildren p = left ++ x :: right) :
    g.findNextFocusableInList g.levels (left ++ x :: right)
      ((left ++ x :: right).idxOf x + 1) = .ok (right.flatMap g.targets).head? := by
  rw [levels, findNextFocusableInList_spec h _ _ _ fun y _ => h.rank_le y,
    idxOf_of_nodup (nodup_peers h heq), drop_append, drop_eq_nil_of_le (by omega),
    show left.length + 1 - left.length = 1 by omega, nil_append, drop_succ_cons,
    drop_zero]

theorem findPrevious_left (h : g.Plain rank) (heq : g.getChildren p = left ++ x :: right) :
    g.findPreviousFocusableInList g.levels (left ++ x :: right)
      ((left ++ x :: right).idxOf x - 1) = .ok (left.flatMap g.targets).getLast? := by
  rw [levels, findPreviousFocusableInList_spec h _ _ _ fun y _ => h.rank_le y,
    idxOf_of_nodup (nodup_peers h heq), Int.sub_add_cancel, Int.toNat_natCast, take_left]

theorem climbNext_spec (h : g.Plain rank) (hx : Around g x before after) :
    ∀ fuel, g.nodes.card < rank x + fuel → ∃ peers, g.findPeers x = some peers ∧
      (g.findNextFocusableInList g.levels peers (peers.idxOf x + 1) >>=
        g.climbNext g.root fuel x) = .ok after.head? := by
  induction hx with
  | @top left right x heq =>
    intro fuel hfuel
    rcases findPeers_eq h heq with ⟨hpar, hpeers⟩
    refine ⟨_, hpeers, ?_⟩
    rw [findNext_right h heq, ok_bind]
    rcases fuel with _ | fuel
    · have := h.rank_le x
      omega
    · rw [climbNext, if_neg fun hboth => hboth.2 hpar]
  | @deeper p x before after left right hp heq ih =>
    intro fuel hfuel
    rcases findPeers_eq h heq with ⟨hpar, hpeers⟩
    refine ⟨_, hpeers, ?_⟩
    rw [findNext_right h heq, ok_bind]
    have hrank := h.ranked p x ((h.getParent_iff p x).mp hpar)
    rcases fuel with _ | fuel
    · have := h.rank_le x
      omega
    · rcases ih fuel (by omega) with ⟨peers, hpeers', hclimb⟩
      rw [climbNext, hpar, head?_append]
      rcases (right.flatMap g.targets).head? with _ | newNode
      · have hne : some p ≠ some g.root := fun heq => hp.ne_root h (Option.some.inj heq)
        rw [if_pos ⟨rfl, hne⟩]
        dsimp only
        rw [hpeers']
        exact hclimb
      · rfl

theorem climbPrevious_spec (h : g.Plain rank) (hx : Around g x before after)
    (hshown : g.isDisabledOrInvisible x = false) :
    ∀ fuel, g.nodes.card < rank x + fuel → ∃ peers, g.findPeers x = some peers ∧
      (g.findPreviousFocusableInList g.levels peers (peers.idxOf x - 1) >>=
        g.climbPrevious g.root fuel x) = .ok before.getLast? := by
  induction hx with
  | @top left right x heq =>
    intro fuel hfuel
    rcases findPeers_eq h heq with ⟨hpar, hpeers⟩
    refine ⟨_, hpeers, ?_⟩
    rw [findPrevious_left h heq, ok_bind]
    rcases fuel with _ | fuel
    · have := h.rank_le x
      omega
    · rw [climbPrevious, if_neg fun hboth => hboth.2 hpar]
  | @deeper p x before after left right hp heq ih =>
    intro fuel hfuel
    rcases findPeers_eq h heq with ⟨hpar, hpeers⟩
    refine ⟨_, hpeers, ?_⟩
    rw [findPrevious_left h heq, ok_bind]
    have hmem := (h.getParent_iff p x).mp hpar
    have hrank := h.ranked p x hmem
    have hshown' : g.isDisabledOrInvisible p = false := by
      refine Bool.eq_false_iff.mpr fun hidden => ?_
      rw [hidden_child h.toWellFormed hmem hidden] at hshown
      cases hshown
    rcases fuel with _ | fuel
    · have := h.rank_le x
      omega
    · rcases ih hshown' fuel (by omega) with ⟨peers, hpeers', hclimb⟩
      rw [climbPrevious, hpar, getLast?_append]
      rcases (left.flatMap g.targets).getLast? with _ | newNode
      · have hne : some p ≠ some g.root := fun heq => hp.ne_root h (Option.some.inj heq)
        rw [if_pos ⟨rfl, hne⟩, getLast?_append, isTarget_of_shown hshown']
        dsimp only
        rw [h.noEngine, Option.map_none, Option.getD_none]
        split
        case isTrue =>
          rcases fuel with _ | fuel
          · have := h.rank_le p
            omega
          · rfl
        case isFalse =>
          rw [hpeers']
          exact hclimb
      · rfl

theorem findNext_behind (h : g.Plain rank) (hx : Around g x before after) (newNode : Option N) :
    (match newNode with
      | some _ => g.climbNext g.root g.levels x newNode
      | none =>
        match g.findPeers x with
        | none => .ok none
        | some parentNodes => do
          let newNode ← g.findNextFocusableInList g.levels parentNodes
            (parentNodes.idxOf x + 1)
          g.climbNext g.root g.levels x newNode) = .ok (newNode.or after.head?) := by
  cases newNode with
  | some newNode =>
    rfl
  | none =>
    rcases climbNext_spec h hx g.levels (by rw [levels]; omega) with ⟨peers, hpeers, hclimb⟩
    rw [hpeers]
    exact hclimb

theorem findNextFocusablePeer_spec (h : g.Plain rank) (hx : Around g x before after) :
    g.findNextFocusablePeer x g.root true = .ok (g.below x ++ after).head? := by
  rw [findNextFocusablePeer, head?_append, ← findNext_behind h hx]
  split
  case isTrue =>
    rw [levels, findNextFocusableInList_spec h _ _ _ fun y _ => h.rank_le y]
    rfl
  case isFalse hpar =>
    rw [below_of_nil (getChildren_of_not_isParent h.toWellFormed hpar)]
    rfl

theorem findPreviousFocusablePeer_spec (h : g.Plain rank) (hx : Around g x before after)
    (hshown : g.isDisabledOrInvisible x = false) :
    g.findPreviousFocusablePeer x g.root = .ok before.getLast? := by
  rcases climbPrevious_spec h hx hshown g.levels (by rw [levels]; omega) with
    ⟨peers, hpeers, hclimb⟩
  rw [findPreviousFocusablePeer, hpeers]
  exact hclimb

theorem askEngines_spec (h : g.Plain rank) (node traverseNode : N) (dir : Direction) (fuel : Nat) :
    ∀ q : Option N, (∀ y ∈ q, g.nodes.card < rank y + fuel) →
      g.askEngines node (fuel + 1) q traverseNode dir = .ok (none, traverseNode, dir) := by
  induction fuel with
  | zero =>
    rintro (_ | y) hrank
    · rfl
    · have := hrank y rfl
      have := h.rank_le y
      omega
  | succ fuel ih =>
    rintro (_ | y) hrank
    · rfl
    · rw [askEngines, h.noEngine, Option.filter_none]
      refine ih (g.getParent y) fun z hz => ?_
      have := hrank y rfl
      have := h.ranked z y ((h.getParent_iff z y).mp hz)
      omega

omit [DecidableEq N] in
theorem selectFirst_spec (h : g.Plain rank) (hroot : g.isDisabledOrInvisible g.root = false) :
    g.selectFirst = .ok g.focusables.head? := by
  rw [selectFirst, levels, getFirstTargetNode_spec h _ _ (h.rank_le g.root) hroot, focusables_eq h]

omit [DecidableEq N] in
theorem selectLast_spec (h : g.Plain rank) (hroot : g.isDisabledOrInvisible g.root = false) :
    g.selectLast = .ok g.focusables.getLast? := by
  rw [selectLast, levels, getLastTargetNode_spec h _ _ (h.rank_le g.root) hroot, focusables_eq h]

theorem trav_eq (h : g.Plain rank) (node : N) (dir : Direction) :
    g.trav node dir = g.select node dir >>= fun newNode =>
      match newNode with
      | some _ => .ok newNode
      | none =>
        match dir with
        | .next | .nextInLine => g.selectFirst
        | .previous => g.selectLast := by
  rw [trav, askEngines_spec h]
  · rfl
  · intro y _
    rw [levels]
    omega

omit [DecidableEq N] in
theorem mem_focusables_iff (h : g.Plain rank) :
    x ∈ g.focusables ↔
      Relation.TransGen (Child g.getChildren) g.root x ∧ g.isTarget x = true := by
  constructor
  · intro hx
    rw [focusables_eq h, SceneGraph.below, mem_flatMap] at hx
    rcases hx with ⟨c, hc, hxc⟩
    rcases mem_filter.mp hxc with ⟨hmem, htarget⟩
    refine ⟨?_, htarget⟩
    rcases (mem_preorder_iff h.ranked _ c (h.rank_le c)).mp hmem with rfl | hshown
    · exact .single hc
    · exact .head hc hshown.below_root
  · rintro ⟨hpath, htarget⟩
    rcases exists_around hpath with ⟨before, after, haround⟩
    rw [focusables_eq h, haround.below_root h, targets_of_isTarget h htarget]
    exact mem_append_left _ (mem_append_right _ mem_cons_self)

omit [DecidableEq N] in
theorem exists_split (h : g.Plain rank) (hx : x ∈ g.focusables) :
    ∃ before after, Around g x before after ∧ g.isTarget x = true ∧
      g.focusables = before ++ x :: (g.below x ++ after) := by
  rcases (mem_focusables_iff h).mp hx with ⟨hpath, htarget⟩
  rcases exists_around hpath with ⟨before, after, haround⟩
  refine ⟨before, after, haround, htarget, ?_⟩
  rw [focusables_eq h, haround.below_root h, targets_of_isTarget h htarget, append_assoc,
    cons_append]

omit [DecidableEq N] in
theorem nodup_focusables (h : g.Plain rank) : g.focusables.Nodup :=
  ((nodup_preorder h.forest h.ranked _ g.root (h.rank_le g.root)).tail).filter _

theorem next_of_split {l rest : List N} (hl : l = before ++ x :: rest) (hnd : l.Nodup)
    (hx : x ∈ l) : some (l.next x hx) = rest.head?.or l.head? := by
  subst hl
  rw [next_eq_getElem, ← getElem?_eq_getElem, idxOf_of_nodup hnd]
  rcases rest with _ | ⟨y, rest⟩
  · rw [length_append, length_singleton, Nat.mod_self, ← head?_eq_getElem?]
    rfl
  · rw [length_append, length_cons, length_cons, Nat.mod_eq_of_lt (by omega),
      getElem?_append_right (by omega), Nat.add_sub_cancel_left]
    rfl

theorem prev_of_split {l rest : List N} (hl : l = before ++ x :: rest) (hnd : l.Nodup)
    (hx : x ∈ l) : some (l.prev x hx) = before.getLast?.or l.getLast? := by
  subst hl
  rw [prev_eq_getElem, ← getElem?_eq_getElem, idxOf_of_nodup hnd]
  rcases eq_nil_or_concat before with rfl | ⟨front, y, rfl⟩
  · rw [nil_append, length_nil, Nat.zero_add, Nat.mod_eq_of_lt (by simp),
      ← getLast?_eq_getElem?]
    rfl
  · have hlen : (front.concat y ++ x :: rest).length = front.length + (rest.length + 2) := by
      rw [length_append, length_concat, length_cons]
      omega
    rw [hlen, length_concat,
      show front.length + 1 + (front.length + (rest.length + 2) - 1) =
        front.length + (front.length + (rest.length + 2)) by omega, Nat.add_mod_right,
      Nat.mod_eq_of_lt (by omega), concat_eq_append, append_assoc,
      getElem?_append_right (Nat.le_refl _), Nat.sub_self, getLast?_concat]
    rfl

theorem trav_next (h : g.Plain rank) (hroot : g.isDisabledOrInvisible g.root = false)
    (hx : x ∈ g.focusables) : g.trav x .next = .ok (some (g.focusables.next x hx)) := by
  rcases exists_split h hx with ⟨before, after, haround, -, hsplit⟩
  rw [trav_eq h, select, findNextFocusablePeer_spec h haround, ok_bind,
    next_of_split hsplit (nodup_focusables h) hx]
  rcases (g.below x ++ after).head? with _ | newNode
  · exact selectFirst_spec h hroot
  · rfl

theorem trav_previous (h : g.Plain rank) (hroot : g.isDisabledOrInvisible g.root = false)
    (hx : x ∈ g.focusables) : g.trav x .previous = .ok (some (g.focusables.prev x hx)) := by
  rcases exists_split h hx with ⟨before, after, haround, htarget, hsplit⟩
  have hshown : g.isDisabledOrInvisible x = false := by
    rw [isTarget, Bool.and_eq_true, Bool.not_eq_true'] at htarget
    exact htarget.1
  rw [trav_eq h, select, findPreviousFocusablePeer_spec h haround hshown, prev_of_split hsplit
    (nodup_focusables h) hx]
  rcases before.getLast? with _ | newNode
  · exact selectLast_spec h hroot
  · rfl

end

def travTimes [DecidableEq N] (g : SceneGraph N) : Nat → N → Search (Option N)
  | 0, x => .ok (some x)
  | n + 1, x => do
    match ← g.trav x .next with
    | some newNode => travTimes g n newNode
    | none => .ok none

section

variable [DecidableEq N] {g : SceneGraph N} {rank : N → Nat}

theorem travTimes_spec (h : g.Plain rank) (hroot : g.isDisabledOrInvisible g.root = false)
    (n : Nat) : ∀ (i : Nat) (hi : i < g.focusables.length),
      travTimes g n g.focusables[i] = .ok g.focusables[(i + n) % g.focusables.length]? := by
  induction n with
  | zero =>
    intro i hi
    rw [Nat.add_zero, Nat.mod_eq_of_lt hi, getElem?_eq_getElem hi]
    rfl
  | succ n ih =>
    intro i hi
    have hlt : (i + 1) % g.focusables.length < g.focusables.length := Nat.mod_lt _ (by omega)
    rw [travTimes, trav_next h hroot (getElem_mem hi), ok_bind,
      next_getElem _ (nodup_focusables h)]
    dsimp only
    rw [ih _ hlt, Nat.mod_add_mod, Nat.add_assoc, Nat.add_comm 1 n]

/-- The tab order is one cycle through the nodes that can take the focus, in preorder. -/
theorem tabOrder_cycle (h : g.WellFormed) (hengine : ∀ p, g.getTraversalEngine p = none)
    (hroot : g.isDisabledOrInvisible g.root = false) :
    g.focusables.Nodup ∧
      g.selectFirst = .ok g.focusables.head? ∧ g.selectLast = .ok g.focusables.getLast? ∧
      (∀ x (hx : x ∈ g.focusables),
        g.trav x .next = .ok (some (g.focusables.next x hx)) ∧
          g.trav x .previous = .ok (some (g.focusables.prev x hx))) ∧
      (∀ x ∈ g.focusables, ∀ y ∈ g.focusables,
        g.trav x .next = .ok (some y) ↔ g.trav y .previous = .ok (some x)) ∧
      ∀ x ∈ g.focusables, ∀ y ∈ g.focusables, ∃ n, travTimes g n x = .ok (some y) := by
  rcases h.forest.exists_rank g.nodes h.mem_nodes with ⟨rank, hranked, hle⟩
  have hg : g.Plain rank := ⟨h, hengine, hranked, hle⟩
  refine ⟨nodup_focusables hg, selectFirst_spec hg hroot, selectLast_spec hg hroot,
    fun x hx => ⟨trav_next hg hroot hx, trav_previous hg hroot hx⟩, ?_, ?_⟩
  · intro x hx y hy
    rw [trav_next hg hroot hx, trav_previous hg hroot hy, Except.ok.injEq, Except.ok.injEq,
      Option.some.injEq, Option.some.injEq]
    constructor
    · rintro rfl
      exact prev_next _ (nodup_focusables hg) x hx
    · rintro rfl
      exact next_prev _ (nodup_focusables hg) y hy
  · intro x hx y hy
    rcases getElem_of_mem hx with ⟨i, hi, rfl⟩
    rcases getElem_of_mem hy with ⟨j, hj, rfl⟩
    refine ⟨g.focusables.length - i + j, ?_⟩
    rw [travTimes_spec hg hroot _ i hi,
      show i + (g.focusables.length - i + j) = j + g.focusables.length by omega,
      Nat.add_mod_right, Nat.mod_eq_of_lt hj, getElem?_eq_getElem hj]

/-- A root with a plain parent, which has one child, and with a second child. -/
def sample : SceneGraph (Fin 4) where
  nodes := Finset.univ
  root := 0
  isParent := fun x => x.val < 2
  getChildren := fun x => if x = 0 then [1, 2] else if x = 1 then [3] else []
  getParent := fun x => if x = 0 then none else if x = 3 then some 1 else some 0
  isDisabled := fun _ => false
  isTreeVisible := fun _ => true
  isFocusTraversable := fun x => 2 ≤ x.val
  getTraversalEngine := fun _ => none

theorem sample_wellFormed : sample.WellFormed where
  forest :=
    { nodup := by decide
      parent_unique := by decide
      acyclic := by
        have hlt : ∀ x c, c ∈ sample.getChildren x → x < c := by decide
        have hbelow : ∀ x y, Relation.TransGen (Child sample.getChildren) x y → x < y := by
          intro x y hxy
          induction hxy with
          | single hc => exact hlt _ _ hc
          | tail _ hc ih => exact lt_trans ih (hlt _ _ hc)
        exact fun x hx => lt_irrefl x (hbelow x x hx) }
  mem_nodes := by decide
  getParent_iff := by decide
  isParent := by decide
  isDisabled := by decide
  isTreeVisible := by decide
  root_top := rfl

theorem tabOrder_sample :
    sample.selectFirst = .ok (some 3) ∧ sample.trav 3 .next = .ok (some 2) ∧
      sample.trav 2 .next = .ok (some 3) ∧ sample.trav 3 .previous = .ok (some 2) := by
  rcases tabOrder_cycle sample_wellFormed (fun _ => rfl) rfl with ⟨-, hfirst, -, hcycle, -⟩
  exact ⟨hfirst, (hcycle 3 (by decide)).1, (hcycle 2 (by decide)).1, (hcycle 3 (by decide)).2⟩

end

end OpenJfx.Scene.Traversal
