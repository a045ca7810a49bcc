import OpenJfx.Css.CompoundSelector

/-!
Compound selectors against chains of ancestors. `applies` tries every ancestor for a
descendant combinator. `stateMatches` stops at the first one to which the part applies,
and leaves it to its callers whether the last part applies to the node.
-/

namespace OpenJfx.Css

open List

namespace CompoundSelector

open Data Data.WordSet

variable (registry : Registry) (sel : CompoundSelector)

/-- The combinator behind part `i` allows to go up by `gap`. -/
def Respects (i : Nat) (_ : List Styleable) (gap : Nat) : Prop :=
  sel.relationships[i]? = some .child → gap = 1

/-- Part `i` of the selector applies to the node. -/
def PartFits (i : Nat) (styleable : Styleable) : Prop :=
  ∃ selector, sel.selectors[i]? = some selector ∧
    selector.applies registry styleable = some true

def Contained (selector : SimpleSelector) (states : Option BitSet) : Prop :=
  ∃ s, states = some s ∧ members selector.pseudoClassState.bits ⊆ members s.bits

/-- The pseudo-classes of part `i` are in the state of the node, which is `states` for the
last part. The other parts apply to their nodes. -/
def StateFits (states : Option BitSet) (i : Nat) (styleable : Styleable) : Prop :=
  ∃ selector, sel.selectors[i]? = some selector ∧
    if i + 1 = sel.selectors.length then Contained selector states
    else selector.applies registry styleable = some true ∧
      Contained selector styleable.pseudoClassStates

/-- Part `i` applies to no node in between. -/
def IsNearest (i : Nat) (rest : List Styleable) (gap : Nat) : Prop :=
  ∀ g, 0 < g → g < gap → ∀ styleable, rest[g]? = some styleable →
    ¬ sel.PartFits registry i styleable

/-- No name makes `getStyleClass` throw an exception. -/
def Named (path : List Styleable) : Prop :=
  ∀ styleable ∈ path, ∀ name, some name ∈ styleable.styleClass →
    name = "" ∨ SimpleSelector.isBlank name = false

/-- The answer tells whether `P` holds. An exception comes from a node of the path. -/
def Decides (path : List Styleable) (P : Prop) : Option Bool → Prop
  | some answer => answer = true ↔ P
  | none => ¬ Named path

section

variable {path path' : List Styleable} {P Q : Prop} {r r' : Option Bool}

theorem Decides.congr (h : Decides path P r) (hsub : path ⊆ path') (hiff : P ↔ Q) :
    Decides path' Q r := by
  cases r with
  | none => exact fun hnamed => h fun styleable hmem => hnamed styleable (hsub hmem)
  | some answer => exact Iff.trans h hiff

theorem Decides.ite (h : Decides path P r) (hthen : P → Decides path Q r') (hsub : Q → P) :
    Decides path Q (r.bind fun answer => if answer then r' else some false) := by
  rcases r with _ | _ | _
  · exact h
  · exact ⟨fun hfalse => absurd hfalse Bool.false_ne_true,
      fun hQ => absurd (h.mpr (hsub hQ)) Bool.false_ne_true⟩
  · exact hthen (h.mp rfl)

theorem Decides.eq_some (h : Decides path P r) (hnamed : Named path) :
    ∃ answer, r = some answer := by
  cases r with
  | none => exact absurd hnamed h
  | some answer => exact ⟨answer, rfl⟩

end

theorem decides_false {path : List Styleable} {P : Prop} (h : ¬ P) : Decides path P (some false) :=
  ⟨fun hfalse => absurd hfalse Bool.false_ne_true, fun hP => absurd hP h⟩

theorem addStyleClasses_ne_none (index : String → Nat) (names : List (Option String))
    (hnames : ∀ name, some name ∈ names → name = "" ∨ SimpleSelector.isBlank name = false) :
    ∀ set, SimpleSelector.addStyleClasses index set names ≠ none := by
  induction names with
  | nil => exact fun _ => Option.some_ne_none _
  | cons name names ih =>
    have ih := ih fun name hname => hnames name (mem_cons_of_mem _ hname)
    intro set
    cases name with
    | none => exact ih set
    | some name =>
      rw [SimpleSelector.addStyleClasses]
      split_ifs with hempty hblank
      · exact ih set
      · rcases hnames name mem_cons_self with hname | hname
        · exact absurd hname hempty
        · exact absurd hblank (by simp [hname])
      · exact ih _

theorem simple_applies_decides (selector : SimpleSelector) (styleable : Styleable) :
    Decides [styleable] (selector.applies registry styleable = some true)
      (selector.applies registry styleable) := by
  cases happlies : selector.applies registry styleable with
  | some answer => simp [Decides]
  | none =>
    intro hnamed
    rw [SimpleSelector.applies] at happlies
    split_ifs at happlies
    cases hset : SimpleSelector.addStyleClasses registry.styleClass BitSet.new
        styleable.styleClass with
    | none => exact addStyleClasses_ne_none _ _ (hnamed styleable mem_cons_self) _ hset
    | some set => simp [hset] at happlies

theorem partApplies_decides (i : Nat) (styleable : Styleable) :
    Decides [styleable] (sel.PartFits registry i styleable)
      (sel.partApplies registry i styleable) := by
  rw [partApplies, PartFits]
  cases sel.selectors[i]? with
  | none => exact decides_false (by simp)
  | some selector =>
    exact (simple_applies_decides registry selector styleable).congr (Subset.refl _) (by simp)

theorem simple_stateMatches_iff (selector : SimpleSelector) (states : Option BitSet) :
    selector.stateMatches states = true ↔ Contained selector states := by
  rw [Contained]
  cases states with
  | none => simp [SimpleSelector.stateMatches]
  | some s =>
    change s.containsAll (some selector.pseudoClassState) = true ↔ _
    rw [BitSet.containsAll_iff_subset selector.pseudoClassState_trimmed]
    simp

theorem not_hasChain_nil {step : Nat → List Styleable → Nat → Prop}
    {fits : Nat → Styleable → Prop} (k : Nat) : ¬ HasChain step fits [] k := by
  rintro ⟨depth, h⟩
  rcases h.fit k (Nat.le_refl k) with ⟨a, ha, -⟩
  simp at ha

theorem hasChain_succ_cons {step : Nat → List Styleable → Nat → Prop}
    {fits : Nat → Styleable → Prop} {k : Nat} {styleable : Styleable} {ancestors : List Styleable} :
    HasChain step fits (styleable :: ancestors) (k + 1) ↔ fits (k + 1) styleable ∧
      ∃ g, step k (styleable :: ancestors) (g + 1) ∧ HasChain step fits (ancestors.drop g) k := by
  rw [hasChain_succ]
  simp only [getElem?_cons_zero, Option.some.injEq, exists_eq_left']
  refine and_congr_right fun _ => ?_
  constructor
  · rintro ⟨gap, hpos, hstep, hchain⟩
    rcases Nat.exists_eq_succ_of_ne_zero (Nat.ne_of_gt hpos) with ⟨g, rfl⟩
    exact ⟨g, hstep, hchain⟩
  · rintro ⟨g, hstep, hchain⟩
    exact ⟨g + 1, Nat.succ_pos g, hstep, hchain⟩

section Applies

theorem appliesToAncestor_decides {applies : Styleable → List Styleable → TriggerStates → Nat →
      Option (Bool × TriggerStates)} {P : List Styleable → Prop} (hnil : ¬ P [])
    (h : ∀ parent ancestors states depth, Decides (parent :: ancestors) (P (parent :: ancestors))
      ((applies parent ancestors states depth).map Prod.fst))
    (ancestors : List Styleable) : ∀ (states : TriggerStates) (depth : Nat),
      Decides ancestors (∃ g, P (ancestors.drop g))
        ((appliesToAncestor applies ancestors states depth).map Prod.fst) := by
  induction ancestors with
  | nil => exact fun _ _ => decides_false (by simp [hnil])
  | cons parent ancestors ih =>
    intro states depth
    have hfst := h parent ancestors states (depth + 1)
    rw [appliesToAncestor]
    rcases hrun : applies parent ancestors states (depth + 1) with _ | ⟨answer, states'⟩
    · rw [hrun] at hfst
      exact hfst
    rw [hrun] at hfst
    cases answer with
    | true => exact ⟨fun _ => ⟨0, hfst.mp rfl⟩, fun _ => rfl⟩
    | false =>
      refine (ih states' (depth + 1)).congr (subset_cons_self _ _) ⟨?_, ?_⟩
      · rintro ⟨g, hg⟩
        exact ⟨g + 1, hg⟩
      · rintro ⟨g, hg⟩
        cases g with
        | zero => exact absurd (hfst.mpr hg) Bool.false_ne_true
        | succ g => exact ⟨g, hg⟩

theorem appliesAt_zero_map_fst (styleable : Styleable) (ancestors : List Styleable)
    (states : TriggerStates) (depth : Nat) :
    (sel.appliesAt registry 0 styleable ancestors states depth).map Prod.fst =
      sel.partApplies registry 0 styleable := by
  rw [partApplies, appliesAt]
  cases sel.selectors[0]? with
  | none => rfl
  | some selector =>
    simp only [SimpleSelector.appliesCollecting]
    rcases selector.applies registry styleable with _ | _ | _ <;> rfl

theorem appliesAt_succ_map_fst (index : Nat) (styleable : Styleable) (ancestors : List Styleable)
    (states : TriggerStates) (depth : Nat) : ∃ states',
    (sel.appliesAt registry (index + 1) styleable ancestors states depth).map Prod.fst =
      (sel.partApplies registry (index + 1) styleable).bind fun answer =>
        if answer then (appliesAbove (sel.appliesAt registry index) sel.relationships[index]?
          ancestors states' depth).map Prod.fst else some false := by
  rw [partApplies, appliesAt]
  cases sel.selectors[index + 1]? with
  | none => exact ⟨states, rfl⟩
  | some selector =>
    simp only [SimpleSelector.appliesCollecting]
    rcases selector.applies registry styleable with _ | _ | _
    · exact ⟨states, rfl⟩
    · exact ⟨states, rfl⟩
    · exact ⟨_, rfl⟩

theorem appliesAbove_decides {applies : Styleable → List Styleable → TriggerStates → Nat →
      Option (Bool × TriggerStates)} {P : List Styleable → Prop} (hnil : ¬ P [])
    (h : ∀ parent ancestors states depth, Decides (parent :: ancestors) (P (parent :: ancestors))
      ((applies parent ancestors states depth).map Prod.fst))
    (relationship : Option Combinator) (ancestors : List Styleable) (states : TriggerStates)
    (depth : Nat) :
    Decides ancestors (∃ g, (relationship = some .child → g + 1 = 1) ∧ P (ancestors.drop g))
      ((appliesAbove applies relationship ancestors states depth).map Prod.fst) := by
  unfold appliesAbove
  by_cases hchild : relationship = some .child
  · simp only [hchild, true_implies, Nat.add_eq_right, exists_eq_left]
    cases ancestors with
    | nil => exact decides_false hnil
    | cons parent ancestors => exact h parent ancestors states (depth + 1)
  · rw [if_neg hchild]
    simp only [hchild, false_implies, true_and]
    exact appliesToAncestor_decides hnil h ancestors states depth

theorem appliesAt_decides (index : Nat) : ∀ (styleable : Styleable) (ancestors : List Styleable)
    (states : TriggerStates) (depth : Nat), Decides (styleable :: ancestors)
      (HasChain sel.Respects (sel.PartFits registry) (styleable :: ancestors) index)
      ((sel.appliesAt registry index styleable ancestors states depth).map Prod.fst) := by
  induction index with
  | zero =>
    intro styleable ancestors states depth
    rw [appliesAt_zero_map_fst, hasChain_zero]
    exact (sel.partApplies_decides registry 0 styleable).congr (by simp) (by simp)
  | succ index ih =>
    intro styleable ancestors states depth
    rcases sel.appliesAt_succ_map_fst registry index styleable ancestors states depth with
      ⟨states', hsucc⟩
    have hpart : Decides (styleable :: ancestors) _ _ :=
      (sel.partApplies_decides registry (index + 1) styleable).congr (by simp) Iff.rfl
    have habove := appliesAbove_decides (P := fun path =>
      HasChain sel.Respects (sel.PartFits registry) path index) (not_hasChain_nil index) ih
      sel.relationships[index]? ancestors states' depth
    rw [hsucc, hasChain_succ_cons]
    refine hpart.ite (fun hfits => ?_) And.left
    exact habove.congr (subset_cons_self _ _) (by simp only [hfits, true_and]; rfl)

end Applies

section StateMatches

section

variable {matches' : Styleable → List Styleable → Option Bool}
  {applies : Styleable → Option Bool} {Fits : Styleable → Prop} {P : List Styleable → Prop}
  (hnil : ¬ P [])
  (happlies : ∀ parent, Decides [parent] (Fits parent) (applies parent))
  (h : ∀ parent ancestors, Fits parent →
    Decides (parent :: ancestors) (P (parent :: ancestors)) (matches' parent ancestors))
  (hfits : ∀ parent ancestors, P (parent :: ancestors) → Fits parent)

include hnil happlies h hfits

theorem stateMatchesAncestor_decides (ancestors : List Styleable) :
    Decides ancestors (∃ g, (∀ g', g' < g → ∀ styleable, ancestors[g']? = some styleable →
        ¬ Fits styleable) ∧ P (ancestors.drop g))
      (stateMatchesAncestor applies matches' ancestors) := by
  induction ancestors with
  | nil => exact decides_false (by simp [hnil])
  | cons parent ancestors ih =>
    have hpart : Decides (parent :: ancestors) _ _ := (happlies parent).congr (by simp) Iff.rfl
    rw [stateMatchesAncestor]
    rcases happ : applies parent with _ | _ | _
    all_goals rw [happ] at hpart
    · exact hpart
    · have hnot : ¬ Fits parent := fun hP => Bool.false_ne_true (hpart.mpr hP)
      refine ih.congr (subset_cons_self _ _) ⟨?_, ?_⟩
      · rintro ⟨g, hnearest, hP⟩
        refine ⟨g + 1, fun g' hg' styleable hget => ?_, hP⟩
        cases g' with
        | zero =>
          rw [getElem?_cons_zero, Option.some.injEq] at hget
          rwa [← hget]
        | succ g' => exact hnearest g' (Nat.lt_of_succ_lt_succ hg') styleable hget
      · rintro ⟨g, hnearest, hP⟩
        cases g with
        | zero => exact absurd (hfits parent ancestors hP) hnot
        | succ g =>
          exact ⟨g, fun g' hg' styleable hget =>
            hnearest (g' + 1) (Nat.succ_lt_succ hg') styleable hget, hP⟩
    · have hpar : Fits parent := hpart.mp rfl
      refine (h parent ancestors hpar).congr (Subset.refl _) ⟨?_, ?_⟩
      · exact fun hP => ⟨0, fun g' hg' => absurd hg' (Nat.not_lt_zero g'), hP⟩
      · rintro ⟨g, hnearest, hP⟩
        cases g with
        | zero => exact hP
        | succ g => exact absurd hpar (hnearest 0 (Nat.succ_pos g) parent rfl)

theorem stateMatchesAbove_decides (relationship : Option Combinator) (ancestors : List Styleable) :
    Decides ancestors (∃ g, (relationship = some .child → g + 1 = 1) ∧
        (∀ g', g' < g → ∀ styleable, ancestors[g']? = some styleable → ¬ Fits styleable) ∧
        P (ancestors.drop g))
      (stateMatchesAbove applies matches' relationship ancestors) := by
  unfold stateMatchesAbove
  by_cases hchild : relationship = some .child
  · simp only [hchild, true_implies, Nat.add_eq_right, exists_eq_left, drop_zero,
      Nat.not_lt_zero, false_implies, implies_true, true_and]
    cases ancestors with
    | nil => exact decides_false hnil
    | cons parent ancestors =>
      have hpart : Decides (parent :: ancestors) _ _ := (happlies parent).congr (by simp) Iff.rfl
      exact hpart.ite (h parent ancestors) (hfits parent ancestors)
  · rw [if_neg hchild]
    simp only [hchild, false_implies, true_and]
    exact stateMatchesAncestor_decides hnil happlies h hfits ancestors

end

def NodeFits (i : Nat) (styleable : Styleable) : Prop :=
  ∃ selector, sel.selectors[i]? = some selector ∧
    selector.applies registry styleable = some true ∧ Contained selector styleable.pseudoClassStates

/-- The steps that `stateMatches` takes. -/
def NearestStep (i : Nat) (rest : List Styleable) (gap : Nat) : Prop :=
  sel.Respects i rest gap ∧ sel.IsNearest registry i rest gap

theorem stateMatchesAt_succ (index : Nat) (styleable : Styleable) (ancestors : List Styleable)
    (states : Option BitSet) : ∃ contained : Bool,
    (contained = true ↔
      ∃ selector, sel.selectors[index + 1]? = some selector ∧ Contained selector states) ∧
    sel.stateMatchesAt registry (index + 1) styleable ancestors states =
      (some contained).bind fun contained => if contained then
        stateMatchesAbove (sel.partApplies registry index)
          (fun parent ancestors =>
            sel.stateMatchesAt registry index parent ancestors parent.pseudoClassStates)
          sel.relationships[index]? ancestors else some false := by
  rw [stateMatchesAt]
  cases sel.selectors[index + 1]? with
  | none => exact ⟨false, by simp, rfl⟩
  | some selector =>
    refine ⟨selector.stateMatches states, by simp [simple_stateMatches_iff], ?_⟩
    cases hstates : selector.stateMatches states <;> simp [hstates]

theorem stateMatchesAt_zero (styleable : Styleable) (ancestors : List Styleable)
    (states : Option BitSet) (path : List Styleable) :
    Decides path (∃ selector, sel.selectors[0]? = some selector ∧ Contained selector states)
      (sel.stateMatchesAt registry 0 styleable ancestors states) := by
  rw [stateMatchesAt]
  cases sel.selectors[0]? with
  | none => exact decides_false (by simp)
  | some selector =>
    simp only [← simple_stateMatches_iff, Option.some.injEq, exists_eq_left']
    cases selector.stateMatches states <;> simp [Decides]

theorem nodeFits_iff {i : Nat} {styleable : Styleable} : sel.NodeFits registry i styleable ↔
    sel.PartFits registry i styleable ∧ ∃ selector, sel.selectors[i]? = some selector ∧
      Contained selector styleable.pseudoClassStates := by
  constructor
  · rintro ⟨selector, hget, happlies, hstates⟩
    exact ⟨⟨selector, hget, happlies⟩, selector, hget, hstates⟩
  · rintro ⟨⟨selector, hget, happlies⟩, selector', hget', hstates⟩
    rw [hget, Option.some.injEq] at hget'
    exact ⟨selector, hget, happlies, hget' ▸ hstates⟩

theorem isNearest_cons_iff {i g : Nat} {styleable : Styleable} {ancestors : List Styleable} :
    sel.IsNearest registry i (styleable :: ancestors) (g + 1) ↔ ∀ g', g' < g → ∀ node,
      ancestors[g']? = some node → ¬ sel.PartFits registry i node := by
  constructor
  · exact fun h g' hg' node hget => h (g' + 1) (Nat.succ_pos g') (Nat.succ_lt_succ hg') node hget
  · intro h g' hpos hlt node hget
    rcases Nat.exists_eq_succ_of_ne_zero (Nat.ne_of_gt hpos) with ⟨g', rfl⟩
    exact h g' (Nat.lt_of_succ_lt_succ hlt) node hget

theorem stateMatchesAbove_chain {index : Nat}
    (h : ∀ (parent : Styleable) (ancestors : List Styleable),
      sel.PartFits registry index parent → Decides (parent :: ancestors)
        (HasChain (sel.NearestStep registry) (sel.NodeFits registry) (parent :: ancestors) index)
        (sel.stateMatchesAt registry index parent ancestors parent.pseudoClassStates))
    (styleable : Styleable) (ancestors : List Styleable) :
    Decides (styleable :: ancestors)
      (∃ g, sel.NearestStep registry index (styleable :: ancestors) (g + 1) ∧
        HasChain (sel.NearestStep registry) (sel.NodeFits registry) (ancestors.drop g) index)
      (stateMatchesAbove (sel.partApplies registry index)
        (fun parent ancestors =>
          sel.stateMatchesAt registry index parent ancestors parent.pseudoClassStates)
        sel.relationships[index]? ancestors) := by
  refine (stateMatchesAbove_decides (P := fun path => HasChain (sel.NearestStep registry)
    (sel.NodeFits registry) path index) (not_hasChain_nil index)
    (sel.partApplies_decides registry index) h ?_ _ ancestors).congr (subset_cons_self _ _) ?_
  · rintro parent ancestors ⟨depth, hchain⟩
    rcases hchain.fit index (Nat.le_refl index) with ⟨node, hnode, hfits⟩
    rw [hchain.start, getElem?_cons_zero, Option.some.injEq] at hnode
    subst hnode
    exact (sel.nodeFits_iff registry |>.mp hfits).1
  · simp only [NearestStep, isNearest_cons_iff, Respects, and_assoc]

theorem stateMatchesAt_node (index : Nat) : ∀ (styleable : Styleable)
    (ancestors : List Styleable), sel.PartFits registry index styleable →
    Decides (styleable :: ancestors)
      (HasChain (sel.NearestStep registry) (sel.NodeFits registry) (styleable :: ancestors) index)
      (sel.stateMatchesAt registry index styleable ancestors styleable.pseudoClassStates) := by
  induction index with
  | zero =>
    intro styleable ancestors hfits
    rw [hasChain_zero]
    simp only [getElem?_cons_zero, Option.some.injEq, exists_eq_left', nodeFits_iff, hfits,
      true_and]
    exact sel.stateMatchesAt_zero registry styleable ancestors _ _
  | succ index ih =>
    intro styleable ancestors hfits
    obtain ⟨contained, hcontained, hsucc⟩ :=
      sel.stateMatchesAt_succ registry index styleable ancestors styleable.pseudoClassStates
    rw [hsucc, hasChain_succ_cons, nodeFits_iff]
    simp only [hfits, true_and]
    have hfirst : Decides (styleable :: ancestors) _ (some contained) := hcontained
    refine hfirst.ite (fun hstates => ?_) And.left
    exact (sel.stateMatchesAbove_chain registry ih styleable ancestors).congr (Subset.refl _)
      (by simp only [hstates, true_and])

theorem stateFits_iff_nodeFits {states : Option BitSet} {i : Nat}
    (hi : i + 1 ≠ sel.selectors.length) (styleable : Styleable) :
    sel.StateFits registry states i styleable ↔ sel.NodeFits registry i styleable := by
  rw [StateFits, NodeFits]
  simp only [if_neg hi]

theorem stateFits_last_iff {states : Option BitSet} {i : Nat} (hi : i + 1 = sel.selectors.length)
    (styleable : Styleable) : sel.StateFits registry states i styleable ↔
      ∃ selector, sel.selectors[i]? = some selector ∧ Contained selector states := by
  rw [StateFits]
  simp only [if_pos hi]

theorem stateMatches_decides (styleable : Styleable) (ancestors : List Styleable)
    (states : Option BitSet) :
    Decides (styleable :: ancestors)
      (HasChain (sel.NearestStep registry) (sel.StateFits registry states) (styleable :: ancestors)
        (sel.selectors.length - 1))
      (sel.stateMatches registry styleable ancestors states) := by
  rw [stateMatches]
  rcases hlen : sel.selectors.length with _ | _ | index
  · have hnone : sel.selectors[0]? = none := by
      rw [List.getElem?_eq_none_iff, hlen]
    refine (sel.stateMatchesAt_zero registry styleable ancestors states _).congr (Subset.refl _) ?_
    simp [hasChain_zero, StateFits, hnone]
  · refine (sel.stateMatchesAt_zero registry styleable ancestors states _).congr (Subset.refl _) ?_
    simp only [Nat.zero_add, Nat.sub_self, hasChain_zero, getElem?_cons_zero, Option.some.injEq,
      exists_eq_left', sel.stateFits_last_iff registry hlen.symm]
  · obtain ⟨contained, hcontained, hsucc⟩ :=
      sel.stateMatchesAt_succ registry index styleable ancestors states
    have hnode : ∀ i a, i ≤ index →
        (sel.StateFits registry states i a ↔ sel.NodeFits registry i a) :=
      fun i a hi => sel.stateFits_iff_nodeFits registry (by omega) a
    rw [Nat.add_sub_cancel, hsucc, hasChain_succ_cons, sel.stateFits_last_iff registry hlen.symm]
    have hfirst : Decides (styleable :: ancestors) _ (some contained) := hcontained
    refine hfirst.ite (fun hstates => ?_) And.left
    refine (sel.stateMatchesAbove_chain registry (sel.stateMatchesAt_node registry index) styleable
      ancestors).congr (Subset.refl _) ?_
    simp only [hstates, true_and]
    refine exists_congr fun g => and_congr_right fun _ => ?_
    constructor
    · exact fun h => h.imp (fun _ _ _ _ hstep => hstep) fun i a hi => (hnode i a hi).mpr
    · exact fun h => h.imp (fun _ _ _ _ hstep => hstep) fun i a hi => (hnode i a hi).mp

end StateMatches

theorem applies_decides (styleable : Styleable) (ancestors : List Styleable) :
    Decides (styleable :: ancestors)
      (HasChain sel.Respects (sel.PartFits registry) (styleable :: ancestors)
        (sel.selectors.length - 1))
      (sel.applies registry styleable ancestors) := by
  have h := sel.appliesAt_decides registry (sel.selectors.length - 1) styleable ancestors none 0
  rw [applies]
  rcases hrun : sel.appliesAt registry (sel.selectors.length - 1) styleable ancestors none 0 with
    _ | ⟨answer, states⟩
  all_goals
    rw [hrun] at h
    exact h

/-- `applies` finds a chain if there is one. `stateMatches` only finds chains, and it finds
those that go to the nearest ancestor to which a part applies. Only a blank name of a style class
keeps them from answering. -/
theorem applies_and_stateMatches_chains (styleable : Styleable) (ancestors : List Styleable)
    (states : Option BitSet) :
    (∀ answer, sel.applies registry styleable ancestors = some answer →
      (answer = true ↔ HasChain sel.Respects (sel.PartFits registry) (styleable :: ancestors)
        (sel.selectors.length - 1))) ∧
    (∀ answer, sel.stateMatches registry styleable ancestors states = some answer →
      (answer = true →
        HasChain sel.Respects (sel.StateFits registry states) (styleable :: ancestors)
          (sel.selectors.length - 1)) ∧
      (HasChain (sel.NearestStep registry) (sel.StateFits registry states) (styleable :: ancestors)
          (sel.selectors.length - 1) → answer = true)) ∧
    (Named (styleable :: ancestors) →
      (∃ answer, sel.applies registry styleable ancestors = some answer) ∧
      ∃ answer, sel.stateMatches registry styleable ancestors states = some answer) := by
  have happlies := sel.applies_decides registry styleable ancestors
  have hmatches := sel.stateMatches_decides registry styleable ancestors states
  refine ⟨?_, ?_, fun hnamed => ⟨happlies.eq_some hnamed, hmatches.eq_some hnamed⟩⟩
  · intro answer hanswer
    rw [hanswer] at happlies
    exact happlies
  · intro answer hanswer
    rw [hanswer] at hmatches
    refine ⟨fun htrue => (hmatches.mp htrue).imp (fun _ _ _ _ hstep => hstep.1) ?_, hmatches.mpr⟩
    exact fun _ _ _ hfits => hfits

/-- A single part `Label`. -/
def label (registry : Registry) : CompoundSelector :=
  ⟨[SimpleSelector.new registry (some "Label") [] [] none], [], rfl⟩

def button : Styleable := ⟨none, none, some "Button", [], some BitSet.new⟩

/-- A node whose only style class is blank. -/
def blank : Styleable := ⟨none, none, none, [some " "], some BitSet.new⟩

theorem label_stateMatches_button :
    ((label ⟨String.length, String.length⟩).stateMatches ⟨String.length, String.length⟩ button []
        (some BitSet.new) = some true ∧
      ¬ HasChain (label ⟨String.length, String.length⟩).Respects
        (fun i styleable =>
          (label ⟨String.length, String.length⟩).PartFits
            ⟨String.length, String.length⟩ i styleable ∧
          (label ⟨String.length, String.length⟩).StateFits ⟨String.length, String.length⟩
            (some BitSet.new) i styleable)
        [button] 0) ∧
    (⟨[SimpleSelector.new ⟨String.length, String.length⟩ none [some "a"] [] none], [], rfl⟩ :
      CompoundSelector).applies ⟨String.length, String.length⟩ blank [] = none := by
  refine ⟨⟨by decide, fun hchain => ?_⟩, by decide⟩
  rcases hasChain_zero.mp hchain with ⟨styleable, hget, ⟨selector, hselector, happlies⟩, -⟩
  rw [getElem?_cons_zero, Option.some.injEq] at hget
  subst hget
  obtain rfl := Option.some.inj hselector
  exact absurd happlies (by decide)

end CompoundSelector

end OpenJfx.Css
