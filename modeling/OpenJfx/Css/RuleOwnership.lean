import OpenJfx.Collections.ObservableListEdit
import OpenJfx.Data.Ownership

namespace OpenJfx.Css

open Data Collections.ListChange Collections.ListChangeBuilder Collections.ObservableListEdit List

/-- `TrackableObservableList`. Without the listener that calls it, `onChanged` is never called. -/
structure TrackableObservableList (E : Type) where
  backingList : List E
  hasListener : Bool

namespace TrackableObservableList

variable {E : Type}

/-- `TrackableObservableList(List)`, which adds no listener. -/
def ofList (list : List E) : TrackableObservableList E := ⟨list, false⟩

/-- `TrackableObservableList()`, which adds one. -/
def new : TrackableObservableList E := ⟨[], true⟩

/-- A call on the list, and the sub-changes with which `onChanged` is called. -/
def edit (list : TrackableObservableList E) (edit : ListEdit E) :
    TrackableObservableList E × List (SubChange E) :=
  match edit.run list.backingList with
  | .ok (l, fired) =>
    ({ list with backingList := l }, if list.hasListener then fired.getD [] else [])
  | .error _ => (list, [])

end TrackableObservableList

section OnChanged

variable {E O : Type} [DecidableEq E] [DecidableEq O]

def getAddedSubList (list : List E) (c : SubChange E) : List E :=
  if c.wasAdded then subList list c.fromIdx c.toIdx else []

def pointTo (o : O) (elements : List E) (owner : E → Option O) : E → Option O :=
  elements.foldl (fun owner e => Function.update owner e (some o)) owner

def pointAway (o : O) (elements : List E) (owner : E → Option O) : E → Option O :=
  elements.foldl
    (fun owner e => if owner e = some o then Function.update owner e none else owner) owner

/-- `onChanged` of the selectors of a rule, which clears the added elements in the place of the
removed ones. -/
def selectorsChanged (rule : O) (list : List E) (changes : List (SubChange E))
    (owner : E → Option O) : E → Option O :=
  changes.foldl (fun owner c =>
    let owner := if c.wasAdded then pointTo rule (getAddedSubList list c) owner else owner
    if c.wasRemoved then pointAway rule (getAddedSubList list c) owner else owner) owner

def declarationsChanged (rule : O) (list : List E) (changes : List (SubChange E))
    (owner : E → Option O) : E → Option O :=
  changes.foldl (fun owner c =>
    let owner := if c.wasAdded then pointTo rule (getAddedSubList list c) owner else owner
    if c.wasRemoved then pointAway rule c.getRemoved owner else owner) owner

/-- `onChanged` of the rules of a stylesheet, which passes over what is removed where something
is added. -/
def rulesChanged (stylesheet : O) (list : List E) (changes : List (SubChange E))
    (owner : E → Option O) : E → Option O :=
  changes.foldl (fun owner c =>
    if c.wasAdded then pointTo stylesheet (getAddedSubList list c) owner
    else if c.wasRemoved then pointAway stylesheet c.getRemoved owner
    else owner) owner

end OnChanged

structure World where
  ruleCount : Nat
  stylesheetCount : Nat
  selectors : Nat → TrackableObservableList Nat
  declarations : Nat → TrackableObservableList Nat
  rules : Nat → TrackableObservableList Nat
  selectorRule : Nat → Option Nat
  declarationRule : Nat → Option Nat
  ruleStylesheet : Nat → Option Nat

namespace World

def new : World where
  ruleCount := 0
  stylesheetCount := 0
  selectors := fun _ => .ofList []
  declarations := fun _ => .ofList []
  rules := fun _ => .new
  selectorRule := fun _ => none
  declarationRule := fun _ => none
  ruleStylesheet := fun _ => none

/-- The constructor of `Rule`, and the observable lists that are made of its lists. -/
def newRule (w : World) (selectors declarations : List Nat) : World :=
  { w with
    ruleCount := w.ruleCount + 1
    selectors := Function.update w.selectors w.ruleCount (.ofList selectors)
    declarations := Function.update w.declarations w.ruleCount (.ofList declarations)
    selectorRule := pointTo w.ruleCount selectors w.selectorRule
    declarationRule := pointTo w.ruleCount declarations w.declarationRule }

def newStylesheet (w : World) : World := { w with stylesheetCount := w.stylesheetCount + 1 }

def editSelectors (w : World) (rule : Nat) (edit : ListEdit Nat) : World :=
  match (w.selectors rule).edit edit with
  | (list, changes) =>
    { w with
      selectors := Function.update w.selectors rule list
      selectorRule := selectorsChanged rule list.backingList changes w.selectorRule }

def editDeclarations (w : World) (rule : Nat) (edit : ListEdit Nat) : World :=
  match (w.declarations rule).edit edit with
  | (list, changes) =>
    { w with
      declarations := Function.update w.declarations rule list
      declarationRule := declarationsChanged rule list.backingList changes w.declarationRule }

def editRules (w : World) (stylesheet : Nat) (edit : ListEdit Nat) : World :=
  match (w.rules stylesheet).edit edit with
  | (list, changes) =>
    { w with
      rules := Function.update w.rules stylesheet list
      ruleStylesheet := rulesChanged stylesheet list.backingList changes w.ruleStylesheet }

inductive Call
  | newRule (selectors declarations : List Nat)
  | newStylesheet
  | editSelectors (rule : Nat) (edit : ListEdit Nat)
  | editDeclarations (rule : Nat) (edit : ListEdit Nat)
  | editRules (stylesheet : Nat) (edit : ListEdit Nat)

def Call.run (w : World) : Call → World
  | .newRule selectors declarations => w.newRule selectors declarations
  | .newStylesheet => w.newStylesheet
  | .editSelectors rule edit => if rule < w.ruleCount then w.editSelectors rule edit else w
  | .editDeclarations rule edit => if rule < w.ruleCount then w.editDeclarations rule edit else w
  | .editRules stylesheet edit =>
    if stylesheet < w.stylesheetCount then w.editRules stylesheet edit else w

def runCalls (w : World) (calls : List Call) : World := calls.foldl Call.run w

def ofSelectors (w : World) : Ownership Nat Nat :=
  ⟨fun rule => (w.selectors rule).backingList, w.selectorRule⟩

def ofDeclarations (w : World) : Ownership Nat Nat :=
  ⟨fun rule => (w.declarations rule).backingList, w.declarationRule⟩

def ofRules (w : World) : Ownership Nat Nat :=
  ⟨fun stylesheet => (w.rules stylesheet).backingList, w.ruleStylesheet⟩

/-- What is in a list points to the owner of the list, what is in none points to none. -/
structure PointsToOwners (w : World) : Prop where
  selectors : w.ofSelectors.Consistent
  declarations : w.ofDeclarations.Consistent
  rules : w.ofRules.Consistent

/-- The elements of a list after a call, or the same ones if it throws. -/
def after (list : List Nat) (edit : ListEdit Nat) : List Nat :=
  match edit.run list with
  | .ok (l, _) => l
  | .error _ => list

def KeepsRules (w : World) (stylesheet : Nat) (edit : ListEdit Nat) : Prop :=
  (∀ e ∈ edit.added, ∀ other, other ≠ stylesheet → e ∉ (w.rules other).backingList) ∧
    ∀ e ∈ edit.removed (w.rules stylesheet).backingList,
      e ∈ after (w.rules stylesheet).backingList edit ↔ edit.added ≠ []

/-- The calls that keep the pointers right: a new rule gets no elements of other rules, and the
lists of a rule go on with the same elements. -/
def Call.Keeps (w : World) : Call → Prop
  | .newRule selectors declarations =>
    (∀ e ∈ selectors, ∀ rule, e ∉ (w.selectors rule).backingList) ∧
      ∀ e ∈ declarations, ∀ rule, e ∉ (w.declarations rule).backingList
  | .newStylesheet => True
  | .editSelectors rule edit => rule < w.ruleCount →
      ∀ e, e ∈ after (w.selectors rule).backingList edit ↔ e ∈ (w.selectors rule).backingList
  | .editDeclarations rule edit => rule < w.ruleCount →
      ∀ e, e ∈ after (w.declarations rule).backingList edit ↔
        e ∈ (w.declarations rule).backingList
  | .editRules stylesheet edit => stylesheet < w.stylesheetCount →
      edit.legal (w.rules stylesheet).backingList = true → w.KeepsRules stylesheet edit

def AllKeep (w : World) : List Call → Prop
  | [] => True
  | call :: calls => call.Keeps w ∧ AllKeep (call.run w) calls

structure Untracked (ruleCount : Nat) (lists : Nat → TrackableObservableList Nat) : Prop where
  hasListener : ∀ rule, (lists rule).hasListener = false
  toCome : ∀ rule, ruleCount ≤ rule → (lists rule).backingList = []

/-- What holds of the lists of all worlds that calls lead to. -/
structure WellFormed (w : World) : Prop where
  selectors : Untracked w.ruleCount w.selectors
  declarations : Untracked w.ruleCount w.declarations
  rules : ∀ stylesheet, (w.rules stylesheet).hasListener = true

theorem new_wellFormed : WellFormed new :=
  ⟨⟨fun _ => rfl, fun _ _ => rfl⟩, ⟨fun _ => rfl, fun _ _ => rfl⟩, fun _ => rfl⟩

theorem edit_hasListener {E : Type} (list : TrackableObservableList E) (edit : ListEdit E) :
    (list.edit edit).1.hasListener = list.hasListener := by
  unfold TrackableObservableList.edit
  split <;> rfl

theorem edit_backingList (list : TrackableObservableList Nat) (edit : ListEdit Nat) :
    (list.edit edit).1.backingList = after list.backingList edit := by
  unfold TrackableObservableList.edit after
  cases edit.run list.backingList <;> rfl

theorem edit_changes_of_not_hasListener {E : Type} {list : TrackableObservableList E}
    (h : list.hasListener = false) (edit : ListEdit E) : (list.edit edit).2 = [] := by
  unfold TrackableObservableList.edit
  split
  · rw [h]
    rfl
  · rfl

variable {lists : Nat → TrackableObservableList Nat} {list : TrackableObservableList Nat}

theorem hasListener_update {i : Nat} {tracked : Bool} (h : ∀ j, (lists j).hasListener = tracked)
    (hlist : list.hasListener = tracked) (j : Nat) :
    (Function.update lists i list j).hasListener = tracked := by
  by_cases hj : j = i
  · subst hj
    rw [Function.update_self]
    exact hlist
  · rw [Function.update_of_ne hj]
    exact h j

theorem Untracked.update {ruleCount : Nat} (h : Untracked ruleCount lists) {ruleCount' rule : Nat}
    (hcnt : ruleCount ≤ ruleCount') (hrule : rule < ruleCount')
    (hlist : list.hasListener = false) :
    Untracked ruleCount' (Function.update lists rule list) where
  hasListener := hasListener_update h.hasListener hlist
  toCome := by
    intro other hother
    rw [Function.update_of_ne (Nat.ne_of_gt (Nat.lt_of_lt_of_le hrule hother))]
    exact h.toCome other (Nat.le_trans hcnt hother)

variable {w : World}

theorem run_wellFormed (h : w.WellFormed) (call : Call) : (call.run w).WellFormed := by
  cases call with
  | newRule selectors declarations =>
    exact ⟨h.selectors.update (Nat.le_succ _) (Nat.lt_succ_self _) rfl,
      h.declarations.update (Nat.le_succ _) (Nat.lt_succ_self _) rfl, h.rules⟩
  | newStylesheet => exact ⟨h.selectors, h.declarations, h.rules⟩
  | editSelectors rule edit =>
    rw [Call.run]
    split
    · next hrule =>
        exact ⟨h.selectors.update (Nat.le_refl _) hrule
          ((edit_hasListener _ edit).trans (h.selectors.hasListener rule)), h.declarations,
          h.rules⟩
    · exact h
  | editDeclarations rule edit =>
    rw [Call.run]
    split
    · next hrule =>
        exact ⟨h.selectors, h.declarations.update (Nat.le_refl _) hrule
          ((edit_hasListener _ edit).trans (h.declarations.hasListener rule)), h.rules⟩
    · exact h
  | editRules stylesheet edit =>
    rw [Call.run]
    split
    · exact ⟨h.selectors, h.declarations, hasListener_update h.rules
        ((edit_hasListener _ edit).trans (h.rules stylesheet))⟩
    · exact h

theorem backingList_update (lists : Nat → TrackableObservableList Nat) (i : Nat)
    (list : TrackableObservableList Nat) :
    (fun j => (Function.update lists i list j).backingList) =
      Function.update (fun j => (lists j).backingList) i list.backingList := by
  funext j
  by_cases hj : j = i
  · subst hj
    rw [Function.update_self, Function.update_self]
  · rw [Function.update_of_ne hj, Function.update_of_ne hj]

theorem ofSelectors_editSelectors (h : w.WellFormed) (rule : Nat) (edit : ListEdit Nat) :
    (w.editSelectors rule edit).ofSelectors =
      w.ofSelectors.relist rule (after (w.selectors rule).backingList edit) w.selectorRule := by
  unfold editSelectors
  have hchanges := edit_changes_of_not_hasListener (h.selectors.hasListener rule) edit
  have hlist := edit_backingList (w.selectors rule) edit
  generalize (w.selectors rule).edit edit = result at hchanges hlist
  rcases result with ⟨list, changes⟩
  subst hchanges
  rw [ofSelectors, ← hlist]
  rw [backingList_update]
  rfl

theorem ofDeclarations_editDeclarations (h : w.WellFormed) (rule : Nat) (edit : ListEdit Nat) :
    (w.editDeclarations rule edit).ofDeclarations =
      w.ofDeclarations.relist rule (after (w.declarations rule).backingList edit)
        w.declarationRule := by
  unfold editDeclarations
  have hchanges := edit_changes_of_not_hasListener (h.declarations.hasListener rule) edit
  have hlist := edit_backingList (w.declarations rule) edit
  generalize (w.declarations rule).edit edit = result at hchanges hlist
  rcases result with ⟨list, changes⟩
  subst hchanges
  rw [ofDeclarations, ← hlist]
  rw [backingList_update]
  rfl

section Rules

variable {E O : Type} [DecidableEq E] [DecidableEq O]

theorem rulesChanged_replacement (stylesheet : O) (front removed added back : List E)
    (hadded : added ≠ []) (owner : E → Option O) :
    rulesChanged stylesheet (front ++ added ++ back) [replacement front.length removed added]
      owner = Ownership.claim stylesheet added owner := by
  have hpos : 0 < added.length := length_pos_of_ne_nil hadded
  have hwas : (replacement front.length removed added).wasAdded = true :=
    decide_eq_true (show (front.length : Int) < front.length + added.length by omega)
  have hsub : getAddedSubList (front ++ added ++ back) (replacement front.length removed added) =
      added := by
    rw [getAddedSubList, if_pos hwas]
    exact subList_append front added back rfl rfl
  rw [rulesChanged, foldl_cons, foldl_nil, if_pos hwas, hsub, pointTo,
    Ownership.foldl_claim]

theorem release_append (o : O) (removed removed' : List E) (owner : E → Option O) :
    Ownership.release o (removed ++ removed') owner =
      Ownership.release o removed' (Ownership.release o removed owner) := by
  rw [← Ownership.foldl_release, ← Ownership.foldl_release, ← Ownership.foldl_release,
    foldl_append]

theorem release_congr (o : O) {removed removed' : List E} (h : removed.Perm removed')
    (owner : E → Option O) :
    Ownership.release o removed owner = Ownership.release o removed' owner := by
  funext e
  simp only [Ownership.release, h.mem_iff]

theorem rulesChanged_onlyRemove (stylesheet : O) (list : List E) (cs : List (SubChange E))
    (h : OnlyRemove cs) (owner : E → Option O) :
    rulesChanged stylesheet list cs owner =
      Ownership.release stylesheet (allRemoved cs) owner := by
  induction cs generalizing owner with
  | nil =>
    rfl
  | cons c cs ih =>
    rcases onlyRemove_cons.mp h with ⟨hc, hcs⟩
    have hwas : ¬c.wasAdded = true := by
      have hfrom := hc.2 c mem_cons_self
      simp [SubChange.wasAdded, hfrom]
    have hc : (if c.wasRemoved then pointAway stylesheet c.getRemoved owner else owner) =
        Ownership.release stylesheet c.getRemoved owner := by
      rw [← Ownership.foldl_release]
      cases hrem : c.getRemoved with
      | nil | cons x removed =>
        rw [SubChange.wasRemoved, hrem]
        rfl
    rw [rulesChanged, foldl_cons, if_neg hwas, hc, ← rulesChanged, ih hcs, ← release_append]
    rfl

end Rules

theorem ofRules_editRules (w : World) (stylesheet : Nat) (edit : ListEdit Nat) :
    (w.editRules stylesheet edit).ofRules =
      w.ofRules.relist stylesheet (after (w.rules stylesheet).backingList edit)
        (w.editRules stylesheet edit).ruleStylesheet := by
  unfold editRules
  have hlist := edit_backingList (w.rules stylesheet) edit
  generalize (w.rules stylesheet).edit edit = result at hlist
  rcases result with ⟨list, changes⟩
  rw [ofRules, ← hlist]
  rw [backingList_update]
  rfl

theorem editRules_ruleStylesheet (h : w.WellFormed) (stylesheet : Nat) {edit : ListEdit Nat}
    (hlegal : edit.legal (w.rules stylesheet).backingList = true) :
    ∃ fired, edit.Fires (w.rules stylesheet).backingList
        (after (w.rules stylesheet).backingList edit) fired ∧
      (w.editRules stylesheet edit).ruleStylesheet =
        rulesChanged stylesheet (after (w.rules stylesheet).backingList edit) (fired.getD [])
          w.ruleStylesheet := by
  rcases ListEdit.run_fires hlegal with ⟨l, fired, hrun, hfires⟩
  have hafter : after (w.rules stylesheet).backingList edit = l := by
    rw [after, hrun]
  refine ⟨fired, hafter ▸ hfires, ?_⟩
  rw [hafter, editRules, TrackableObservableList.edit, hrun, h.rules stylesheet]
  rfl

theorem editRules_consistent_iff (h : w.WellFormed) (hw : w.ofRules.Consistent) (stylesheet : Nat)
    {edit : ListEdit Nat} (hlegal : edit.legal (w.rules stylesheet).backingList = true) :
    (w.editRules stylesheet edit).ofRules.Consistent ↔ w.KeepsRules stylesheet edit := by
  rcases editRules_ruleStylesheet h stylesheet hlegal with ⟨fired, hfires, howner⟩
  rw [ofRules_editRules, howner, KeepsRules]
  generalize after (w.rules stylesheet).backingList edit = l' at hfires
  by_cases hadded : edit.added = []
  · rw [ListEdit.Fires, if_pos hadded] at hfires
    rcases hfires with ⟨hperm, hfired⟩
    have hrelease : rulesChanged stylesheet l' (fired.getD []) w.ruleStylesheet =
        Ownership.release stylesheet (edit.removed (w.rules stylesheet).backingList)
          w.ofRules.owner := by
      rcases hfired with ⟨hrem, rfl⟩ | ⟨cs, rfl, honly, hall⟩
      · rw [hrem, ← Ownership.foldl_release]
        rfl
      · exact (rulesChanged_onlyRemove stylesheet l' cs honly _).trans (release_congr _ hall _)
    rw [hrelease, Ownership.release_consistent_iff hw fun e =>
      (hperm.mem_iff (a := e)).trans mem_append, hadded]
    simp
  · rw [ListEdit.Fires, if_neg hadded] at hfires
    rcases hfires with ⟨front, back, hl, rfl, rfl⟩
    have hclaim : rulesChanged stylesheet (front ++ edit.added ++ back)
        [replacement front.length (edit.removed (w.rules stylesheet).backingList) edit.added]
        w.ruleStylesheet = Ownership.claim stylesheet edit.added w.ofRules.owner :=
      rulesChanged_replacement stylesheet front _ edit.added back hadded _
    have hlists : ∀ e, e ∈ w.ofRules.lists stylesheet ↔
        e ∈ front ∨ e ∈ edit.removed (w.rules stylesheet).backingList ∨ e ∈ back := by
      intro e
      have hmem := congrArg (e ∈ ·) hl
      simp only [mem_append, eq_iff_iff] at hmem
      exact hmem.trans or_assoc
    have hafter : ∀ e, e ∈ front ++ edit.added ++ back ↔
        e ∈ front ∨ e ∈ edit.added ∨ e ∈ back := by
      intro e
      rw [mem_append, mem_append]
      exact or_assoc
    rw [Option.getD_some, hclaim, Ownership.claim_consistent_iff hw]
    · refine and_congr_right fun _ => ?_
      constructor
      · intro hkept e he
        exact iff_of_true (hkept e ((hlists e).mpr (.inr (.inl he)))) hadded
      · intro hkept e he
        rcases (hlists e).mp he with hfront | hrem | hback
        · exact (hafter e).mpr (.inl hfront)
        · exact (hkept e hrem).mpr hadded
        · exact (hafter e).mpr (.inr (.inr hback))
    · exact fun e he => (hafter e).mpr (.inr (.inl he))
    · intro e he
      rcases (hafter e).mp he with hfront | hadded | hback
      · exact .inr ((hlists e).mpr (.inl hfront))
      · exact .inl hadded
      · exact .inr ((hlists e).mpr (.inr (.inr hback)))

theorem pointTo_eq_claim {E O : Type} [DecidableEq E] (o : O) (elements : List E)
    (owner : E → Option O) : pointTo o elements owner = Ownership.claim o elements owner :=
  Ownership.foldl_claim o elements owner

theorem newList_consistent_iff {count : Nat} {owner : Nat → Option Nat} (h : Untracked count lists)
    (hw : Ownership.Consistent ⟨fun i => (lists i).backingList, owner⟩) (list : List Nat) :
    Ownership.Consistent
        ⟨fun i => (Function.update lists count (.ofList list) i).backingList,
          pointTo count list owner⟩ ↔
      ∀ e ∈ list, ∀ i, e ∉ (lists i).backingList := by
  have hemp : (lists count).backingList = [] := h.toCome count (Nat.le_refl _)
  rw [backingList_update, pointTo_eq_claim]
  refine (Ownership.claim_consistent_iff hw (fun _ he => he) fun _ he => .inl he).trans ?_
  constructor
  · rintro ⟨hothers, -⟩ e he i
    by_cases hi : i = count
    · subst hi
      rw [hemp]
      exact not_mem_nil
    · exact hothers e he i hi
  · intro hothers
    refine ⟨fun e he i _ => hothers e he i, ?_⟩
    change ∀ e ∈ (lists count).backingList, e ∈ list
    rw [hemp]
    exact forall_mem_nil _

theorem run_pointsToOwners_iff (h : w.WellFormed) (hw : w.PointsToOwners) (call : Call) :
    (call.run w).PointsToOwners ↔ call.Keeps w := by
  cases call with
  | newRule selectors declarations =>
    have hsels := newList_consistent_iff h.selectors hw.selectors selectors
    have hdeclarations := newList_consistent_iff h.declarations hw.declarations declarations
    constructor
    · intro h'
      exact ⟨hsels.mp h'.selectors, hdeclarations.mp h'.declarations⟩
    · rintro ⟨hs, hd⟩
      exact ⟨hsels.mpr hs, hdeclarations.mpr hd, hw.rules⟩
  | newStylesheet => exact iff_of_true ⟨hw.selectors, hw.declarations, hw.rules⟩ trivial
  | editSelectors rule edit =>
    rw [Call.run, Call.Keeps]
    split
    · next hrule =>
        have hiff := Ownership.relist_consistent_iff hw.selectors rule
          (after (w.selectors rule).backingList edit)
        rw [forall_prop_of_true hrule]
        constructor
        · intro h'
          exact hiff.mp (ofSelectors_editSelectors h rule edit ▸ h'.selectors)
        · intro hkeeps
          refine ⟨?_, hw.declarations, hw.rules⟩
          rw [ofSelectors_editSelectors h rule edit]
          exact hiff.mpr hkeeps
    · next hrule => exact iff_of_true hw fun hlt => absurd hlt hrule
  | editDeclarations rule edit =>
    rw [Call.run, Call.Keeps]
    split
    · next hrule =>
        have hiff := Ownership.relist_consistent_iff hw.declarations rule
          (after (w.declarations rule).backingList edit)
        rw [forall_prop_of_true hrule]
        constructor
        · intro h'
          exact hiff.mp (ofDeclarations_editDeclarations h rule edit ▸ h'.declarations)
        · intro hkeeps
          refine ⟨hw.selectors, ?_, hw.rules⟩
          rw [ofDeclarations_editDeclarations h rule edit]
          exact hiff.mpr hkeeps
    · next hrule => exact iff_of_true hw fun hlt => absurd hlt hrule
  | editRules stylesheet edit =>
    rw [Call.run, Call.Keeps]
    split
    · next hstylesheet =>
        rw [forall_prop_of_true hstylesheet]
        by_cases hlegal : edit.legal (w.rules stylesheet).backingList = true
        · rw [forall_prop_of_true hlegal]
          have hiff := editRules_consistent_iff h hw.rules stylesheet hlegal
          constructor
          · exact fun h' => hiff.mp h'.rules
          · exact fun hkeeps => ⟨hw.selectors, hw.declarations, hiff.mpr hkeeps⟩
        · refine iff_of_true ?_ fun hlegal' => absurd hlegal' hlegal
          have hsame : w.editRules stylesheet edit = w := by
            rw [editRules, TrackableObservableList.edit, ListEdit.run, if_neg hlegal]
            dsimp only
            rw [Function.update_eq_self]
            rfl
          rw [hsame]
          exact hw
    · next hstylesheet => exact iff_of_true hw fun hlt => absurd hlt hstylesheet

theorem new_pointsToOwners : PointsToOwners new where
  selectors := ⟨nofun, fun _ _ => rfl⟩
  declarations := ⟨nofun, fun _ _ => rfl⟩
  rules := ⟨nofun, fun _ _ => rfl⟩

theorem runCalls_pointsToOwners_iff (h : w.WellFormed) (hw : w.PointsToOwners) (calls : List Call) :
    (∀ moment, moment <+: calls → (w.runCalls moment).PointsToOwners) ↔ w.AllKeep calls := by
  induction calls generalizing w with
  | nil =>
    refine iff_of_true ?_ trivial
    intro moment hmoment
    rw [prefix_nil.mp hmoment]
    exact hw
  | cons call calls ih =>
    constructor
    · intro hall
      have hcall : (call.run w).PointsToOwners :=
        hall [call] ((prefix_append [call] calls))
      refine ⟨(run_pointsToOwners_iff h hw call).mp hcall,
        (ih (run_wellFormed h call) hcall).mp ?_⟩
      intro moment hmoment
      exact hall (call :: moment) ((prefix_cons_inj call).mpr hmoment)
    · rintro ⟨hkeeps, hrest⟩ moment hmoment
      have hcall := (run_pointsToOwners_iff h hw call).mpr hkeeps
      rcases moment with _ | ⟨first, moment⟩
      · exact hw
      · rcases cons_prefix_cons.mp hmoment with ⟨rfl, htail⟩
        exact (ih (run_wellFormed h first) hcall).mpr hrest moment htail

theorem pointsToOwners_iff (calls : List Call) :
    (∀ moment, moment <+: calls → (new.runCalls moment).PointsToOwners) ↔ new.AllKeep calls :=
  runCalls_pointsToOwners_iff new_wellFormed new_pointsToOwners calls

/-- A selector that is added to a rule does not point to it, and a rule that is replaced goes on
pointing to its stylesheet. -/
theorem pointers_left_behind :
    (¬(new.runCalls [.newRule [1] [], .editSelectors 0 (.add 1 2)]).PointsToOwners) ∧
      ¬(new.runCalls [.newRule [] [], .newRule [] [], .newStylesheet, .editRules 0 (.add 0 0),
        .editRules 0 (.set 0 1)]).PointsToOwners := by
  constructor
  · intro h
    have hpointer := h.selectors.listed 0 2 (by decide)
    revert hpointer
    decide
  · intro h
    have hlisted := (Ownership.consistent_iff.mp h.rules 0 0).mp (by decide)
    revert hlisted
    decide

end World

end OpenJfx.Css
