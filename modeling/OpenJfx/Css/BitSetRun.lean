import OpenJfx.Css.BitSet

namespace OpenJfx.Css

namespace BitSet

open Data.WordSet

variable {T : Type}

/-- The calls on the sets of a program, which are named by their order of creation. -/
inductive Call (T : Type)
  | new
  | add (set : Nat) (t : Option T)
  | remove (set : Nat) (t : Option T)
  | addAll (set other : Nat)
  | retainAll (set other : Nat)
  | removeAll (set other : Nat)
  | clear (set : Nat)

def callOn (sets : List BitSet) (set : Nat) (f : BitSet → BitSet × Bool) :
    List BitSet × Option Bool :=
  match sets[set]? with
  | some s => (sets.set set (f s).1, some (f s).2)
  | none => (sets, none)

def callWith (sets : List BitSet) (set other : Nat) (f : BitSet → Option BitSet → BitSet × Bool) :
    List BitSet × Option Bool :=
  match sets[other]? with
  | some c => callOn sets set fun s => f s (some c)
  | none => (sets, none)

def Call.run (getIndex : T → Nat) (sets : List BitSet) : Call T → List BitSet × Option Bool
  | .new => (sets ++ [BitSet.new], none)
  | .add set t => callOn sets set fun s => s.add getIndex t
  | .remove set t => callOn sets set fun s => s.remove getIndex t
  | .addAll set other => callWith sets set other BitSet.addAll
  | .retainAll set other => callWith sets set other BitSet.retainAll
  | .removeAll set other => callWith sets set other BitSet.removeAll
  | .clear set => (sets.modify set BitSet.clear, none)

def runCalls (getIndex : T → Nat) (calls : List (Call T)) : List BitSet :=
  calls.foldl (fun sets call => (call.run getIndex sets).1) []

def indices (getIndex : T → Nat) : Option T → Finset Nat
  | none => ∅
  | some t => {getIndex t}

def operate (sets : List (Finset Nat)) (set other : Nat)
    (op : Finset Nat → Finset Nat → Finset Nat) : List (Finset Nat) :=
  match sets[other]? with
  | some C => sets.modify set fun S => op S C
  | none => sets

def Call.onFinsets (getIndex : T → Nat) (sets : List (Finset Nat)) : Call T → List (Finset Nat)
  | .new => sets ++ [∅]
  | .add set t => sets.modify set fun S => S ∪ indices getIndex t
  | .remove set t => sets.modify set fun S => S \ indices getIndex t
  | .addAll set other => operate sets set other fun S C => S ∪ C
  | .retainAll set other => operate sets set other fun S C => S ∩ C
  | .removeAll set other => operate sets set other fun S C => S \ C
  | .clear set => sets.modify set fun _ => ∅

def finsetsAfter (getIndex : T → Nat) (calls : List (Call T)) : List (Finset Nat) :=
  calls.foldl (Call.onFinsets getIndex) []

/-- Unless the call leaves an empty set, it leaves a member in the last one of the words
that it keeps, and `removeAll` has an argument that reaches as many words. -/
def Call.KeepsLast (getIndex : T → Nat) (sets : List (Finset Nat)) : Call T → Prop
  | .remove set t => ∀ S ∈ sets[set]?,
      S \ indices getIndex t = ∅ ∨ Below S (S \ indices getIndex t)
  | .retainAll set other => ∀ S ∈ sets[set]?, ∀ C ∈ sets[other]?,
      S ∩ C = ∅ ∨ Below S (S ∩ C) ∨ Below C (S ∩ C)
  | .removeAll set other => ∀ S ∈ sets[set]?, ∀ C ∈ sets[other]?,
      Disjoint S C ∨ S ⊆ C ∨ Below S C ∧ Below S (S \ C)
  | _ => True

instance (getIndex : T → Nat) (sets : List (Finset Nat)) :
    (call : Call T) → Decidable (call.KeepsLast getIndex sets)
  | .remove set t => inferInstanceAs (Decidable (∀ S ∈ sets[set]?,
      S \ indices getIndex t = ∅ ∨ Below S (S \ indices getIndex t)))
  | .retainAll set other => inferInstanceAs (Decidable (∀ S ∈ sets[set]?, ∀ C ∈ sets[other]?,
      S ∩ C = ∅ ∨ Below S (S ∩ C) ∨ Below C (S ∩ C)))
  | .removeAll set other => inferInstanceAs (Decidable (∀ S ∈ sets[set]?, ∀ C ∈ sets[other]?,
      Disjoint S C ∨ S ⊆ C ∨ Below S C ∧ Below S (S \ C)))
  | .new | .add _ _ | .addAll _ _ | .clear _ => .isTrue trivial

/-- All calls of a run are such, each in the state that the calls before it have left. -/
def KeepLast (getIndex : T → Nat) (sets : List (Finset Nat)) : List (Call T) → Prop
  | [] => True
  | call :: calls => call.KeepsLast getIndex sets ∧
      KeepLast getIndex (call.onFinsets getIndex sets) calls

def decidableKeepLast (getIndex : T → Nat) :
    (sets : List (Finset Nat)) → (calls : List (Call T)) → Decidable (KeepLast getIndex sets calls)
  | _, [] => .isTrue trivial
  | sets, call :: calls =>
    have := decidableKeepLast getIndex (call.onFinsets getIndex sets) calls
    inferInstanceAs (Decidable (call.KeepsLast getIndex sets ∧
      KeepLast getIndex (call.onFinsets getIndex sets) calls))

instance (getIndex : T → Nat) (sets : List (Finset Nat)) (calls : List (Call T)) :
    Decidable (KeepLast getIndex sets calls) :=
  decidableKeepLast getIndex sets calls

section Lists

variable {sets : List BitSet} {finsets : List (Finset Nat)}

theorem forall₂_getElem? (h : List.Forall₂ IsSet sets finsets) (i : Nat) :
    (sets[i]? = none ∧ finsets[i]? = none) ∨
      ∃ s S, sets[i]? = some s ∧ finsets[i]? = some S ∧ IsSet s S := by
  induction h generalizing i with
  | nil => exact .inl ⟨rfl, rfl⟩
  | @cons s S sets finsets hs _ ih =>
    cases i with
    | zero => exact .inr ⟨s, S, rfl, rfl, hs⟩
    | succ i => exact ih i

theorem IsSet.of_getElem? (h : List.Forall₂ IsSet sets finsets) {i : Nat} {s : BitSet}
    {S : Finset Nat} (hs : sets[i]? = some s) (hS : finsets[i]? = some S) : IsSet s S := by
  rcases forall₂_getElem? h i with ⟨hnone, -⟩ | ⟨s', S', hs', hS', hsS⟩
  · rw [hs] at hnone
    exact absurd hnone (by simp)
  · rw [hs] at hs'
    rw [hS] at hS'
    rw [Option.some.inj hs', Option.some.inj hS']
    exact hsS

theorem forall₂_modify (h : List.Forall₂ IsSet sets finsets) (i : Nat) {f : BitSet → BitSet}
    {g : Finset Nat → Finset Nat}
    (hf : ∀ s S, finsets[i]? = some S → IsSet s S → IsSet (f s) (g S)) :
    List.Forall₂ IsSet (sets.modify i f) (finsets.modify i g) := by
  induction h generalizing i with
  | nil =>
    rw [List.modify_nil, List.modify_nil]
    exact .nil
  | @cons s S sets finsets hs hrest ih =>
    cases i with
    | zero => exact .cons (hf s S rfl hs) hrest
    | succ i => exact .cons hs (ih i fun s S hS => hf s S hS)

theorem callOn_eq_modify (sets : List BitSet) (set : Nat) (f : BitSet → BitSet × Bool) :
    (callOn sets set f).1 = sets.modify set fun s => (f s).1 := by
  rw [callOn, List.modify_eq_set_getElem?]
  cases sets[set]? with
  | none => rfl
  | some s => rfl

theorem modify_eq_self_iff (finsets : List (Finset Nat)) (i : Nat)
    (g : Finset Nat → Finset Nat) :
    finsets.modify i g = finsets ↔ ∀ S ∈ finsets[i]?, g S = S := by
  induction finsets generalizing i with
  | nil => simp
  | cons S finsets ih =>
    cases i with
    | zero => simp [List.modify_zero_cons]
    | succ i => rw [List.modify_succ_cons, List.cons_inj_right, ih, List.getElem?_cons_succ]

theorem callOn_modified (h : List.Forall₂ IsSet sets finsets) {set : Nat}
    {f : BitSet → BitSet × Bool} {g : Finset Nat → Finset Nat}
    (hf : ∀ s S, finsets[set]? = some S → IsSet s S → ((f s).2 = true ↔ g S ≠ S)) {b : Bool}
    (hb : (callOn sets set f).2 = some b) : b = true ↔ finsets.modify set g ≠ finsets := by
  rw [ne_eq, modify_eq_self_iff]
  rw [callOn] at hb
  rcases forall₂_getElem? h set with ⟨hnone, -⟩ | ⟨s, S, hs, hS, hsS⟩
  · rw [hnone] at hb
    exact absurd hb (by simp)
  · rw [hs] at hb
    rw [← Option.some.inj hb, hS, hf s S hS hsS]
    simp

end Lists

section Run

variable (getIndex : T → Nat) {sets : List BitSet} {finsets : List (Finset Nat)}

theorem new_isSet : IsSet BitSet.new ∅ :=
  ⟨trimmed_nil, fun i => by simp [BitSet.new]⟩

variable {s : BitSet} {S : Finset Nat}

theorem isSet_add (h : IsSet s S) (t : Option T) :
    IsSet (s.add getIndex t).1 (S ∪ indices getIndex t) := by
  cases t with
  | none => rwa [indices, Finset.union_empty]
  | some t =>
    rw [Finset.union_comm]
    exact add_isSet getIndex h t

theorem add_changes_iff (h : IsSet s S) (t : Option T) :
    (s.add getIndex t).2 = true ↔ S ∪ indices getIndex t ≠ S := by
  cases t with
  | none => simp [add, indices]
  | some t => rw [add_modified_iff, h.mem_iff, indices, ne_eq, Finset.union_eq_left,
      Finset.singleton_subset_iff]

theorem isSet_remove (h : IsSet s S) (t : Option T)
    (hkeeps : S \ indices getIndex t = ∅ ∨ Below S (S \ indices getIndex t)) :
    IsSet (s.remove getIndex t).1 (S \ indices getIndex t) := by
  cases t with
  | none => rwa [indices, Finset.sdiff_empty]
  | some t =>
    rw [indices, Finset.sdiff_singleton_eq_erase] at hkeeps ⊢
    exact remove_isSet getIndex h t hkeeps

theorem remove_changes_iff (h : IsSet s S) (t : Option T) :
    (s.remove getIndex t).2 = true ↔ S \ indices getIndex t ≠ S := by
  cases t with
  | none => simp [remove, indices]
  | some t => rw [remove_modified_iff, h.mem_iff, indices, Finset.sdiff_singleton_eq_erase, ne_eq,
      Finset.erase_eq_self, not_not]

variable {other : Nat} {f : BitSet → Option BitSet → BitSet × Bool}
  {op : Finset Nat → Finset Nat → Finset Nat}

theorem callWith_isSet (h : List.Forall₂ IsSet sets finsets) {set : Nat}
    (hf : ∀ S ∈ finsets[set]?, ∀ C ∈ finsets[other]?, ∀ s c, IsSet s S → IsSet c C →
      IsSet (f s (some c)).1 (op S C)) :
    List.Forall₂ IsSet (callWith sets set other f).1 (operate finsets set other op) := by
  rw [callWith, operate]
  rcases forall₂_getElem? h other with ⟨hnone, hnone'⟩ | ⟨c, C, hc, hC, hcC⟩
  · rw [hnone, hnone']
    exact h
  · rw [hc, hC]
    rw [callOn_eq_modify]
    exact forall₂_modify h set fun s S hS hsS => hf S hS C hC s c hsS hcC

theorem callWith_modified (h : List.Forall₂ IsSet sets finsets) {set : Nat}
    (hf : ∀ s c S C, IsSet s S → IsSet c C → ((f s (some c)).2 = true ↔ op S C ≠ S)) {b : Bool}
    (hb : (callWith sets set other f).2 = some b) :
    b = true ↔ operate finsets set other op ≠ finsets := by
  rw [callWith] at hb
  rw [operate]
  rcases forall₂_getElem? h other with ⟨hnone, -⟩ | ⟨c, C, hc, hC, hcC⟩
  · rw [hnone] at hb
    exact absurd hb (by simp)
  · rw [hc] at hb
    rw [hC]
    exact callOn_modified h (fun s S _ hsS => hf s c S C hsS hcC) hb

theorem run_isSet (h : List.Forall₂ IsSet sets finsets) (call : Call T)
    (hkeeps : call.KeepsLast getIndex finsets) :
    List.Forall₂ IsSet (call.run getIndex sets).1 (call.onFinsets getIndex finsets) := by
  cases call with
  | new => exact List.rel_append h (.cons new_isSet .nil)
  | add set t =>
    rw [Call.run, callOn_eq_modify]
    exact forall₂_modify h set fun s S _ hsS => isSet_add getIndex hsS t
  | remove set t =>
    rw [Call.run, callOn_eq_modify]
    exact forall₂_modify h set fun s S hS hsS => isSet_remove getIndex hsS t (hkeeps S hS)
  | addAll set other => exact callWith_isSet h fun S _ C _ s c hsS hcC => addAll_isSet hsS hcC
  | retainAll set other =>
    exact callWith_isSet h fun S hS C hC s c hsS hcC =>
      retainAll_isSet hsS hcC (hkeeps S hS C hC)
  | removeAll set other =>
    exact callWith_isSet h fun S hS C hC s c hsS hcC =>
      removeAll_isSet hsS hcC (hkeeps S hS C hC)
  | clear set => exact forall₂_modify h set fun s S _ _ => new_isSet

theorem run_modified (h : List.Forall₂ IsSet sets finsets) (call : Call T) {b : Bool}
    (hb : (call.run getIndex sets).2 = some b) :
    b = true ↔ call.onFinsets getIndex finsets ≠ finsets := by
  cases call with
  | new | clear set => exact absurd hb (by simp [Call.run])
  | add set t => exact callOn_modified h (fun s S _ hsS => add_changes_iff getIndex hsS t) hb
  | remove set t =>
    exact callOn_modified h (fun s S _ hsS => remove_changes_iff getIndex hsS t) hb
  | addAll set other =>
    refine callWith_modified h (fun s c S C hsS hcC => ?_) hb
    rw [addAll_modified_iff hsS hcC, ne_eq, Finset.union_eq_left]
  | retainAll set other =>
    refine callWith_modified h (fun s c S C hsS hcC => ?_) hb
    rw [retainAll_modified_iff hsS hcC, ne_eq, Finset.inter_eq_left]
  | removeAll set other =>
    refine callWith_modified h (fun s c S C hsS hcC => ?_) hb
    rw [removeAll_modified_iff hsS hcC, ne_eq, Finset.sdiff_eq_self_iff_disjoint]

theorem runCalls_isSet (calls : List (Call T)) (hkeep : KeepLast getIndex [] calls) :
    List.Forall₂ IsSet (runCalls getIndex calls) (finsetsAfter getIndex calls) := by
  have hrun : ∀ {sets : List BitSet} {finsets : List (Finset Nat)},
      List.Forall₂ IsSet sets finsets → KeepLast getIndex finsets calls →
      List.Forall₂ IsSet (calls.foldl (fun sets call => (call.run getIndex sets).1) sets)
        (calls.foldl (Call.onFinsets getIndex) finsets) := by
    clear hkeep
    induction calls with
    | nil => exact fun h _ => h
    | cons call calls ih => exact fun h hkeep => ih (run_isSet getIndex h call hkeep.1) hkeep.2
  exact hrun .nil hkeep

structure Observes (s : BitSet) (S : Finset Nat) : Prop where
  contains : ∀ t : T, s.contains getIndex (some t) = true ↔ getIndex t ∈ S
  isEmpty : s.isEmpty = true ↔ S = ∅
  size : s.size = S.card

/-- What can be observed of two sets, whatever the calls that have built them. -/
structure Compares (s c : BitSet) (S C : Finset Nat) : Prop where
  containsAll : s.containsAll (some c) = true ↔ C ⊆ S
  equals : s.equals (some c) = true ↔ S = C
  hashCode : S = C → s.hashCode = c.hashCode

theorem IsSet.observes (h : IsSet s S) : Observes getIndex s S :=
  ⟨fun t => (contains_iff getIndex s t).trans (h.mem_iff _), h.isEmpty_iff, h.size_eq⟩

theorem IsSet.compares {c : BitSet} {C : Finset Nat} (h : IsSet s S) (hc : IsSet c C) :
    Compares s c S C := by
  refine ⟨h.containsAll_iff hc, (equals_iff s c).trans (h.eq_iff hc), ?_⟩
  intro heq
  rw [(h.eq_iff hc).mpr heq]

/-- The bit sets of a program are sets as long as all its calls keep a member in their
last word: the members are those of the finite sets, a call returns whether these change,
and nothing else can be observed. -/
theorem runCalls_are_sets (calls : List (Call T)) (hkeep : KeepLast getIndex [] calls) :
    List.Forall₂ (Observes getIndex) (runCalls getIndex calls) (finsetsAfter getIndex calls) ∧
      (∀ call b, (Call.run getIndex (runCalls getIndex calls) call).2 = some b →
        (b = true ↔ call.onFinsets getIndex (finsetsAfter getIndex calls) ≠
          finsetsAfter getIndex calls)) ∧
      ∀ calls', KeepLast getIndex [] calls' → ∀ (i j : Nat) s c S C,
        (runCalls getIndex calls)[i]? = some s → (finsetsAfter getIndex calls)[i]? = some S →
        (runCalls getIndex calls')[j]? = some c → (finsetsAfter getIndex calls')[j]? = some C →
        Compares s c S C := by
  have h := runCalls_isSet getIndex calls hkeep
  refine ⟨h.imp fun s S hsS => hsS.observes getIndex, fun call b hb =>
    run_modified getIndex h call hb,
    ?_⟩
  intro calls' hkeep' i j s c S C hs hS hc hC
  have h' := runCalls_isSet getIndex calls' hkeep'
  have hsS := IsSet.of_getElem? h hs hS
  have hcC := IsSet.of_getElem? h' hc hC
  exact hsS.compares hcC

end Run

/-- Members in two words; the second word keeps one of its two members. -/
def keepsSecondWord : List (Call Nat) :=
  [.new, .add 0 (some 0), .add 0 (some 64), .add 0 (some 70), .remove 0 (some 64), .new,
    .add 1 (some 0), .add 1 (some 70), .add 1 (some 71), .retainAll 0 1]

theorem runCalls_are_sets_keepsSecondWord :
    List.Forall₂ (Observes id) (runCalls id keepsSecondWord) [{0, 70}, {0, 70, 71}] :=
  (runCalls_are_sets id keepsSecondWord (by decide)).1

def losesSecondWord : List (Call Nat) :=
  [.new, .add 0 (some 0), .add 0 (some 64), .new, .add 1 (some 0), .new, .addAll 2 0,
    .remove 2 (some 64), .removeAll 0 1]

theorem losesSecondWord_not_sets : ∃ s c d,
    runCalls id losesSecondWord = [s, c, d] ∧
      finsetsAfter id losesSecondWord = [{64}, {0}, {0}] ∧
      s.contains id (some 64) = false ∧ d.equals (some c) = false ∧ d.hashCode ≠ c.hashCode ∧
      c.containsAll (some d) = false := by
  refine ⟨_, _, _, rfl, ?_⟩
  decide

end BitSet

end OpenJfx.Css
