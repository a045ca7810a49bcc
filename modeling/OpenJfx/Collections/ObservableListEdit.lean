import OpenJfx.Collections.ListChangeBuilderReplay

namespace OpenJfx.Collections.ObservableListEdit

open Java.Arrays Collections.ListChange Collections.ListChangeBuilder
open Collections.ListChangeBuilderReplay List

variable {E : Type}

/-- A call on the list. The collections that are passed to `removeAll` and `retainAll` are given
by what they contain. -/
inductive ListEdit (E : Type)
  | add (index : Nat) (element : E)
  | addAll (index : Nat) (elements : List E)
  | remove (index : Nat)
  | removeAll (contains : E → Bool)
  | retainAll (contains : E → Bool)
  | set (index : Nat) (element : E)
  | setAll (elements : List E)
  | clear

def nested (edits : List (Edit E)) : List (Edit E) := .beginChange :: edits ++ [.endChange]

def adds (index : Nat) : List E → List (Edit E)
  | [] => []
  | element :: elements => nested [.add index [element]] ++ adds (index + 1) elements

/-- `remove` from the last element that is to go to the first one. -/
def removes (l : List E) (p : E → Bool) : List (Edit E) :=
  (((List.range l.length).filter fun i => (l[i]?).any p).reverse).flatMap fun i =>
    nested [.remove i]

/-- `nextRemove(0, this)`, which removes the elements one by one. -/
def removesFirst (l : List E) : List (Edit E) := l.map fun _ => .remove 0

namespace ListEdit

def legal (l : List E) : ListEdit E → Bool
  | .add index _ | .addAll index _ => index ≤ l.length
  | .remove index | .set index _ => index < l.length
  | .removeAll _ | .retainAll _ | .setAll _ | .clear => true

/-- What happens between the outermost `beginChange` and `endChange`. -/
def block (l : List E) : ListEdit E → List (Edit E)
  | .add index element => [.add index [element]]
  | .addAll index elements => adds index elements
  | .remove index => [.remove index]
  | .removeAll contains => removes l contains
  | .retainAll contains => removes l fun e => !contains e
  | .set index element => [.set index element]
  | .setAll elements => nested (removesFirst l) ++ nested (adds 0 elements)
  | .clear => removesFirst l

def run (l : List E) (edit : ListEdit E) : Outcome (List E × Option (List (SubChange E))) :=
  if edit.legal l then do
    let (l, b) ← runEdits (edit.block l) l Builder.new.beginChange
    let (_, fired) ← b.endChange
    pure (l, fired)
  else .error .indexOutOfBounds

def added : ListEdit E → List E
  | .add _ element | .set _ element => [element]
  | .addAll _ elements | .setAll elements => elements
  | .remove _ | .removeAll _ | .retainAll _ | .clear => []

def removed (l : List E) : ListEdit E → List E
  | .add _ _ | .addAll _ _ => []
  | .remove index | .set index _ => (l[index]?).toList
  | .removeAll contains => l.filter contains
  | .retainAll contains => l.filter fun e => !contains e
  | .setAll _ | .clear => l

end ListEdit

/-- A builder with add/remove sub-changes only, between `beginChange` and `endChange`. -/
def gathering (lock : Nat) (cs : List (SubChange E)) : Builder E := ⟨lock + 1, cs, [], none⟩

theorem nextRemove_gathering (lock : Nat) (cs : List (SubChange E)) (idx : Int) (x : E) :
    (gathering lock cs).nextRemove idx x =
      removeFromAddRemove idx x cs >>= fun cs' => .ok (gathering lock cs') := rfl

theorem nextAdd_gathering (lock : Nat) (cs : List (SubChange E)) (fromIdx toIdx : Int) :
    (gathering lock cs).nextAdd fromIdx toIdx =
      addToAddRemove fromIdx toIdx cs >>= fun cs' => .ok (gathering lock cs') := rfl

variable {l l' : List E} {b b' : Builder E}

theorem runEdits_append (edits after : List (Edit E)) (h : runEdits edits l b = .ok (l', b')) :
    runEdits (edits ++ after) l b = runEdits after l' b' := by
  induction edits generalizing l b with
  | nil =>
    cases h
    rfl
  | cons e edits ih =>
    rw [runEdits] at h
    rw [cons_append, runEdits]
    cases hreport : e.report l b with
    | error err =>
      rw [hreport] at h
      cases h
    | ok b₁ =>
      rw [hreport] at h
      exact ih h

theorem runEdits_nested {edits : List (Edit E)} {lock : Nat} {cs cs' : List (SubChange E)}
    (h : runEdits edits l (gathering (lock + 1) cs) = .ok (l', gathering (lock + 1) cs')) :
    runEdits (nested edits) l (gathering lock cs) = .ok (l', gathering lock cs') := by
  change runEdits (edits ++ [.endChange]) l (gathering (lock + 1) cs) = _
  rw [runEdits_append _ _ h]
  rfl

theorem runEdits_append_of {edits after : List (Edit E)} {result : Outcome (List E × Builder E)}
    (h : runEdits edits l b = .ok (l', b')) (hafter : runEdits after l' b' = result) :
    runEdits (edits ++ after) l b = result := by
  rw [runEdits_append _ _ h, hafter]

section Removals

open Java.BinarySearch

def OnlyRemove (cs : List (SubChange E)) : Prop :=
  AddRemoves cs ∧ ∀ c ∈ cs, c.fromIdx = c.toIdx

def allRemoved (cs : List (SubChange E)) : List E := cs.flatMap SubChange.getRemoved

variable {cs : List (SubChange E)}

theorem onlyRemove_append {cs' : List (SubChange E)} :
    OnlyRemove (cs ++ cs') ↔ OnlyRemove cs ∧ OnlyRemove cs' := by
  simp only [OnlyRemove, addRemoves_append, forall_mem_append]
  exact and_and_and_comm

variable {c : SubChange E}

theorem onlyRemove_cons :
    OnlyRemove (c :: cs) ↔ OnlyRemove [c] ∧ OnlyRemove cs :=
  @onlyRemove_append E [c] cs

theorem OnlyRemove.shift (h : OnlyRemove cs) (delta : Int) :
    OnlyRemove (cs.map (SubChange.shift delta)) := by
  refine ⟨h.1.shift delta, ?_⟩
  intro c hc
  rcases mem_map.mp hc with ⟨d, hd, rfl⟩
  rw [SubChange.shift_fromIdx, SubChange.shift_toIdx, h.2 d hd]

theorem allRemoved_shift (cs : List (SubChange E)) (delta : Int) :
    allRemoved (cs.map (SubChange.shift delta)) = allRemoved cs := by
  rw [allRemoved, flatMap_map]
  rfl

/-- One more element is gone, wherever the sub-changes say so. -/
structure RemovesOne (x : E) (cs cs' : List (SubChange E)) : Prop where
  onlyRemove : OnlyRemove cs'
  perm : (allRemoved cs').Perm (x :: allRemoved cs)

variable {x : E} {front back : List (SubChange E)}

theorem RemovesOne.replace {d : SubChange E} (h : OnlyRemove (front ++ c :: back))
    (hd : OnlyRemove [d]) (hperm : d.getRemoved.Perm (x :: c.getRemoved)) (delta : Int) :
    RemovesOne x (front ++ c :: back) (front ++ d :: back.map (SubChange.shift delta)) := by
  rcases onlyRemove_append.mp h with ⟨hfront, hcons⟩
  rcases onlyRemove_cons.mp hcons with ⟨-, hback⟩
  constructor
  · exact onlyRemove_append.mpr ⟨hfront, onlyRemove_cons.mpr ⟨hd, hback.shift delta⟩⟩
  · have hmap : allRemoved (back.map (SubChange.shift delta)) = allRemoved back :=
      allRemoved_shift back delta
    simp only [allRemoved, flatMap_append, flatMap_cons] at hmap ⊢
    rw [hmap]
    exact ((hperm.append_right _).append_left _).trans perm_middle

theorem addRemovedLast_onlyRemove (h : OnlyRemove [c]) (x : E) :
    ∃ d, addRemovedLast x c = .ok d ∧ OnlyRemove [d] ∧ d.getRemoved.Perm (x :: c.getRemoved) := by
  rcases h with ⟨haddRemoves, hfrom⟩
  rcases haddRemoves c mem_cons_self with ⟨hrem, hperm, hupdd⟩
  refine ⟨_, addRemovedLast_eq x hrem, ⟨?_, ?_⟩, ?_⟩
  · exact forall_mem_singleton.mpr ⟨nofun, hperm, hupdd⟩
  · exact forall_mem_singleton.mpr (hfrom c mem_cons_self)
  · exact perm_append_singleton x c.getRemoved

theorem addRemovedFirst_onlyRemove (h : OnlyRemove [c]) (x : E) :
    ∃ d, addRemovedFirst x c = .ok d ∧ OnlyRemove [d] ∧ d.getRemoved.Perm (x :: c.getRemoved) := by
  rcases h with ⟨haddRemoves, hfrom⟩
  rcases haddRemoves c mem_cons_self with ⟨hrem, hperm, hupdd⟩
  refine ⟨_, addRemovedFirst_eq x hrem, ⟨?_, ?_⟩, .refl _⟩
  · exact forall_mem_singleton.mpr ⟨nofun, hperm, hupdd⟩
  · exact forall_mem_singleton.mpr (congrArg (· - 1) (hfrom c mem_cons_self))

theorem updateAt_removesOne (h : OnlyRemove (front ++ c :: back))
    {f : SubChange E → Outcome (SubChange E)}
    (hf : ∃ d, f c = .ok d ∧ OnlyRemove [d] ∧ d.getRemoved.Perm (x :: c.getRemoved)) (delta : Int) :
    ∃ cs', (updateAt (front ++ c :: back) front.length f >>= fun cs =>
        .ok (shiftFrom (front.length + 1) delta cs)) = .ok cs' ∧
      RemovesOne x (front ++ c :: back) cs' := by
  rcases hf with ⟨d, hd, honly, hperm⟩
  refine ⟨front ++ d :: back.map (SubChange.shift delta), ?_, .replace h honly hperm delta⟩
  rw [updateAt_append, hd, ok_bind, ok_bind, shiftFrom_append_cons]

theorem onlyRemove_of_mem (h : OnlyRemove cs) (hc : c ∈ cs) : OnlyRemove [c] :=
  ⟨forall_mem_singleton.mpr (h.1 c hc), forall_mem_singleton.mpr (h.2 c hc)⟩

theorem findSubChange_onlyRemove (h : OnlyRemove cs) (idx : Int) :
    ∃ front back, cs = front ++ back ∧ findSubChange idx cs = .insertAt front.length := by
  have hrange := binarySearch_inRange (side idx cs) cs.length
  rw [findSubChange]
  cases hres : binarySearch (side idx cs) cs.length with
  | found i =>
    rw [hres] at hrange
    rcases hrange with ⟨hi, heq⟩
    rcases (side_eq_eq_iff hi).mp heq with ⟨hfrom, hto⟩
    have hemp := h.2 cs[i] (getElem_mem hi)
    omega
  | insertAt i =>
    rw [hres] at hrange
    refine ⟨cs.take i, cs.drop i, (take_append_drop i cs).symm, ?_⟩
    rw [length_take, Nat.min_eq_left hrange]

theorem insertRemoved_onlyRemove (h : OnlyRemove cs) (idx : Int) (x : E) :
    ∃ cs', insertRemoved idx x cs = .ok cs' ∧ RemovesOne x cs cs' := by
  rcases findSubChange_onlyRemove h idx with ⟨front, back, rfl, hfind⟩
  rw [insertRemoved, hfind]
  dsimp only
  split
  · next hprev =>
      rcases (previousEndsAt_append front back idx).mp hprev with ⟨front', c, rfl, -⟩
      rw [append_assoc] at h ⊢
      rw [length_append]
      exact updateAt_removesOne h (addRemovedLast_onlyRemove
        (onlyRemove_of_mem h (mem_append_right _ mem_cons_self)) x) (-1)
  · split
    · next hnext =>
        rcases (nextStartsAt_append front back (idx + 1)).mp hnext with ⟨c, back', rfl, -⟩
        exact updateAt_removesOne h (addRemovedFirst_onlyRemove
          (onlyRemove_of_mem h (mem_append_right _ mem_cons_self)) x) (-1)
    · refine ⟨_, rfl, ?_⟩
      rw [insertIdx_append, shiftFrom_append_cons]
      rcases onlyRemove_append.mp h with ⟨hfront, hback⟩
      constructor
      · refine onlyRemove_append.mpr ⟨hfront, onlyRemove_cons.mpr ⟨⟨?_, ?_⟩, hback.shift (-1)⟩⟩
        · exact forall_mem_singleton.mpr ⟨Option.some_ne_none _, rfl, rfl⟩
        · exact forall_mem_singleton.mpr rfl
      · have hmap := allRemoved_shift back (-1)
        simp only [allRemoved, flatMap_append, flatMap_cons] at hmap ⊢
        rw [hmap]
        exact perm_middle

theorem removeFromAddRemove_onlyRemove (h : OnlyRemove cs) (idx : Int) (x : E) :
    ∃ cs', removeFromAddRemove idx x cs = .ok cs' ∧ RemovesOne x cs cs' := by
  rcases eq_nil_or_concat' cs with rfl | ⟨front, last, rfl⟩
  · exact insertRemoved_onlyRemove h idx x
  · have hlast : OnlyRemove [last] :=
      onlyRemove_of_mem h (mem_append_right _ (mem_singleton_self last))
    have hupd : ∀ f, (∃ d, f last = .ok d ∧ OnlyRemove [d] ∧
        d.getRemoved.Perm (x :: last.getRemoved)) →
        ∃ cs', updateAt (front ++ [last]) ((front ++ [last]).length - 1) f = .ok cs' ∧
          RemovesOne x (front ++ [last]) cs' := by
      rintro f ⟨d, hd, honly, hperm⟩
      refine ⟨front ++ [d], ?_, RemovesOne.replace h honly hperm 0⟩
      rw [length_append, length_singleton, Nat.add_sub_cancel, updateAt_append, hd,
        ok_bind]
    rw [removeFromAddRemove, getLast?_concat]
    dsimp only
    split
    · exact hupd _ (addRemovedLast_onlyRemove hlast x)
    · split
      · exact hupd _ (addRemovedFirst_onlyRemove hlast x)
      · exact insertRemoved_onlyRemove h idx x

theorem compressFrom_onlyRemove (prev : SubChange E) (rest : List (SubChange E))
    (h : OnlyRemove (prev :: rest)) :
    ∃ cs, compressFrom prev rest = .ok cs ∧ OnlyRemove cs ∧
      allRemoved cs = allRemoved (prev :: rest) := by
  induction rest generalizing prev with
  | nil => exact ⟨[prev], rfl, h, rfl⟩
  | cons cur rest ih =>
    rcases onlyRemove_cons.mp h with ⟨hprev, hcons⟩
    rcases onlyRemove_cons.mp hcons with ⟨hcur, hrest⟩
    rcases hprev.1 prev mem_cons_self with ⟨hrem, hperm, hupdd⟩
    rcases hcur.1 cur mem_cons_self with ⟨hrem', -, -⟩
    have hfrom := hprev.2 prev mem_cons_self
    have hfrom' := hcur.2 cur mem_cons_self
    rw [compressFrom]
    split
    · next hmeet =>
        cases hr : prev.removed with
        | none => exact absurd hr hrem
        | some removed =>
          cases hr' : cur.removed with
          | none => exact absurd hr' hrem'
          | some list =>
            have hmerged : OnlyRemove
                [{ prev with toIdx := cur.toIdx, removed := some (removed ++ list) }] := by
              refine ⟨forall_mem_singleton.mpr ⟨Option.some_ne_none _, hperm, hupdd⟩,
                forall_mem_singleton.mpr ?_⟩
              exact hfrom.trans (hmeet.trans hfrom')
            rcases ih _ (onlyRemove_cons.mpr ⟨hmerged, hrest⟩) with ⟨cs, hcs, honly, hall⟩
            refine ⟨cs, hcs, honly, hall.trans ?_⟩
            simp [allRemoved, SubChange.getRemoved, hr, hr']
    · rcases ih cur hcons with ⟨cs, hcs, honly, hall⟩
      refine ⟨prev :: cs, ?_, onlyRemove_cons.mpr ⟨hprev, honly⟩, ?_⟩
      · rw [hcs]
        rfl
      · rw [allRemoved, flatMap_cons, ← allRemoved, hall]
        rfl

theorem finalize_onlyRemove (h : OnlyRemove cs) :
    OnlyRemove (cs.map Builder.finalizeSubChange) ∧
      allRemoved (cs.map Builder.finalizeSubChange) = allRemoved cs := by
  refine ⟨⟨?_, ?_⟩, ?_⟩
  · intro c hc
    rcases mem_map.mp hc with ⟨d, hd, rfl⟩
    exact ⟨nofun, (h.1 d hd).2⟩
  · intro c hc
    rcases mem_map.mp hc with ⟨d, hd, rfl⟩
    exact h.2 d hd
  · rw [allRemoved, flatMap_map]
    rfl

theorem endChange_onlyRemove (h : OnlyRemove cs) (hne : cs ≠ []) :
    ∃ b fired, (gathering 0 cs).endChange = .ok (b, some fired) ∧ OnlyRemove fired ∧
      allRemoved fired = allRemoved cs := by
  rcases cs with _ | ⟨c, _ | ⟨c', rest⟩⟩
  · exact absurd rfl hne
  · rcases finalize_onlyRemove h with ⟨honly, hall⟩
    exact ⟨Builder.new, _, rfl, honly, hall⟩
  · rcases compressFrom_onlyRemove c (c' :: rest) h with ⟨compressed, hcompress, honly, hall⟩
    rcases finalize_onlyRemove honly with ⟨honly', hall'⟩
    refine ⟨Builder.new, compressed.map Builder.finalizeSubChange, ?_, honly', hall'.trans hall⟩
    change (compressFrom c (c' :: rest) >>= fun addRemoves =>
      .ok (Builder.new, some (([] ++ addRemoves ++ []).map Builder.finalizeSubChange))) = _
    rw [hcompress, ok_bind, nil_append, append_nil]

theorem runEdits_remove {l : List E} {i : Nat} (hx : l[i]? = some x) (lock : Nat)
    (h : OnlyRemove cs) :
    ∃ cs', runEdits [.remove i] l (gathering lock cs) = .ok (l.eraseIdx i, gathering lock cs') ∧
      RemovesOne x cs cs' := by
  rcases removeFromAddRemove_onlyRemove h i x with ⟨cs', hcs', hone⟩
  refine ⟨cs', ?_, hone⟩
  rw [runEdits, Edit.report, load_eq_ok hx, ok_bind, nextRemove_gathering, hcs']
  rfl

theorem runEdits_removes (p : E → Bool) (l back : List E) (lock : Nat) (h : OnlyRemove cs) :
    ∃ cs', runEdits (removes l p) (l ++ back) (gathering lock cs) =
        .ok (l.filter (fun e => !p e) ++ back, gathering lock cs') ∧
      OnlyRemove cs' ∧ (allRemoved cs').Perm (l.filter p ++ allRemoved cs) := by
  induction l using List.reverseRecOn generalizing back cs with
  | nil => exact ⟨cs, rfl, h, .refl _⟩
  | append_singleton l x ih =>
    have hremoves : removes (l ++ [x]) p =
        (if p x then nested [.remove l.length] else []) ++ removes l p := by
      have hfront : (List.range l.length).filter (fun i => ((l ++ [x])[i]?).any p) =
          (List.range l.length).filter fun i => (l[i]?).any p := by
        refine filter_congr ?_
        intro i hi
        rw [getElem?_append_left (mem_range.mp hi)]
      rw [removes, length_append, length_singleton, range_succ,
        filter_append, hfront, reverse_append, flatMap_append, ← removes]
      congr 1
      cases hp : p x <;> simp [hp]
    rw [hremoves, append_assoc]
    cases hp : p x with
    | false =>
      rcases ih ([x] ++ back) h with ⟨cs', hrun, honly, hperm⟩
      refine ⟨cs', ?_, honly, ?_⟩
      · rw [if_neg Bool.false_ne_true, nil_append, hrun]
        simp [hp]
      · rw [filter_append, filter_singleton, hp]
        simpa using hperm
    | true =>
      have hx : (l ++ ([x] ++ back))[l.length]? = some x := by simp
      rcases runEdits_remove hx (lock + 1) h with ⟨cs₁, hremove, honly₁, hperm₁⟩
      have herase : (l ++ ([x] ++ back)).eraseIdx l.length = l ++ back := by
        rw [eraseIdx_append_of_length_le (Nat.le_refl _)]
        simp
      rw [herase] at hremove
      rcases ih back honly₁ with ⟨cs', hrun, honly, hperm⟩
      refine ⟨cs', ?_, honly, ?_⟩
      · rw [if_pos rfl, runEdits_append _ _ (runEdits_nested hremove), hrun]
        simp [hp]
      · rw [filter_append, filter_singleton, hp, cond_true, append_assoc]
        exact hperm.trans (hperm₁.append_left _)

end Removals

section Replacements

def replacement (index : Nat) (removed added : List E) : SubChange E :=
  ⟨index, index + added.length, some removed, [], false⟩

theorem removeFromAddRemove_nil (idx : Int) (x : E) :
    removeFromAddRemove idx x [] = .ok [⟨idx, idx, some [x], [], false⟩] := rfl

theorem removeFromAddRemove_replacement (index : Nat) (removed : List E) (x : E) :
    removeFromAddRemove index x [replacement index removed []] =
      .ok [replacement index (removed ++ [x]) []] := by
  simp [removeFromAddRemove, replacement, updateAt, addRemovedLast]

theorem addToAddRemove_replacement (index : Nat) (removed added : List E) (x : E) :
    addToAddRemove (index + added.length : Nat) (index + added.length + 1 : Nat)
        [replacement index removed added] = .ok [replacement index removed (added ++ [x])] := by
  simp [addToAddRemove, replacement, updateAt, Int.add_assoc]

theorem runEdits_removesFirst (l removed : List E) (lock : Nat) :
    runEdits (removesFirst l) l (gathering lock [replacement 0 removed []]) =
      .ok ([], gathering lock [replacement 0 (removed ++ l) []]) := by
  induction l generalizing removed with
  | nil =>
    rw [append_nil]
    rfl
  | cons x l ih =>
    have hload : load (x :: l) ((0 : Nat) : Int) = .ok x := load_eq_ok rfl
    rw [removesFirst, map_cons, runEdits, Edit.report, hload, ok_bind, nextRemove_gathering,
      removeFromAddRemove_replacement, append_cons removed x l]
    exact ih (removed ++ [x])

theorem runEdits_removesFirst_nil (x : E) (l : List E) (lock : Nat) :
    runEdits (removesFirst (x :: l)) (x :: l) (gathering lock []) =
      .ok ([], gathering lock [replacement 0 (x :: l) []]) := by
  exact runEdits_removesFirst l [x] lock

theorem runEdits_adds (elements front added removed back : List E) (lock : Nat) :
    runEdits (adds (front.length + added.length) elements) (front ++ added ++ back)
        (gathering lock [replacement front.length removed added]) =
      .ok (front ++ (added ++ elements) ++ back,
        gathering lock [replacement front.length removed (added ++ elements)]) := by
  induction elements generalizing added with
  | nil =>
    rw [append_nil]
    rfl
  | cons x elements ih =>
    have hadd : runEdits [.add (front.length + added.length) [x]] (front ++ added ++ back)
        (gathering (lock + 1) [replacement front.length removed added]) =
        .ok (front ++ (added ++ [x]) ++ back,
          gathering (lock + 1) [replacement front.length removed (added ++ [x])]) := by
      have happly : (Edit.add (front.length + added.length) [x]).apply (front ++ added ++ back) =
          front ++ (added ++ [x]) ++ back := by
        rw [Edit.apply, ← length_append, take_left]
        simp
      have hreport : Edit.report (front ++ added ++ back)
          (gathering (lock + 1) [replacement front.length removed added])
          (.add (front.length + added.length) [x]) =
          .ok (gathering (lock + 1) [replacement front.length removed (added ++ [x])]) := by
        change Builder.nextAdd _ _ _ = _
        rw [nextAdd_gathering]
        have hto := addToAddRemove_replacement front.length removed added x
        push_cast at hto ⊢
        rw [length_singleton]
        push_cast
        rw [hto]
        rfl
      rw [runEdits, hreport, happly]
      rfl
    rw [adds, runEdits_append _ _ (runEdits_nested hadd), append_cons added x elements]
    have hih := ih (added ++ [x])
    rw [length_append] at hih
    exact hih

theorem runEdits_adds_nil (x : E) (elements front back : List E) (lock : Nat) :
    runEdits (adds front.length (x :: elements)) (front ++ back) (gathering lock []) =
      .ok (front ++ (x :: elements) ++ back,
        gathering lock [replacement front.length [] (x :: elements)]) := by
  have hadd : runEdits [.add front.length [x]] (front ++ back) (gathering (lock + 1) []) =
      .ok (front ++ [x] ++ back, gathering (lock + 1) [replacement front.length [] [x]]) := by
    have happly : (Edit.add front.length [x]).apply (front ++ back) = front ++ [x] ++ back := by
      rw [Edit.apply, take_left, drop_left]
    rw [runEdits, happly]
    rfl
  rw [adds, runEdits_append _ _ (runEdits_nested hadd)]
  exact runEdits_adds elements front [x] [] back lock

theorem runEdits_set {l : List E} {index : Nat} (hlt : index < l.length) (element : E)
    (lock : Nat) :
    runEdits [.set index element] l (gathering lock []) =
      .ok (l.take index ++ [element] ++ l.drop (index + 1),
        gathering lock [replacement index [l[index]] [element]]) := by
  have hrem : ([⟨index, index, some [l[index]], [], false⟩] : List (SubChange E)) =
      [replacement index [l[index]] []] := by
    simp [replacement]
  have hadd := addToAddRemove_replacement index [l[index]] [] element
  rw [length_nil, Nat.add_zero, Int.natCast_succ] at hadd
  rw [runEdits, Edit.report, load_natCast l index hlt, ok_bind, Builder.nextSet,
    nextRemove_gathering, removeFromAddRemove_nil, ok_bind, ok_bind, nextAdd_gathering, hrem,
    hadd, ok_bind, ok_bind, Edit.apply, set_eq_take_append_cons_drop, if_pos hlt,
    append_cons]
  rfl

end Replacements

namespace ListEdit

def Replaces (l l' : List E) (edit : ListEdit E) (fired : Option (List (SubChange E))) : Prop :=
  ∃ front back, l = front ++ edit.removed l ++ back ∧ l' = front ++ edit.added ++ back ∧
    fired = some [replacement front.length (edit.removed l) edit.added]

/-- Any other call fires only removals, if there are any. -/
def Removes (l l' : List E) (edit : ListEdit E) (fired : Option (List (SubChange E))) : Prop :=
  l.Perm (l' ++ edit.removed l) ∧
    (edit.removed l = [] ∧ fired = none ∨
      ∃ cs, fired = some cs ∧ OnlyRemove cs ∧ (allRemoved cs).Perm (edit.removed l))

def Fires (l l' : List E) (edit : ListEdit E) (fired : Option (List (SubChange E))) : Prop :=
  if edit.added = [] then edit.Removes l l' fired else edit.Replaces l l' fired

variable {l : List E} {edit : ListEdit E}

theorem run_replacement (hlegal : edit.legal l = true) (front back : List E)
    (hl : l = front ++ edit.removed l ++ back) (hne : edit.added ≠ [])
    (h : runEdits (edit.block l) l (gathering 0 []) =
      .ok (front ++ edit.added ++ back,
        gathering 0 [replacement front.length (edit.removed l) edit.added])) :
    ∃ l' fired, edit.run l = .ok (l', fired) ∧ edit.Fires l l' fired := by
  refine ⟨front ++ edit.added ++ back,
    some [replacement front.length (edit.removed l) edit.added], ?_, ?_⟩
  · change (if edit.legal l = true then runEdits (edit.block l) l (gathering 0 []) >>= _ else _) = _
    rw [if_pos hlegal, h]
    rfl
  · rw [Fires, if_neg hne]
    exact ⟨front, back, hl, rfl, rfl⟩

theorem run_onlyRemove {l' : List E} (hlegal : edit.legal l = true) {cs : List (SubChange E)}
    (hadded : edit.added = [])
    (h : runEdits (edit.block l) l (gathering 0 []) = .ok (l', gathering 0 cs))
    (hl : l.Perm (l' ++ edit.removed l)) (honly : OnlyRemove cs)
    (hperm : (allRemoved cs).Perm (edit.removed l)) :
    ∃ l' fired, edit.run l = .ok (l', fired) ∧ edit.Fires l l' fired := by
  have hrun : ∀ b fired, (gathering 0 cs).endChange = .ok (b, fired) →
      edit.run l = .ok (l', fired) := by
    intro b fired hend
    change (if edit.legal l = true then runEdits (edit.block l) l (gathering 0 []) >>= _ else _) = _
    rw [if_pos hlegal, h, ok_bind]
    dsimp only
    rw [hend]
    rfl
  by_cases hnil : cs = []
  · subst hnil
    refine ⟨l', none, hrun ⟨0, [], [], none⟩ none rfl, ?_⟩
    rw [Fires, if_pos hadded]
    exact ⟨hl, .inl ⟨hperm.nil_eq.symm, rfl⟩⟩
  · rcases endChange_onlyRemove honly hnil with ⟨b, fired, hend, honly', hall⟩
    refine ⟨l', some fired, hrun b _ hend, ?_⟩
    rw [Fires, if_pos hadded]
    exact ⟨hl, .inr ⟨fired, rfl, honly', hall ▸ hperm⟩⟩

theorem onlyRemove_nil : OnlyRemove ([] : List (SubChange E)) := ⟨nofun, nofun⟩

theorem onlyRemove_replacement (index : Nat) (removed : List E) :
    OnlyRemove [replacement index removed []] := by
  refine ⟨forall_mem_singleton.mpr ⟨nofun, rfl, rfl⟩, forall_mem_singleton.mpr ?_⟩
  simp [replacement]

theorem run_removes (p : E → Bool) (hlegal : edit.legal l = true) (hadded : edit.added = [])
    (hblock : edit.block l = removes l p) (hrem : edit.removed l = l.filter p) :
    ∃ l' fired, edit.run l = .ok (l', fired) ∧ edit.Fires l l' fired := by
  rcases runEdits_removes p l [] 0 onlyRemove_nil with ⟨cs, hrun, honly, hperm⟩
  rw [append_nil, append_nil, ← hblock] at hrun
  refine run_onlyRemove hlegal hadded hrun ?_ honly ?_
  · rw [hrem]
    exact (filter_append_perm p l).symm.trans perm_append_comm
  · rw [hrem]
    exact hperm.trans (by rw [show allRemoved ([] : List (SubChange E)) = [] from rfl,
      append_nil])

theorem run_fires (hlegal : edit.legal l = true) :
    ∃ l' fired, edit.run l = .ok (l', fired) ∧ edit.Fires l l' fired := by
  cases edit with
  | add index element =>
    have hle : index ≤ l.length := of_decide_eq_true hlegal
    have hlen : (l.take index).length = index := by simp [hle]
    refine run_replacement hlegal (l.take index) (l.drop index) ?_ nofun ?_
    · simp [removed]
    · rw [hlen]
      rfl
  | addAll index elements =>
    have hle : index ≤ l.length := of_decide_eq_true hlegal
    have hlen : (l.take index).length = index := by simp [hle]
    rcases elements with _ | ⟨x, elements⟩
    · exact run_onlyRemove hlegal rfl rfl (by simp [removed]) onlyRemove_nil .nil
    · refine run_replacement hlegal (l.take index) (l.drop index) ?_ nofun ?_
      · simp [removed]
      · have hrun := runEdits_adds_nil x elements (l.take index) (l.drop index) 0
        rw [take_append_drop, hlen] at hrun
        rw [hlen]
        exact hrun
  | remove index =>
    have hlt : index < l.length := of_decide_eq_true hlegal
    have hx : l[index]? = some l[index] := getElem?_eq_getElem hlt
    have hrem : (ListEdit.remove index).removed l = [l[index]] := by
      rw [removed, hx, Option.toList_some]
    rcases runEdits_remove hx 0 onlyRemove_nil with ⟨cs, hrun, honly, hperm⟩
    refine run_onlyRemove hlegal rfl hrun ?_ honly (hrem ▸ hperm)
    rw [hrem]
    exact (getElem_cons_eraseIdx_perm hlt).symm.trans
      (perm_append_singleton _ _).symm
  | removeAll contains => exact run_removes contains hlegal rfl rfl rfl
  | retainAll contains => exact run_removes (fun e => !contains e) hlegal rfl rfl rfl
  | set index element =>
    have hlt : index < l.length := of_decide_eq_true hlegal
    have hlen : (l.take index).length = index := by simp [Nat.le_of_lt hlt]
    have hrem : (ListEdit.set index element).removed l = [l[index]] := by
      rw [removed, getElem?_eq_getElem hlt, Option.toList_some]
    refine run_replacement hlegal (l.take index) (l.drop (index + 1)) ?_ nofun ?_
    · rw [hrem, append_assoc, singleton_append, ← drop_eq_getElem_cons hlt,
        take_append_drop]
    · rw [hrem, hlen]
      exact runEdits_set hlt element 0
  | setAll elements =>
    rcases l with _ | ⟨x, l⟩
    · rcases elements with _ | ⟨y, elements⟩
      · exact run_onlyRemove hlegal rfl rfl .nil onlyRemove_nil .nil
      · refine run_replacement hlegal [] [] rfl nofun ?_
        have hemp : runEdits (nested (removesFirst ([] : List E))) [] (gathering 0 []) =
          .ok ([], gathering 0 []) := rfl
        exact runEdits_append_of hemp
          (runEdits_nested (runEdits_adds_nil y elements [] [] 1))
    · have hclear := runEdits_nested (runEdits_removesFirst_nil x l 1)
      rcases elements with _ | ⟨y, elements⟩
      · refine run_onlyRemove hlegal rfl (runEdits_append_of hclear rfl) (.refl _)
          (onlyRemove_replacement 0 (x :: l)) ?_
        exact .of_eq (append_nil _)
      · refine run_replacement hlegal [] [] (append_nil _).symm nofun ?_
        exact runEdits_append_of hclear
          (runEdits_nested (runEdits_adds (y :: elements) [] [] (x :: l) [] 1))
  | clear =>
    rcases l with _ | ⟨x, l⟩
    · exact run_onlyRemove hlegal rfl rfl .nil onlyRemove_nil .nil
    · exact run_onlyRemove hlegal rfl (runEdits_removesFirst_nil x l 0) (.refl _)
        (onlyRemove_replacement 0 (x :: l)) (.of_eq (append_nil _))

end ListEdit

end OpenJfx.Collections.ObservableListEdit
