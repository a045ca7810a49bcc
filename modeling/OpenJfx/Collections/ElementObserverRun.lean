import OpenJfx.Collections.ElementObserver

namespace OpenJfx.Collections.ObservableListWrapper

open Java.Actions Java.Arrays Collections.ListChange Collections.ListChangeBuilder
open Collections.ListChangeBuilder.UpdateTracking List

variable {E O : Type} [DecidableEq E] [DecidableEq O] {extractor : E → List O}
  {list list' : ObservableListWrapper E O} {l l' : List (Option E)}

def taken (l : List (Option E)) : Operation E → List (Option E)
  | .add _ _ => []
  | .set index _ | .remove index => if 0 ≤ index then (l[index.toNat]?).toList else []
  | .removeObject equals => ((l.findIdx? equals).bind fun i => l[i]?).toList
  | .removeRange fromIndex toIndex =>
    (l.drop fromIndex.toNat).take (toIndex.toNat - fromIndex.toNat)
  | .removeAll contains => l.filter contains
  | .retainAll contains => l.filter fun e => !contains e
  | .clear => l

def accepted (l : List (Option E)) : Operation E → Prop
  | .add index element => element = none ∨ 0 ≤ index ∧ index ≤ l.length
  | .removeRange fromIndex toIndex => toIndex ≤ fromIndex ∨ 0 ≤ fromIndex ∧ toIndex ≤ l.length
  | _ => True

def TakesWhole (extractor : E → List O) (l : List (Option E)) (op : Operation E) : Prop :=
  ∀ e, some e ∈ taken l op → extractor e ≠ [] → (taken l op).count (some e) = l.count (some e)

def step (extractor : E → List O) (list : ObservableListWrapper E O) (op : Operation E) :
    ObservableListWrapper E O :=
  stateAfter ((perform extractor op).run list)

def run (extractor : E → List O) (list : ObservableListWrapper E O) (ops : List (Operation E)) :
    ObservableListWrapper E O :=
  ops.foldl (step extractor) list

/-- Every operation of a run meets the conditions in the state before it. -/
def Meets (extractor : E → List O) : ObservableListWrapper E O → List (Operation E) → Prop
  | _, [] => True
  | list, op :: ops =>
    accepted list.backingList op ∧ TakesWhole extractor list.backingList op ∧
      Meets extractor (step extractor list op) ops

def CoversPositions (l : List (Option E)) (e : E) (cs : List (SubChange (Option E))) : Prop :=
  ∀ k, Covers (firedUpdates (some cs)) k ↔ ∃ i : Nat, k = i ∧ l[i]? = some (some e)

structure Observes (extractor : E → List O) (list : ObservableListWrapper E O) : Prop where
  registered : ∀ e, some e ∈ list.backingList → ∀ o ∈ extractor e,
    ∃ listener ∈ list.listeners o, listener.element = e
  occurs : ∀ o, ∀ listener ∈ list.listeners o,
    some listener.element ∈ list.backingList ∧ o ∈ extractor listener.element
  unique : ∀ o o', ∀ listener ∈ list.listeners o, ∀ listener' ∈ list.listeners o',
    listener.element = listener'.element → listener = listener'
  updates : ∀ o, ∀ listener ∈ list.listeners o,
    ∃ cs, list.invalidated listener = .ok (some cs) ∧
      CoversPositions list.backingList listener.element cs

abbrev Sound (extractor : E → List O) (list : ObservableListWrapper E O) : Prop :=
  Stands extractor [] list.backingList 0 list

theorem Stands.sound (h : Stands extractor [] l 0 list) : Sound extractor list := by
  rw [← h.backingList] at h
  exact h

section Steps

theorem doAdd_sound (h : Sound extractor list) {index : Int} {element : Option E}
    (haccepted : accepted list.backingList (.add index element)) :
    Sound extractor (stateAfter ((doAdd extractor index element).run list)) := by
  obtain ⟨hinv, hbacking, hlock⟩ := inv_attached h.inv element
  rw [doAdd, bind_ok (attachListener_run element), bind_ok get_run, hbacking]
  by_cases hlegal : 0 ≤ index ∧ index ≤ list.backingList.length
  · obtain ⟨i, rfl⟩ := Int.eq_ofNat_of_zero_le hlegal.1
    have hi : i ≤ list.backingList.length := by omega
    have hperm : (list.backingList.insertIdx i element).Perm (element :: list.backingList) :=
      perm_insertIdx element list.backingList hi
    rw [bind_ok (checkIndex_ok (Nat.lt_succ_of_le hi))]
    refine ⟨?_, rfl, hlock.trans h.changeLock⟩
    rw [← occurrences_perm hperm] at hinv
    exact hinv.congr rfl rfl
  · obtain rfl := haccepted.resolve_right hlegal
    rw [bind_error (checkIndex_error (by omega))]
    refine Stands.sound (l := list.backingList) ⟨hinv, hbacking, hlock.trans h.changeLock⟩

theorem doSet_sound (h : Sound extractor list) {index : Int} {element : Option E}
    (htakes : TakesWhole extractor list.backingList (.set index element)) :
    Sound extractor (stateAfter ((doSet extractor index element).run list)) := by
  rw [doSet, bind_ok get_run]
  by_cases hlegal : 0 ≤ index ∧ index < list.backingList.length
  · obtain ⟨i, rfl⟩ := Int.eq_ofNat_of_zero_le hlegal.1
    have hi : i < list.backingList.length := by omega
    have hget : list.backingList[i]? = some list.backingList[i] := getElem?_eq_getElem hi
    have hperm := getElem_cons_eraseIdx_perm hi
    have hperm' := set_perm_cons_eraseIdx hi element
    have hinv := h.inv
    rw [← occurrences_perm hperm] at hinv
    have hset : Inv extractor [] (occurrences (list.backingList[i] :: list.backingList.eraseIdx i))
        { list with backingList := list.backingList.set i element } := hinv.congr rfl rfl
    obtain ⟨detached, hdetach, hinv₁, hbacking₁, hlock₁⟩ := detachListener_spec hset
    have htaken : taken list.backingList (.set (i : Int) element) = [list.backingList[i]] := by
      rw [taken, Int.toNat_natCast, hget]
      rfl
    have hsettled := hinv₁.settle fun e he => by
      by_cases hnil : extractor e = []
      · exact .inr hnil
      · have hwhole := htakes e (by rw [htaken]; exact he) hnil
        have hx := mem_singleton.mp he
        rw [htaken, ← hperm.count_eq, hx, count_cons_self, count_cons_self] at hwhole
        rw [occurrences, hx]
        exact .inl (Nat.succ.inj hwhole).symm
    obtain ⟨hinv', hbacking', hlock'⟩ := inv_attached hsettled element
    rw [bind_ok (checkIndex_ok hi), bind_ok (setBackingList_run _), hget, Option.join_some, bind_ok
      hdetach]
    rw [← occurrences_perm hperm'] at hinv'
    exact Stands.sound ⟨hinv', hbacking'.trans hbacking₁,
      (hlock'.trans hlock₁).trans h.changeLock⟩
  · rw [bind_error (checkIndex_error hlegal)]
    exact h

theorem takes_remove (h : Sound extractor list) {i : Nat} (hi : i < list.backingList.length) :
    ∃ list', (doRemove extractor (i : Int)).run list = .ok () list' ∧
      Takes extractor (list.backingList[i]?).toList list.backingList
        (list.backingList.eraseIdx i) 0 list' := by
  have hget : list.backingList[i]? = some list.backingList[i] := getElem?_eq_getElem hi
  obtain ⟨list', hrun, hstands⟩ := doRemove_spec h hget
  rw [hget]
  exact ⟨list', hrun, (getElem_cons_eraseIdx_perm hi).symm, hstands⟩

theorem takes_removeRange (h : Sound extractor list) {fromIndex toIndex : Int}
    (hfrom : 0 ≤ fromIndex) (hto : toIndex ≤ list.backingList.length) (hlt : fromIndex < toIndex) :
    ∃ l' list', (removeRange extractor fromIndex toIndex).run list = .ok () list' ∧
      Takes extractor (taken list.backingList (.removeRange fromIndex toIndex)) list.backingList l'
        0 list' := by
  obtain ⟨from', rfl⟩ := Int.eq_ofNat_of_zero_le hfrom
  obtain ⟨to', rfl⟩ := Int.eq_ofNat_of_zero_le (Int.le_trans hfrom (Int.le_of_lt hlt))
  generalize hfront : list.backingList.take from' = front
  generalize hrem : (list.backingList.drop from').take (to' - from') = removed
  generalize hback : list.backingList.drop to' = back
  have hlen : front.length = from' := by
    rw [← hfront, length_take]
    omega
  have hlen' : removed.length = ((to' : Int) - from').toNat := by
    rw [← hrem, length_take, length_drop]
    omega
  have hsplit : list.backingList = front ++ removed ++ back := by
    have hdrop : (list.backingList.drop from').drop (to' - from') = list.backingList.drop to' := by
      rw [drop_drop, Nat.add_sub_cancel' (by omega)]
    rw [← hfront, ← hrem, ← hback, ← hdrop, append_assoc, take_append_drop,
      take_append_drop]
  have hbegun : Stands extractor [] (front ++ removed ++ back) 1
      { list with changeLock := list.changeLock + 1 } :=
    ⟨by rw [← hsplit]; exact h.inv.congr rfl rfl, hsplit, congrArg (· + 1) h.changeLock⟩
  obtain ⟨list', hrun, hstands⟩ := removeLoop_spec front removed back [] _ hbegun
  rw [hlen, hlen'] at hrun
  have hbegin : (beginChange : ListM E O Unit).run list =
      .ok () { list with changeLock := list.changeLock + 1 } := rfl
  refine ⟨front ++ back, { list' with changeLock := list'.changeLock - 1 }, ?_, ?_, ?_⟩
  · rw [removeRange, bind_ok hbegin, bind_ok hrun]
    rfl
  · have htaken : taken list.backingList (.removeRange (from' : Int) (to' : Int)) = removed :=
      hrem
    rw [htaken, hsplit, append_assoc]
    exact (perm_append_comm_assoc front removed back)
  · have htaken : taken list.backingList (.removeRange (from' : Int) (to' : Int)) = removed :=
      hrem
    have hinv : Inv extractor removed (occurrences (front ++ back)) list' :=
      hstands.inv.congr_gone fun e => by rw [append_nil, mem_reverse]
    rw [htaken]
    exact ⟨hinv.congr rfl rfl, hstands.backingList, congrArg (· - 1) hstands.changeLock⟩

theorem takes_removeIf (h : Sound extractor list) (p : Option E → Bool) :
    ∃ list', (removeIf extractor p).run list = .ok () list' ∧
      Takes extractor (list.backingList.filter p) list.backingList
        (list.backingList.filter fun x => !p x) 0 list' := by
  have hbegun : Stands extractor [] (list.backingList ++ []) 1
      { list with changeLock := list.changeLock + 1 } :=
    ⟨by rw [append_nil]; exact h.inv.congr rfl rfl, (append_nil _).symm,
      congrArg (· + 1) h.changeLock⟩
  obtain ⟨list', hrun, hstands⟩ := removeIndexes_spec p list.backingList [] [] _ hbegun
  rw [append_nil, append_nil] at hstands
  have hbegin : (beginChange : ListM E O Unit).run list =
      .ok () { list with changeLock := list.changeLock + 1 } := rfl
  refine ⟨{ list' with changeLock := list'.changeLock - 1 }, ?_, ?_, ?_⟩
  · rw [removeIf, bind_ok hbegin, bind_ok get_run, bind_ok hrun]
    rfl
  · exact (filter_append_perm p list.backingList).symm
  · exact ⟨hstands.inv.congr rfl rfl, hstands.backingList, congrArg (· - 1) hstands.changeLock⟩

theorem takes_clear (h : Sound extractor list) :
    ∃ list', (clear extractor).run list = .ok () list' ∧
      Takes extractor list.backingList list.backingList [] 0 list' := by
  obtain ⟨list', hrun, hinv, hbacking, hlock⟩ := detachAll_spec list.backingList [] list h.inv
  refine ⟨{ list' with backingList := [] }, ?_, ?_, ?_⟩
  · rw [clear, bind_ok get_run, bind_ok hrun, setBackingList_run]
  · rw [append_nil]
  · have hinv' : Inv extractor list.backingList (occurrences []) list' :=
      hinv.congr_gone fun e => by rw [append_nil, mem_reverse]
    exact ⟨hinv'.congr rfl rfl, rfl, hlock.trans h.changeLock⟩

theorem step_sound (h : Sound extractor list) {op : Operation E}
    (haccepted : accepted list.backingList op)
    (htakes : TakesWhole extractor list.backingList op) :
    Sound extractor (step extractor list op) := by
  have hdone : ∀ {l' : List (Option E)} {list' : ObservableListWrapper E O},
      (perform extractor op).run list = .ok () list' →
      Takes extractor (taken list.backingList op) list.backingList l' 0 list' →
      Sound extractor (step extractor list op) := by
    intro l' list' hrun htaken
    rw [step, hrun]
    exact (htaken.settle htakes).sound
  cases op with
  | add index element => exact doAdd_sound h haccepted
  | set index element => exact doSet_sound h htakes
  | remove index =>
    by_cases hlegal : 0 ≤ index ∧ index < list.backingList.length
    · obtain ⟨i, rfl⟩ := Int.eq_ofNat_of_zero_le hlegal.1
      obtain ⟨list', hrun, htaken⟩ := takes_remove h (by omega : i < list.backingList.length)
      exact hdone hrun htaken
    · rw [step, perform, doRemove, bind_ok get_run, bind_error (checkIndex_error hlegal)]
      exact h
  | removeObject equals =>
    cases hfound : list.backingList.findIdx? equals with
    | none =>
      rw [step, perform, removeObject, bind_ok get_run, hfound]
      exact h
    | some i =>
      have hi : i < list.backingList.length :=
        (findIdx?_eq_some_iff_getElem.mp hfound).1
      obtain ⟨list', hrun, htaken⟩ := takes_remove h hi
      have hrun' : (perform extractor (.removeObject equals)).run list = .ok () list' := by
        rw [perform, removeObject, bind_ok get_run, hfound]
        exact hrun
      have htaken' : taken list.backingList (.removeObject equals) =
          (list.backingList[i]?).toList := by
        rw [taken, hfound, Option.bind_some]
      rw [← htaken'] at htaken
      exact hdone hrun' htaken
  | removeRange fromIndex toIndex =>
    by_cases hlt : fromIndex < toIndex
    · obtain ⟨hfrom, hto⟩ := haccepted.resolve_left (Int.not_le.mpr hlt)
      obtain ⟨l', list', hrun, htaken⟩ := takes_removeRange h hfrom hto hlt
      exact hdone hrun htaken
    · have hzero : (toIndex - fromIndex).toNat = 0 := by omega
      rw [step, perform, removeRange, hzero]
      exact ⟨h.inv.congr rfl rfl, rfl, h.changeLock⟩
  | removeAll contains =>
    obtain ⟨list', hrun, htaken⟩ := takes_removeIf h contains
    exact hdone hrun htaken
  | retainAll contains =>
    obtain ⟨list', hrun, htaken⟩ := takes_removeIf h fun e => !contains e
    exact hdone hrun htaken
  | clear =>
    obtain ⟨list', hrun, htaken⟩ := takes_clear h
    exact hdone hrun htaken

end Steps

section Updates

variable {b : Builder (Option E)}

omit [DecidableEq E] in
theorem nextUpdate_eq (h : 0 < b.changeLock) (i : Int) :
    ∃ updateChanges, b.nextUpdate i = .ok { b with updateChanges := updateChanges } := by
  rw [Builder.nextUpdate, ListChangeBuilderReplay.checkState_eq_ok h]
  exact ⟨_, rfl⟩

omit [DecidableEq E] in
theorem updates_spec (positions : List Nat) : ∀ {l : Marked (Option E)} {b : Builder (Option E)},
    Tracks l b → b.addRemoveChanges = [] → b.permutationChange = none →
    (∀ i ∈ positions, i < l.length) →
    ∃ l' b', positions.foldlM (fun b i => b.nextUpdate (i : Nat)) b = .ok b' ∧ Tracks l' b' ∧
      b'.addRemoveChanges = [] ∧ b'.permutationChange = none ∧
      ∀ k, UpdatedAt l' k ↔ UpdatedAt l k ∨ ∃ i ∈ positions, k = (i : Int) := by
  induction positions with
  | nil =>
    intro l b h hadds hperm _
    exact ⟨l, b, rfl, h, hadds, hperm, fun k => by simp⟩
  | cons i positions ih =>
    intro l b h hadds hperm hlt
    have hi := hlt i mem_cons_self
    obtain ⟨updateChanges, hnext⟩ := nextUpdate_eq h.locked i
    have hlen : ∀ j ∈ positions, j < (l.modify i fun x => (x.1, true)).length := by
      intro j hj
      rw [length_modify]
      exact hlt j (mem_cons_of_mem i hj)
    obtain ⟨l', b', hrun, htracks, hadds', hperm', hupdd⟩ :=
      ih (h.update hi hnext) hadds hperm hlen
    refine ⟨l', b', ?_, htracks, hadds', hperm', fun k => ?_⟩
    · rw [foldlM_cons, hnext]
      exact hrun
    · rw [hupdd, updatedAt_update hi, exists_mem_cons_iff, or_comm (a := k = (i : Int)),
        or_assoc]

omit [DecidableEq E] in
theorem endChange_updates {l : Marked (Option E)} (h : Tracks l b) (hadds : b.addRemoveChanges = [])
    (hperm : b.permutationChange = none) : ∃ b' fired, b.endChange = .ok (b', fired) := by
  obtain ⟨updates, hcompress, -, -⟩ := compress_ranges h.ranges
  rw [Builder.endChange, h.changeLock, if_neg (by omega)]
  by_cases hnone : b.updateChanges = []
  · refine ⟨{ b with changeLock := 1 - 1 }, none, ?_⟩
    rw [Builder.commit, hadds, hperm, hnone]
    rfl
  · have hsome : b.addRemoveChanges ≠ [] ∨ b.updateChanges ≠ [] ∨
        b.permutationChange.isSome := .inr (.inl hnone)
    by_cases hone : b.updateChanges.length + b.addRemoveChanges.length +
        (if b.permutationChange.isSome then 1 else 0) = 1
    · rw [Builder.commit, if_pos ⟨rfl, hsome⟩]
      dsimp only
      rw [if_pos hone]
      exact ⟨_, _, rfl⟩
    · have hcommit : ({ b with changeLock := 1 - 1 } : Builder (Option E)).commit = _ :=
        commit_eq rfl hsome hone
      dsimp only at hcommit
      rw [hcommit, hcompress, hadds]
      exact ⟨_, _, rfl⟩

theorem invalidated_spec (h : Sound extractor list) {listener : ElementListener E}
    (hmem : some listener.element ∈ list.backingList) :
    ∃ cs, list.invalidated listener = .ok (some cs) ∧
      CoversPositions list.backingList listener.element cs := by
  have htracks : Tracks (list.backingList.map fun x => (x, false))
      (Builder.new : Builder (Option E)).beginChange :=
    ⟨rfl, UpdateRanges.nil,
      fun k => iff_of_false (not_covers_nil k) (updatedAt_begin list.backingList k), nofun, nofun⟩
  generalize hposs : (List.range list.backingList.length).filter (fun i =>
    list.backingList[i]? == some (some listener.element)) = positions
  have hpos : ∀ i, i ∈ positions ↔
      list.backingList[i]? = some (some listener.element) := by
    intro i
    rw [← hposs, mem_filter, mem_range, beq_iff_eq]
    exact and_iff_right_of_imp fun hi => (List.getElem?_eq_some_iff.mp hi).1
  have hlt : ∀ i ∈ positions, i < (list.backingList.map fun x => (x, false)).length := by
    intro i hi
    rw [length_map]
    exact (List.getElem?_eq_some_iff.mp ((hpos i).mp hi)).1
  obtain ⟨l', b', hrun, htracks', hadds, hperm, hupdd⟩ :=
    updates_spec positions htracks rfl rfl hlt
  obtain ⟨b'', fired, hend⟩ := endChange_updates htracks' hadds hperm
  obtain ⟨updates, hfired, -, hcovers⟩ := htracks'.fires hend
  have hcovered : ∀ k, Covers (firedUpdates fired) k ↔
      ∃ i : Nat, k = i ∧ list.backingList[i]? = some (some listener.element) := by
    intro k
    rw [hfired, covers_finalized, hcovers, hupdd,
      or_iff_right (updatedAt_begin list.backingList k)]
    constructor
    · rintro ⟨i, hi, rfl⟩
      exact ⟨i, rfl, (hpos i).mp hi⟩
    · rintro ⟨i, rfl, hi⟩
      exact ⟨i, (hpos i).mpr hi, rfl⟩
  have hlock : (⟨list.changeLock, [], [], none⟩ : Builder (Option E)) = Builder.new := by
    rw [h.changeLock]
    rfl
  have hok : list.invalidated listener = .ok fired := by
    rw [invalidated, hposs, hlock]
    rw [hrun, ok_bind, hend]
    rfl
  obtain ⟨i, hi⟩ := mem_iff_getElem?.mp hmem
  cases fired with
  | none => exact absurd ((hcovered i).mpr ⟨i, rfl, hi⟩) (not_covers_nil _)
  | some cs => exact ⟨cs, hok, hcovered⟩

end Updates

theorem occurrences_pos {e : E} : 0 < occurrences l e ↔ some e ∈ l := count_pos_iff

theorem Sound.observes (h : Sound extractor list) : Observes extractor list := by
  have hcurrent : ∀ o, ∀ listener ∈ list.listeners o, list.Current listener := by
    intro o listener hmem
    by_contra hnot
    exact absurd (count_pos_iff.mpr hmem) (by rw [h.inv.stale listener hnot o]; omega)
  have hoccurs : ∀ o, ∀ listener ∈ list.listeners o,
      some listener.element ∈ list.backingList ∧ o ∈ extractor listener.element := by
    intro o listener hmem
    have hpos := count_pos_iff.mpr hmem
    rw [h.inv.registered listener (hcurrent o listener hmem) not_mem_nil o] at hpos
    obtain ⟨m, hm, -⟩ := hcurrent o listener hmem
    exact ⟨occurrences_pos.mp (h.inv.mapped _ m hm).2.1, count_pos_iff.mp hpos⟩
  refine ⟨?_, hoccurs, ?_, fun o listener hmem => invalidated_spec h (hoccurs o listener hmem).1⟩
  · intro e he o ho
    cases hm : list.elementsMap e with
    | none => exact absurd (h.inv.unmapped e hm) (Nat.ne_of_gt (occurrences_pos.mpr he))
    | some m =>
      obtain ⟨-, -, hlis⟩ := h.inv.mapped e m hm
      have hcur : list.Current m.listener := ⟨m, by rw [hlis, hm], rfl⟩
      have hcnt := h.inv.registered m.listener hcur not_mem_nil o
      rw [hlis] at hcnt
      refine ⟨m.listener, count_pos_iff.mp ?_, hlis⟩
      rw [hcnt]
      exact count_pos_iff.mpr ho
  · intro o o' listener hmem listener' hmem' heq
    obtain ⟨m, hm, rfl⟩ := hcurrent o listener hmem
    obtain ⟨m', hm', rfl⟩ := hcurrent o' listener' hmem'
    rw [heq, hm'] at hm
    rw [Option.some.inj hm]

theorem attachedAll_inv (l : List (Option E)) : ∀ (processed : List (Option E))
    (list : ObservableListWrapper E O), Inv extractor [] (occurrences processed) list →
    Inv extractor [] (occurrences (l.reverse ++ processed)) (l.foldl (attached extractor) list) ∧
      (l.foldl (attached extractor) list).backingList = list.backingList ∧
      (l.foldl (attached extractor) list).changeLock = list.changeLock := by
  induction l with
  | nil => exact fun processed list h => ⟨h, rfl, rfl⟩
  | cons x l ih =>
    intro processed list h
    obtain ⟨hinv, hbacking, hlock⟩ := inv_attached h x
    obtain ⟨hinv', hbacking', hlock'⟩ := ih (x :: processed) (list.attached extractor x) hinv
    rw [reverse_cons, append_assoc]
    exact ⟨hinv', hbacking'.trans hbacking, hlock'.trans hlock⟩

theorem new_sound (extractor : E → List O) (l : List (Option E)) :
    Sound extractor (new extractor l) := by
  have hemp : Inv extractor [] (occurrences [])
      (⟨l, fun _ => none, fun _ => [], 0, 0⟩ : ObservableListWrapper E O) :=
    ⟨nofun, fun _ _ => rfl, by rintro _ ⟨_, ⟨⟩, _⟩, by rintro _ ⟨_, ⟨⟩, _⟩, fun _ _ _ => rfl⟩
  obtain ⟨hinv, hbacking, hlock⟩ := attachedAll_inv l [] _ hemp
  rw [append_nil, occurrences_perm l.reverse_perm] at hinv
  exact Stands.sound ⟨hinv, hbacking, hlock⟩

theorem run_sound (ops : List (Operation E)) : ∀ {list : ObservableListWrapper E O},
    Sound extractor list → Meets extractor list ops → Sound extractor (run extractor list ops) := by
  induction ops with
  | nil => exact fun h _ => h
  | cons op ops ih =>
    intro list h hmeets
    obtain ⟨haccepted, htakes, hmeets⟩ := hmeets
    exact ih (step_sound h haccepted htakes) hmeets

/-- After every run whose operations take out all occurrences of an element or none, and whose
indexes are those of the list, exactly the elements of the list are observed. -/
theorem run_observes (extractor : E → List O) (l : List (Option E)) (ops : List (Operation E))
    (hmeets : Meets extractor (new extractor l) ops) :
    Observes extractor (run extractor (new extractor l) ops) :=
  (run_sound ops (new_sound extractor l) hmeets).observes

/-- A list with a repetition and a null element. -/
theorem run_observes_repeated : Observes (fun e : Nat => [e % 2, 2])
    (run (fun e : Nat => [e % 2, 2]) (new (fun e : Nat => [e % 2, 2]) [some 3, none, some 3])
      [.add 1 (some 4), .removeAll fun e => e == some 3, .set 1 (some 4), .clear]) := by
  refine run_observes _ _ _ ⟨.inr (by decide), ?_, trivial, ?_, trivial, ?_, trivial, ?_, trivial⟩
  · rintro e hmem -
    cases hmem
  · rintro e hmem -
    obtain rfl : e = 3 := by simpa using of_mem_filter hmem
    decide
  · rintro e hmem -
    have htaken : some e ∈ [none] := hmem
    simp at htaken
  · rintro e - -
    rfl

/-- One of two occurrences of an element is removed, and the other one is not observed. -/
theorem removed_occurrence : ¬Observes (fun e : Nat => [e])
    (run (fun e : Nat => [e]) (new (fun e : Nat => [e]) [some 3, some 3]) [.remove 0]) := by
  intro h
  obtain ⟨listener, hmem, -⟩ := h.registered 3 (by decide) 3 (by decide)
  cases hmem

end OpenJfx.Collections.ObservableListWrapper
