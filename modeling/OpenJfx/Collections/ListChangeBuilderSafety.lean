import OpenJfx.Collections.ListChangeBuilder

namespace OpenJfx.Collections.ListChangeBuilder

open Java.Arrays Java.BinarySearch Collections.ListChange List

variable {E : Type}

/-- Add/remove sub-changes have a list of removed elements and update sub-changes have none. -/
structure Builder.Usable (b : Builder E) : Prop where
  changeLock : b.changeLock = 1
  addRemoves : ∀ c ∈ b.addRemoveChanges, c.removed ≠ none
  updates : ∀ c ∈ b.updateChanges, c.removed = none

section

variable {P : SubChange E → Prop} {changes : List (SubChange E)}

def IgnoresBounds (P : SubChange E → Prop) : Prop :=
  ∀ c fromIdx toIdx, P c → P { c with fromIdx := fromIdx, toIdx := toIdx }

theorem shiftFrom_all (hP : IgnoresBounds P) (h : ∀ c ∈ changes, P c) (i : Nat) (delta : Int) :
    ∀ c ∈ shiftFrom i delta changes, P c := by
  intro c hc
  rcases mem_append.mp hc with hc | hc
  · exact h c (mem_of_mem_take hc)
  · obtain ⟨d, hd, rfl⟩ := mem_map.mp hc
    exact hP d _ _ (h d (mem_of_mem_drop hd))

theorem modify_all (hP : IgnoresBounds P) (h : ∀ c ∈ changes, P c) (i : Nat)
    {f : SubChange E → SubChange E}
    (hf : ∀ c, ∃ fromIdx toIdx, f c = { c with fromIdx := fromIdx, toIdx := toIdx }) :
    ∀ c ∈ changes.modify i f, P c := by
  intro c hc
  obtain ⟨j, hj⟩ := mem_iff_getElem?.mp hc
  rw [getElem?_modify] at hj
  obtain ⟨d, hd, rfl⟩ := Option.map_eq_some_iff.mp hj
  have hPd := h d (mem_of_getElem? hd)
  split
  · obtain ⟨fromIdx, toIdx, heq⟩ := hf d
    rw [heq]
    exact hP d _ _ hPd
  · exact hPd

theorem insertIdx_all (h : ∀ c ∈ changes, P c) (i : Nat) {d : SubChange E} (hd : P d) :
    ∀ c ∈ changes.insertIdx i d, P c := by
  intro c hc
  rcases eq_or_mem_of_mem_insertIdx hc with rfl | hc
  · exact hd
  · exact h c hc

theorem set_all (h : ∀ c ∈ changes, P c) (i : Nat) {d : SubChange E} (hd : P d) :
    ∀ c ∈ changes.set i d, P c := by
  intro c hc
  rcases mem_or_eq_of_mem_set hc with hc | rfl
  · exact h c hc
  · exact hd

theorem eraseIdx_all (h : ∀ c ∈ changes, P c) (i : Nat) : ∀ c ∈ changes.eraseIdx i, P c :=
  fun c hc => h c (mem_of_mem_eraseIdx hc)

theorem updateAt_all {f : SubChange E → Outcome (SubChange E)} {i : Nat}
    (h : ∀ c ∈ changes, P c) (hi : i < changes.length)
    (hf : ∀ c, P c → ∃ c', f c = .ok c' ∧ P c') :
    ∃ changes', updateAt changes i f = .ok changes' ∧ ∀ c ∈ changes', P c := by
  obtain ⟨c', hc', hP'⟩ := hf changes[i] (h _ (getElem_mem hi))
  refine ⟨changes.set i c', ?_, set_all h i hP'⟩
  simp only [updateAt, getElem?_eq_getElem hi, hc', ok_bind, pure_eq_ok]

end

theorem ignoresBounds_removed : IgnoresBounds fun c : SubChange E => c.removed ≠ none :=
  fun _ _ _ h => h

theorem ignoresBounds_noRemoved : IgnoresBounds fun c : SubChange E => c.removed = none :=
  fun _ _ _ h => h

theorem findSubChange_inRange (idx : Int) (changes : List (SubChange E)) :
    (findSubChange idx changes).InRange (side idx changes) changes.length :=
  binarySearch_inRange _ _

theorem addRemovedLast_ok (removed : E) (c : SubChange E) (h : c.removed ≠ none) :
    ∃ c', addRemovedLast removed c = .ok c' ∧ c'.removed ≠ none := by
  obtain ⟨list, hlist⟩ := Option.ne_none_iff_exists'.mp h
  exact ⟨{ c with removed := some (list ++ [removed]) }, by simp [addRemovedLast, hlist], by simp⟩

theorem addRemovedFirst_ok (removed : E) (c : SubChange E) (h : c.removed ≠ none) :
    ∃ c', addRemovedFirst removed c = .ok c' ∧ c'.removed ≠ none := by
  obtain ⟨list, hlist⟩ := Option.ne_none_iff_exists'.mp h
  exact ⟨{ c with fromIdx := c.fromIdx - 1, toIdx := c.toIdx - 1,
                  removed := some (removed :: list) },
    by simp [addRemovedFirst, hlist], by simp⟩

variable {changes : List (SubChange E)}

theorem previousEndsAt_lt {idx : Nat} {pos : Int} (h : previousEndsAt changes idx pos = true) :
    idx - 1 < changes.length := by
  by_contra hge
  simp [previousEndsAt, getElem?_eq_none (Nat.not_lt.mp hge)] at h

theorem nextStartsAt_lt {idx : Nat} {pos : Int} (h : nextStartsAt changes idx pos = true) :
    idx < changes.length := by
  by_contra hge
  simp [nextStartsAt, getElem?_eq_none (Nat.not_lt.mp hge)] at h

theorem insertRemoved_ok (idx : Int) (removed : E) (h : ∀ c ∈ changes, c.removed ≠ none) :
    ∃ changes', insertRemoved idx removed changes = .ok changes' ∧
      ∀ c ∈ changes', c.removed ≠ none := by
  have hrange := findSubChange_inRange idx changes
  rw [insertRemoved]
  cases hfound : findSubChange idx changes with
  | insertAt pos =>
    simp only
    split_ifs with hprev hnext
    · obtain ⟨changes', hupd, h'⟩ :=
        updateAt_all h (previousEndsAt_lt hprev) (addRemovedLast_ok removed)
      exact ⟨_, by rw [hupd]; rfl, shiftFrom_all ignoresBounds_removed h' _ _⟩
    · obtain ⟨changes', hupd, h'⟩ :=
        updateAt_all h (nextStartsAt_lt hnext) (addRemovedFirst_ok removed)
      exact ⟨_, by rw [hupd]; rfl, shiftFrom_all ignoresBounds_removed h' _ _⟩
    · exact ⟨_, rfl, shiftFrom_all ignoresBounds_removed (insertIdx_all h _ (by simp)) _ _⟩
  | found pos =>
    rw [hfound] at hrange
    obtain ⟨changes', hupd, h'⟩ := updateAt_all h hrange.1
      (f := fun change => .ok { change with toIdx := change.toIdx - 1 })
        (fun c hc => ⟨_, rfl, hc⟩)
    refine ⟨_, by simp only [hupd, ok_bind]; rfl, ?_⟩
    refine shiftFrom_all ignoresBounds_removed ?_ _ _
    split
    · exact eraseIdx_all h' _
    · exact h'

theorem insertAdd_ok (fromIdx toIdx : Int) (h : ∀ c ∈ changes, c.removed ≠ none) :
    ∃ changes', insertAdd fromIdx toIdx changes = .ok changes' ∧
      ∀ c ∈ changes', c.removed ≠ none := by
  have hrange := findSubChange_inRange fromIdx changes
  rw [insertAdd]
  cases hfound : findSubChange fromIdx changes with
  | insertAt pos =>
    simp only
    split_ifs with hprev
    · obtain ⟨changes', hupd, h'⟩ := updateAt_all h (previousEndsAt_lt hprev)
        (f := fun change => .ok { change with toIdx := toIdx }) (fun c hc => ⟨_, rfl, hc⟩)
      exact ⟨_, by rw [hupd]; rfl, shiftFrom_all ignoresBounds_removed h' _ _⟩
    · exact ⟨_, rfl, shiftFrom_all ignoresBounds_removed (insertIdx_all h _ (by simp)) _ _⟩
  | found pos =>
    rw [hfound] at hrange
    obtain ⟨changes', hupd, h'⟩ := updateAt_all h hrange.1
      (f := fun change => .ok { change with toIdx := change.toIdx + (toIdx - fromIdx) })
      (fun c hc => ⟨_, rfl, hc⟩)
    exact ⟨_, by simp only [hupd, ok_bind]; rfl, shiftFrom_all ignoresBounds_removed h' _ _⟩

theorem lastIndex_lt {last : SubChange E} (h : changes.getLast? = some last) :
    changes.length - 1 < changes.length := by
  cases changes with
  | nil => simp at h
  | cons c cs => simp

theorem removeFromAddRemove_ok (idx : Int) (removed : E) (h : ∀ c ∈ changes, c.removed ≠ none) :
    ∃ changes', removeFromAddRemove idx removed changes = .ok changes' ∧
      ∀ c ∈ changes', c.removed ≠ none := by
  rw [removeFromAddRemove]
  cases hlast : changes.getLast? with
  | none => exact insertRemoved_ok idx removed h
  | some last =>
    simp only
    split_ifs
    · exact updateAt_all h (lastIndex_lt hlast) (addRemovedLast_ok removed)
    · exact updateAt_all h (lastIndex_lt hlast) (addRemovedFirst_ok removed)
    · exact insertRemoved_ok idx removed h

theorem addToAddRemove_ok (fromIdx toIdx : Int) (h : ∀ c ∈ changes, c.removed ≠ none) :
    ∃ changes', addToAddRemove fromIdx toIdx changes = .ok changes' ∧
      ∀ c ∈ changes', c.removed ≠ none := by
  rw [addToAddRemove]
  cases hlast : changes.getLast? with
  | none => exact insertAdd_ok fromIdx toIdx h
  | some last =>
    simp only
    split_ifs
    · exact updateAt_all h (lastIndex_lt hlast) (fun c hc => ⟨_, rfl, hc⟩)
    · exact updateAt_all h (lastIndex_lt hlast) (fun c hc => ⟨_, rfl, hc⟩)
    · exact insertAdd_ok fromIdx toIdx h

section

variable {changes : List (SubChange E)} (h : ∀ c ∈ changes, c.removed = none)

include h

theorem removeFromUpdates_all (idx : Int) :
    ∀ c ∈ removeFromUpdates idx changes, c.removed = none := by
  rw [removeFromUpdates]
  split
  · exact shiftFrom_all ignoresBounds_noRemoved h _ _
  · split
    · exact shiftFrom_all ignoresBounds_noRemoved (eraseIdx_all h _) _ _
    · exact shiftFrom_all ignoresBounds_noRemoved
        (modify_all ignoresBounds_noRemoved h _ fun c => ⟨c.fromIdx, c.toIdx - 1, rfl⟩) _ _

theorem addToUpdates_all (fromIdx toIdx : Int) :
    ∀ c ∈ addToUpdates fromIdx toIdx changes, c.removed = none := by
  rw [addToUpdates]
  split
  · exact shiftFrom_all ignoresBounds_noRemoved h _ _
  · split
    · rename_i change hchange
      refine shiftFrom_all ignoresBounds_noRemoved (insertIdx_all (set_all h _ ?_) _ rfl) _ _
      exact h change (mem_of_getElem? hchange)
    · exact h

theorem insertUpdate_all (pos : Int) : ∀ c ∈ insertUpdate pos changes, c.removed = none := by
  rw [insertUpdate]
  split
  · split_ifs
    · exact modify_all ignoresBounds_noRemoved h _ fun c => ⟨c.fromIdx, pos + 1, rfl⟩
    · exact modify_all ignoresBounds_noRemoved h _ fun c => ⟨pos, c.toIdx, rfl⟩
    · exact insertIdx_all h _ rfl
  · exact h

end

namespace Builder

variable {b : Builder E}

theorem Usable.checkState (h : b.Usable) : b.checkState = .ok () := by
  rw [Builder.checkState, if_neg (by rw [h.changeLock]; decide)]

theorem usable_beginChange : (beginChange (new : Builder E)).Usable := by
  constructor <;> simp [beginChange, new]

theorem nextRemove_usable (h : b.Usable) (idx : Int) (removed : E) :
    ∃ b', b.nextRemove idx removed = .ok b' ∧ b'.Usable := by
  obtain ⟨changes, hchanges, hsome⟩ := removeFromAddRemove_ok idx removed h.addRemoves
  refine ⟨_, by rw [nextRemove, h.checkState, ok_bind, hchanges, ok_bind]; rfl, ?_⟩
  exact ⟨h.changeLock, hsome, removeFromUpdates_all h.updates idx⟩

theorem nextAdd_usable (h : b.Usable) (fromIdx toIdx : Int) :
    ∃ b', b.nextAdd fromIdx toIdx = .ok b' ∧ b'.Usable := by
  obtain ⟨changes, hchanges, hsome⟩ := addToAddRemove_ok fromIdx toIdx h.addRemoves
  refine ⟨_, by rw [nextAdd, h.checkState, ok_bind, hchanges, ok_bind]; rfl, ?_⟩
  exact ⟨h.changeLock, hsome, addToUpdates_all h.updates fromIdx toIdx⟩

theorem nextUpdate_usable (h : b.Usable) (idx : Int) :
    ∃ b', b.nextUpdate idx = .ok b' ∧ b'.Usable ∧ b'.addRemoveChanges = b.addRemoveChanges ∧
      b'.permutationChange = b.permutationChange := by
  simp only [nextUpdate, h.checkState]
  refine ⟨_, rfl, ⟨h.changeLock, h.addRemoves, ?_⟩, rfl, rfl⟩
  split
  · split_ifs
    · exact modify_all ignoresBounds_noRemoved h.updates _ fun c => ⟨c.fromIdx, idx + 1, rfl⟩
    · exact insertUpdate_all h.updates idx
  · exact insertUpdate_all h.updates idx

end Builder

theorem RangePerm.index_ok {p : RangePerm} (h : (p.perm.length : Int) = p.toIdx - p.fromIdx)
    (j : Int) : ∃ k, p.index j = .ok k := by
  rw [RangePerm.index]
  split_ifs with hout
  · exact ⟨j, rfl⟩
  · obtain ⟨i, hi⟩ : ∃ i : Nat, j - p.fromIdx = i := ⟨(j - p.fromIdx).toNat, by omega⟩
    exact ⟨_, by rw [hi, load_natCast _ _ (by omega)]⟩

theorem mapM_ok {α β : Type} {f : α → Outcome β} (l : List α) (h : ∀ x ∈ l, ∃ y, f x = .ok y) :
    ∃ l', l.mapM f = .ok l' := by
  induction l with
  | nil => exact ⟨[], rfl⟩
  | cons x rest ih =>
    obtain ⟨y, hy⟩ := h x (by simp)
    obtain ⟨rest', hrest⟩ := ih fun z hz => h z (by simp [hz])
    exact ⟨y :: rest', by rw [mapM_cons, hy, ok_bind, hrest, ok_bind, pure_eq_ok]⟩

theorem permutedIndexes_ok {p : RangePerm} (h : (p.perm.length : Int) = p.toIdx - p.fromIdx)
    (changes : List (SubChange E)) : ∃ indexes, permutedIndexes p changes = .ok indexes := by
  rw [permutedIndexes]
  obtain ⟨indexes, hidxs⟩ := mapM_ok _ fun j _ => p.index_ok h j
  rw [hidxs]
  exact ⟨_, rfl⟩

theorem regroupFrom_noRemoved (indexes : List Int) :
    ∀ lastChange : SubChange E, lastChange.removed = none →
      ∀ c ∈ (regroupFrom lastChange indexes []).1, c.removed = none := by
  induction indexes with
  | nil =>
    intro lastChange h c hc
    obtain rfl := mem_singleton.mp hc
    exact h
  | cons i rest ih =>
    intro lastChange h c hc
    rw [regroupFrom] at hc
    split_ifs at hc
    · exact ih { lastChange with toIdx := i + 1 } h c hc
    · rcases mem_cons.mp hc with rfl | hc
      · exact h
      · exact ih _ rfl c hc

theorem permuteUpdates_ok {p : RangePerm} (h : (p.perm.length : Int) = p.toIdx - p.fromIdx)
    (changes : List (SubChange E)) :
    ∃ changes', permuteUpdates p changes = .ok changes' ∧ ∀ c ∈ changes', c.removed = none := by
  obtain ⟨indexes, hidxs⟩ := permutedIndexes_ok h changes
  refine ⟨_, by rw [permuteUpdates, hidxs, ok_bind], ?_⟩
  cases indexes with
  | nil => simp [regroup]
  | cons i rest => exact regroupFrom_noRemoved rest _ rfl

theorem Builder.nextPermutation_usable (order : EntryOrder E) (listSize : Nat) {b : Builder E}
    (h : b.Usable) (hnone : b.addRemoveChanges = []) (fromIdx toIdx : Int) (perm : List Int)
    (hlen : (perm.length : Int) = toIdx - fromIdx) {permutation : SubChange E}
    (hcompose : composePermutation b.permutationChange ⟨fromIdx, toIdx, perm⟩ = .ok permutation) :
    ∃ b', b.nextPermutation order listSize fromIdx toIdx perm = .ok b' ∧ b'.Usable ∧
      b'.addRemoveChanges = [] ∧ b'.permutationChange = some permutation := by
  obtain ⟨updates, hupds, hrem⟩ := permuteUpdates_ok (p := ⟨fromIdx, toIdx, perm⟩) hlen
    b.updateChanges
  have hentries : order.entries [] = [] := perm_nil.mp (order.perm [])
  have hadd : permuteAddRemoves order ⟨fromIdx, toIdx, perm⟩ b.addRemoveChanges = .ok [] := by
    rw [hnone]
    simp [permuteAddRemoves, permutedIndexes, permutedRemoved, regroup, hentries]
  refine ⟨⟨b.changeLock, [], updates, some permutation⟩, ?_, ⟨h.changeLock, by simp, hrem⟩,
    rfl, rfl⟩
  rw [nextPermutation, h.checkState, ok_bind, prePermutation, if_pos hnone, ok_bind, hcompose,
    ok_bind, hadd, ok_bind, hupds, ok_bind]

theorem compressFrom_ok :
    ∀ prev : SubChange E,
      ((∀ c ∈ prev :: changes, c.removed ≠ none) ∨ ∀ c ∈ prev :: changes, c.removed = none) →
      ∃ compressed, compressFrom prev changes = .ok compressed := by
  induction changes with
  | nil => exact fun prev _ => ⟨_, rfl⟩
  | cons cur rest ih =>
    intro prev h
    rw [compressFrom]
    split_ifs
    · rcases h with h | h
      · obtain ⟨list, hlist⟩ := Option.ne_none_iff_exists'.mp (h prev (by simp))
        obtain ⟨list', hlist'⟩ := Option.ne_none_iff_exists'.mp (h cur (by simp))
        simp only [hlist, hlist']
        exact ih _ (.inl (by simpa using fun c hc => h c (by simp [hc])))
      · simp only [h prev (by simp), h cur (by simp)]
        exact ih _ (.inr (by simpa using fun c hc => h c (by simp [hc])))
    · obtain ⟨compressed, hcompressed⟩ := ih cur (h.imp
        (fun h c hc => h c (mem_cons_of_mem _ hc))
        (fun h c hc => h c (mem_cons_of_mem _ hc)))
      exact ⟨prev :: compressed, by rw [hcompressed]; rfl⟩

theorem compress_ok (h : (∀ c ∈ changes, c.removed ≠ none) ∨ ∀ c ∈ changes, c.removed = none)
    (hne : changes ≠ []) :
    ∃ compressed, compress changes = .ok compressed := by
  cases changes with
  | nil => exact absurd rfl hne
  | cons prev rest => exact compressFrom_ok prev h

theorem Builder.endChange_ok {b : Builder E} (h : b.Usable) :
    ∃ fired, b.endChange = .ok (Builder.new, fired) := by
  obtain ⟨lock, addRemoves, updates, permutation⟩ := b
  obtain ⟨rfl : lock = 1, haddRemoves, hupds⟩ := h
  rw [endChange, commit]
  by_cases hadd : addRemoves = []
  · subst hadd
    by_cases hupd : updates = []
    · subst hupd
      cases permutation with
      | none => exact ⟨none, by simp [new]⟩
      | some c => simp
    · obtain ⟨compressed, hcompress⟩ := compress_ok (.inr hupds) hupd
      simp [hupd, hcompress]
      split_ifs <;> simp
  · obtain ⟨compressed, hcompress⟩ := compress_ok (.inl haddRemoves) hadd
    by_cases hupd : updates = []
    · simp [hadd, hcompress]
      split_ifs <;> simp
    · obtain ⟨compressed', hcompress'⟩ := compress_ok (.inr hupds) hupd
      simp [hadd, hcompress, hcompress']
      split_ifs <;> simp

variable {E α β : Type}

inductive Call (E : Type)
  | nextRemove (idx : Int) (removed : E)
  | nextAdd (fromIdx toIdx : Int)
  | nextUpdate (idx : Int)

/-- One element after another comes in, from `pos` on. -/
def addCalls (pos : Nat) : Nat → List (Call E)
  | 0 => []
  | count + 1 => .nextAdd pos (pos + 1) :: addCalls (pos + 1) count

theorem addCalls_append (pos m n : Nat) :
    (addCalls pos (m + n) : List (Call E)) = addCalls pos m ++ addCalls (pos + m) n := by
  induction m generalizing pos with
  | zero => rw [Nat.zero_add, addCalls, nil_append, Nat.add_zero]
  | succ m ih =>
    rw [Nat.succ_add, addCalls, ih, Nat.add_right_comm pos 1 m]
    rfl

namespace Builder

def call (b : Builder E) : Call E → Outcome (Builder E)
  | .nextRemove idx removed => b.nextRemove idx removed
  | .nextAdd fromIdx toIdx => b.nextAdd fromIdx toIdx
  | .nextUpdate idx => b.nextUpdate idx

def callAll (b : Builder E) (calls : List (Call E)) : Outcome (Builder E) := calls.foldlM call b

theorem callAll_usable (calls : List (Call E)) {b : Builder E} (h : b.Usable) :
    ∃ b', b.callAll calls = .ok b' ∧ b'.Usable := by
  induction calls generalizing b with
  | nil => exact ⟨b, rfl, h⟩
  | cons c calls ih =>
    have hcall : ∃ b₁, b.call c = .ok b₁ ∧ b₁.Usable := by
      rcases c with ⟨idx, removed⟩ | ⟨fromIdx, toIdx⟩ | idx
      · exact nextRemove_usable h idx removed
      · exact nextAdd_usable h fromIdx toIdx
      · rcases nextUpdate_usable h idx with ⟨b₁, hok, h₁, -⟩
        exact ⟨b₁, hok, h₁⟩
    rcases hcall with ⟨b₁, hok, h₁⟩
    rcases ih h₁ with ⟨b', hrun, h'⟩
    refine ⟨b', ?_, h'⟩
    rw [callAll, foldlM_cons, hok]
    exact hrun

end Builder

def Makes (calls : List (Call E)) (run : Builder E → Outcome β) (result : Builder E → β) : Prop :=
  ∀ b : Builder E, run b = b.callAll calls >>= fun b => .ok (result b)

variable {result : Builder E → β}

variable {run : Builder E → Outcome β}

theorem makes_nil (h : ∀ b, run b = .ok (result b)) :
    Makes [] run result := h

variable {calls : List (Call E)}

theorem Makes.cons {c : Call E} {run run' : Builder E → Outcome β}
    (h : ∀ b, run b = b.call c >>= run') (h' : Makes calls run' result) :
    Makes (c :: calls) run result := by
  intro b
  have hrun : run' = fun b => b.callAll calls >>= fun b => .ok (result b) := funext h'
  rw [h, hrun, Builder.callAll, foldlM_cons, bind_assoc]
  rfl

variable {run₁ : Builder E → Outcome α} {result₁ : Builder E → α}

theorem Makes.bind {calls₁ calls₂ : List (Call E)} {rest : α → Outcome β}
    (h₁ : Makes calls₁ run₁ result₁) (h : ∀ b, run b = run₁ b >>= rest)
    (h₂ : Makes calls₂ (fun b => rest (result₁ b)) result) :
    Makes (calls₁ ++ calls₂) run result := by
  intro b
  have hrun : (fun b => rest (result₁ b)) =
      fun b => b.callAll calls₂ >>= fun b => .ok (result b) := funext h₂
  calc run b = b.callAll calls₁ >>= fun b => rest (result₁ b) := by
        rw [h, h₁, bind_assoc]
        rfl
    _ = b.callAll (calls₁ ++ calls₂) >>= fun b => .ok (result b) := by
        rw [hrun, Builder.callAll, Builder.callAll, foldlM_append, bind_assoc]
        rfl

theorem Makes.map {f : α → β} (h₁ : Makes calls run₁ result₁)
    (h : ∀ b, run b = run₁ b >>= fun x => .ok (f x)) :
    Makes calls run fun b => f (result₁ b) := by
  have := h₁.bind h (makes_nil fun _ => rfl)
  rwa [append_nil] at this

theorem Makes.congr {run run' : Builder E → Outcome β} {result' : Builder E → β}
    (h : Makes calls run result) (hrun : ∀ b, run' b = run b) (hres : result' = result) :
    Makes calls run' result' := by
  intro b
  rw [hrun, h, hres]

theorem Makes.usable (h : Makes calls run result) {b : Builder E} (hb : b.Usable) :
    ∃ b', run b = .ok (result b') ∧ b'.Usable := by
  rcases Builder.callAll_usable calls hb with ⟨b', hok, hb'⟩
  exact ⟨b', by rw [h, hok, ok_bind], hb'⟩

/-- The calls, applied in turn to `cur`, lead to `final`: a removal names the element that is at
its index, an addition brings in what `final` holds in its range, and an update is about an
element that has its final place. -/
def CallsReplay (final : List E) : List (Call E) → List E → Prop
  | [], cur => cur = final
  | .nextRemove idx removed :: calls, cur =>
    0 ≤ idx ∧ cur[idx.toNat]? = some removed ∧ CallsReplay final calls (cur.eraseIdx idx.toNat)
  | .nextAdd fromIdx toIdx :: calls, cur =>
    0 ≤ fromIdx ∧ fromIdx ≤ toIdx ∧ toIdx ≤ final.length ∧ fromIdx ≤ cur.length ∧
      CallsReplay final calls
        (cur.take fromIdx.toNat ++ subList final fromIdx toIdx ++ cur.drop fromIdx.toNat)
  | .nextUpdate idx :: calls, cur =>
    0 ≤ idx ∧ (∃ e, cur[idx.toNat]? = some e ∧ final[idx.toNat]? = some e) ∧
      CallsReplay final calls cur

section

variable {final front back : List E} {calls : List (Call E)}

theorem callsReplay_remove {e : E} (h : CallsReplay final calls (front ++ back)) :
    CallsReplay final (.nextRemove front.length e :: calls) (front ++ e :: back) := by
  refine ⟨by omega, by simp, ?_⟩
  have herase : (front ++ e :: back).eraseIdx front.length = front ++ back := by
    rw [eraseIdx_append_of_length_le (Nat.le_refl _), Nat.sub_self, eraseIdx_cons_zero]
  rwa [Int.toNat_natCast, herase]

theorem callsReplay_removeAll (removed : List E) (h : CallsReplay final calls (front ++ back)) :
    CallsReplay final (removed.map (.nextRemove front.length) ++ calls)
      (front ++ (removed ++ back)) := by
  induction removed with
  | nil => exact h
  | cons e removed ih => exact callsReplay_remove ih

theorem callsReplay_add {e : E} {later : List E} (hfinal : final = front ++ e :: later)
    (h : CallsReplay final calls (front ++ e :: back)) :
    CallsReplay final (.nextAdd front.length (front.length + 1) :: calls) (front ++ back) := by
  have hsub : subList final front.length (front.length + 1) = [e] := by
    rw [hfinal, ← singleton_append, ← append_assoc]
    exact subList_append front [e] later rfl rfl
  refine ⟨by omega, by omega, ?_, by rw [length_append]; omega, ?_⟩
  · rw [hfinal]
    simp only [length_append, length_cons]
    omega
  · rw [hsub, Int.toNat_natCast, take_left, drop_left, append_assoc]
    exact h

theorem callsReplay_addAll (added : List E) (hfinal : final = front ++ (added ++ back)) :
    CallsReplay final (addCalls front.length added.length) (front ++ back) := by
  induction added generalizing front with
  | nil => exact hfinal.symm
  | cons e added ih =>
    refine callsReplay_add hfinal ?_
    have hnext := @ih (front ++ [e]) (by rw [hfinal, append_assoc]; rfl)
    rwa [length_append, append_assoc] at hnext

theorem callsReplay_update {e : E} {later : List E} (hfinal : final = front ++ e :: later)
    (h : CallsReplay final calls (front ++ e :: back)) :
    CallsReplay final (.nextUpdate front.length :: calls) (front ++ e :: back) :=
  ⟨by omega, ⟨e, by simp, by simp [hfinal]⟩, h⟩

end

end OpenJfx.Collections.ListChangeBuilder
