import OpenJfx.Collections.UpdateTracking
import OpenJfx.Data.Loop

namespace OpenJfx.Collections.ListChangeBuilder.UpdateTracking

open Java.Arrays Collections.ListChange List

variable {E : Type}

/-- The elements of a list, each with the mark whether an update of it has been reported. -/
abbrev Marked (E : Type) := List (E × Bool)

inductive Edit (E : Type)
  | update (i : Nat)
  | add (i : Nat) (block : List E)
  | remove (i : Nat)
  | removeAll (i count : Nat)
  | permute (p : PassedPerm)

namespace Edit

def Leads (l l' : Marked E) : Edit E → Prop
  | .update i => i < l.length ∧ l' = l.modify i fun x => (x.1, true)
  | .add i block =>
    i ≤ l.length ∧ l' = l.take i ++ block.map (fun x => (x, false)) ++ l.drop i
  | .remove i => i < l.length ∧ l' = l.eraseIdx i
  | .removeAll i count => i + count ≤ l.length ∧ l' = l.take i ++ l.drop (i + count)
  | .permute p =>
    p.IsBijection l.length ∧ l'.length = l.length ∧
      ∀ i, i < l.length → l'[p.newIndex i]? = l[i]?

/-- A call that leaves the kept array alone. -/
def reportOn (run : Builder E → Outcome (Builder E)) (k : Keeper E) : Outcome (Keeper E) :=
  (run k.builder).map fun b => { k with builder := b }

def report (order : EntryOrder E) (l : Marked E) (k : Keeper E) : Edit E → Outcome (Keeper E)
  | .update i => reportOn (·.nextUpdate i) k
  | .add i block => reportOn (·.nextAdd i (i + block.length)) k
  | .remove i =>
    match l[i]? with
    | some x => reportOn (·.nextRemove i x.1) k
    | none => .error .indexOutOfBounds
  | .removeAll i count =>
    reportOn (·.nextRemoveAll i (((l.drop i).take count).map Prod.fst)) k
  | .permute p => k.nextPermutation order l.length p

/-- A permutation is not passed in the array that the builder keeps. -/
def PassesOwn (k : Keeper E) : Edit E → Prop
  | .permute p => k.kept ≠ some p.array
  | _ => True

end Edit

/-- The edits since the block began on the list `before`, all of which meet a condition and none of
whose reports has failed. -/
inductive Reported (meets : Keeper E → Edit E → Prop) (order : EntryOrder E) (before : List E) :
    Marked E → Keeper E → Prop
  | begin : Reported meets order before (before.map fun x => (x, false))
      ⟨Builder.new.beginChange, none⟩
  | edit {l l' : Marked E} {k k' : Keeper E} (e : Edit E) (run : Reported meets order before l k)
      (met : meets k e) (leads : e.Leads l l') (reports : e.report order l k = .ok k') :
      Reported meets order before l' k'

def UpdatedAt (l : Marked E) (k : Int) : Prop := ∃ i : Nat, k = i ∧ ∃ x, l[i]? = some (x, true)

structure Tracks (l : Marked E) (b : Builder E) : Prop where
  changeLock : b.changeLock = 1
  ranges : UpdateRanges b.updateChanges
  covers : ∀ k, Covers b.updateChanges k ↔ UpdatedAt l k
  addRemoves : NoUpdates b.addRemoveChanges
  permutation : ∀ c ∈ b.permutationChange, c.updated = false

section

variable {l l' : Marked E} {b b' : Builder E} {k : Int}

variable {i : Nat}

theorem updatedAt_natCast : UpdatedAt l i ↔ ∃ x, l[i]? = some (x, true) := by
  constructor
  · rintro ⟨j, hj, hx⟩
    rwa [Int.natCast_inj.mp hj]
  · exact fun hx => ⟨i, rfl, hx⟩

theorem UpdatedAt.nonneg (h : UpdatedAt l k) : 0 ≤ k := by
  rcases h with ⟨i, rfl, -⟩
  exact Int.natCast_nonneg i

theorem updatedAt_begin (before : List E) (k : Int) :
    ¬UpdatedAt (before.map fun x => (x, false)) k := by
  rintro ⟨i, -, x, hx⟩
  rw [getElem?_map] at hx
  rcases hget : before[i]? with _ | y
  · rw [hget] at hx
    cases hx
  · rw [hget] at hx
    cases hx

theorem updatedAt_update (hi : i < l.length) :
    UpdatedAt (l.modify i fun x => (x.1, true)) k ↔ k = i ∨ UpdatedAt l k := by
  constructor
  · rintro ⟨j, rfl, x, hx⟩
    rw [getElem?_modify] at hx
    split at hx
    case isTrue heq => exact .inl (congrArg _ heq.symm)
    case isFalse => exact .inr ⟨j, rfl, x, by simpa using hx⟩
  · rintro (rfl | ⟨j, rfl, x, hx⟩)
    · refine ⟨i, rfl, l[i].1, ?_⟩
      rw [getElem?_modify, getElem?_eq_getElem hi, Option.map_eq_map, Option.map_some,
        if_pos rfl]
    · refine ⟨j, rfl, x, ?_⟩
      rw [getElem?_modify, hx]
      split
      · rfl
      · rfl

theorem updatedAt_remove :
    UpdatedAt (l.eraseIdx i) k ↔ k < i ∧ UpdatedAt l k ∨ i ≤ k ∧ UpdatedAt l (k + 1) := by
  constructor
  · rintro ⟨j, rfl, x, hx⟩
    rw [getElem?_eraseIdx] at hx
    split at hx
    case isTrue hlt => exact .inl ⟨by omega, j, rfl, x, hx⟩
    case isFalse hge => exact .inr ⟨by omega, j + 1, rfl, x, hx⟩
  · rintro (⟨hlt, j, rfl, x, hx⟩ | ⟨hge, j, heq, x, hx⟩)
    · exact ⟨j, rfl, x, by rw [getElem?_eraseIdx, if_pos (by omega), hx]⟩
    · refine ⟨j - 1, by omega, x, ?_⟩
      rw [getElem?_eraseIdx, if_neg (by omega), Nat.sub_add_cancel (by omega), hx]

theorem updatedAt_add (block : List E) (hi : i ≤ l.length) :
    UpdatedAt (l.take i ++ block.map (fun x => (x, false)) ++ l.drop i) k ↔
      k < i ∧ UpdatedAt l k ∨
        (i + block.length : Int) ≤ k ∧ UpdatedAt l (k - (i + block.length - i)) := by
  have htake : (l.take i).length = i := by rw [length_take, Nat.min_eq_left hi]
  have hblock : (l.take i ++ block.map fun x => (x, false)).length = i + block.length := by
    rw [length_append, htake, length_map]
  constructor
  · rintro ⟨j, rfl, x, hx⟩
    rcases Nat.lt_or_ge j (i + block.length) with hlt | hge
    · rw [getElem?_append_left (by omega)] at hx
      rcases Nat.lt_or_ge j i with hlt' | hge'
      · rw [getElem?_append_left (by omega), getElem?_take_of_lt hlt'] at hx
        exact .inl ⟨by omega, j, rfl, x, hx⟩
      · rw [getElem?_append_right (by omega)] at hx
        exact (updatedAt_begin block _ ⟨_, rfl, x, hx⟩).elim
    · rw [getElem?_append_right (by omega), hblock, getElem?_drop] at hx
      exact .inr ⟨by omega, i + (j - (i + block.length)), by omega, x, hx⟩
  · rintro (⟨hlt, j, rfl, x, hx⟩ | ⟨hge, j, heq, x, hx⟩)
    · refine ⟨j, rfl, x, ?_⟩
      rw [getElem?_append_left (by omega), getElem?_append_left (by omega),
        getElem?_take_of_lt (by omega), hx]
    · refine ⟨j + block.length, by omega, x, ?_⟩
      rw [getElem?_append_right (by omega), hblock, getElem?_drop,
        show i + (j + block.length - (i + block.length)) = j by omega, hx]

theorem exists_newIndex {p : RangePerm} {n : Nat} (hp : p.IsBijection n) {j : Nat} (hj : j < n) :
    ∃ i, i < n ∧ p.newIndex i = j := by
  rcases Int.lt_or_le p.fromIdx p.toIdx with hlt | hle
  · have hc : (⟨p.fromIdx, p.toIdx, none, p.perm, false⟩ : SubChange Unit).IsPermutation n :=
      { hp with
        fromIdx_lt := hlt
        noRemoved := rfl
        notUpdated := rfl }
    rcases hc.exists_newIndex hj with ⟨i, hi, heq, -⟩
    exact ⟨i, hi, heq⟩
  · exact ⟨j, hj, newIndex_of_not (by omega)⟩

theorem updatedAt_permute {p : RangePerm} (hp : p.IsBijection l.length)
    (hlen : l'.length = l.length) (hperm : ∀ i, i < l.length → l'[p.newIndex i]? = l[i]?) :
    UpdatedAt l' k ↔ ∃ j : Nat, UpdatedAt l j ∧ k = p.newIndex j := by
  constructor
  · rintro ⟨i, rfl, x, hx⟩
    have hi : i < l'.length := (List.getElem?_eq_some_iff.mp hx).1
    rcases exists_newIndex hp (show i < l.length by omega) with ⟨j, hj, rfl⟩
    exact ⟨j, ⟨j, rfl, x, (hperm j hj).symm.trans hx⟩, rfl⟩
  · rintro ⟨j, hj, rfl⟩
    rcases updatedAt_natCast.mp hj with ⟨x, hx⟩
    have hlt := (List.getElem?_eq_some_iff.mp hx).1
    exact ⟨p.newIndex j, rfl, x, (hperm j hlt).trans hx⟩

theorem checkState_bind {f : Unit → Outcome (Builder E)} (h : 0 < b.changeLock)
    (hok : b.checkState >>= f = .ok b') : f () = .ok b' := by
  rwa [ListChangeBuilderReplay.checkState_eq_ok h] at hok

theorem Tracks.locked (h : Tracks l b) : 0 < b.changeLock := by
  rw [h.changeLock]
  exact Nat.one_pos

theorem Tracks.update (h : Tracks l b) (hi : i < l.length) (hok : b.nextUpdate i = .ok b') :
    Tracks (l.modify i fun x => (x.1, true)) b' := by
  rcases nextUpdate_ranges h.ranges hok with ⟨updateChanges, rfl, hranges, hcovers⟩
  refine ⟨h.changeLock, hranges, fun k => ?_, h.addRemoves, h.permutation⟩
  rw [hcovers k, h.covers k, updatedAt_update hi]

theorem Tracks.add (h : Tracks l b) (block : List E) (hi : i ≤ l.length)
    (hok : b.nextAdd i (i + block.length) = .ok b') :
    Tracks (l.take i ++ block.map (fun x => (x, false)) ++ l.drop i) b' := by
  have hok := checkState_bind h.locked hok
  rcases hrun : addToAddRemove i (i + block.length) b.addRemoveChanges with e | addRemoveChanges
  · rw [hrun] at hok
    cases hok
  · rw [hrun] at hok
    cases hok
    rcases addToUpdates_ranges h.ranges (show (i : Int) ≤ i + block.length by omega) with
      ⟨hranges, hcovers⟩
    refine ⟨h.changeLock, hranges, fun k => ?_, addToAddRemove_noUpdates h.addRemoves hrun,
      h.permutation⟩
    rw [hcovers k, h.covers, h.covers, updatedAt_add block hi]

theorem Tracks.remove (h : Tracks l b) {removed : E} (hok : b.nextRemove i removed = .ok b') :
    Tracks (l.eraseIdx i) b' := by
  have hok := checkState_bind h.locked hok
  rcases hrun : removeFromAddRemove i removed b.addRemoveChanges with e | addRemoveChanges
  · rw [hrun] at hok
    cases hok
  · rw [hrun] at hok
    cases hok
    rcases removeFromUpdates_ranges h.ranges i with ⟨hranges, hcovers⟩
    refine ⟨h.changeLock, hranges, fun k => ?_, removeFromAddRemove_noUpdates h.addRemoves hrun,
      h.permutation⟩
    rw [hcovers k, h.covers, h.covers, updatedAt_remove]

theorem Tracks.removeAll (front back : Marked E) (removed : Marked E) :
    ∀ {b : Builder E}, Tracks (front ++ removed ++ back) b →
      b.nextRemoveAll front.length (removed.map Prod.fst) = .ok b' → Tracks (front ++ back) b' := by
  induction removed with
  | nil =>
    intro b h hok
    cases checkState_bind h.locked hok
    rwa [append_nil] at h
  | cons x removed ih =>
    intro b h hok
    have hok := checkState_bind h.locked hok
    rw [map_cons, foldlM_cons] at hok
    rcases hrun : b.nextRemove front.length x.1 with e | b₁
    · rw [hrun] at hok
      cases hok
    · rw [hrun, ok_bind] at hok
      have h₁ := h.remove hrun
      rw [append_assoc, eraseIdx_append_of_length_le (Nat.le_refl _), Nat.sub_self,
        cons_append, eraseIdx_cons_zero, ← append_assoc] at h₁
      refine ih h₁ ?_
      rw [Builder.nextRemoveAll, ListChangeBuilderReplay.checkState_eq_ok h₁.locked]
      exact hok

variable {order : EntryOrder E}

theorem Tracks.permute (h : Tracks l b) {p : RangePerm} (hp : p.IsBijection l.length)
    (hlen : l'.length = l.length) (hperm : ∀ i, i < l.length → l'[p.newIndex i]? = l[i]?)
    (hok : b.nextPermutation order l.length p.fromIdx p.toIdx p.perm = .ok b') :
    Tracks l' b' := by
  have hok := checkState_bind h.locked hok
  rcases hpre : prePermutation l.length b.addRemoveChanges p with e | pre
  · rw [hpre] at hok
    cases hok
  · rw [hpre, ok_bind] at hok
    rcases hcompose : composePermutation b.permutationChange pre with e | permutationChange
    · rw [hcompose] at hok
      cases hok
    · rw [hcompose, ok_bind] at hok
      rcases hrun : permuteAddRemoves order p b.addRemoveChanges with e | addRemoveChanges
      · rw [hrun] at hok
        cases hok
      · rw [hrun, ok_bind] at hok
        rcases permuteUpdates_ranges hp (fun k hk => ((h.covers k).mp hk).nonneg) with
          ⟨updateChanges, hupds, hranges, hcovers⟩
        rw [hupds] at hok
        cases hok
        refine ⟨h.changeLock, hranges, fun k => ?_, permuteAddRemoves_noUpdates hrun, ?_⟩
        · rw [hcovers k, updatedAt_permute hp hlen hperm]
          exact exists_congr fun j => and_congr_left fun _ => h.covers j
        · intro c hc
          rw [← Option.some.inj hc]
          exact composePermutation_updated h.permutation hcompose

theorem Edit.reportOn_eq_ok (run : Builder E → Outcome (Builder E)) {k k' : Keeper E}
    (h : reportOn run k = .ok k') : run k.builder = .ok k'.builder := by
  rw [reportOn] at h
  rcases hrun : run k.builder with e | b
  · rw [hrun] at h
    cases h
  · rw [hrun] at h
    cases h
    rfl

theorem nextPermutation_own {n : Nat} {k k' : Keeper E} {p : PassedPerm}
    (hown : k.kept ≠ some p.array) (hok : k.nextPermutation order n p = .ok k') :
    k.builder.nextPermutation order n p.fromIdx p.toIdx p.perm = .ok k'.builder := by
  rcases Data.bind_eq_ok.mp hok with ⟨-, -, hok⟩
  rcases Data.bind_eq_ok.mp hok with ⟨pre, -, hok⟩
  dsimp only at hok
  rw [if_neg hown] at hok
  rcases Data.bind_eq_ok.mp hok with ⟨b, hb, hok⟩
  cases hok
  exact hb

theorem Tracks.edit {k k' : Keeper E} (h : Tracks l k.builder) {e : Edit E}
    (met : e.PassesOwn k) (leads : e.Leads l l') (reports : e.report order l k = .ok k') :
    Tracks l' k'.builder := by
  cases e with
  | update i =>
    rcases leads with ⟨hi, rfl⟩
    rw [Edit.report] at reports
    exact h.update hi (Edit.reportOn_eq_ok _ reports)
  | add i block =>
    rcases leads with ⟨hi, rfl⟩
    rw [Edit.report] at reports
    exact h.add block hi (Edit.reportOn_eq_ok _ reports)
  | remove i =>
    rcases leads with ⟨hi, rfl⟩
    rw [Edit.report, getElem?_eq_getElem hi] at reports
    exact h.remove (Edit.reportOn_eq_ok _ reports)
  | removeAll i count =>
    rcases leads with ⟨hcnt, rfl⟩
    have hsplit : l = l.take i ++ (l.drop i).take count ++ l.drop (i + count) := by
      rw [append_assoc, ← drop_drop, take_append_drop, take_append_drop]
    have hfront : (l.take i).length = i := by rw [length_take, Nat.min_eq_left (by omega)]
    rw [hsplit] at h
    refine Tracks.removeAll _ _ _ h ?_
    rw [hfront]
    rw [Edit.report] at reports
    exact Edit.reportOn_eq_ok _ reports
  | permute p =>
    rcases leads with ⟨hp, hlen, hperm⟩
    exact h.permute hp hlen hperm (nextPermutation_own met reports)

theorem reported_tracks {before : List E} {k : Keeper E}
    (h : Reported (fun k e => e.PassesOwn k) order before l k) : Tracks l k.builder := by
  induction h with
  | begin =>
    refine ⟨rfl, UpdateRanges.nil, fun k => ?_, (fun c hc => nomatch hc), fun c hc => nomatch hc⟩
    exact iff_of_false (not_covers_nil k) (updatedAt_begin before k)
  | edit e run met leads reports ih => exact ih.edit met leads reports

variable {cs : List (SubChange E)}

theorem compress_ranges (h : UpdateRanges cs) :
    ∃ cs', (if cs ≠ [] then compress cs else pure []) = .ok cs' ∧ UpdateRanges cs' ∧
      ∀ k, Covers cs' k ↔ Covers cs k := by
  rcases cs with _ | ⟨prev, cs⟩
  · exact ⟨[], rfl, h, fun _ => Iff.rfl⟩
  · rcases compressFrom_ranges cs prev h with ⟨cs', hrun, hranges, -, hcovers⟩
    exact ⟨cs', hrun, hranges, hcovers⟩

theorem compress_noUpdates {cs' : List (SubChange E)} (h : NoUpdates cs)
    (hok : (if cs ≠ [] then compress cs else pure []) = .ok cs') : NoUpdates cs' := by
  rcases cs with _ | ⟨prev, cs⟩
  · cases hok
    exact h
  · exact compressFrom_noUpdates cs prev h hok

/-- The update sub-changes among those that are fired. -/
def firedUpdates (fired : Option (List (SubChange E))) : List (SubChange E) :=
  (fired.getD []).filter SubChange.updated

theorem firedUpdates_finalized {permutation : Option (SubChange E)}
    {addRemoves updates : List (SubChange E)} (hpermutation : ∀ c ∈ permutation, c.updated = false)
    (haddRemoves : NoUpdates addRemoves) (hupds : UpdateRanges updates) :
    firedUpdates (some ((permutation.toList ++ addRemoves ++ updates).map
      Builder.finalizeSubChange)) = updates.map Builder.finalizeSubChange := by
  have hnone : ∀ c ∈ (permutation.toList ++ addRemoves).map Builder.finalizeSubChange,
      ¬c.updated = true := by
    intro c hc
    rcases mem_map.mp hc with ⟨d, hd, rfl⟩
    rw [Bool.not_eq_true]
    rcases mem_append.mp hd with hd | hd
    · exact hpermutation d (Option.mem_toList.mp hd)
    · exact haddRemoves d hd
  have hall : ∀ c ∈ updates.map Builder.finalizeSubChange, c.updated = true := by
    intro c hc
    rcases mem_map.mp hc with ⟨d, hd, rfl⟩
    exact (hupds.updated d hd).1
  rw [firedUpdates, Option.getD_some, map_append, filter_append,
    filter_eq_nil_iff.mpr hnone, filter_eq_self.mpr hall, nil_append]

theorem separate_finalized (h : Separate cs) :
    Separate (cs.map Builder.finalizeSubChange) :=
  pairwise_map.mpr h

theorem covers_finalized :
    Covers (cs.map Builder.finalizeSubChange) k ↔ Covers cs k := by
  constructor
  · rintro ⟨c, hc, hrange⟩
    rcases mem_map.mp hc with ⟨d, hd, rfl⟩
    exact ⟨d, hd, hrange⟩
  · rintro ⟨d, hd, hrange⟩
    exact ⟨_, mem_map_of_mem hd, hrange⟩

theorem commit_eq (hlock : b.changeLock = 0)
    (hsome : b.addRemoveChanges ≠ [] ∨ b.updateChanges ≠ [] ∨ b.permutationChange.isSome)
    (hsize : b.updateChanges.length + b.addRemoveChanges.length +
      (if b.permutationChange.isSome then 1 else 0) ≠ 1) :
    b.commit = (if b.updateChanges ≠ [] then compress b.updateChanges else pure []) >>=
      fun updates => (if b.addRemoveChanges ≠ [] then compress b.addRemoveChanges else pure []) >>=
        fun addRemoves => .ok (Builder.new, some ((b.permutationChange.toList ++ addRemoves ++
          updates).map Builder.finalizeSubChange)) := by
  rw [Builder.commit, if_pos ⟨hlock, hsome⟩]
  rw [if_neg hsize]
  rcases b with ⟨lock, _ | ⟨c, addRemoves⟩, _ | ⟨d, updates⟩, permutation⟩
  · rfl
  · rfl
  · rfl
  · rfl

theorem Tracks.fires (h : Tracks l b) {fired : Option (List (SubChange E))}
    (hok : b.endChange = .ok (b', fired)) :
    ∃ updates, firedUpdates fired = updates.map Builder.finalizeSubChange ∧
      UpdateRanges updates ∧ ∀ k, Covers updates k ↔ UpdatedAt l k := by
  rw [Builder.endChange, h.changeLock, if_neg (by omega)] at hok
  rcases Decidable.em (b.addRemoveChanges ≠ [] ∨ b.updateChanges ≠ [] ∨
    b.permutationChange.isSome) with hsome | hnone
  · rcases Decidable.em (b.updateChanges.length + b.addRemoveChanges.length +
      (if b.permutationChange.isSome then 1 else 0) = 1) with hone | hmore
    · rw [Builder.commit, if_pos ⟨rfl, hsome⟩] at hok
      rw [if_pos hone] at hok
      cases hok
      exact ⟨_, firedUpdates_finalized h.permutation h.addRemoves h.ranges, h.ranges, h.covers⟩
    · rcases compress_ranges h.ranges with ⟨updates, hupds, hranges, hcovers⟩
      rw [commit_eq (b := { b with changeLock := 1 - 1 }) rfl hsome hmore] at hok
      rw [hupds] at hok
      rcases hrun : (if b.addRemoveChanges ≠ [] then compress b.addRemoveChanges else pure [] :
        Outcome (List (SubChange E))) with e | addRemoves
      · rw [hrun] at hok
        cases hok
      · rw [hrun] at hok
        cases hok
        exact ⟨updates,
          firedUpdates_finalized h.permutation (compress_noUpdates h.addRemoves hrun) hranges,
          hranges, fun k => (hcovers k).trans (h.covers k)⟩
  · rw [Builder.commit, if_neg (fun hboth => hnone hboth.2)] at hok
    cases hok
    rw [not_or, not_or, not_not, not_not] at hnone
    exact ⟨b.updateChanges, by rw [hnone.2.1]; rfl, h.ranges, h.covers⟩

/-- The update sub-changes are sorted and disjoint, and what they cover is where those elements are
at the end for which an update was reported. -/
def UpdatesExact (l : Marked E) (fired : Option (List (SubChange E))) : Prop :=
  Separate (firedUpdates fired) ∧ (∀ c ∈ firedUpdates fired, c.fromIdx ≤ c.toIdx) ∧
    ∀ i, Covers (firedUpdates fired) i ↔ ∃ j : Nat, i = j ∧ ∃ x, l[j]? = some (x, true)

/-- Where no permutation is passed in an array that the builder keeps, the updates are exact. -/
theorem reported_updates {order : EntryOrder E} {before : List E} {k : Keeper E}
    (h : Reported (fun k e => e.PassesOwn k) order before l k)
    {fired : Option (List (SubChange E))} (hok : k.builder.endChange = .ok (b', fired)) :
    UpdatesExact l fired := by
  rcases (reported_tracks h).fires hok with ⟨updates, heq, hranges, hcovers⟩
  rw [UpdatesExact, heq]
  refine ⟨separate_finalized hranges.separate, ?_, fun k => covers_finalized.trans (hcovers k)⟩
  intro c hc
  rcases mem_map.mp hc with ⟨d, hd, rfl⟩
  exact hranges.le d hd

/-- The last element is updated, one comes in before it, and the list is turned round. -/
theorem reported_updates_permuted :
    ∃ fired : Option (List (SubChange Char)),
      UpdatesExact [('b', true), ('c', false), ('a', false)] fired ∧
      firedUpdates fired = [⟨0, 1, some [], [], true⟩] := by
  let order : EntryOrder Char := ⟨id, fun map => List.Perm.refl map⟩
  let Meets (k : Keeper Char) (e : Edit Char) := e.PassesOwn k
  have hupdate : Reported Meets order ['a', 'b'] [('a', false), ('b', true)] _ :=
    .edit (.update 1) .begin trivial ⟨by decide, rfl⟩ rfl
  have hadd : Reported Meets order ['a', 'b'] [('a', false), ('c', false), ('b', true)] _ :=
    .edit (.add 1 ['c']) hupdate trivial ⟨by decide, rfl⟩ rfl
  have hpermute : Reported Meets order ['a', 'b'] [('b', true), ('c', false), ('a', false)] _ :=
    .edit (.permute ⟨⟨0, 3, [2, 1, 0]⟩, 0⟩) hadd (Option.some_ne_none 0).symm
      ⟨⟨by decide, by decide, by decide, by decide, by decide, by decide⟩, rfl, by decide⟩ rfl
  exact ⟨_, reported_updates hpermute rfl, rfl⟩

/-- An array that is passed twice is overwritten before the update is moved by it. -/
theorem not_exact_passed_twice :
    ¬∀ (order : EntryOrder Char) (before : List Char) (l : Marked Char) (k : Keeper Char)
      (b : Builder Char) (fired : Option (List (SubChange Char))),
      Reported (fun _ _ => True) order before l k → k.builder.endChange = .ok (b, fired) →
        UpdatesExact l fired := by
  intro hall
  let order : EntryOrder Char := ⟨id, fun map => List.Perm.refl map⟩
  have hupdate : Reported (fun _ _ => True) order ['a', 'b', 'c']
      [('a', true), ('b', false), ('c', false)] _ :=
    .edit (.update 0) .begin trivial ⟨by decide, rfl⟩ rfl
  have hfirst : Reported (fun _ _ => True) order ['a', 'b', 'c']
      [('c', false), ('a', true), ('b', false)] _ :=
    .edit (.permute ⟨⟨0, 3, [1, 2, 0]⟩, 0⟩) hupdate trivial
      ⟨⟨by decide, by decide, by decide, by decide, by decide, by decide⟩, rfl, by decide⟩ rfl
  have hsecond : Reported (fun _ _ => True) order ['a', 'b', 'c']
      [('b', false), ('c', false), ('a', true)] _ :=
    .edit (.permute ⟨⟨0, 3, [1, 2, 0]⟩, 0⟩) hfirst trivial
      ⟨⟨by decide, by decide, by decide, by decide, by decide, by decide⟩, rfl, by decide⟩ rfl
  rcases ((hall order _ _ _ _ _ hsecond rfl).2.2 2).mpr ⟨2, rfl, 'a', rfl⟩ with
    ⟨c, hc, hfrom, hto⟩
  rw [show firedUpdates _ = [(⟨0, 1, some [], [], true⟩ : SubChange Char)] from rfl,
    mem_singleton] at hc
  subst hc
  exact absurd hto (by decide)

end

end OpenJfx.Collections.ListChangeBuilder.UpdateTracking
