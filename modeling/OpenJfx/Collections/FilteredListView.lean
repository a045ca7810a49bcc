import OpenJfx.Collections.FilteredListSpec
import OpenJfx.Collections.SortHelperMerge

namespace OpenJfx.Collections.Filtered

open Java.Arrays Collections.ListChange Collections.ListChangeBuilder Data.Positions List

variable {E H P : Type}

section

variable (passes : E → Bool)

theorem presentAt_spec (front : List Int) (b : Bool) (flags : List Bool) (start : Int)
    {filtered : List Int} (h : front ++ positions start (b :: flags) <+: filtered) :
    updateEntries.presentAt filtered (front ++ positions start (b :: flags)).length front.length
      start = .ok b := by
  rw [updateEntries.presentAt]
  cases b with
  | true =>
    have hload : load filtered (front.length : Int) = .ok start := load_used h
    rw [if_pos (by simp [positions]), hload, ok_bind, decide_eq_true rfl]
  | false =>
    split_ifs with hlt
    · obtain ⟨k, rest, hrest⟩ : ∃ k rest, positions start (false :: flags) = k :: rest :=
        exists_cons_of_length_pos (by rw [length_append] at hlt; omega)
      have hk : start < k := by
        have hmem : k ∈ positions (start + 1) flags := by
          rw [positions] at hrest
          rw [hrest]
          exact mem_cons_self
        have := bounds_of_mem_positions hmem
        omega
      rw [hrest] at h
      rw [load_used h, ok_bind, decide_eq_false (by omega)]
    · rfl

/-- The calls of `update` for the elements of its range, the first of which has the view index
`pos`; the flags tell which of them have been shown. -/
def updateCalls : Nat → List Bool → List E → List (Call E)
  | pos, true :: flags, e :: todo =>
    if passes e then .nextUpdate pos :: updateCalls (pos + 1) flags todo
    else .nextRemove pos e :: updateCalls pos flags todo
  | pos, false :: flags, e :: todo =>
    if passes e then .nextAdd pos (pos + 1) :: updateCalls (pos + 1) flags todo
    else updateCalls pos flags todo
  | _, _, _ => []

/-- The loop of `update`: the flags of the range `todo` are replaced by the results of
the test. -/
theorem updateEntries_spec (todo : List E) :
    ∀ (done later : List E) (front : List Int) (fr fs : List Bool) (filtered : List Int)
      (fuel : Nat), fr.length = todo.length →
      front ++ positions done.length (fr ++ fs) <+: filtered →
      front.length + (fr ++ fs).length ≤ filtered.length → todo.length < fuel →
      ∃ filtered', Makes (updateCalls passes front.length fr todo)
          (updateEntries passes (done ++ todo ++ later)
            ((done ++ todo).length : Nat) fuel done.length
            front.length (front ++ positions done.length fr).length filtered
            (front ++ positions done.length (fr ++ fs)).length)
          (fun builder => (filtered',
            (front ++ positions done.length (todo.map passes ++ fs)).length, builder)) ∧
        front ++ positions done.length (todo.map passes ++ fs) <+: filtered' ∧
        filtered'.length = filtered.length := by
  induction todo with
  | nil =>
    intro done later front fr fs filtered fuel hfr h _ hfuel
    obtain rfl := length_eq_zero_iff.mp hfr
    obtain ⟨fuel, rfl⟩ := Nat.exists_eq_succ_of_ne_zero (Nat.ne_of_gt hfuel)
    exact ⟨filtered, makes_nil fun _ => by simp [updateEntries], by simpa using h, rfl⟩
  | cons e todo ih =>
    intro done later front fr fs filtered fuel hfr h hroom hfuel
    obtain ⟨b, fr, rfl⟩ := exists_cons_of_length_eq_add_one hfr
    obtain ⟨fuel, rfl⟩ := Nat.exists_eq_succ_of_ne_zero (Nat.ne_of_gt (Nat.zero_lt_of_lt hfuel))
    simp only [length_cons, cons_append, Nat.add_right_cancel_iff] at hfr hfuel hroom h
    have hnext : next (done ++ e :: todo ++ later) (done.length : Int) = .ok e := by
      simpa using next_append done e (todo ++ later)
    have hsrc : done ++ e :: todo ++ later = (done ++ [e]) ++ todo ++ later := by simp
    have hend : (done ++ e :: todo).length = ((done ++ [e]) ++ todo).length := by simp
    have hpresent := presentAt_spec front b (fr ++ fs) done.length h
    have hlt : (done.length : Int) < ((done ++ e :: todo).length : Nat) := by
      simp only [length_append, length_cons]
      omega
    have hfront : (front ++ [(done.length : Int)]).length = front.length + 1 := by simp
    cases b with
    | true =>
      by_cases hpass : passes e
      · -- the element stays
        obtain ⟨filtered', hmakes, h', hlen'⟩ :=
          ih (done ++ [e]) later (front ++ [(done.length : Int)]) fr fs filtered fuel
            hfr (by simpa [positions] using h)
            (by simp only [length_append, length_singleton] at hroom ⊢; omega)
            (by omega)
        refine ⟨filtered', ?_, by simpa [hpass, positions] using h', hlen'⟩
        rw [updateCalls, if_pos hpass]
        rw [hfront] at hmakes
        refine (Makes.cons (fun builder => rfl) hmakes).congr (fun builder => ?_) ?_
        · rw [updateEntries, if_pos (Or.inr hlt), hnext, ok_bind, cons_append, hpresent,
            ok_bind, if_pos rfl, if_pos hpass, hsrc, hend]
          simp [positions, Builder.call]
        · simp [hpass, positions]
      · -- the element is taken out
        obtain ⟨filtered₁, hcopy, h₁, hlen₁⟩ := arraycopy_left
          (show front ++ [(done.length : Int)] ++ positions (done.length + 1) (fr ++ fs) <+:
            filtered by simpa [positions] using h)
        obtain ⟨filtered', hmakes, h', hlen'⟩ :=
          ih (done ++ [e]) later front fr fs filtered₁ fuel hfr (by simpa using h₁)
            (by omega) (by omega)
        refine ⟨filtered', ?_, by simpa [hpass, positions] using h', hlen'.trans hlen₁⟩
        have hcnt : ((front ++ positions done.length (true :: (fr ++ fs))).length : Int) -
            front.length - 1 = (positions (done.length + 1) (fr ++ fs)).length := by
          rw [length_append, positions, length_cons]
          omega
        rw [length_singleton] at hcopy
        have hnat : ((front.length + 1 : Nat) : Int) = (front.length : Int) + 1 := by simp
        rw [updateCalls, if_neg hpass]
        refine (Makes.cons (fun builder => rfl) hmakes).congr (fun builder => ?_) ?_
        · rw [updateEntries, if_pos (Or.inr hlt), hnext, ok_bind, cons_append, hpresent,
            ok_bind, if_pos rfl, if_neg hpass, hcnt, ← hnat, hcopy, hsrc, hend]
          simp [positions, Builder.call]
        · simp [hpass, positions]
    | false =>
      by_cases hpass : passes e
      · -- the element comes in
        have hfit := length_positions_le (fr ++ fs) ((done.length : Int) + 1)
        obtain ⟨filtered₁, gap, hcopy, hgap, h₁, hlen₁⟩ := arraycopy_right 1 h (by
          rw [positions]
          omega)
        obtain ⟨old, rfl⟩ := length_eq_one_iff.mp hgap
        obtain ⟨filtered₂, hstore, h₂, hlen₂⟩ := store_used (done.length : Int)
          (show front ++ old :: positions done.length (false :: (fr ++ fs)) <+: filtered₁ by
            simpa using h₁)
        obtain ⟨filtered', hmakes, h', hlen'⟩ :=
          ih (done ++ [e]) later (front ++ [(done.length : Int)]) fr fs filtered₂ fuel
            hfr (by simpa [positions] using h₂)
            (by simp only [length_append, length_singleton] at hroom ⊢; omega)
            (by omega)
        refine ⟨filtered', ?_, by simpa [hpass, positions] using h',
          hlen'.trans (hlen₂.trans hlen₁)⟩
        have hcnt : ((front ++ positions done.length (false :: (fr ++ fs))).length : Int) -
            front.length = (positions done.length (false :: (fr ++ fs))).length := by
          rw [length_append]
          omega
        have hnat : ((front.length + 1 : Nat) : Int) = (front.length : Int) + 1 := by simp
        have hsize : (front ++ positions done.length (false :: (fr ++ fs))).length + 1 =
            (front ++ [(done.length : Int)] ++
              positions (done ++ [e]).length (fr ++ fs)).length := by
          simp [positions]
          omega
        have hfilterTo : (front ++ positions done.length (false :: fr)).length + 1 =
            (front ++ [(done.length : Int)] ++ positions (done ++ [e]).length fr).length := by
          simp [positions]
          omega
        rw [updateCalls, if_pos hpass]
        rw [hfront] at hmakes
        refine (Makes.cons (fun builder => rfl) hmakes).congr (fun builder => ?_) ?_
        · rw [updateEntries, if_pos (Or.inr hlt), hnext, ok_bind, cons_append, hpresent,
            ok_bind, if_neg (by decide), if_pos hpass, hcnt, ← hnat, hcopy, hsrc, hend,
            hsize, hfilterTo]
          simp [Builder.call, hstore]
        · simp [hpass, positions]
      · -- the element stays out
        obtain ⟨filtered', hmakes, h', hlen'⟩ :=
          ih (done ++ [e]) later front fr fs filtered fuel hfr
            (by simpa [positions] using h) (by omega) (by omega)
        refine ⟨filtered', ?_, by simpa [hpass, positions] using h', hlen'⟩
        rw [updateCalls, if_neg hpass]
        refine hmakes.congr (fun builder => ?_) ?_
        · rw [updateEntries, if_pos (Or.inr hlt), hnext, ok_bind, cons_append, hpresent,
            ok_bind, if_neg (by decide), if_neg hpass, hsrc, hend]
          simp [positions]
        · simp [hpass, positions]

theorem update_makes {l : FilteredList E P} {c : SubChange E} (done todo later : List E)
    (fk fr fs : List Bool) (h : Holds (fk ++ fr ++ fs) l) (hfk : fk.length = done.length)
    (hfr : fr.length = todo.length) (hfs : fs.length = later.length)
    (hfrom : c.fromIdx = done.length) (hto : c.toIdx = c.fromIdx + todo.length) :
    ∃ filtered size, Makes (updateCalls passes (positions 0 fk).length fr todo)
        (fun builder => update passes (done ++ todo ++ later) { l with builder := builder } c)
        (fun builder => { l with filtered, size, builder }) ∧
      Holds (fk ++ todo.map passes ++ fs) { l with filtered, size } ∧
      filtered.length = grownLength l.filtered.length (done ++ todo ++ later).length := by
  obtain ⟨hused, hsize⟩ := h
  obtain ⟨filtered₁, hensure, h₁, hlen₁⟩ := ensureSize_spec hused (done ++ todo ++ later).length
  rw [← hsize] at hensure
  have hgrown := le_grownLength l.filtered.length (done ++ todo ++ later).length
  have hfilterFrom : findPosition filtered₁ l.size c.fromIdx = .ok (positions 0 fk).length := by
    rw [hsize, append_assoc]
    exact findPosition_positions fk (fr ++ fs) (by rwa [append_assoc] at h₁) (by omega)
  have hfilterTo : findPosition filtered₁ l.size c.toIdx = .ok (positions 0 (fk ++ fr)).length := by
    rw [hsize]
    exact findPosition_positions (fk ++ fr) fs h₁ (by rw [length_append]; omega)
  have hiter : listIterator (done ++ todo ++ later) c.fromIdx = .ok c.fromIdx := by
    rw [listIterator, if_pos (by simp only [length_append]; omega)]
  have hfit := length_positions_le fk 0
  rw [positions_append, hfk, Int.zero_add] at hfilterTo
  rw [append_assoc, positions_append, hfk, Int.zero_add] at h₁ hsize
  obtain ⟨filtered₂, hmakes, h₂, hlen₂⟩ := updateEntries_spec passes todo done
    later (positions 0 fk) fr fs filtered₁
    ((((done ++ todo ++ later).length : Int) - c.fromIdx).toNat + 1) hfr h₁
    (by simp only [length_append] at hgrown hlen₁ ⊢; omega)
    (by simp only [length_append]; omega)
  have hres : positions 0 fk ++ positions done.length (todo.map passes ++ fs) =
      positions 0 (fk ++ todo.map passes ++ fs) := by
    rw [append_assoc, positions_append fk, hfk, Int.zero_add]
  rw [hres] at hmakes h₂
  have hend : c.toIdx = ((done ++ todo).length : Nat) := by
    simp only [length_append]
    omega
  refine ⟨filtered₂, _, ?_, ⟨h₂, rfl⟩, hlen₂.trans hlen₁⟩
  refine Makes.map (f := fun r : List Int × Nat × Builder E =>
    ({ l with filtered := r.1, size := r.2.1, builder := r.2.2 } : FilteredList E P)) hmakes
    fun builder => ?_
  rw [update]
  rw [hensure, ok_bind, hfilterFrom, ok_bind, hfilterTo, ok_bind, hiter, ok_bind, hend, hsize,
    hfrom]

theorem update_spec {l : FilteredList E P} {c : SubChange E} (done todo later : List E)
    (fk fr fs : List Bool) (h : Shows (fk ++ fr ++ fs) l) (hfk : fk.length = done.length)
    (hfr : fr.length = todo.length) (hfs : fs.length = later.length)
    (hfrom : c.fromIdx = done.length) (hto : c.toIdx = c.fromIdx + todo.length) :
    ∃ l', update passes (done ++ todo ++ later) l c = .ok l' ∧
      Shows (fk ++ todo.map passes ++ fs) l' ∧
      l'.filtered.length = grownLength l.filtered.length (done ++ todo ++ later).length ∧
      l'.predicate = l.predicate := by
  obtain ⟨filtered, size, hmakes, hholds, hlen⟩ := update_makes passes done todo later fk fr fs
    ⟨h.used, h.size⟩ hfk hfr hfs hfrom hto
  obtain ⟨builder, hrun, husable⟩ := hmakes.usable h.usable
  exact ⟨_, hrun, ⟨hholds.used, hholds.size, husable⟩, hlen, rfl⟩

end

variable {c : SubChange E} {before middle : List E}

theorem flag_newIndex (hperms : c.Permutes before middle) (old : E → Bool) {i : Nat}
    (hi : i < before.length) :
    (middle.map old)[c.newIndex i]? = (before.map old)[i]? := by
  rw [getElem?_map, getElem?_map, hperms.2 i hi]

theorem positions_permuted (hc : c.IsPermutation before.length)
    (hperms : c.Permutes before middle) (old : E → Bool) (sorted : List Int)
    {fk fr fs : List Bool} (hflags : before.map old = fk ++ fr ++ fs)
    (hfk : (fk.length : Int) = c.fromIdx) (hfr : (fr.length : Int) = c.toIdx - c.fromIdx)
    (hsort : sorted.Pairwise (· < ·))
    (hmem : ∀ k, k ∈ sorted ↔ ∃ j ∈ positions c.fromIdx fr, k = (c.newIndex j.toNat : Int)) :
    positions 0 fk ++ sorted ++ positions c.toIdx fs = positions 0 (middle.map old) := by
  -- the positions before the permutation, cut at the bounds of the range
  have hold : positions 0 (before.map old) =
      positions 0 fk ++ positions c.fromIdx fr ++ positions c.toIdx fs := by
    rw [hflags, positions_append, positions_append, length_append]
    congr 3
    · omega
    · push_cast
      omega
  have hset : ∀ {j : Int}, j ∈ positions 0 (before.map old) →
      ∃ i : Nat, j = i ∧ i < before.length ∧ (before.map old)[i]? = some true := by
    intro j hj
    obtain ⟨i, hi, rfl⟩ := mem_positions_iff.mp hj
    exact ⟨i, by omega, by simpa using (List.getElem?_eq_some_iff.mp hi).1, hi⟩
  have hin : ∀ k ∈ sorted, c.fromIdx ≤ k ∧ k < c.toIdx := by
    intro k hk
    obtain ⟨j, hj, rfl⟩ := (hmem k).mp hk
    obtain ⟨hlow, hhigh⟩ := bounds_of_mem_positions hj
    exact (hc.getPermutation_eq (i := j.toNat) (by omega) (by omega)).2
  refine eq_of_mem_iff ?_ (pairwise_positions _ _) ?_
  · refine pairwise_append.mpr ⟨pairwise_append.mpr ⟨pairwise_positions _ _, hsort, ?_⟩,
      pairwise_positions _ _, ?_⟩
    · intro j hj k hk
      have := bounds_of_mem_positions hj
      have := hin k hk
      omega
    · intro j hj k hk
      have := bounds_of_mem_positions hk
      rcases mem_append.mp hj with hj | hj
      · have := bounds_of_mem_positions hj
        omega
      · have := hin j hj
        omega
  · intro k
    have hstay : ∀ i : Nat, ¬ (c.fromIdx ≤ i ∧ i < c.toIdx) → c.newIndex i = i :=
      fun i hi => by rw [SubChange.newIndex, if_neg hi]
    constructor
    · intro hk
      -- `k` is the new index of a position that is set
      obtain ⟨j, hj, rfl⟩ : ∃ j ∈ positions 0 (before.map old), k = (c.newIndex j.toNat : Int) := by
        rw [hold]
        rcases mem_append.mp hk with hk | hk
        · rcases mem_append.mp hk with hk | hk
          · have := bounds_of_mem_positions hk
            refine ⟨k, by simp [hk], ?_⟩
            rw [hstay _ (by omega)]
            omega
          · obtain ⟨j, hj, rfl⟩ := (hmem k).mp hk
            exact ⟨j, by simp [hj], rfl⟩
        · have := bounds_of_mem_positions hk
          refine ⟨k, by simp [hk], ?_⟩
          rw [hstay _ (by omega)]
          omega
      obtain ⟨i, rfl, hi, hflag⟩ := hset hj
      rw [Int.toNat_natCast]
      refine mem_positions_iff.mpr ⟨c.newIndex i, ?_, by omega⟩
      rw [flag_newIndex hperms old hi, hflag]
    · intro hk
      obtain ⟨m, hm, rfl⟩ := mem_positions_iff.mp hk
      rw [Int.zero_add]
      have hmlt : m < before.length := by
        rw [← hperms.1]
        simpa using (List.getElem?_eq_some_iff.mp hm).1
      obtain ⟨i, hi, rfl, hrange⟩ := hc.exists_newIndex hmlt
      rw [flag_newIndex hperms old hi] at hm
      have hiold : (i : Int) ∈ positions 0 (before.map old) :=
        mem_positions_iff.mpr ⟨i, hm, by omega⟩
      rw [hold] at hiold
      by_cases hir : c.fromIdx ≤ i ∧ i < c.toIdx
      · refine mem_append.mpr (.inl (mem_append.mpr (.inr ?_)))
        refine (hmem _).mpr ⟨i, ?_, by rw [Int.toNat_natCast]⟩
        rcases mem_append.mp hiold with hiold | hiold
        · rcases mem_append.mp hiold with hiold | hiold
          · have := bounds_of_mem_positions hiold
            omega
          · exact hiold
        · have := bounds_of_mem_positions hiold
          omega
      · rw [hstay i hir]
        rcases mem_append.mp hiold with hiold | hiold
        · rcases mem_append.mp hiold with hiold | hiold
          · simp [hiold]
          · have := bounds_of_mem_positions hiold
            omega
        · simp [hiold]

theorem sort_distinct (front l back : List Int) (hnd : l.Nodup) :
    ∃ sorted perm, SortHelper.sort SortHelper.compareTo (front ++ (l ++ back)) front.length
        ((front.length + l.length : Nat) : Int) = .ok (front ++ (sorted ++ back), perm) ∧
      sorted.Perm l ∧ sorted.Pairwise (· < ·) ∧ perm.length = l.length := by
  obtain ⟨z, perm, hsort, hperm, hsorted, hlen, -⟩ :=
    SortHelper.sort_spec SortHelper.totalPreorder_compareTo front l back
  have hperm' : (SortHelper.elements z).Perm l := by
    have := hperm.map Prod.fst
    rwa [← SortHelper.elements, ← SortHelper.elements, SortHelper.elements_tagFrom] at this
  refine ⟨SortHelper.elements z, perm, hsort, hperm', ?_, hlen⟩
  have hle : (SortHelper.elements z).Pairwise (· ≤ ·) := by
    refine pairwise_map.mpr (hsorted.imp fun {x y} h => ?_)
    simp only [SortHelper.compareTo] at h
    split_ifs at h <;> omega
  exact (hle.and (hperm'.nodup_iff.mpr hnd)).imp fun {x y} h => by omega

theorem permutate_spec (order : EntryOrder E) {l : FilteredList E P}
    (hc : c.IsPermutation before.length) (hperms : c.Permutes before middle) (old : E → Bool)
    (h : Shows (before.map old) l) (hbld : l.builder = Builder.new.beginChange) :
    ∃ l', permutate order l c = .ok l' ∧ Shows (middle.map old) l' ∧
      l'.filtered.length = l.filtered.length ∧ l'.size = l.size ∧ l'.predicate = l.predicate := by
  obtain ⟨hused, hsize, husable⟩ := h
  obtain ⟨fk, fr, fs, hflags, hfk, hfr⟩ := exists_cut (before.map old) hc.fromIdx_nonneg
    (Int.le_of_lt hc.fromIdx_lt) (by simpa using hc.toIdx_le)
  rw [hflags] at hused hsize
  have hfromPos : findPosition l.filtered l.size c.fromIdx = .ok (positions 0 fk).length := by
    rw [hsize, append_assoc]
    exact findPosition_positions fk (fr ++ fs) (by rwa [append_assoc] at hused) hfk.symm
  have htoPos : findPosition l.filtered l.size c.toIdx = .ok (positions 0 (fk ++ fr)).length := by
    rw [hsize]
    exact findPosition_positions (fk ++ fr) fs hused (by rw [length_append]; omega)
  have hkr : ((fk ++ fr).length : Int) = c.toIdx := by
    rw [length_append]
    omega
  rw [positions_append, hfk, Int.zero_add] at htoPos
  rw [positions_append, positions_append, hkr, hfk, Int.zero_add, Int.zero_add] at hused hsize
  have hbounds : ∀ k ∈ positions c.fromIdx fr, c.fromIdx ≤ k ∧ k < c.toIdx := by
    intro k hk
    have := bounds_of_mem_positions hk
    omega
  rw [permutate, hfromPos, ok_bind, htoPos, ok_bind, length_append]
  by_cases hemp : positions c.fromIdx fr = []
  · have hsame := positions_permuted hc hperms old [] hflags hfk hfr
      List.Pairwise.nil (by simp [hemp])
    rw [hemp, hsame] at hused hsize
    rw [if_neg (by simp [hemp])]
    exact ⟨l, rfl, ⟨hused, hsize, husable⟩, rfl, rfl, rfl⟩
  · have hpos := length_pos_of_ne_nil hemp
    rw [if_pos (by omega)]
    have hcast : ∀ k ∈ positions c.fromIdx fr, ((k.toNat : Nat) : Int) = k := by
      intro k hk
      have := hbounds k hk
      omega
    have hget : ∀ k ∈ positions c.fromIdx fr,
        c.getPermutation k = .ok (c.newIndex k.toNat : Int) := by
      intro k hk
      obtain ⟨hlow, hhigh⟩ := hbounds k hk
      have := (hc.getPermutation_eq (i := k.toNat) (by omega) (by omega)).1
      rwa [hcast k hk] at this
    obtain ⟨filtered₁, hrun, h₁, hlen₁⟩ := permuteEntries_spec c
      (fun k => (c.newIndex k.toNat : Int)) (positions c.fromIdx fr) (positions 0 fk)
      (positions c.toIdx fs) l.filtered hget hused
    obtain ⟨rest, rfl⟩ := h₁
    have hnd : ((positions c.fromIdx fr).map fun k => (c.newIndex k.toNat : Int)).Nodup := by
      refine pairwise_map.mpr (List.Pairwise.imp_of_mem ?_ (pairwise_positions fr c.fromIdx))
      intro j k hj hk hjk heq
      have := hc.newIndex_inj (Int.ofNat.inj heq)
      have := hcast j hj
      omega
    obtain ⟨sorted, perm, hsort, hperm, hsorted, hlen⟩ :=
      sort_distinct (positions 0 fk) _ (positions c.toIdx fs ++ rest) hnd
    rw [length_map] at hsort hlen
    have hres := positions_permuted hc hperms old sorted hflags hfk hfr hsorted (by
      intro k
      rw [hperm.mem_iff, mem_map]
      exact exists_congr fun j => and_congr Iff.rfl eq_comm)
    obtain ⟨builder', hnext, husable', -⟩ := Builder.nextPermutation_usable order l.size husable
      (by rw [hbld]; rfl) (positions 0 fk).length
      ((positions 0 fk).length + (positions c.fromIdx fr).length : Nat) perm (by omega)
      (by rw [hbld]; rfl)
    refine ⟨⟨positions 0 fk ++ (sorted ++ (positions c.toIdx fs ++ rest)), l.size, l.predicate,
      builder'⟩, ?_, ⟨?_, ?_, husable'⟩, ?_, rfl, rfl⟩
    · rw [Nat.add_sub_cancel_left, hrun, ok_bind]
      simp only [append_assoc] at hsort ⊢
      rw [hsort, ok_bind]
      rw [hnext, ok_bind]
    · rw [← hres]
      exact ⟨rest, by simp⟩
    · rw [hsize, ← hres]
      simp only [length_append, hperm.length_eq, length_map]
    · rw [← hlen₁]
      simp only [length_append, hperm.length_eq]
      omega

end OpenJfx.Collections.Filtered
