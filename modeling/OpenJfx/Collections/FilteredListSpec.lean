import OpenJfx.Collections.FilteredList
import OpenJfx.Data.Positions

namespace OpenJfx.Collections.Filtered

open Java.Arrays Java.BinarySearch Collections.ListChange Collections.ListChangeBuilder
open Data.Positions List

variable {E P : Type}

theorem getElem?_used {α : Type} {used array : List α} (h : used <+: array) {i : Nat}
    (hi : i < used.length) : array[i]? = used[i]? := by
  obtain ⟨rest, rfl⟩ := h
  exact getElem?_append_left hi

variable {filtered used : List Int}

theorem probe_eq (h : used <+: filtered) {i : Nat} (hi : i < used.length) (p : Int) :
    probe filtered p i = compare used[i] p := by
  rw [probe, getElem?_used h hi, getElem?_eq_getElem hi]

theorem findPosition_spec {before after : List Int} {p : Int} (h : before ++ after <+: filtered)
    (hincr : (before ++ after).Pairwise (· < ·)) (hbef : ∀ k ∈ before, k < p)
    (hafter : ∀ k ∈ after, p ≤ k) (hzero : p = 0 → before = []) :
    findPosition filtered (before ++ after).length p = .ok before.length := by
  have hlen := h.length_le
  have hlt : ∀ i, i < before.length → probe filtered p i = .lt := by
    intro i hi
    have hi' : i < (before ++ after).length := by
      rw [length_append]
      omega
    rw [probe_eq h hi', Int.compare_eq_lt, getElem_append_left hi]
    exact hbef _ (getElem_mem hi)
  have hge : ∀ i, before.length ≤ i → (hi : i < (before ++ after).length) →
      p ≤ (before ++ after)[i] := by
    intro i hge hi
    rw [getElem_append_right hge]
    exact hafter _ (getElem_mem _)
  have hgt : ∀ i, before.length < i → i < (before ++ after).length → probe filtered p i = .gt := by
    intro i hlt' hi
    have hstep := (pairwise_iff_getElem.mp hincr) before.length i (by omega) hi hlt'
    have := hge before.length (Nat.le_refl _) (by omega)
    rw [probe_eq h hi, Int.compare_eq_gt]
    omega
  have hord : Ordered (probe filtered p) (before ++ after).length := by
    intro i j hij hj
    constructor
    · intro hprobe
      rcases Nat.lt_or_ge i before.length with hi | hi
      · exact hlt i hi
      · rw [probe_eq h hj, Int.compare_eq_lt] at hprobe
        have := hge j (by omega) hj
        omega
    · intro hprobe
      rcases Nat.lt_or_ge before.length j with hj' | hj'
      · exact hgt j hj' hj
      · rcases Nat.eq_or_lt_of_le hij with rfl | hij
        · exact hprobe
        · rw [hlt i (by omega)] at hprobe
          exact absurd hprobe (by decide)
  rw [findPosition]
  split_ifs with hemp hp
  · rw [hemp, length_append] at hlen
    rw [Nat.eq_zero_of_le_zero (by omega : before.length ≤ 0)]
  · rw [hzero hp]
    rfl
  · omega
  · have hrange := binarySearch_inRange (probe filtered p) (before ++ after).length
    have hsplits := binarySearch_splits (probe filtered p) (before ++ after).length hord
    cases hres : binarySearch (probe filtered p) (before ++ after).length with
    | found pos =>
      rw [hres] at hrange
      obtain ⟨hpos, heq⟩ := hrange
      rcases Nat.lt_trichotomy pos before.length with hlt' | rfl | hgt'
      · rw [hlt pos hlt'] at heq
        exact absurd heq (by decide)
      · rfl
      · rw [hgt pos hgt' hpos] at heq
        exact absurd heq (by decide)
    | insertAt pos =>
      rw [hres] at hrange hsplits
      obtain ⟨hbelow, habove⟩ := hsplits
      have hpos : pos ≤ (before ++ after).length := hrange
      rcases Nat.lt_trichotomy pos before.length with hlt' | rfl | hgt'
      · have hpos' : pos < (before ++ after).length := by
          rw [length_append]
          omega
        have := habove pos (Nat.le_refl _) hpos'
        rw [hlt pos hlt'] at this
        exact absurd this (by decide)
      · rfl
      · have hin : before.length < (before ++ after).length := by omega
        have := hbelow before.length hgt'
        rw [probe_eq h hin, Int.compare_eq_lt] at this
        have := hge before.length (Nat.le_refl _) hin
        omega

theorem findPosition_positions (f g : List Bool) (h : positions 0 (f ++ g) <+: filtered) {p : Int}
    (hp : p = f.length) :
    findPosition filtered (positions 0 (f ++ g)).length p = .ok (positions 0 f).length := by
  have hincr := pairwise_positions (f ++ g) 0
  rw [positions_append] at h hincr ⊢
  refine findPosition_spec h hincr ?_ ?_ ?_
  · intro k hk
    have := bounds_of_mem_positions hk
    omega
  · intro k hk
    have := bounds_of_mem_positions hk
    omega
  · intro hzero
    have hnil : f = [] := length_eq_zero_iff.mp (by omega)
    rw [hnil, positions_nil]

/-- The length of the array after `ensureSize`. -/
def grownLength (capacity size : Nat) : Nat :=
  if capacity < size then size * 3 / 2 + 1 else capacity

theorem le_grownLength (capacity size : Nat) : size ≤ grownLength capacity size := by
  rw [grownLength]
  split_ifs <;> omega

theorem grownLength_grownLength (capacity size : Nat) :
    grownLength (grownLength capacity size) size = grownLength capacity size := by
  have := le_grownLength capacity size
  rw [grownLength, if_neg (by omega)]

theorem ensureSize_spec (h : used <+: filtered) (size : Nat) :
    ∃ filtered', ensureSize filtered used.length size = .ok filtered' ∧ used <+: filtered' ∧
      filtered'.length = grownLength filtered.length size := by
  rw [ensureSize, grownLength]
  split_ifs with hlt
  · obtain ⟨rest, rfl⟩ := h
    have hcopy := arraycopy_append [] used rest [] (List.replicate used.length 0)
      (List.replicate (size * 3 / 2 + 1 - used.length) 0) (by simp)
    have hle : used.length ≤ size * 3 / 2 + 1 := by
      rw [length_append] at hlt
      omega
    simp only [nil_append] at hcopy
    rw [← replicate_add, Nat.add_sub_cancel' hle] at hcopy
    refine ⟨_, hcopy, prefix_append _ _, ?_⟩
    simp only [length_append, length_replicate]
    omega
  · exact ⟨filtered, rfl, h, rfl⟩

theorem updateIndexes_spec (delta : Int) (after : List Int) :
    ∀ (before filtered : List Int), before ++ after <+: filtered →
      ∃ filtered', updateIndexes delta after.length before.length filtered = .ok filtered' ∧
        before ++ after.map (· + delta) <+: filtered' ∧ filtered'.length = filtered.length := by
  induction after with
  | nil => exact fun before filtered h => ⟨filtered, rfl, h, rfl⟩
  | cons k after ih =>
    intro before filtered h
    obtain ⟨filtered₁, hstore, h₁, hlen₁⟩ := store_used (k + delta) h
    obtain ⟨filtered₂, hrun, h₂, hlen₂⟩ := ih (before ++ [k + delta]) filtered₁
      (by simpa using h₁)
    refine ⟨filtered₂, ?_, by simpa using h₂, hlen₂.trans hlen₁⟩
    rw [length_cons, updateIndexes, load_used h, ok_bind, hstore]
    simpa using hrun

theorem permuteEntries_spec (c : SubChange E) (newIndex : Int → Int) (middle : List Int) :
    ∀ (before after filtered : List Int), (∀ k ∈ middle, c.getPermutation k = .ok (newIndex k)) →
      before ++ middle ++ after <+: filtered →
      ∃ filtered', permuteEntries c middle.length before.length filtered = .ok filtered' ∧
        before ++ middle.map newIndex ++ after <+: filtered' ∧
        filtered'.length = filtered.length := by
  induction middle with
  | nil => exact fun before after filtered _ h => ⟨filtered, rfl, h, rfl⟩
  | cons k middle ih =>
    intro before after filtered hperm h
    have h' : before ++ k :: (middle ++ after) <+: filtered := by simpa using h
    obtain ⟨filtered₁, hstore, h₁, hlen₁⟩ := store_used (newIndex k) h'
    obtain ⟨filtered₂, hrun, h₂, hlen₂⟩ := ih (before ++ [newIndex k]) after filtered₁
      (fun j hj => hperm j (by simp [hj])) (by simpa using h₁)
    refine ⟨filtered₂, ?_, by simpa using h₂, hlen₂.trans hlen₁⟩
    rw [length_cons, permuteEntries, load_used h', ok_bind, hperm k (by simp), ok_bind, hstore]
    simpa using hrun

theorem markRemoved_spec (c : SubChange E) (fromPos : Nat) (flags : List Bool) :
    ∀ (gone rest : List E) (before after filtered : List Int), flags.length = rest.length →
      c.getRemoved = gone ++ rest →
      before ++ positions (c.fromIdx + gone.length) flags ++ after <+: filtered →
      Makes ((select flags rest).map (.nextRemove fromPos))
        (markRemoved c filtered fromPos (positions (c.fromIdx + gone.length) flags).length
          before.length) (fun builder => builder) := by
  induction flags with
  | nil => exact fun gone rest before after filtered _ _ _ => makes_nil fun _ => rfl
  | cons b flags ih =>
    intro gone rest before after filtered hlen hrem h
    obtain ⟨e, rest, rfl⟩ := exists_cons_of_length_eq_add_one hlen.symm
    rw [length_cons, length_cons, Nat.add_right_cancel_iff] at hlen
    have hnext :
      c.fromIdx + (gone.length : Int) + 1 = c.fromIdx + ((gone ++ [e]).length : Nat) := by
      rw [length_append, length_singleton]
      omega
    have hrem' : c.getRemoved = (gone ++ [e]) ++ rest := by rw [hrem]; simp
    cases b with
    | false =>
      rw [positions, hnext] at h ⊢
      exact ih (gone ++ [e]) rest before after filtered hlen hrem' h
    | true =>
      rw [positions, hnext] at h ⊢
      have h' : before ++ (c.fromIdx + gone.length) ::
          (positions (c.fromIdx + ((gone ++ [e]).length : Nat)) flags ++ after) <+:
            filtered := by simpa using h
      have hrest := ih (gone ++ [e]) rest (before ++ [c.fromIdx + gone.length]) after filtered
        hlen hrem' (by simpa using h)
      refine Makes.cons (fun builder => ?_) hrest
      have hbef : (before ++ [c.fromIdx + (gone.length : Int)]).length = before.length + 1 :=
        length_append
      have hidx : c.fromIdx + (gone.length : Int) - c.fromIdx = gone.length := by omega
      have hload : load c.getRemoved (gone.length : Int) = .ok e := by
        rw [hrem]
        exact load_append gone rest e
      rw [length_cons, markRemoved, load_used h', ok_bind, hidx, hload, hbef]
      rfl

theorem next_append (done : List E) (e : E) (rest : List E) :
    next (done ++ e :: rest) (done.length : Int) = .ok e := by
  rw [next, load_append]

section

variable (passes : E → Bool)

theorem replaceEntries_spec (added : List E) :
    ∀ (done later : List E) (front open_ back filtered : List Int),
      front ++ open_ ++ back <+: filtered →
      ∃ filtered' taken rest open', Makes (addCalls front.length (taken.countP passes))
          (replaceEntries passes (done ++ added ++ later) (front.length + open_.length) added.length
            done.length front.length filtered)
          (fun builder => (filtered', builder,
            (front ++ positions done.length (taken.map passes)).length,
            (((done ++ taken).length : Nat) : Int))) ∧
        added = taken ++ rest ∧ (open' = [] ∨ rest = []) ∧
        (front ++ positions done.length (taken.map passes)).length + open'.length =
          front.length + open_.length ∧
        front ++ positions done.length (taken.map passes) ++ open' ++ back <+: filtered' ∧
        filtered'.length = filtered.length := by
  induction added with
  | nil =>
    intro done later front open_ back filtered h
    exact ⟨filtered, [], [], open_, makes_nil fun _ => by simp [replaceEntries], rfl, .inr rfl,
      by simp, by simpa using h, rfl⟩
  | cons e added ih =>
    intro done later front open_ back filtered h
    cases open_ with
    | nil =>
      refine ⟨filtered, [], e :: added, [], makes_nil fun _ => ?_, rfl, .inl rfl, by simp,
        by simpa using h, rfl⟩
      simp [replaceEntries]
    | cons old open_ =>
      have hnext : next (done ++ e :: added ++ later) (done.length : Int) = .ok e := by
        simpa using next_append done e (added ++ later)
      have hsrc : done ++ e :: added ++ later = (done ++ [e]) ++ added ++ later := by simp
      have hcnt₀ : (e :: added).length = added.length + 1 := rfl
      by_cases hpass : passes e
      · have h' : front ++ old :: (open_ ++ back) <+: filtered := by simpa using h
        obtain ⟨filtered₁, hstore, h₁, hlen₁⟩ := store_used (done.length : Int) h'
        obtain ⟨filtered₂, taken, rest, open', hmakes, hsplit, hor, hcnt, h₂, hlen₂⟩ :=
          ih (done ++ [e]) later (front ++ [(done.length : Int)]) open_ back filtered₁
            (by simpa using h₁)
        have hposs : (front ++ [(done.length : Int)]) ++
            positions (done ++ [e]).length (taken.map passes) =
            front ++ positions done.length ((e :: taken).map passes) := by
          simp [hpass, positions]
        have htaken : (done ++ [e]) ++ taken = done ++ e :: taken := by simp
        rw [hposs] at hmakes hcnt h₂
        rw [htaken, ← hsrc] at hmakes
        refine ⟨filtered₂, e :: taken, rest, open', ?_, by rw [hsplit]; rfl, hor, ?_,
          h₂, hlen₂.trans hlen₁⟩
        · rw [countP_cons_of_pos hpass]
          rw [length_append, length_singleton] at hmakes
          refine Makes.cons (fun builder => ?_) hmakes
          rw [hcnt₀, replaceEntries, if_pos (by simp), hnext, ok_bind, if_pos hpass, hstore]
          simp only [length_append, Nat.add_assoc, Nat.add_comm 1]
          rfl
        · rw [hcnt]
          simp
          omega
      · obtain ⟨filtered₂, taken, rest, open', hmakes, hsplit, hor, hcnt, h₂, hlen₂⟩ :=
          ih (done ++ [e]) later front (old :: open_) back filtered h
        have hposs : positions (done ++ [e]).length (taken.map passes) =
            positions done.length ((e :: taken).map passes) := by
          simp [hpass, positions]
        have htaken : (done ++ [e]) ++ taken = done ++ e :: taken := by simp
        rw [hposs] at hmakes hcnt h₂
        rw [htaken, ← hsrc] at hmakes
        refine ⟨filtered₂, e :: taken, rest, open', ?_, by rw [hsplit]; rfl, hor, hcnt, h₂,
          hlen₂⟩
        rw [countP_cons_of_neg hpass]
        intro builder
        rw [← hmakes builder, hcnt₀, replaceEntries, if_pos (by simp), hnext, ok_bind, if_neg hpass,
          length_append]
        rfl

theorem addEntries_spec (added : List E) :
    ∀ (done later : List E) (front back filtered : List Int), front ++ back <+: filtered →
      (front ++ back).length + added.countP passes ≤ filtered.length →
      ∃ filtered', Makes (addCalls front.length (added.countP passes))
          (addEntries passes (done ++ added ++ later) added.length done.length front.length filtered
            (front ++ back).length)
          (fun builder => (filtered',
            (front ++ positions done.length (added.map passes) ++ back).length, builder)) ∧
        front ++ positions done.length (added.map passes) ++ back <+: filtered' ∧
        filtered'.length = filtered.length := by
  induction added with
  | nil =>
    intro done later front back filtered h _
    exact ⟨filtered, makes_nil fun _ => by simp [addEntries], by simpa using h, rfl⟩
  | cons e added ih =>
    intro done later front back filtered h hroom
    have hnext : next (done ++ e :: added ++ later) (done.length : Int) = .ok e := by
      simpa using next_append done e (added ++ later)
    have hsrc : done ++ e :: added ++ later = (done ++ [e]) ++ added ++ later := by simp
    have hcnt₀ : (e :: added).length = added.length + 1 := rfl
    by_cases hpass : passes e
    · rw [countP_cons_of_pos hpass] at hroom ⊢
      obtain ⟨filtered₁, gap, hcopy, hgap, h₁, hlen₁⟩ := arraycopy_right 1 h (by
        rw [length_append] at hroom
        omega)
      obtain ⟨old, rfl⟩ := length_eq_one_iff.mp hgap
      obtain ⟨filtered₂, hstore, h₂, hlen₂⟩ :=
        store_used (done.length : Int) (show front ++ old :: back <+: filtered₁ by simpa using h₁)
      obtain ⟨filtered₃, hmakes, h₃, hlen₃⟩ :=
        ih (done ++ [e]) later (front ++ [(done.length : Int)]) back filtered₂
          (by simpa using h₂) (by
            simp only [length_append, length_singleton] at hroom ⊢
            omega)
      have hposs : (front ++ [(done.length : Int)]) ++
          positions (done ++ [e]).length (added.map passes) =
          front ++ positions done.length ((e :: added).map passes) := by
        simp [hpass, positions]
      have hsize : ((front ++ [(done.length : Int)]) ++ back).length =
          (front ++ back).length + 1 := by
        simp
        omega
      rw [hposs, ← hsrc, hsize] at hmakes
      rw [hposs] at h₃
      refine ⟨filtered₃, ?_, h₃, by omega⟩
      have hcnt : ((front ++ back).length : Int) - front.length = back.length := by
        simp only [length_append]
        omega
      have hnext' : ((front.length + 1 : Nat) : Int) = (front.length : Int) + 1 := by simp
      simp only [length_append] at hmakes
      simp only [length_append] at hcnt ⊢
      refine Makes.cons (fun builder => ?_) hmakes
      rw [hcnt₀, addEntries, hnext, ok_bind, if_pos hpass, hcnt, ← hnext', hcopy, ok_bind, hstore]
      rfl
    · rw [countP_cons_of_neg hpass] at hroom ⊢
      obtain ⟨filtered₂, hmakes, h₂, hlen₂⟩ :=
        ih (done ++ [e]) later front back filtered h hroom
      have hposs : positions (done ++ [e]).length (added.map passes) =
          positions done.length ((e :: added).map passes) := by
        simp [hpass, positions]
      rw [hposs] at hmakes h₂
      rw [← hsrc] at hmakes
      refine ⟨filtered₂, ?_, h₂, hlen₂⟩
      intro builder
      have hdone : (done ++ [e]).length = done.length + 1 := length_append
      rw [← hmakes builder, hcnt₀, addEntries, hnext, ok_bind, if_neg hpass, hdone]
      rfl

theorem finishAdded_spec {c : SubChange E} (done rest later : List E)
    (front open' back filtered : List Int)
    (hto : c.toIdx = done.length + rest.length) (hor : open' = [] ∨ rest = [])
    (h : front ++ open' ++ back <+: filtered)
    (hroom : (front ++ back).length + rest.countP passes ≤ filtered.length) :
    ∃ filtered', Makes (addCalls front.length (rest.countP passes))
        (fun builder => finishAdded passes (done ++ rest ++ later) c (front.length + open'.length)
          filtered (front ++ open' ++ back).length builder front.length done.length)
        (fun builder => (filtered',
          (front ++ positions done.length (rest.map passes) ++ back).length, builder)) ∧
      front ++ positions done.length (rest.map passes) ++ back <+: filtered' ∧
      filtered'.length = filtered.length := by
  by_cases hopen : open' = []
  · subst hopen
    have hcnt : (c.toIdx - done.length).toNat = rest.length := by omega
    simp only [append_nil] at h ⊢
    obtain ⟨filtered', hmakes, h', hlen⟩ :=
      addEntries_spec passes rest done later front back filtered h hroom
    refine ⟨filtered', ?_, h', hlen⟩
    intro builder
    beta_reduce
    rw [← hmakes builder, finishAdded, if_neg (by simp), hcnt]
  · obtain rfl := hor.resolve_left hopen
    have hpos := length_pos_of_ne_nil hopen
    obtain ⟨filtered', hcopy, h', hlen⟩ := arraycopy_left h
    refine ⟨filtered', makes_nil fun builder => ?_, by simpa using h', hlen⟩
    have hcnt : ((front ++ open' ++ back).length : Int) -
        ((front.length + open'.length : Nat) : Int) = back.length := by
      simp only [length_append]
      omega
    rw [finishAdded, if_pos (by omega), hcnt, hcopy, ok_bind]
    simp only [length_append, map_nil, positions_nil, append_nil]
    congr 3
    omega

end

/-- The segment in use holds the positions of the flags that are set. -/
structure Holds (flags : List Bool) (l : FilteredList E P) : Prop where
  used : positions 0 flags <+: l.filtered
  size : l.size = (positions 0 flags).length

/-- The list shows the elements whose flags are set, in the middle of a change. -/
structure Shows (flags : List Bool) (l : FilteredList E P) : Prop where
  used : positions 0 flags <+: l.filtered
  size : l.size = (positions 0 flags).length
  usable : l.builder.Usable

theorem addRemove_makes (passes : E → Bool) {l : FilteredList E P} {c : SubChange E}
    (hperm : c.perm = []) (hupdd : c.updated = false) (done added later : List E)
    (fk fr fs : List Bool) (h : Holds (fk ++ fr ++ fs) l) (hfk : fk.length = done.length)
    (hfr : fr.length = c.getRemovedSize) (hfrom : c.fromIdx = done.length)
    (hto : c.toIdx = c.fromIdx + added.length)
    (hroom : l.size - fr.count true + added.countP passes ≤
      grownLength l.filtered.length (done ++ added ++ later).length) :
    ∃ filtered size, Makes
        ((select fr c.getRemoved).map (.nextRemove ((positions 0 fk).length : Nat)) ++
          addCalls (positions 0 fk).length (added.countP passes))
        (fun builder => addRemove passes (done ++ added ++ later) { l with builder := builder } c)
        (fun builder => { l with filtered, size, builder }) ∧
      Holds (fk ++ added.map passes ++ fs) { l with filtered, size } ∧
      filtered.length = grownLength l.filtered.length (done ++ added ++ later).length := by
  obtain ⟨hused, hsize⟩ := h
  obtain ⟨filtered₁, hensure, h₁, hlen₁⟩ := ensureSize_spec hused (done ++ added ++ later).length
  rw [← hsize] at hensure
  have hfromPos : findPosition filtered₁ l.size c.fromIdx = .ok (positions 0 fk).length := by
    rw [hsize, append_assoc]
    exact findPosition_positions fk (fr ++ fs) (by rwa [append_assoc] at h₁) (by omega)
  have htoPos : findPosition filtered₁ l.size (c.fromIdx + c.getRemovedSize) =
      .ok (positions 0 (fk ++ fr)).length := by
    rw [hsize]
    exact findPosition_positions (fk ++ fr) fs h₁ (by rw [length_append]; omega)
  -- the entries before, in and behind the range of the sub-change
  have hkr : (fk ++ fr).length = done.length + fr.length := by rw [length_append, hfk]
  rw [positions_append, positions_append, hkr, hfk, Int.zero_add, Int.zero_add] at h₁ hsize
  rw [positions_append, hfk, Int.zero_add] at htoPos
  have hcountr := length_positions fr done.length
  have hmark := markRemoved_spec c (positions 0 fk).length fr [] c.getRemoved (positions 0 fk)
    (positions ((done.length + fr.length : Nat) : Int) fs) filtered₁ hfr rfl
    (by rw [length_nil, hfrom]; simpa using h₁)
  rw [length_nil, hfrom, Int.natCast_zero, Int.add_zero] at hmark
  generalize hA : positions 0 fk = front at *
  generalize hB : positions (done.length : Int) fr = middle at *
  generalize hC : positions ((done.length + fr.length : Nat) : Int) fs = back at *
  have hadded : c.getAddedSize = added.length := by
    have hwas : c.wasAdded = decide (c.fromIdx < c.toIdx) := by
      simp [SubChange.wasAdded, SubChange.wasPermutated, SubChange.wasUpdated, hperm, hupdd]
    rw [SubChange.getAddedSize, hwas]
    split_ifs with hlt
    · omega
    · simp only [decide_eq_true_eq] at hlt
      omega
  obtain ⟨filtered₂, hupd, h₂, hlen₂⟩ := updateIndexes_spec
    (c.getAddedSize - c.getRemovedSize) back (front ++ middle) filtered₁ h₁
  have hback' : back.map (· + (c.getAddedSize - c.getRemovedSize)) =
      positions (done.length + added.length) fs := by
    rw [← hC, map_add_positions]
    congr 1
    omega
  rw [hback'] at h₂
  obtain ⟨filtered₃, taken, rest, open', hreplace, rfl, hor, hcnt, h₃, hlen₃⟩ :=
    replaceEntries_spec passes added done later front middle _ filtered₂ h₂
  have hroom' : (front ++ positions done.length (taken.map passes) ++
      positions (done.length + (taken ++ rest).length) fs).length + rest.countP passes ≤
      filtered₃.length := by
    have hlenC : back.length = fs.count true := hC ▸ length_positions fs _
    have hlenT := length_positions_map passes taken done.length
    have hlenS := length_positions fs (done.length + (taken ++ rest).length)
    rw [countP_append] at hroom
    rw [length_append, length_append] at hsize
    rw [length_append, length_append]
    omega
  obtain ⟨filtered₄, hfinish, h₄, hlen₄⟩ := finishAdded_spec passes
    (c := c) (done ++ taken) rest later _ open' _ filtered₃
    (by simp only [length_append] at hto ⊢; omega) hor h₃ hroom'
  have hres : front ++ positions done.length (taken.map passes) ++
      positions (done ++ taken).length (rest.map passes) ++
      positions (done.length + (taken ++ rest).length) fs =
      positions 0 (fk ++ (taken ++ rest).map passes ++ fs) := by
    rw [map_append, positions_append, positions_append, positions_append, hA]
    simp only [length_append, hfk]
    simp
  rw [hres] at hfinish h₄
  refine ⟨filtered₄, _, ?_, ⟨h₄, rfl⟩, hlen₄.trans (hlen₃.trans (hlen₂.trans hlen₁))⟩
  have htoPos' : (front ++ middle).length - front.length = middle.length := by simp
  have hsize' : l.size - (front ++ middle).length = back.length := by
    rw [hsize, length_append]
    omega
  have hiter : listIterator (done ++ (taken ++ rest) ++ later) c.fromIdx = .ok c.fromIdx := by
    rw [listIterator, if_pos (by simp only [length_append]; omega)]
  have hcnt' : (c.toIdx - c.fromIdx).toNat = (taken ++ rest).length := by omega
  have hsum : (front ++ middle).length = front.length + middle.length := length_append
  have hsrc : done ++ (taken ++ rest) ++ later = done ++ taken ++ rest ++ later := by simp
  have htotal : (front ++ positions done.length (taken.map passes) ++ open' ++
      positions (done.length + (taken ++ rest).length) fs).length = l.size := by
    have hlenC : back.length = fs.count true := hC ▸ length_positions fs _
    have hlenS := length_positions fs (done.length + (taken ++ rest).length)
    rw [length_append, length_append, hcnt, hlenS, ← hlenC, hsize, length_append,
      hsum]
  have htaken : (front ++ positions done.length (taken.map passes)).length =
      front.length + taken.countP passes := by
    rw [length_append, length_positions_map]
  rw [hcnt, htotal, ← hsrc] at hfinish
  rw [countP_append, addCalls_append, ← htaken]
  have hloops : Makes (addCalls front.length (taken.countP passes) ++ addCalls
        (front ++ positions done.length (taken.map passes)).length (rest.countP passes))
      (fun builder => replaceEntries passes (done ++ (taken ++ rest) ++ later)
          (front.length + middle.length) (taken ++ rest).length done.length front.length filtered₂
          builder >>= fun r =>
        finishAdded passes (done ++ (taken ++ rest) ++ later) c (front.length + middle.length) r.1
          l.size r.2.1 r.2.2.1 r.2.2.2 >>= fun r =>
        .ok ({ l with filtered := r.1, size := r.2.1, builder := r.2.2 } : FilteredList E P))
      (fun builder => { l with
        filtered := filtered₄
        size := (positions 0 (fk ++ (taken ++ rest).map passes ++ fs)).length
        builder := builder }) :=
    hreplace.bind (fun _ => rfl) (hfinish.map fun _ => rfl)
  refine hmark.bind (fun builder => ?_) hloops
  rw [addRemove]
  rw [hensure, ok_bind, hfromPos, ok_bind, htoPos, ok_bind, htoPos']
  refine bind_congr fun builder => ?_
  rw [hsize', hupd, ok_bind, hiter, ok_bind, hcnt', hfrom, hsum]

theorem addRemove_spec (passes : E → Bool) {l : FilteredList E P} {c : SubChange E}
    (hperm : c.perm = []) (hupdd : c.updated = false) (done added later : List E)
    (fk fr fs : List Bool) (h : Shows (fk ++ fr ++ fs) l) (hfk : fk.length = done.length)
    (hfr : fr.length = c.getRemovedSize) (hfrom : c.fromIdx = done.length)
    (hto : c.toIdx = c.fromIdx + added.length)
    (hroom : l.size - fr.count true + added.countP passes ≤
      grownLength l.filtered.length (done ++ added ++ later).length) :
    ∃ l', addRemove passes (done ++ added ++ later) l c = .ok l' ∧
      Shows (fk ++ added.map passes ++ fs) l' ∧
      l'.filtered.length = grownLength l.filtered.length (done ++ added ++ later).length ∧
      l'.predicate = l.predicate := by
  obtain ⟨filtered, size, hmakes, hholds, hlen⟩ := addRemove_makes passes hperm hupdd done added
    later fk fr fs ⟨h.used, h.size⟩ hfk hfr hfrom hto hroom
  obtain ⟨builder, hrun, husable⟩ := hmakes.usable h.usable
  exact ⟨_, hrun, ⟨hholds.used, hholds.size, husable⟩, hlen, rfl⟩

end OpenJfx.Collections.Filtered
