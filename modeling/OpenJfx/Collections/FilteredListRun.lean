import OpenJfx.Collections.FilteredListView

namespace OpenJfx.Collections.Filtered

open Java.Arrays Collections.ListChange Collections.ListChangeBuilder Data.Positions List

variable {E H P : Type}

/-- The index lies in the range of one of the sub-changes. -/
def Covered (cs : List (SubChange E)) (i : Int) : Prop :=
  ∃ c ∈ cs, c.fromIdx ≤ i ∧ i < c.toIdx

/-- After each of the sub-changes the elements that match fit into the array; `size` is
their number before. -/
def Roomy (capacity : Nat) (old new : E → Bool) (after : List E) : Nat → List (SubChange E) → Prop
  | _, [] => True
  | size, c :: cs =>
    size - c.getRemoved.countP old + (subList after c.fromIdx c.toIdx).countP new ≤ capacity ∧
      Roomy capacity old new after
        (size - c.getRemoved.countP old + (subList after c.fromIdx c.toIdx).countP new) cs

theorem count_map (p : E → Bool) (l : List E) : (l.map p).count true = l.countP p := by
  rw [← length_positions _ 0, length_positions_map]

section

variable (test : P → H → E → Bool) (order : EntryOrder E)

variable {c : SubChange E}

theorem applySubChange_permutation (hperm : c.perm ≠ []) (source : List E) (world : H)
    (l : FilteredList E P) :
    applySubChange test order source world l c = permutate order l c := by
  rw [applySubChange, if_pos (by simp [SubChange.wasPermutated, hperm])]

theorem applySubChange_addRemove (hperm : c.perm = []) (hupdd : c.updated = false) (source : List E)
    (world : H) (l : FilteredList E P) :
    applySubChange test order source world l c =
      addRemove (passes test l.predicate world) source l c := by
  rw [applySubChange, if_neg (by simp [SubChange.wasPermutated, hperm]),
    if_neg (by simp [SubChange.wasUpdated, hupdd])]

theorem applySubChange_update (hperm : c.perm = []) (hupdd : c.updated = true) (source : List E)
    (world : H) (l : FilteredList E P) :
    applySubChange test order source world l c =
      update (passes test l.predicate world) source l c := by
  rw [applySubChange, if_neg (by simp [SubChange.wasPermutated, hperm]),
    if_pos (by simp [SubChange.wasUpdated, hupdd])]

theorem addRemoves_spec (world : H) (old new : E → Bool) (capacity : Nat) {p : Int}
    {cs : List (SubChange E)} {before after : List E} (h : Aligned p cs before after) :
    ∀ (done : List E) (flags : List Bool) (l : FilteredList E P), (done.length : Int) = p →
      flags.length = done.length → AddRemoves cs → passes test l.predicate world = new →
      Shows (flags ++ before.map old) l →
      grownLength l.filtered.length (done ++ after).length = capacity →
      Roomy capacity old new (done ++ after) l.size cs →
      ∃ l' flags', cs.foldlM (applySubChange test order (done ++ after) world) l = .ok l' ∧
        Shows (flags ++ flags') l' ∧ flags'.length = after.length ∧
        (∀ (i : Nat) (e : E), after[i]? = some e → flags'[i]? = some (new e) ∨
          ¬ Covered cs (p + i) ∧ flags'[i]? = some (old e)) ∧ l'.predicate = l.predicate := by
  induction h with
  | nil p kept =>
    intro done flags l _ _ _ _ hshows _ _
    refine ⟨l, kept.map old, rfl, hshows, by simp, ?_, rfl⟩
    intro i e he
    exact .inr ⟨by simp [Covered], by simp [he]⟩
  | @cons p c cs kept added before after hfrom hto htail ih =>
    intro done flags l hdone hflags hadd hnew hshows hcap hroom
    obtain ⟨⟨-, hperm, hupdd⟩, hadd'⟩ := addRemoves_cons.mp hadd
    have hsrc : done ++ (kept ++ added ++ after) = (done ++ kept) ++ added ++ after := by simp
    have hsub : subList (done ++ (kept ++ added ++ after)) c.fromIdx c.toIdx = added := by
      rw [hsrc]
      exact subList_append (done ++ kept) added after
        (by rw [length_append]; omega) hto
    obtain ⟨hroom₁, hroom₂⟩ := hroom
    rw [hsub] at hroom₁ hroom₂
    have hstart : flags ++ (kept ++ c.getRemoved ++ before).map old =
        (flags ++ kept.map old) ++ c.getRemoved.map old ++ before.map old := by simp
    rw [hstart] at hshows
    rw [hsrc] at hcap
    obtain ⟨l₁, hrun₁, hshows₁, hlen₁, hpred₁⟩ := addRemove_spec new hperm hupdd (done ++ kept)
      added after _ _ _ hshows (by simp [hflags]) (by simp [SubChange.getRemovedSize])
      (by rw [length_append]; omega) hto (by rw [count_map, hcap]; exact hroom₁)
    have hsize₁ : l₁.size = l.size - c.getRemoved.countP old + added.countP new := by
      rw [hshows₁.size, hshows.size]
      simp only [length_positions, count_append, count_map]
      omega
    obtain ⟨l₂, flags₂, hrun₂, hshows₂, hlen₂, hflags₂, hpred₂⟩ := ih (done ++ kept ++ added)
      (flags ++ kept.map old ++ added.map new) l₁
      (by simp only [length_append]; omega) (by simp [hflags]) hadd' (by rw [hpred₁, hnew])
      hshows₁
      (by rw [hlen₁, grownLength_grownLength, hcap])
      (by rw [hsize₁, ← hsrc]; exact hroom₂)
    refine ⟨l₂, kept.map old ++ added.map new ++ flags₂, ?_, by simpa using hshows₂, ?_, ?_,
      hpred₂.trans hpred₁⟩
    · rw [foldlM_cons, applySubChange_addRemove test order hperm hupdd, hnew, hsrc,
        hrun₁, ok_bind, hrun₂]
    · simp only [length_append, length_map, hlen₂]
    · intro i e he
      have hbounds := htail.bounds
      rcases Nat.lt_or_ge i kept.length with hi | hi
      · -- a kept element before the sub-change
        rw [append_assoc, getElem?_append_left hi] at he
        refine .inr ⟨?_, ?_⟩
        · rintro ⟨d, hd, hd₁, hd₂⟩
          rcases mem_cons.mp hd with rfl | hd
          · omega
          · have := hbounds d hd
            omega
        · rw [append_assoc, getElem?_append_left (by simpa using hi),
            getElem?_map, he]
          rfl
      rcases Nat.lt_or_ge i (kept.length + added.length) with hi' | hi'
      · -- an added element
        refine .inl ?_
        rw [append_assoc, getElem?_append_right hi,
          getElem?_append_left (by omega)] at he
        rw [append_assoc, getElem?_append_right (by simpa using hi), length_map,
          getElem?_append_left (by simp; omega), getElem?_map, he]
        rfl
      · have hidx : i - (kept ++ added).length + (kept.length + added.length) = i := by
          rw [length_append]
          omega
        rw [getElem?_append_right (by rw [length_append]; omega)] at he
        rw [getElem?_append_right (by simpa using hi')]
        simp only [length_append, length_map] at he hidx ⊢
        rcases hflags₂ _ e he with hnew | ⟨hcov, hold⟩
        · exact .inl hnew
        · refine .inr ⟨?_, hold⟩
          rintro ⟨d, hd, hd₁, hd₂⟩
          rcases mem_cons.mp hd with rfl | hd
          · omega
          · exact hcov ⟨d, hd, by omega, by omega⟩

theorem updates_spec (world : H) (new : E → Bool) (source : List E) (cs : List (SubChange E))
    (hcs : ∀ c ∈ cs, c.updated = true ∧ c.perm = [] ∧ 0 ≤ c.fromIdx ∧ c.fromIdx ≤ c.toIdx ∧
      c.toIdx ≤ source.length) :
    ∀ (flags : List Bool) (l : FilteredList E P), flags.length = source.length →
      passes test l.predicate world = new → Shows flags l →
      ∃ l' flags', cs.foldlM (applySubChange test order source world) l = .ok l' ∧
        Shows flags' l' ∧
        flags'.length = source.length ∧
        (∀ (i : Nat) (e : E), source[i]? = some e → flags'[i]? = some (new e) ∨
          ¬ Covered cs i ∧ flags'[i]? = flags[i]?) ∧ l'.predicate = l.predicate := by
  induction cs with
  | nil =>
    intro flags l hlen _ hshows
    exact ⟨l, flags, rfl, hshows, hlen, fun i e _ => .inr ⟨by simp [Covered], rfl⟩, rfl⟩
  | cons c cs ih =>
    intro flags l hlen hnew hshows
    obtain ⟨hupdd, hperm, hnn, hle, hto⟩ := hcs c (by simp)
    obtain ⟨done, todo, later, rfl, hdone, htodo⟩ := exists_cut source hnn hle hto
    obtain ⟨fk, fr, fs, rfl, hfk, hfr⟩ := exists_cut flags hnn hle (by rw [hlen]; exact hto)
    simp only [length_append] at hlen
    obtain ⟨l₁, hrun₁, hshows₁, -, hpred₁⟩ := update_spec new done todo later fk fr fs hshows
      (by omega) (by omega) (by omega) hdone.symm (by omega)
    obtain ⟨l₂, flags₂, hrun₂, hshows₂, hlen₂, hflags₂, hpred₂⟩ :=
      ih (fun d hd => hcs d (by simp [hd])) _ l₁
        (by simp only [length_append, length_map]; omega) (by rw [hpred₁, hnew]) hshows₁
    refine ⟨l₂, flags₂, ?_, hshows₂, hlen₂, ?_, hpred₂.trans hpred₁⟩
    · rw [foldlM_cons, applySubChange_update test order hperm hupdd, hnew, hrun₁, ok_bind,
        hrun₂]
    intro i e he
    rcases hflags₂ i e he with hnew | ⟨hcov, heq⟩
    · exact .inl hnew
    · by_cases hin : c.fromIdx ≤ i ∧ i < c.toIdx
      · -- the flag of an updated element is the result of the test
        refine .inl ?_
        rw [append_assoc, getElem?_append_right (by omega),
          getElem?_append_left (by omega)] at he
        rw [heq, append_assoc, getElem?_append_right (by omega),
          getElem?_append_left (by rw [length_map]; omega), getElem?_map]
        have hlen' : fk.length = done.length := by omega
        rw [hlen', he]
        rfl
      · refine .inr ⟨?_, ?_⟩
        · rintro ⟨d, hd, hd₁, hd₂⟩
          rcases mem_cons.mp hd with rfl | hd
          · exact hin ⟨hd₁, hd₂⟩
          · exact hcov ⟨d, hd, hd₁, hd₂⟩
        · rw [heq]
          rcases Nat.lt_or_ge i fk.length with hlt | hge
          · rw [append_assoc, append_assoc, getElem?_append_left hlt,
              getElem?_append_left hlt]
          · rw [getElem?_append_right (by simp; omega),
              getElem?_append_right (by simp; omega)]
            congr 1
            simp only [length_append, length_map]
            omega

end

structure Represents (flags : List Bool) (l : FilteredList E P) : Prop where
  used : positions 0 flags <+: l.filtered
  size : l.size = (positions 0 flags).length
  builder : l.builder = Builder.new

section

variable (test : P → H → E → Bool) (order : EntryOrder E)

variable {parts : ChangeParts E} {before middle : List E} {l : FilteredList E P}

theorem permutation_spec {after : List E} (hparts : parts.WellFormed before middle after)
    (world : H) (old : E → Bool) (h : Represents (before.map old) l) :
    ∃ l', parts.permutation.toList.foldlM (applySubChange test order after world)
        { l with builder := l.builder.beginChange } = .ok l' ∧ Shows (middle.map old) l' ∧
      l'.filtered.length = l.filtered.length ∧ l'.size = l.size ∧ l'.predicate = l.predicate := by
  have husable : (l.builder.beginChange).Usable := h.builder ▸ Builder.usable_beginChange
  have hshows : Shows (before.map old) { l with builder := l.builder.beginChange } :=
    ⟨h.used, h.size, husable⟩
  have hperms := hparts.permutes
  cases hperm : parts.permutation with
  | none =>
    rw [hperm] at hperms
    obtain rfl : middle = before := hperms
    exact ⟨_, rfl, hshows, rfl, rfl, rfl⟩
  | some c =>
    rw [hperm] at hperms
    obtain ⟨hc, hperms⟩ := hperms
    have hne : c.perm ≠ [] := by
      intro hnil
      have hlen := hc.length_perm
      have hlt := hc.fromIdx_lt
      rw [hnil, length_nil] at hlen
      omega
    obtain ⟨l', hrun, hshows', hlen, hsize, hpred⟩ :=
      permutate_spec order hc hperms old hshows (by rw [h.builder])
    refine ⟨l', ?_, hshows', hlen, hsize, hpred⟩
    rw [Option.toList_some, foldlM_cons, applySubChange_permutation test order hne, hrun]
    rfl

theorem sourceChanged_spec {after : List E} (hparts : parts.WellFormed before middle after)
    (world : H) (old : E → Bool) (h : Represents (before.map old) l)
    (hunreported : ∀ (i : Nat) (e : E), after[i]? = some e → ¬ Covered parts.addRemoves i →
      ¬ Covered parts.updates i → passes test l.predicate world e = old e)
    (hroom : Roomy (grownLength l.filtered.length after.length) old
      (passes test l.predicate world) after l.size parts.addRemoves) :
    ∃ l' fired, sourceChanged test order after world parts.changes l = .ok (l', fired) ∧
      Represents (after.map (passes test l.predicate world)) l' ∧ l'.predicate = l.predicate := by
  obtain ⟨l₁, hrun₁, hshows₁, hlen₁, hsize₁, hpred₁⟩ :=
    permutation_spec test order hparts world old h
  obtain ⟨l₂, flags₂, hrun₂, hshows₂, hlen₂, hflags₂, hpred₂⟩ :=
    addRemoves_spec test order world old
    (passes test l.predicate world) _ (aligned_of_replays hparts.separate hparts.replays) [] [] l₁
    rfl rfl hparts.addRemoves (by rw [hpred₁]) hshows₁ (by rw [hlen₁, nil_append])
    (by rw [hsize₁]; exact hroom)
  obtain ⟨l₃, flags₃, hrun₃, hshows₃, hlen₃, hflags₃, hpred₃⟩ := updates_spec test order world
    (passes test l.predicate world) after parts.updates (fun c hc => by
      obtain ⟨hupdd, hperm, -, hrange⟩ := hparts.updates c hc
      exact ⟨hupdd, hperm, hrange⟩) flags₂ l₂ hlen₂ (by rw [hpred₂, hpred₁]) hshows₂
  -- a flag that no sub-change has renewed is right already
  have hfinal : flags₃ = after.map (passes test l.predicate world) := by
    refine ext_getElem? fun i => ?_
    cases he : after[i]? with
    | none =>
      have hi := List.getElem?_eq_none_iff.mp he
      rw [getElem?_eq_none (by omega), getElem?_eq_none (by simpa using hi)]
    | some e =>
      rw [getElem?_map, he, Option.map_some]
      rcases hflags₃ i e he with hnew | ⟨hupds, heq⟩
      · exact hnew
      · rcases hflags₂ i e he with hnew | ⟨hadds, hold⟩
        · rw [heq, hnew]
        · rw [Int.zero_add] at hadds
          rw [heq, hold, hunreported i e he hadds hupds]
  obtain ⟨fired, hend⟩ := Builder.endChange_ok hshows₃.usable
  refine ⟨{ l₃ with builder := Builder.new }, fired, ?_, ⟨?_, ?_, rfl⟩, ?_⟩
  · rw [nil_append] at hrun₂
    rw [sourceChanged, ChangeParts.changes, foldlM_append, foldlM_append, hrun₁, ok_bind,
      hrun₂, ok_bind, hrun₃, ok_bind, hend, ok_bind]
  · rw [← hfinal]
    exact hshows₃.used
  · rw [← hfinal]
    exact hshows₃.size
  · exact hpred₃.trans (hpred₂.trans hpred₁)

end

theorem collect_spec (passes : E → Bool) (rest : List E) :
    ∀ (start : Int) (front filtered : List Int), front <+: filtered →
      front.length + rest.length ≤ filtered.length →
      ∃ filtered', collect passes rest start filtered front.length =
          .ok (filtered', (front ++ positions start (rest.map passes)).length) ∧
        front ++ positions start (rest.map passes) <+: filtered' := by
  induction rest with
  | nil =>
    intro start front filtered h _
    exact ⟨filtered, by simp [collect], by simpa using h⟩
  | cons e rest ih =>
    intro start front filtered h hlen
    rw [length_cons] at hlen
    rw [collect]
    by_cases hpass : passes e
    · obtain ⟨filtered₁, hstore, h₁, hlen₁⟩ := store_end start h (by omega)
      obtain ⟨filtered₂, hrun, h₂⟩ := ih (start + 1) (front ++ [start]) filtered₁ h₁
        (by rw [length_append, length_singleton]; omega)
      refine ⟨filtered₂, ?_, by simpa [hpass, positions] using h₂⟩
      rw [hstore]
      simpa [hpass, positions] using hrun
    · obtain ⟨filtered₂, hrun, h₂⟩ := ih (start + 1) front filtered h (by omega)
      refine ⟨filtered₂, ?_, by simpa [hpass, positions] using h₂⟩
      simpa [hpass, positions] using hrun

theorem load_positions (rest : List E) :
    ∀ (done : List E) (flags : List Bool), flags.length = rest.length →
      (positions done.length flags).mapM (load (done ++ rest)) = .ok (select flags rest) := by
  induction rest with
  | nil =>
    intro done flags hlen
    obtain rfl := length_eq_zero_iff.mp hlen
    rfl
  | cons e rest ih =>
    intro done flags hlen
    obtain ⟨b, flags, rfl⟩ := exists_cons_of_length_eq_add_one hlen
    have hrest := ih (done ++ [e]) flags (by simpa using hlen)
    simp only [append_assoc, singleton_append, length_append,
      length_singleton] at hrest
    have hnext : (done.length : Int) + 1 = ((done.length + 1 : Nat) : Int) := by simp
    cases b with
    | true =>
      rw [positions, mapM_cons, load_append, hnext, hrest]
      rfl
    | false =>
      rw [positions, hnext, hrest]
      rfl

variable {l : FilteredList E P}

theorem elements_select {source : List E} {flags : List Bool} (hlen : flags.length = source.length)
    (h : Holds flags l) :
    elements source l = .ok (select flags source) := by
  have hread : ∀ used : List Int, used <+: l.filtered → used.length ≤ l.size →
      (List.range used.length).mapM (get source l) = used.mapM (load source) := by
    intro used
    induction used using List.reverseRecOn with
    | nil => exact fun _ _ => rfl
    | append_singleton used k ih =>
      intro h hle
      rw [length_append, length_singleton] at hle
      have hget : get source l used.length = load source k := by
        rw [get, if_neg (by omega), load_used h, ok_bind]
      rw [length_append, length_singleton, range_succ, mapM_append,
        mapM_append, ih ((prefix_append _ _).trans h) (by omega), mapM_cons,
        mapM_cons, hget]
      rfl
  have hload := load_positions source [] flags hlen
  rw [elements, h.size, hread _ h.used (by rw [h.size])]
  exact hload

theorem elements_spec (passes : E → Bool) {source : List E}
    (hused : positions 0 (source.map passes) <+: l.filtered)
    (hsize : l.size = (positions 0 (source.map passes)).length) :
    elements source l = .ok (source.filter passes) := by
  rw [elements_select (by rw [length_map]) ⟨hused, hsize⟩, select_map]

section

variable (test : P → H → E → Bool)

/-- The list shows the elements of the source that the predicate lets through. -/
structure View (passes : E → Bool) (source : List E) (l : FilteredList E P) : Prop where
  size_le : l.size ≤ l.filtered.length
  increasing : (l.filtered.take l.size).Pairwise (· < ·)
  mem_iff : ∀ k, k ∈ l.filtered.take l.size ↔
    ∃ (i : Nat) (e : E), source[i]? = some e ∧ passes e = true ∧ k = i
  elements_eq : elements source l = .ok (source.filter passes)

variable {source : List E} {l : FilteredList E P}

theorem Represents.view {passes : E → Bool} (h : Represents (source.map passes) l) :
    View passes source l := by
  have htake : l.filtered.take l.size = positions 0 (source.map passes) := by
    rw [h.size]
    exact (prefix_iff_eq_take.mp h.used).symm
  refine ⟨by rw [h.size]; exact h.used.length_le, ?_, ?_, elements_spec passes h.used h.size⟩
  · rw [htake]
    exact pairwise_positions _ _
  · intro k
    rw [htake, mem_positions_iff]
    refine exists_congr fun i => ?_
    rw [getElem?_map, Option.map_eq_some_iff, Int.zero_add]
    constructor
    · rintro ⟨⟨e, he, hpass⟩, rfl⟩
      exact ⟨e, he, hpass, rfl⟩
    · rintro ⟨e, he, hpass, rfl⟩
      exact ⟨⟨e, he, hpass⟩, rfl⟩

theorem refilter_spec (world : H) (hasListeners : Bool) (old : E → Bool)
    (h : Represents (source.map old) l) :
    ∃ l' fired, refilter test source world hasListeners l = .ok (l', fired) ∧
      Represents (source.map (passes test l.predicate world)) l' ∧ l'.predicate = l.predicate := by
  obtain ⟨filtered₁, hensure, h₁, hlen₁⟩ := ensureSize_spec h.used source.length
  rw [← h.size] at hensure
  have hsnapshot : ∃ removed, snapshot source hasListeners { l with filtered := filtered₁ } =
      .ok removed := by
    rw [snapshot]
    split_ifs
    · rw [elements_spec old (l := { l with filtered := filtered₁ }) h₁ h.size, ok_bind]
      exact ⟨_, rfl⟩
    · exact ⟨none, rfl⟩
  obtain ⟨removed, hrem⟩ := hsnapshot
  have hgrown := le_grownLength l.filtered.length source.length
  obtain ⟨filtered₂, hcollect, h₂⟩ := collect_spec (passes test l.predicate world) source 0 []
    filtered₁ List.nil_prefix (by rw [length_nil]; omega)
  refine ⟨⟨filtered₂, (positions 0 (source.map (passes test l.predicate world))).length,
    l.predicate, l.builder⟩, if hasListeners then some ⟨0, (positions 0 (source.map
      (passes test l.predicate world))).length, removed, [], false⟩ else none, ?_,
    ⟨h₂, rfl, h.builder⟩, rfl⟩
  rw [length_nil, nil_append] at hcollect
  rw [refilter, hensure, ok_bind, hrem, ok_bind, hcollect, ok_bind]

variable [DecidableEq P]

theorem setPredicate_spec (world : H) (hasListeners : Bool) (predicate : Option P)
    (h : Represents (source.map (passes test l.predicate world)) l) :
    ∃ l' fired, setPredicate test source world hasListeners predicate l = .ok (l', fired) ∧
      Represents (source.map (passes test predicate world)) l' ∧ l'.predicate = predicate := by
  rw [setPredicate]
  split_ifs with hsame
  · subst hsame
    exact ⟨l, none, rfl, h, rfl⟩
  · exact refilter_spec test world hasListeners (passes test l.predicate world)
      (l := { l with predicate := predicate }) ⟨h.used, h.size, h.builder⟩

theorem fillAll_spec (count : Nat) :
    ∀ (front filtered : List Int), front <+: filtered → front.length + count ≤ filtered.length →
      ∃ filtered', fillAll count front.length filtered = .ok filtered' ∧
        front ++ positions front.length (List.replicate count true) <+: filtered' := by
  induction count with
  | zero =>
    intro front filtered h _
    exact ⟨filtered, rfl, by simpa using h⟩
  | succ count ih =>
    intro front filtered h hlen
    obtain ⟨filtered₁, hstore, h₁, hlen₁⟩ := store_end (front.length : Int) h (by omega)
    obtain ⟨filtered₂, hrun, h₂⟩ := ih (front ++ [(front.length : Int)]) filtered₁ h₁
      (by rw [length_append, length_singleton]; omega)
    refine ⟨filtered₂, ?_, by simpa [replicate_succ, positions] using h₂⟩
    rw [fillAll, hstore]
    simpa using hrun

theorem new_spec (source : List E) (world : H) (predicate : Option P) :
    ∃ l, new test source world predicate = .ok l ∧
      Represents (source.map (passes test predicate world)) l ∧ l.predicate = predicate := by
  rw [new]
  cases predicate with
  | some p =>
    -- nothing is shown before the predicate is set
    have hnone : positions 0 (source.map fun _ => false) = [] := by
      refine eq_nil_of_length_eq_zero ?_
      rw [length_positions_map]
      simp
    obtain ⟨l, fired, hrefilter, hl, hpred⟩ := refilter_spec test world false (fun _ => false)
      (l := ⟨List.replicate (source.length * 3 / 2 + 1) 0, 0, some p, Builder.new⟩)
      ⟨by rw [hnone]; exact nil_prefix, by rw [hnone]; rfl, rfl⟩
    refine ⟨l, ?_, hl, hpred⟩
    rw [if_pos (by simp), setPredicate, if_neg (by simp), hrefilter, ok_bind]
  | none =>
    obtain ⟨filtered, hfill, hused⟩ := fillAll_spec source.length []
      (List.replicate (source.length * 3 / 2 + 1) 0) nil_prefix (by simp; omega)
    have hflags : source.map (passes test (none : Option P) world) =
        List.replicate source.length true := map_const' ..
    refine ⟨⟨filtered, source.length, none, Builder.new⟩, ?_, ⟨?_, ?_, rfl⟩, rfl⟩
    · rw [if_neg (by simp)]
      rw [length_nil] at hfill
      rw [hfill, ok_bind]
    · rw [hflags]
      simpa using hused
    · rw [hflags, length_positions, count_replicate_self]

end

/-- The source, the state of its elements and the view. -/
structure System (E H P : Type) where
  source : List E
  world : H
  list : FilteredList E P

inductive Event (E H P : Type)
  | setPredicate (hasListeners : Bool) (predicate : Option P)
  | sourceChange (parts : ChangeParts E) (after : List E) (world : H)

section

variable (test : P → H → E → Bool) (order : EntryOrder E) [DecidableEq P]

def step (s : System E H P) : Event E H P → Outcome (System E H P)
  | .setPredicate hasListeners predicate => do
    let (list, _) ← setPredicate test s.source s.world hasListeners predicate s.list
    .ok { s with list := list }
  | .sourceChange parts after world => do
    let (list, _) ← sourceChanged test order after world parts.changes s.list
    .ok ⟨after, world, list⟩

def run (events : List (Event E H P)) (s : System E H P) : Outcome (System E H P) :=
  events.foldlM (step test order) s

/-- A condition that every event meets in the state in which it arrives. -/
def EachEvent (condition : System E H P → Event E H P → Prop) :
    List (Event E H P) → System E H P → Prop
  | [], _ => True
  | event :: events, s => condition s event ∧
      ∀ s', step test order s event = .ok s' → EachEvent condition events s'

/-- A change leads from the present source to `after`; an element whose test has a new
result is reported as added or updated. -/
def Event.WellFormed (s : System E H P) : Event E H P → Prop
  | .setPredicate _ _ => True
  | .sourceChange parts after world =>
    (∃ middle, parts.WellFormed s.source middle after) ∧
      ∀ (i : Nat) (e : E), after[i]? = some e → ¬ Covered parts.addRemoves i →
        ¬ Covered parts.updates i →
        passes test s.list.predicate world e = passes test s.list.predicate s.world e

/-- The array, which is grown to the size of the final source only, has room for the
elements that match after each of the add/remove sub-changes, and its length is an `int`. -/
def Event.Fits (s : System E H P) : Event E H P → Prop
  | .setPredicate _ _ => True
  | .sourceChange parts after world => after.length ≤ maxTripled ∧
    Roomy (grownLength s.list.filtered.length after.length)
      (passes test s.list.predicate s.world) (passes test s.list.predicate world) after
      s.list.size parts.addRemoves

def System.Consistent (s : System E H P) : Prop :=
  Represents (s.source.map (passes test s.list.predicate s.world)) s.list

theorem step_consistent {s : System E H P} {event : Event E H P} (h : s.Consistent test)
    (hwf : event.WellFormed test s) (hfits : event.Fits test s) :
    ∃ s', step test order s event = .ok s' ∧ s'.Consistent test := by
  cases event with
  | setPredicate hasListeners predicate =>
    obtain ⟨l', fired, hrun, hl', hpred⟩ :=
      setPredicate_spec test s.world hasListeners predicate h
    refine ⟨{ s with list := l' }, by rw [step, hrun, ok_bind], ?_⟩
    rw [System.Consistent, hpred]
    exact hl'
  | sourceChange parts after world =>
    obtain ⟨⟨middle, hparts⟩, hunreported⟩ := hwf
    obtain ⟨l', fired, hrun, hl', hpred⟩ := sourceChanged_spec test order hparts world
      (passes test s.list.predicate s.world) h hunreported hfits.2
    refine ⟨⟨after, world, l'⟩, by rw [step, hrun, ok_bind], ?_⟩
    rw [System.Consistent, hpred]
    exact hl'

theorem run_consistent (events : List (Event E H P)) :
    ∀ s : System E H P, s.Consistent test →
      EachEvent test order (Event.WellFormed test) events s →
      EachEvent test order (Event.Fits test) events s →
      ∃ s', run test order events s = .ok s' ∧ s'.Consistent test := by
  induction events with
  | nil => exact fun s h _ _ => ⟨s, rfl, h⟩
  | cons event events ih =>
    rintro s h ⟨hwf, hwf'⟩ ⟨hfits, hfits'⟩
    obtain ⟨s₁, hstep, h₁⟩ := step_consistent test order h hwf hfits
    obtain ⟨s₂, hrun, h₂⟩ := ih s₁ h₁ (hwf' s₁ hstep) (hfits' s₁ hstep)
    exact ⟨s₂, by rw [run, foldlM_cons, hstep, ok_bind]; exact hrun, h₂⟩

/-- The view invariant: no event of a run fails, and after each of them the entries in
use are the indexes of the elements that pass. -/
theorem run_view (source : List E) (_ : source.length ≤ maxTripled) (world : H)
    (predicate : Option P) :
    ∃ l, new test source world predicate = .ok l ∧ l.predicate = predicate ∧
      ∀ events : List (Event E H P),
        EachEvent test order (Event.WellFormed test) events ⟨source, world, l⟩ →
        EachEvent test order (Event.Fits test) events ⟨source, world, l⟩ →
        ∃ s, run test order events ⟨source, world, l⟩ = .ok s ∧
          View (passes test s.list.predicate s.world) s.source s.list := by
  obtain ⟨l, hnew, hl, hpred⟩ := new_spec test source world predicate
  refine ⟨l, hnew, hpred, ?_⟩
  intro events hwf hfits
  have hstart : System.Consistent test ⟨source, world, l⟩ := by
    rw [System.Consistent, hpred]
    exact hl
  obtain ⟨s, hrun, hs⟩ := run_consistent test order events _ hstart hwf hfits
  exact ⟨s, hrun, hs.view⟩

end

def divides (p : Nat) (_ : Unit) (e : Nat) : Bool := e % p == 0

def insertionOrder : EntryOrder E := ⟨id, fun _ => .refl _⟩

theorem run_view_add_then_refilter :
    ∃ l s, new divides [2, 3, 4] () (some 2) = .ok l ∧
      run divides insertionOrder
        [.sourceChange ⟨none, [⟨0, 1, some [], [], false⟩], []⟩ [6, 2, 3, 4] (),
        .setPredicate true (some 3)] ⟨[2, 3, 4], (), l⟩ = .ok s ∧
      View (passes divides s.list.predicate s.world) s.source s.list := by
  obtain ⟨l, hnew, hpred, hrun⟩ := run_view divides insertionOrder [2, 3, 4] (by decide) () (some 2)
  obtain rfl : l = ⟨[0, 2, 0, 0, 0], 2, some 2, Builder.new⟩ := Except.ok.inj (hnew.symm.trans rfl)
  obtain ⟨s, hs, hview⟩ :=
    hrun [.sourceChange ⟨none, [⟨0, 1, some [], [], false⟩], []⟩ [6, 2, 3, 4] (),
    .setPredicate true (some 3)]
    ⟨⟨⟨[2, 3, 4], rfl, by simp [AddRemoves], by simp [Separate], by decide, by simp⟩,
      fun _ _ _ _ _ => rfl⟩, fun _ _ => ⟨trivial, fun _ _ => trivial⟩⟩
    ⟨⟨by decide, by decide, trivial⟩, fun _ _ => ⟨trivial, fun _ _ => trivial⟩⟩
  exact ⟨_, s, hnew, hs, hview⟩

/-- Three matching elements are added in front of two and one of these is removed in the
same change: the array has four slots, five are needed in between. -/
theorem run_not_view :
    ∃ l, new divides [2, 4] () (some 2) = .ok l ∧
      EachEvent divides insertionOrder (Event.WellFormed divides)
        [.sourceChange ⟨none, [⟨0, 3, some [], [], false⟩, ⟨4, 4, some [4], [], false⟩], []⟩
          [6, 8, 10, 2] ()] ⟨[2, 4], (), l⟩ ∧
      run divides insertionOrder
        [.sourceChange ⟨none, [⟨0, 3, some [], [], false⟩, ⟨4, 4, some [4], [], false⟩], []⟩
          [6, 8, 10, 2] ()] ⟨[2, 4], (), l⟩ = .error .indexOutOfBounds := by
  refine ⟨⟨[0, 1, 0, 0], 2, some 2, Builder.new⟩, rfl, ⟨⟨⟨[2, 4], rfl, ?_, ?_, by decide, by simp⟩,
    fun _ _ _ _ _ => rfl⟩, fun _ _ => trivial⟩, rfl⟩
  · simp [AddRemoves]
  · simp [Separate]

variable {E H P : Type}

section

variable (passes : E → Bool)

theorem callsReplay_updateCalls (todo : List E) :
    ∀ (flags : List Bool) (front back : List E), flags.length = todo.length →
      CallsReplay (front ++ (todo.filter passes ++ back))
        (updateCalls passes front.length flags todo)
        (front ++ (select flags todo ++ back)) := by
  induction todo with
  | nil =>
    intro flags front back hlen
    obtain rfl := length_eq_zero_iff.mp hlen
    rfl
  | cons e todo ih =>
    intro flags front back hlen
    obtain ⟨b, flags, rfl⟩ := exists_cons_of_length_eq_add_one hlen
    rw [length_cons, length_cons, Nat.add_right_cancel_iff] at hlen
    have hkeep := ih flags (front ++ [e]) back hlen
    rw [length_append, append_assoc, append_assoc] at hkeep
    have hdrop := ih flags front back hlen
    cases hpass : passes e with
    | true =>
      rw [filter_cons_of_pos hpass]
      cases b with
      | true =>
        rw [updateCalls, if_pos hpass]
        exact callsReplay_update rfl hkeep
      | false =>
        rw [updateCalls, if_pos hpass]
        exact callsReplay_add rfl hkeep
    | false =>
      have hnot : ¬passes e = true := by simp [hpass]
      rw [filter_cons_of_neg hnot]
      cases b with
      | true =>
        rw [updateCalls, if_neg hnot]
        exact callsReplay_remove hdrop
      | false =>
        rw [updateCalls, if_neg hnot]
        exact hdrop

theorem nextUpdate_mem_updateCalls {idx : Int} (todo : List E) :
    ∀ (flags : List Bool) (pos : Nat) (start : Int), flags.length = todo.length →
      .nextUpdate idx ∈ updateCalls passes pos flags todo →
      ∃ (j : Nat) (k : Int), idx = ((pos + j : Nat) : Int) ∧ k ∈ positions start flags ∧
        (positions start (todo.map passes))[j]? = some k := by
  induction todo with
  | nil =>
    intro flags pos start hlen hmem
    obtain rfl := length_eq_zero_iff.mp hlen
    cases hmem
  | cons e todo ih =>
    intro flags pos start hlen hmem
    obtain ⟨b, flags, rfl⟩ := exists_cons_of_length_eq_add_one hlen
    rw [length_cons, length_cons, Nat.add_right_cancel_iff] at hlen
    have hweak : ∀ k, k ∈ positions (start + 1) flags → k ∈ positions start (b :: flags) := by
      intro k hk
      cases b with
      | true => exact mem_cons_of_mem _ hk
      | false => exact hk
    cases hpass : passes e with
    | true =>
      rw [map_cons, hpass]
      have hlater : .nextUpdate idx ∈ updateCalls passes (pos + 1) flags todo →
          ∃ (j : Nat) (k : Int), idx = ((pos + j : Nat) : Int) ∧
            k ∈ positions start (b :: flags) ∧
            (start :: positions (start + 1) (todo.map passes))[j]? = some k := by
        intro hlater
        rcases ih flags (pos + 1) (start + 1) hlen hlater with ⟨j, k, hidx, hk, hget⟩
        exact ⟨j + 1, k, by omega, hweak k hk, hget⟩
      cases b with
      | true =>
        rw [updateCalls, if_pos hpass] at hmem
        rcases mem_cons.mp hmem with hhead | hmem
        · cases hhead
          exact ⟨0, start, rfl, mem_cons_self, rfl⟩
        · exact hlater hmem
      | false =>
        rw [updateCalls, if_pos hpass] at hmem
        rcases mem_cons.mp hmem with hhead | hmem
        · cases hhead
        · exact hlater hmem
    | false =>
      have hnot : ¬passes e = true := by simp [hpass]
      rw [map_cons, hpass]
      have hlater : .nextUpdate idx ∈ updateCalls passes pos flags todo →
          ∃ (j : Nat) (k : Int), idx = ((pos + j : Nat) : Int) ∧
            k ∈ positions start (b :: flags) ∧
            (positions (start + 1) (todo.map passes))[j]? = some k := by
        intro hlater
        rcases ih flags pos (start + 1) hlen hlater with ⟨j, k, hidx, hk, hget⟩
        exact ⟨j, k, hidx, hweak k hk, hget⟩
      cases b with
      | true =>
        rw [updateCalls, if_neg hnot] at hmem
        rcases mem_cons.mp hmem with hhead | hmem
        · cases hhead
        · exact hlater hmem
      | false =>
        rw [updateCalls, if_neg hnot] at hmem
        exact hlater hmem

end

/-- One replacement, or an update, leads from `before` to `after`. -/
structure SingleChange (c : SubChange E) (before after : List E) : Prop where
  perm : c.perm = []
  leads : (c.updated = false ∧ ∃ done added later, before = done ++ c.getRemoved ++ later ∧
      after = done ++ added ++ later ∧ c.fromIdx = done.length ∧
      c.toIdx = c.fromIdx + added.length) ∨
    c.updated = true ∧ after = before ∧ 0 ≤ c.fromIdx ∧ c.fromIdx ≤ c.toIdx ∧
      c.toIdx ≤ before.length

/-- The calls that are made lead from the elements that `l` shows of `before` to those that `l'`
shows of `after`. An index that is updated holds an entry that has been there before. -/
structure Reports (run : FilteredList E P → Outcome (FilteredList E P)) (before after : List E)
    (l l' : FilteredList E P) (calls : List (Call E)) : Prop where
  makes : Makes calls (fun builder => run { l with builder := builder })
    fun builder => { l' with builder := builder }
  replays : ∃ old new, elements before l = .ok old ∧ elements after l' = .ok new ∧
    CallsReplay new calls old
  updates : ∀ idx : Int, .nextUpdate idx ∈ calls → 0 ≤ idx ∧ idx < l'.size ∧
    ∃ k, k ∈ l.filtered.take l.size ∧ l'.filtered[idx.toNat]? = some k

theorem Holds.take_filtered {flags : List Bool} (h : Holds flags l) :
    l.filtered.take l.size = positions 0 flags := by
  rw [h.size]
  exact (prefix_iff_eq_take.mp h.used).symm

theorem not_nextUpdate_mem_addCalls (idx : Int) (count : Nat) :
    ∀ pos : Nat, (.nextUpdate idx : Call E) ∉ addCalls pos count := by
  induction count with
  | zero => exact fun _ hmem => nomatch hmem
  | succ count ih =>
    intro pos hmem
    rcases mem_cons.mp hmem with hhead | hmem
    · cases hhead
    · exact ih (pos + 1) hmem

section

variable (passes : E → Bool)

/-- The flags of the range are those of a test of its elements, those before it are kept. -/
def Retested (passes : E → Bool) (c : SubChange E) (flags flags' : List Bool) (after : List E) :
    Prop :=
  ∀ i : Nat, (i < c.fromIdx → flags'[i]? = flags[i]?) ∧
    (c.fromIdx ≤ i → i < c.toIdx → flags'[i]? = after[i]?.map passes)

theorem retested {c : SubChange E} {fk fr fs : List Bool} {done added later : List E}
    (hfk : fk.length = done.length) (hfrom : c.fromIdx = done.length)
    (hto : c.toIdx = c.fromIdx + added.length) :
    Retested passes c (fk ++ fr ++ fs) (fk ++ added.map passes ++ fs) (done ++ added ++ later) := by
  intro i
  rw [append_assoc, append_assoc, append_assoc]
  constructor
  · intro hlt
    rw [getElem?_append_left (by omega), getElem?_append_left (by omega)]
  · intro hge hlt
    rw [getElem?_append_right (by omega), getElem?_append_left (by rw [length_map]; omega),
      getElem?_append_right (by omega), getElem?_append_left (by omega), getElem?_map, hfk]

theorem addRemove_reports {l : FilteredList E P} {c : SubChange E} {flags : List Bool}
    {before after done added later : List E} (h : Holds flags l)
    (hlen : flags.length = before.length) (hperm : c.perm = []) (hupdd : c.updated = false)
    (hbef : before = done ++ c.getRemoved ++ later) (hafter : after = done ++ added ++ later)
    (hfrom : c.fromIdx = done.length) (hto : c.toIdx = c.fromIdx + added.length) :
    ∃ calls l' flags', Reports (fun l => addRemove passes after l c) before after l l' calls ∧
      Holds flags' l' ∧ flags'.length = after.length ∧ l'.predicate = l.predicate ∧
        Retested passes c flags flags' after := by
  subst hbef hafter
  -- the flags of the elements before, in and behind the range
  obtain ⟨fk, fr, fs, rfl, hfk, hfr, hfs⟩ : ∃ fk fr fs, flags = fk ++ fr ++ fs ∧
      fk.length = done.length ∧ fr.length = c.getRemoved.length ∧ fs.length = later.length := by
    simp only [length_append] at hlen
    refine ⟨flags.take done.length, (flags.drop done.length).take c.getRemoved.length,
      (flags.drop done.length).drop c.getRemoved.length, ?_, ?_, ?_, ?_⟩
    · rw [append_assoc, take_append_drop, take_append_drop]
    all_goals
      simp only [length_take, length_drop]
      omega
  have hroom : l.size - fr.count true + added.countP passes ≤
      grownLength l.filtered.length (done ++ added ++ later).length := by
    have hgrown := le_grownLength l.filtered.length (done ++ added ++ later).length
    have hcnt := length_positions (fk ++ fr ++ fs) 0
    have hk := count_le_length (a := true) (l := fk)
    have hs := count_le_length (a := true) (l := fs)
    have hadded := countP_le_length (p := passes) (l := added)
    rw [h.size, hcnt]
    simp only [count_append, length_append] at hgrown ⊢
    omega
  obtain ⟨filtered, size, hmakes, hholds, -⟩ := addRemove_makes passes hperm hupdd done added
    later fk fr fs h hfk hfr hfrom hto hroom
  have hlen' : (fk ++ added.map passes ++ fs).length = (done ++ added ++ later).length := by
    simp only [length_append, length_map]
    omega
  refine ⟨_, _, _, ⟨hmakes, ⟨_, _, elements_select hlen h, elements_select hlen' hholds, ?_⟩, ?_⟩,
    hholds, hlen', rfl, retested passes hfk hfrom hto⟩
  · have hfront : (positions 0 fk).length = (select fk done).length := by
      rw [length_positions, length_select hfk]
    have hadded : added.countP passes = (added.filter passes).length := countP_eq_length_filter
    rw [select_append_append hfk hfr, select_append_append hfk (by rw [length_map]),
      select_map, hfront, hadded]
    exact callsReplay_removeAll _ (callsReplay_addAll _ rfl)
  · intro idx hmem
    rcases mem_append.mp hmem with hmem | hmem
    · rcases mem_map.mp hmem with ⟨e, -, he⟩
      cases he
    · exact absurd hmem (not_nextUpdate_mem_addCalls idx _ _)

theorem update_reports {l : FilteredList E P} {c : SubChange E} {flags : List Bool}
    {source : List E} (h : Holds flags l) (hlen : flags.length = source.length)
    (hfrom : 0 ≤ c.fromIdx) (hle : c.fromIdx ≤ c.toIdx) (hto : c.toIdx ≤ source.length) :
    ∃ calls l' flags', Reports (fun l => update passes source l c) source source l l' calls ∧
      Holds flags' l' ∧ flags'.length = source.length ∧ l'.predicate = l.predicate ∧
        Retested passes c flags flags' source := by
  obtain ⟨done, todo, later, rfl, hdone, htodo⟩ := exists_cut source hfrom hle hto
  obtain ⟨fk, fr, fs, rfl, hfk, hfr⟩ := exists_cut flags hfrom hle (by omega)
  have hfk' : fk.length = done.length := by omega
  have hfr' : fr.length = todo.length := by omega
  have hfs : fs.length = later.length := by
    simp only [length_append] at hlen
    omega
  obtain ⟨filtered, size, hmakes, hholds, -⟩ :=
    update_makes passes (c := c) done todo later fk fr fs h
    hfk' hfr' hfs (by omega) (by omega)
  have hlen' : (fk ++ todo.map passes ++ fs).length = (done ++ todo ++ later).length := by
    simp only [length_append, length_map]
    omega
  refine ⟨_, _, _, ⟨hmakes, ⟨_, _, elements_select hlen h, elements_select hlen' hholds, ?_⟩, ?_⟩,
    hholds, hlen', rfl, retested passes hfk' (by omega) (by omega)⟩
  · have hfront : (positions 0 fk).length = (select fk done).length := by
      rw [length_positions, length_select hfk']
    rw [select_append_append hfk' hfr', select_append_append hfk' (by rw [length_map]),
      select_map, hfront]
    exact callsReplay_updateCalls passes todo fr _ _ hfr'
  · intro idx hmem
    rcases nextUpdate_mem_updateCalls passes todo fr
      (positions 0 fk).length fk.length hfr' hmem with
      ⟨j, k, rfl, hk, hget⟩
    have hused : (positions 0 (fk ++ todo.map passes ++ fs))[(positions 0 fk).length + j]? =
        some k := by
      rw [append_assoc, positions_append, positions_append, Int.zero_add,
        getElem?_append_right (Nat.le_add_right _ _), Nat.add_sub_cancel_left,
        getElem?_append_left (List.getElem?_eq_some_iff.mp hget).1, hget]
    have hlt := (List.getElem?_eq_some_iff.mp hused).1
    have hsize := hholds.size
    dsimp only at hsize
    refine ⟨by omega, by dsimp only; omega, k, ?_, ?_⟩
    · rw [h.take_filtered, positions_append, positions_append, Int.zero_add]
      exact mem_append_left _ (mem_append_right _ hk)
    · rw [Int.toNat_natCast, getElem?_used hholds.used hlt, hused]

end

section

variable (test : P → H → E → Bool) (order : EntryOrder E)

theorem applySubChange_reports (world : H) {l : FilteredList E P} {c : SubChange E}
    {flags : List Bool} {before after : List E} (h : Holds flags l)
    (hlen : flags.length = before.length) (hc : SingleChange c before after) :
    ∃ calls l' flags', Reports (fun l => applySubChange test order after world l c) before after l
        l' calls ∧
      Holds flags' l' ∧ flags'.length = after.length ∧ l'.predicate = l.predicate ∧
        Retested (passes test l.predicate world) c flags flags' after := by
  rcases hc.leads with ⟨hupdated, done, added, later, hbefore, hafter, hfrom, hto⟩ |
    ⟨hupdated, rfl, hfrom, hle, hto⟩
  · obtain ⟨calls, l', flags', hreports, hrest⟩ := addRemove_reports (passes test l.predicate world)
      h hlen hc.perm hupdated hbefore hafter hfrom hto
    refine ⟨calls, l', flags', ⟨fun builder => ?_, hreports.replays, hreports.updates⟩, hrest⟩
    exact (applySubChange_addRemove test order hc.perm hupdated after world _).trans
      (hreports.makes builder)
  · obtain ⟨calls, l', flags', hreports, hrest⟩ := update_reports (passes test l.predicate world)
      h hlen hfrom hle hto
    refine ⟨calls, l', flags', ⟨fun builder => ?_, hreports.replays, hreports.updates⟩, hrest⟩
    exact (applySubChange_update test order hc.perm hupdated after world _).trans
      (hreports.makes builder)

/-- One of three shown elements gives way to two, one of which passes. -/
theorem applySubChange_reports_replacement :
    ∃ calls l' flags', Reports
        (fun l => applySubChange divides insertionOrder [2, 8, 3, 6] () l
          ⟨1, 3, some [4], [], false⟩)
        [2, 4, 6] [2, 8, 3, 6] (⟨[0, 1, 2], 3, some 2, Builder.new⟩ :
          FilteredList Nat Nat) l' calls ∧
      Holds flags' l' ∧ flags'.length = [2, 8, 3, 6].length ∧ l'.predicate = some 2 ∧
        Retested (passes divides (some 2) ()) ⟨1, 3, some [4], [], false⟩ [true, true, true] flags'
          [2, 8, 3, 6] := by
  have hholds : Holds [true, true, true]
      (⟨[0, 1, 2], 3, some 2, Builder.new⟩ : FilteredList Nat Nat) := ⟨prefix_refl _, rfl⟩
  exact applySubChange_reports divides insertionOrder () hholds rfl
    ⟨rfl, .inl ⟨rfl, [2], [8, 3], [6], rfl, rfl, rfl, rfl⟩⟩

end

end OpenJfx.Collections.Filtered
