import OpenJfx.Collections.PermutationComposition
import OpenJfx.Collections.SortedList

namespace OpenJfx.Collections.Sorted

open Java.Arrays Collections.ListChange Collections.ListChangeBuilder Data.IndexedView List

variable {E H C : Type}

section

variable {source newSource : List E} {view : List (E × Nat)} {c : SubChange E}

theorem updatePermutationIndexes_spec {f : Nat → Nat} {bound : Nat} (hf : Scatters f view)
    (hget : ∀ x ∈ view, c.getPermutation x.2 = .ok (f x.2 : Int) ∧ f x.2 < bound) (count : Nat) :
    ∀ (i : Nat) (sorted : List (Option (Element E))) (perm : List Int),
      i + count = view.length → perm.length = bound → SlotsFrom i view sorted →
      ∃ sorted' perm', updatePermutationIndexes c count i sorted perm = .ok (sorted', perm') ∧
        sorted'.length = sorted.length ∧ (∀ j, j < i → sorted'[j]? = sorted[j]?) ∧
        SlotsFrom i (view.map (reindex f)) sorted' ∧ Notes f i view perm perm' := by
  induction count with
  | zero =>
    intro i sorted perm hcnt _ _
    refine ⟨sorted, perm, rfl, rfl, fun _ _ => rfl, ?_, .none (by omega) perm⟩
    intro j x hj hx
    have := (List.getElem?_eq_some_iff.mp hx).1
    rw [length_map] at this
    omega
  | succ count ih =>
    intro i sorted perm hcnt hbound hslots
    have hx := getElem?_eq_getElem (show i < view.length by omega)
    rcases hget _ (mem_of_getElem? hx) with ⟨hget_x, hlt⟩
    generalize view[i] = x at hx hget_x hlt
    have hslot := hslots i x (Nat.le_refl i) hx
    have hi := (List.getElem?_eq_some_iff.mp hslot).1
    have hrest : SlotsFrom (i + 1) view (sorted.set i (slot (reindex f x))) := by
      intro j y hj hy
      rw [getElem?_set_ne (by omega)]
      exact hslots j y (by omega) hy
    rcases ih (i + 1) _ (perm.set (f x.2) i) (by omega) (by rw [length_set, hbound]) hrest
      with ⟨sorted', perm', hrun, hlen, hbef, hslots', hnotes⟩
    refine ⟨sorted', perm', ?_, by rw [hlen, length_set], ?_, ?_,
      hnotes.cons hf hx (by omega)⟩
    · rw [updatePermutationIndexes, elementAt_eq hslot, ok_bind, hget_x, ok_bind,
        store_eq_set _ hi, ok_bind, store_eq_set _ (by omega), ok_bind]
      exact hrun
    · intro j hj
      rw [hbef j (by omega), getElem?_set_ne (by omega)]
    · intro j y hj hy
      rcases Nat.eq_or_lt_of_le hj with rfl | hlt'
      · rw [getElem?_map, hx, Option.map_some, Option.some.injEq] at hy
        rw [hbef i (by omega), getElem?_set_self hi, hy]
      · exact hslots' j y hlt' hy

theorem updatePermutationIndexes_fails {n : Nat} (hc : c.IsPermutation n) (count : Nat) :
    ∀ (i : Nat) (sorted : List (Option (Element E))) (perm : List Int),
      i + count = view.length → SlotsFrom i view sorted →
      (∃ (j : Nat) (x : E × Nat), i ≤ j ∧ view[j]? = some x ∧
        ¬(c.fromIdx ≤ x.2 ∧ x.2 < c.toIdx)) →
      ∀ r, updatePermutationIndexes c count i sorted perm ≠ .ok r := by
  induction count with
  | zero =>
    rintro i sorted perm hcnt - ⟨j, x, hj, hx, -⟩
    have := (List.getElem?_eq_some_iff.mp hx).1
    omega
  | succ count ih =>
    rintro i sorted perm hcnt hslots ⟨j, y, hj, hy, hout⟩ r hrun
    have hx := getElem?_eq_getElem (show i < view.length by omega)
    generalize view[i] = x at hx
    have hslot := hslots i x (Nat.le_refl i) hx
    rw [updatePermutationIndexes, elementAt_eq hslot, ok_bind] at hrun
    rcases Decidable.em (c.fromIdx ≤ x.2 ∧ x.2 < c.toIdx) with hin | hin
    · rw [(hc.getPermutation_eq hin.1 hin.2).1, ok_bind,
        store_eq_set _ (List.getElem?_eq_some_iff.mp hslot).1, ok_bind] at hrun
      have hne : i ≠ j := by
        rintro rfl
        rw [hx, Option.some.injEq] at hy
        exact hout (hy ▸ hin)
      rcases hstore : store perm (c.newIndex x.2 : Int) (i : Int) with e | perm'
      · rw [hstore] at hrun
        cases hrun
      · rw [hstore, ok_bind] at hrun
        refine ih (i + 1) _ perm' (by omega) ?_ ⟨j, y, by omega, hy, hout⟩ r hrun
        intro k z hk hz
        rw [getElem?_set_ne (by omega)]
        exact hslots k z (by omega) hz
    · rw [hc.getPermutation_outside hin] at hrun
      cases hrun

theorem permuteUnsorted_spec {n : Nat} (hc : c.IsPermutation n)
    {sorted : List (Option (Element E))} (hslots : SlotsFrom 0 source.zipIdx sorted)
    {perm : List Int} (hperm : ∀ k, k < n → perm[k]? = some (k : Int)) (hn : source.length = n)
    (count : Nat) :
    ∀ (i : Nat) (sortedTmp : List (Option (Element E))), i + count = n → n ≤ sortedTmp.length →
      (∀ k e, k < i → source[k]? = some e →
        sortedTmp[c.newIndex k]? = some (slot (e, c.newIndex k))) →
      ∃ sorted', permuteUnsorted c sorted count i sortedTmp perm = .ok (sorted', perm) ∧
        sorted'.length = sortedTmp.length ∧
        ∀ k e, source[k]? = some e → sorted'[c.newIndex k]? = some (slot (e, c.newIndex k)) := by
  induction count with
  | zero =>
    intro i sortedTmp hcnt _ hdone
    refine ⟨sortedTmp, rfl, rfl, ?_⟩
    intro k e he
    have := (List.getElem?_eq_some_iff.mp he).1
    exact hdone k e (by omega) he
  | succ count ih =>
    intro i sortedTmp hcnt hlen hdone
    have he := getElem?_eq_getElem (show i < source.length by omega)
    generalize source[i] = e at he
    have hnew := hc.newIndex_lt (show i < n by omega)
    have hslot : sorted[i]? = some (slot (e, i)) :=
      hslots i (e, i) (Nat.zero_le i) (by simp [getElem?_zipIdx, he])
    -- both branches write the element at its new index
    have hnext : ∀ k e', k < i + 1 → source[k]? = some e' →
        (sortedTmp.set (c.newIndex i) (slot (e, c.newIndex i)))[c.newIndex k]? =
          some (slot (e', c.newIndex k)) := by
      intro k e' hk he'
      rcases Nat.lt_succ_iff_lt_or_eq.mp hk with hlt | rfl
      · rw [getElem?_set_ne (fun hsame => by have := hc.newIndex_inj hsame; omega)]
        exact hdone k e' hlt he'
      · rw [he, Option.some.injEq] at he'
        rw [getElem?_set_self (by omega), he']
    rcases ih (i + 1) _ (by omega) (by rw [length_set]; exact hlen) hnext with
      ⟨sorted', hrun, hlength, hall⟩
    refine ⟨sorted', ?_, by rw [hlength, length_set], hall⟩
    rw [permuteUnsorted]
    split
    case isTrue hin =>
      have hstore : store perm (i : Int) (i : Int) = .ok perm := by
        rcases List.getElem?_eq_some_iff.mp (hperm i (by omega)) with ⟨hi, hval⟩
        have hset := set_getElem_self hi
        rw [hval] at hset
        rw [store_eq_set _ hi, hset]
      rw [(hc.getPermutation_eq hin.1 hin.2).1, ok_bind, elementAt_eq hslot, ok_bind,
        store_eq_set _ (by omega), ok_bind, hstore, ok_bind]
      exact hrun
    case isFalse hout =>
      have hsame : c.newIndex i = i := if_neg hout
      rw [hsame] at hrun
      rw [load_eq_ok hslot, ok_bind, store_eq_set _ (by omega)]
      exact hrun

theorem perm_zipIdx_permutes (hc : c.IsPermutation source.length)
    (hperms : c.Permutes source newSource) :
    (source.zipIdx.map (reindex c.newIndex)).Perm newSource.zipIdx :=
  perm_zipIdx_reindex hperms.1 (fun _ _ _ _ hsame => hc.newIndex_inj hsame) hperms.2

theorem Shows.scatters {l : SortedList E C} (h : Shows source view l) {f : Nat → Nat}
    (hf : ∀ i j, f i = f j → i = j) : Scatters f view :=
  fun _ _ _ _ hx hy hsame => h.index_inj hx hy (hf _ _ hsame)

end

section

variable {compare : C → H → E → E → Int} {source newSource : List E} {view : List (E × Nat)}
  {l : SortedList E C}

theorem applySubChange_permutation {cmp : E → E → Int} (order : EntryOrder E)
    (h : Shows source view l) {c : SubChange E} (hc : c.IsPermutation source.length)
    (hperms : c.Permutes source newSource) (hfrom : c.fromIdx = 0)
    (hto : c.toIdx = source.length) :
    ∃ l', applySubChange cmp order newSource l c = .ok l' ∧ l'.comparator = l.comparator ∧
      l'.builder = l.builder ∧ Shows newSource (view.map (reindex c.newIndex)) l' := by
  have hget : ∀ x ∈ view, c.getPermutation x.2 = .ok (c.newIndex x.2 : Int) ∧
      c.newIndex x.2 < l.perm.length := by
    intro x hx
    have hlt := h.index_lt hx
    have hnew := hc.newIndex_lt hlt
    have hle := h.size_le_perm
    exact ⟨(hc.getPermutation_eq (by omega) (by omega)).1, by omega⟩
  have hscatters := h.scatters fun i j => hc.newIndex_inj
  have hsize : l.size = view.length := by rw [h.size, h.length_view]
  rcases updatePermutationIndexes_spec hscatters hget l.size 0 l.sorted l.perm (by omega) rfl
    h.slots with ⟨sorted', perm', hrun, hlen, -, hslots, hnotes⟩
  refine ⟨{ l with sorted := sorted', perm := perm' }, ?_, rfl, rfl, ?_⟩
  · rw [applySubChange, if_pos hc.wasPermutated]
    change (updatePermutationIndexes c l.size (0 : Nat) l.sorted l.perm >>= _) = _
    rw [hrun]
    rfl
  · refine ⟨?_, ?_, hslots, ?_, hnotes.leadsTo⟩
    · rw [hperms.1]
      exact h.size
    · rw [hnotes.length, hlen]
      exact h.length_perm
    · exact (h.perm.map _).trans (perm_zipIdx_permutes hc hperms)

theorem updateUnsorted_permutation (h : Shows source source.zipIdx l) {c : SubChange E}
    (hc : c.IsPermutation source.length) (hperms : c.Permutes source newSource) :
    ∃ l', updateUnsorted newSource l c = .ok l' ∧ l'.comparator = l.comparator ∧
      l'.builder = l.builder ∧ Shows newSource newSource.zipIdx l' := by
  have hperm : ∀ k, k < source.length → l.perm[k]? = some (k : Int) := by
    intro k hk
    exact h.leadsTo k (source[k], k) (by simp [hk])
  have hle := h.size_le_sorted
  rcases permuteUnsorted_spec hc h.slots hperm rfl l.size 0
    (List.replicate l.sorted.length none) (by rw [h.size]; omega)
    (by rw [length_replicate]; exact hle) (fun k _ hk => absurd hk (Nat.not_lt_zero k)) with
    ⟨sorted', hrun, hlen, hall⟩
  rw [length_replicate] at hlen
  refine ⟨{ l with sorted := sorted' }, ?_, rfl, rfl, ?_⟩
  · have hpermuted : permuted l c = .ok { l with sorted := sorted' } := by
      rw [permuted, if_pos hc.wasPermutated]
      change (permuteUnsorted c l.sorted l.size (0 : Nat) _ l.perm >>= _) = _
      rw [hrun]
      rfl
    have hrem : c.wasRemoved = false := by simp [SubChange.wasRemoved, hc.noRemoved]
    have hadded : c.wasAdded = false := by simp [SubChange.wasAdded, hc.wasPermutated]
    rw [updateUnsorted, hpermuted, ok_bind, removed, if_neg (by simp [hrem]), ok_bind, added,
      if_neg (by simp [hadded])]
  · refine ⟨?_, ?_, ?_, .refl _, ?_⟩
    · rw [hperms.1]
      exact h.size
    · rw [hlen]
      exact h.length_perm
    · intro j x _ hx
      rw [getElem?_zipIdx, Option.map_eq_some_iff] at hx
      rcases hx with ⟨e, he, rfl⟩
      have hj := (List.getElem?_eq_some_iff.mp he).1
      rw [hperms.1] at hj
      rcases hc.exists_newIndex hj with ⟨k, hk, rfl, -⟩
      rw [hperms.2 k hk] at he
      rw [Nat.zero_add]
      exact hall k e he
    · intro j x hx
      rw [getElem?_zipIdx, Option.map_eq_some_iff] at hx
      rcases hx with ⟨e, he, rfl⟩
      have hj := (List.getElem?_eq_some_iff.mp he).1
      rw [hperms.1] at hj
      rw [Nat.zero_add]
      exact hperm j hj

end

def permutationChange (p : RangePerm) : SubChange E := ⟨p.fromIdx, p.toIdx, some [], p.perm, false⟩

theorem isPermutation_permutationChange {p : RangePerm} {n : Nat} (hp : p.IsBijection n)
    (hlt : p.fromIdx < p.toIdx) : (permutationChange p : SubChange E).IsPermutation n :=
  ⟨hp.fromIdx_nonneg, hlt, hp.toIdx_le, hp.length_perm, hp.mem_range, hp.nodup, rfl, rfl⟩

section

variable (compare : C → H → E → E → Int)

/-- `sourceChanged` completes, and the arrays then describe the source as it is now; without a
comparator in its own order. -/
def TakesChange (order : EntryOrder E) (newSource : List E) (world : H) (c : SubChange E)
    (l : SortedList E C) : Prop :=
  ∃ l' fired view', sourceChanged compare order newSource world [c] l = .ok (l', fired) ∧
    l'.builder = Builder.new ∧ Shows newSource view' l' ∧
    (l'.comparator = none → view' = newSource.zipIdx)

end

section

variable {compare : C → H → E → E → Int} {source newSource : List E} {view : List (E × Nat)}
  {l : SortedList E C} {c : SubChange E}

theorem sourceChanged_singleton (order : EntryOrder E) (world : H) {comparator : C}
    (hcmp : l.comparator = some comparator) :
    sourceChanged compare order newSource world [c] l =
      (applySubChange (compare comparator world) order newSource
        { l with builder := l.builder.beginChange } c >>= fun l' =>
          l'.builder.endChange >>= fun r => .ok ({ l' with builder := r.1 }, r.2)) := by
  rcases l with ⟨sorted, perm, size, _, builder⟩
  obtain rfl := hcmp
  rw [sourceChanged]
  dsimp only
  rw [foldlM_cons, bind_assoc]
  rfl

theorem applySubChange_nothing {cmp : E → E → Int} (order : EntryOrder E)
    (hperm : c.wasPermutated = false) (hupdd : c.wasUpdated = false)
    (hrem : c.getRemoved = []) (hrange : c.fromIdx = c.toIdx) (hto : c.toIdx ≤ l.size)
    (hbld : l.builder = Builder.new.beginChange) :
    ∃ builder fired, applySubChange cmp order newSource l c = .ok { l with builder } ∧
      builder.endChange = .ok (Builder.new, fired) := by
  have hsize : c.getRemovedSize = 0 := congrArg List.length hrem
  rcases l with ⟨sorted, perm, size, comparator, builder⟩
  obtain rfl : builder = Builder.new.beginChange := hbld
  dsimp only at hto
  rcases Nat.eq_zero_or_pos size with rfl | hpos
  · -- an empty list
    have hnat : c.toIdx.toNat = 0 := by omega
    have hset : setAllToMapping cmp newSource 0
        (⟨sorted, perm, 0, comparator, Builder.new.beginChange⟩ : SortedList E C) =
        .ok ⟨sorted, perm, 0, comparator, ⟨1, [⟨0, 0, some [], [], false⟩], [], none⟩⟩ := by
      rfl
    refine ⟨_, _, ?_, show (⟨1, [⟨0, 0, some [], [], false⟩], [], none⟩ : Builder E).endChange =
      .ok (Builder.new, some [⟨0, 0, some [], [], false⟩]) from rfl⟩
    rw [applySubChange, if_neg (by simp [hperm]), if_neg (by simp [hupdd]), addRemove, hrem,
      hnat]
    split
    · exact hset
    · exact hset
  · refine ⟨Builder.new.beginChange, none, ?_, rfl⟩
    have hcnt : (c.toIdx - c.fromIdx).toNat = 0 := by omega
    rw [applySubChange, if_neg (by simp [hperm]), if_neg (by simp [hupdd]), addRemove, hsize,
      if_neg (by dsimp only; omega), hrem, removeEach, ok_bind]
    dsimp only
    rw [if_neg (by omega), hcnt, insertEach]

theorem takesChange_nothing (order : EntryOrder E) (world : H) (h : Shows source view l)
    (hbld : l.builder = Builder.new) (hview : l.comparator = none → view = source.zipIdx)
    (hperm : c.perm = []) (hupdd : c.updated = false) (hrem : c.getRemoved = [])
    (hrange : c.fromIdx = c.toIdx) (hto : c.toIdx ≤ source.length) :
    TakesChange compare order source world c l := by
  have hpermutated : c.wasPermutated = false := by simp [SubChange.wasPermutated, hperm]
  rcases hcmp : l.comparator with _ | comparator
  · refine ⟨l, some [c], view, ?_, hbld, h, hview⟩
    have hadded : c.wasAdded = false := by
      simp [SubChange.wasAdded, hrange]
    have hsub : updateUnsorted source l c = .ok l := by
      rw [updateUnsorted, permuted, if_neg (by simp [hpermutated]), ok_bind, removed,
        if_neg (by simp [SubChange.wasRemoved, hrem]), ok_bind, added,
        if_neg (by simp [hadded])]
    rw [sourceChanged, hcmp]
    rw [foldlM_cons, hsub]
    rfl
  · have hto' : c.toIdx ≤ ({ l with builder := l.builder.beginChange } : SortedList E C).size := by
      rw [← h.size] at hto
      exact hto
    rcases applySubChange_nothing order hpermutated hupdd hrem hrange hto'
      (congrArg Builder.beginChange hbld) with
      ⟨builder, fired, hsub, hend⟩
    refine ⟨{ l with builder := Builder.new }, fired, view, ?_, rfl,
      ⟨h.size, h.length_perm, h.slots,
      h.perm, h.leadsTo⟩, fun hnone => ?_⟩
    · rw [sourceChanged_singleton order world hcmp, hsub, ok_bind]
      rw [hend]
      rfl
    · exact hview hnone

theorem takesChange_permutation (order : EntryOrder E) (world : H) (h : Shows source view l)
    (hbld : l.builder = Builder.new) (hview : l.comparator = none → view = source.zipIdx)
    (hc : c.IsPermutation source.length) (hperms : c.Permutes source newSource)
    (hwhole : l.comparator = none ∨ c.fromIdx = 0 ∧ c.toIdx = source.length) :
    TakesChange compare order newSource world c l := by
  rcases hcmp : l.comparator with _ | comparator
  · obtain rfl := hview hcmp
    rcases updateUnsorted_permutation h hc hperms with ⟨l', hsub, hcomp, hbuild, hshows⟩
    refine ⟨l', some [c], newSource.zipIdx, ?_, hbuild.trans hbld, hshows, fun _ => rfl⟩
    rw [sourceChanged, hcmp]
    rw [foldlM_cons, hsub]
    rfl
  · rcases hwhole with hnone | ⟨hfrom, hto⟩
    · rw [hcmp] at hnone
      cases hnone
    have hopen : Shows source view ({ l with builder := l.builder.beginChange } : SortedList E C) :=
      ⟨h.size, h.length_perm, h.slots, h.perm, h.leadsTo⟩
    rcases applySubChange_permutation order hopen hc hperms hfrom hto with
      ⟨l', hsub, hcomp, hbuild, hshows⟩
    refine ⟨{ l' with builder := Builder.new }, none, view.map (reindex c.newIndex), ?_, rfl,
      ⟨hshows.size, hshows.length_perm, hshows.slots, hshows.perm, hshows.leadsTo⟩, ?_⟩
    · rw [sourceChanged_singleton order world hcmp, hsub, ok_bind, hbuild, hbld]
      rfl
    · intro hnone
      rw [hcomp] at hnone
      rw [hcmp] at hnone
      cases hnone

theorem not_takesChange (order : EntryOrder E) (world : H) (h : Shows source view l)
    (hc : c.IsPermutation source.length) (hcmp : l.comparator ≠ none)
    (hpart : 0 < c.fromIdx ∨ c.toIdx < source.length) :
    ¬TakesChange compare order newSource world c l := by
  rintro ⟨l', fired, view', hok, -⟩
  rcases Option.ne_none_iff_exists'.mp hcmp with ⟨comparator, hsome⟩
  have hnn := hc.fromIdx_nonneg
  have hto := hc.toIdx_le
  have hlt := hc.fromIdx_lt
  -- an index outside the range
  have hout : ∃ i : Nat, i < source.length ∧ ¬(c.fromIdx ≤ i ∧ (i : Int) < c.toIdx) := by
    rcases hpart with hfrom | hend
    · exact ⟨0, by omega, by omega⟩
    · exact ⟨c.toIdx.toNat, by omega, by omega⟩
  rcases hout with ⟨i, hi, hout⟩
  rcases h.exists_entry (getElem?_eq_getElem hi) with ⟨j, hj, -⟩
  have hfails := updatePermutationIndexes_fails hc l.size 0 l.sorted l.perm
    (by rw [h.size, h.length_view]; omega) h.slots ⟨j, _, Nat.zero_le j, hj, hout⟩
  rw [sourceChanged_singleton order world hsome, applySubChange, if_pos hc.wasPermutated] at hok
  rcases hrun : updatePermutationIndexes c l.size ((0 : Nat) : Int) l.sorted l.perm with e | r
  · change ((updatePermutationIndexes c l.size ((0 : Nat) : Int) l.sorted l.perm >>= _) >>= _)
      = _ at hok
    rw [hrun] at hok
    cases hok
  · exact hfails r hrun

theorem takesChange_iff (order : EntryOrder E) (world : H) (h : Shows source view l)
    (hbuilder : l.builder = Builder.new) (hview : l.comparator = none → view = source.zipIdx)
    {p : RangePerm} (hp : p.IsBijection source.length)
    (hpermutes : (permutationChange p).Permutes source newSource) :
    TakesChange compare order newSource world (permutationChange p) l ↔
      l.comparator = none ∨ p.fromIdx = p.toIdx ∨ p.fromIdx = 0 ∧ p.toIdx = source.length := by
  have hfrom := hp.fromIdx_nonneg
  have hto := hp.toIdx_le
  rcases Int.lt_or_eq_of_le hp.fromIdx_le with hlt | heq
  · have hc := isPermutation_permutationChange (E := E) hp hlt
    constructor
    · intro htakes
      rcases Decidable.em (p.fromIdx = 0 ∧ p.toIdx = source.length) with hwhole | hpart
      · exact .inr (.inr hwhole)
      · refine .inl (Classical.byContradiction fun hsome => ?_)
        exact not_takesChange order world h hc hsome
          (by change 0 < p.fromIdx ∨ p.toIdx < _; omega) htakes
    · rintro (hnone | hsame | hwhole)
      · exact takesChange_permutation order world h hbuilder hview hc hpermutes (.inl hnone)
      · omega
      · exact takesChange_permutation order world h hbuilder hview hc hpermutes (.inr hwhole)
  · refine iff_of_true ?_ (.inr (.inl heq))
    have hperm : p.perm = [] := by
      have := hp.length_perm
      exact length_eq_zero_iff.mp (by omega)
    have hsource : newSource = source := by
      refine ext_getElem? fun i => ?_
      rcases Nat.lt_or_ge i source.length with hi | hi
      · have hsame : (permutationChange p : SubChange E).newIndex i = i :=
          if_neg (by change ¬(p.fromIdx ≤ i ∧ (i : Int) < p.toIdx); omega)
        have := hpermutes.2 i hi
        rwa [hsame] at this
      · rw [getElem?_eq_none (by rw [hpermutes.1]; exact hi), getElem?_eq_none hi]
    rw [hsource]
    exact takesChange_nothing order world h hbuilder hview hperm rfl rfl heq hto

theorem reversed_source_taken :
    TakesChange (fun (_ _ : Unit) => SortHelper.compareTo) ⟨id, fun _ => .refl _⟩ [3, 2, 1] ()
        (permutationChange ⟨0, 3, [2, 1, 0]⟩) (inSourceOrder [1, 2, 3] (some ())) := by
  have hp : (⟨0, 3, [2, 1, 0]⟩ : RangePerm).IsBijection [1, 2, 3].length :=
    ⟨by decide, by decide, by decide, by decide, by decide, by decide⟩
  have hpermutes : (permutationChange ⟨0, 3, [2, 1, 0]⟩ : SubChange Int).Permutes [1, 2, 3]
      [3, 2, 1] := ⟨rfl, by decide⟩
  have hshows := shows_inSourceOrder ([1, 2, 3] : List Int) (some ())
  exact (takesChange_iff _ _ hshows rfl (fun h => nomatch h) hp hpermutes).mpr
    (.inr (.inr ⟨rfl, rfl⟩))

/-- Two elements behind the first one change places. -/
theorem range_behind_first_not_taken :
    ¬∀ (source newSource : List Int) (view : List (Int × Nat)) (l : SortedList Int Unit)
      (p : RangePerm), Shows source view l → l.builder = Builder.new →
      (l.comparator = none → view = source.zipIdx) → p.IsBijection source.length →
      (permutationChange p).Permutes source newSource →
      TakesChange (fun (_ _ : Unit) => SortHelper.compareTo) ⟨id, fun _ => .refl _⟩ newSource ()
        (permutationChange p) l := by
  intro hall
  have hp : (⟨1, 3, [2, 1]⟩ : RangePerm).IsBijection [1, 2, 3].length :=
    ⟨by decide, by decide, by decide, by decide, by decide, by decide⟩
  rcases hall [1, 2, 3] [1, 3, 2] _ (inSourceOrder [1, 2, 3] (some ())) ⟨1, 3, [2, 1]⟩
    (shows_inSourceOrder [1, 2, 3] (some ())) rfl (fun h => nomatch h) hp
    ⟨rfl, by decide⟩ with ⟨l', fired, view', hok, -⟩
  cases hok

end

end OpenJfx.Collections.Sorted
