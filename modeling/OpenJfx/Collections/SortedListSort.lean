import OpenJfx.Collections.SortHelperMerge
import OpenJfx.Collections.SortedList
import Mathlib.Data.Finset.Card

namespace OpenJfx.Collections.Sorted

open Java.Arrays Collections.ListChange Collections.ListChangeBuilder Data.IndexedView List

variable {E H C : Type}

def Ordered (cmp : E → E → Int) (view : List (E × Nat)) : Prop :=
  view.Pairwise fun x y => cmp x.1 y.1 ≤ 0

/-- The permutation leads from the places in the old view to those in the new one. -/
def Carries (view view' : List (E × Nat)) (permutation : List Int) : Prop :=
  permutation.length = view.length ∧ ∀ (j : Nat) (x : E × Nat), view[j]? = some x →
    ∃ k : Nat, permutation[j]? = some (k : Int) ∧ view'[k]? = some x

section

variable {source : List E} {view : List (E × Nat)} {l : SortedList E C}

theorem scatters_of_perm (hperm : view.Perm source.zipIdx) : Scatters id view := by
  have hnd : (view.map Prod.snd).Nodup := by
    refine (hperm.map Prod.snd).nodup_iff.mpr ?_
    rw [zipIdx_map_snd]
    exact nodup_range'
  intro j k x y hx hy hsame
  have hj := (List.getElem?_eq_some_iff.mp hx).1
  refine (getElem?_inj (by rw [length_map]; exact hj) hnd).mp ?_
  rw [getElem?_map, getElem?_map, hx, hy]
  exact congrArg some hsame

theorem storePositions_spec {sorted : List (Option (Element E))} (hslots : SlotsFrom 0 view sorted)
    {bound : Nat} (hbound : ∀ x ∈ view, x.2 < bound) (hscatters : Scatters id view) (count : Nat) :
    ∀ (i : Nat) (perm : List Int), i + count = view.length → perm.length = bound →
      ∃ perm', storePositions sorted count i perm = .ok perm' ∧ Notes id i view perm perm' := by
  induction count with
  | zero =>
    intro i perm hcnt _
    exact ⟨perm, rfl, .none (by omega) perm⟩
  | succ count ih =>
    intro i perm hcnt hlen
    have hx := getElem?_eq_getElem (show i < view.length by omega)
    have hlt := hbound _ (mem_of_getElem? hx)
    generalize view[i] = x at hx hlt
    rcases ih (i + 1) (perm.set x.2 i) (by omega) (by rw [length_set, hlen]) with
      ⟨perm', hrun, hnotes⟩
    refine ⟨perm', ?_, hnotes.cons hscatters hx (by rw [id_eq]; omega)⟩
    rw [storePositions, elementAt_eq (hslots i x (Nat.zero_le i) hx), ok_bind, store_eq_set _ (by
      omega)]
    exact hrun

variable {cmp : E → E → Int}

theorem compareSlots_totalPreorder (hcmp : SortHelper.TotalPreorder cmp) :
    SortHelper.TotalPreorder (compareSlots cmp) := by
  constructor
  · rintro (_ | x) (_ | y)
    · exact Iff.rfl
    · exact iff_of_true (by decide : (-1 : Int) < 0) (by decide : (0 : Int) < 1)
    · exact iff_of_false (by decide : ¬(1 : Int) < 0) (by decide : ¬(0 : Int) < -1)
    · exact hcmp.flip x.e y.e
  · rintro (_ | x) (_ | y) (_ | z) hxy hyz
    · exact hxy
    · exact hyz
    · exact Int.le_refl 0
    · exact hxy
    · exact absurd hxy (by decide : ¬(1 : Int) ≤ 0)
    · exact absurd hxy (by decide : ¬(1 : Int) ≤ 0)
    · exact hyz
    · exact hcmp.trans x.e y.e z.e hxy hyz

theorem exists_view_of_perm {z : List (Option (Element E) × Nat)}
    (hz : z.Perm (SortHelper.tagFrom 0 (view.map slot))) :
    ∃ w : List ((E × Nat) × Nat), w.Perm view.zipIdx ∧
      z = w.map fun x => (slot x.1, x.2) := by
  have htag : SortHelper.tagFrom 0 (view.map slot) =
      view.zipIdx.map fun x => (slot x.1, x.2) := by
    rw [SortHelper.tagFrom, length_map, zipIdx_eq_zip_range', zip_map_left]
    rfl
  rw [htag] at hz
  have hcomp := congrFun (congrFun
    (eq_map_comp_perm fun x : (E × Nat) × Nat => (slot x.1, x.2)) z) view.zipIdx
  rcases hcomp.mpr hz with ⟨w, hw, hperm⟩
  exact ⟨w, hperm, hw⟩

theorem sort_slots (hcmp : SortHelper.TotalPreorder cmp) {sorted : List (Option (Element E))}
    (hslots : SlotsFrom 0 view sorted) :
    ∃ sorted' permutation view', SortHelper.sort (compareSlots cmp) sorted 0 view.length =
        .ok (sorted', permutation) ∧ sorted'.length = sorted.length ∧ SlotsFrom 0 view' sorted' ∧
      view'.Perm view ∧ Ordered cmp view' ∧ Carries view view' permutation := by
  have hpre : view.map slot <+: sorted := by
    refine prefix_iff_getElem?.mpr fun j hj => ?_
    rw [length_map] at hj
    rw [getElem_map]
    exact hslots j _ (Nat.zero_le j) (getElem?_eq_getElem hj)
  rcases hpre with ⟨back, rfl⟩
  rcases SortHelper.sort_spec (compareSlots_totalPreorder hcmp) [] (view.map slot) back with
    ⟨z, permutation, hsort, hz, hsorted, hlen, hplaces⟩
  rcases exists_view_of_perm hz with ⟨w, hw, rfl⟩
  have helems : SortHelper.elements (w.map fun x => (slot x.1, x.2)) =
      (w.map Prod.fst).map slot := by
    rw [SortHelper.elements, map_map, map_map]
    rfl
  rw [nil_append, nil_append, helems, length_nil, length_map,
    Nat.zero_add] at hsort
  refine ⟨_, permutation, w.map Prod.fst, hsort, ?_, ?_, ?_, ?_, ?_, ?_⟩
  · simp [hw.length_eq]
  · intro j x _ hx
    have hj := (List.getElem?_eq_some_iff.mp hx).1
    rw [getElem?_append_left (by rw [length_map]; exact hj), getElem?_map, hx,
      Option.map_some]
  · have := hw.map Prod.fst
    rwa [zipIdx_map_fst] at this
  · exact pairwise_map.mpr (pairwise_map.mp hsorted)
  · rw [hlen, length_map]
  · intro j x hx
    have hmem : (x, j) ∈ w := hw.mem_iff.mpr (mem_zipIdx_iff_getElem?.mpr hx)
    rcases mem_iff_getElem?.mp hmem with ⟨k, hk⟩
    refine ⟨k, hplaces rfl k (slot x, j) ?_, ?_⟩
    · rw [getElem?_map, hk, Option.map_some]
    · rw [getElem?_map, hk, Option.map_some]

theorem sortElements_spec (hcmp : SortHelper.TotalPreorder cmp) (h : Shows source view l) :
    ∃ sorted' perm' permutation view', sortElements cmp l =
        .ok ({ l with sorted := sorted', perm := perm' }, permutation) ∧
      Shows source view' { l with sorted := sorted', perm := perm' } ∧ Ordered cmp view' ∧
      Carries view view' permutation := by
  rcases sort_slots hcmp h.slots with
    ⟨sorted', permutation, view', hsort, hlen, hslots, hperm, hordered, hcarries⟩
  have hsize : l.size = view'.length := by rw [h.size, hperm.length_eq, h.length_view]
  have hbound : ∀ x ∈ view', x.2 < l.perm.length := by
    intro x hx
    have hlt := h.index_lt (hperm.mem_iff.mp hx)
    have hle := h.size_le_perm
    omega
  have hscatters := scatters_of_perm (hperm.trans h.perm)
  rcases storePositions_spec hslots hbound hscatters l.size 0 l.perm (by omega) rfl with
    ⟨perm', hstore, hnotes⟩
  have hleads := hnotes.leadsTo
  have hid : view'.map (reindex id) = view' := map_id _
  rw [hid] at hleads
  refine ⟨sorted', perm', permutation, view', ?_, ?_, hordered, hcarries⟩
  · rw [sortElements, h.size, ← h.length_view, hsort, ok_bind]
    change (storePositions sorted' view.length ((0 : Nat) : Int) l.perm >>= _) = _
    rw [h.length_view, ← h.size, hstore]
    rfl
  · refine ⟨h.size, ?_, hslots, hperm.trans h.perm, hleads⟩
    rw [hnotes.length, hlen]
    exact h.length_perm

end

section

variable {α T : Type}

theorem getElem?_exchanged {w : List α} {a b : Nat} {x y : α} (hx : w[a]? = some x)
    (hy : w[b]? = some y) (hne : a ≠ b) {j : Nat} {z : α}
    (hz : ((w.set a y).set b x)[j]? = some z) :
    j = b ∧ z = x ∨ j = a ∧ z = y ∨ j ≠ a ∧ j ≠ b ∧ w[j]? = some z := by
  have ha := (List.getElem?_eq_some_iff.mp hx).1
  have hb := (List.getElem?_eq_some_iff.mp hy).1
  rcases Nat.decEq j b with hjb | rfl
  · rw [getElem?_set_ne (Ne.symm hjb)] at hz
    rcases Nat.decEq j a with hja | rfl
    · rw [getElem?_set_ne (Ne.symm hja)] at hz
      exact .inr (.inr ⟨hja, hjb, hz⟩)
    · rw [getElem?_set_self ha, Option.some.injEq] at hz
      exact .inr (.inl ⟨rfl, hz.symm⟩)
  · rw [getElem?_set_self (by rw [length_set]; exact hb), Option.some.injEq] at hz
    exact .inl ⟨rfl, hz.symm⟩

theorem exchanged_perm {w : List α} {a b : Nat} {x y : α} (hx : w[a]? = some x)
    (hy : w[b]? = some y) : ((w.set a y).set b x).Perm w := by
  rcases List.getElem?_eq_some_iff.mp hx with ⟨ha, rfl⟩
  rcases List.getElem?_eq_some_iff.mp hy with ⟨hb, rfl⟩
  exact set_set_perm ha hb

theorem swap_exchanged {n : Nat} {p : SortHelper.Perms} (hp : p.Bounded n)
    {w : SortHelper.Tagged T} (hn : w.length = n) (htracked : p.Tracked 0 w) {a b : Nat}
    {x y : T × Nat} (hx : w[a]? = some x) (hy : w[b]? = some y) (hne : a ≠ b) :
    ∃ p', p.swap a b = .ok p' ∧ p'.Bounded n ∧ p'.Tracked 0 ((w.set a y).set b x) := by
  have ha := (List.getElem?_eq_some_iff.mp hx).1
  have hb := (List.getElem?_eq_some_iff.mp hy).1
  rcases SortHelper.Perms.swap_spec hp (show a < n by omega) (show b < n by omega) with
    ⟨ra, rb, hra, hrb, hloada, hloadb, hswap⟩
  have htx := htracked a x hx
  have hty := htracked b y hy
  rw [Nat.zero_add] at htx hty
  obtain rfl : ra = x.2 := by
    rw [hloada, Option.some.injEq, Int.natCast_inj] at htx
    exact htx.1
  obtain rfl : rb = y.2 := by
    rw [hloadb, Option.some.injEq, Int.natCast_inj] at hty
    exact hty.1
  have hlen := hp.length_permutation
  have hlen' := hp.length_reverse
  have htags : x.2 ≠ y.2 := fun hsame => hne (htracked.inj hx hy hsame)
  refine ⟨_, hswap, ⟨by simp [hlen], by simp [hlen'], ?_, ?_⟩, ?_⟩
  · exact SortHelper.mem_set_bounded (SortHelper.mem_set_bounded hp.mem_permutation _ (by omega)) _
      (by omega)
  · exact SortHelper.mem_set_bounded (SortHelper.mem_set_bounded hp.mem_reverse _ hrb) _ hra
  · intro j z hz
    rw [Nat.zero_add]
    rcases getElem?_exchanged hx hy hne hz with ⟨rfl, rfl⟩ | ⟨rfl, rfl⟩ | ⟨hja, hjb, hz⟩
    · rw [getElem?_set_self (by rw [length_set]; omega),
        getElem?_set_ne (Ne.symm htags), getElem?_set_self (by omega)]
      exact ⟨rfl, rfl⟩
    · rw [getElem?_set_ne (Ne.symm hne), getElem?_set_self (by omega),
        getElem?_set_self (by rw [length_set]; omega)]
      exact ⟨rfl, rfl⟩
    · have htagx : x.2 ≠ z.2 := fun hsame => hja (htracked.inj hx hz hsame).symm
      have htagy : y.2 ≠ z.2 := fun hsame => hjb (htracked.inj hy hz hsame).symm
      have htz := htracked j z hz
      rw [Nat.zero_add] at htz
      rw [getElem?_set_ne (Ne.symm hjb), getElem?_set_ne (Ne.symm hja),
        getElem?_set_ne htagy, getElem?_set_ne htagx]
      exact htz

end

section

variable {source : List E} {view : List (E × Nat)} {l : SortedList E C}

def misplaced (w : List ((E × Nat) × Nat)) : Finset Nat :=
  (Finset.range w.length).filter fun k => (w[k]?).any fun x => decide (x.1.2 ≠ k)

theorem mem_misplaced {w : List ((E × Nat) × Nat)} {k : Nat} :
    k ∈ misplaced w ↔ ∃ x, w[k]? = some x ∧ x.1.2 ≠ k := by
  rw [misplaced, Finset.mem_filter, Finset.mem_range, Option.any_eq_true]
  constructor
  · rintro ⟨-, x, hx, hne⟩
    exact ⟨x, hx, of_decide_eq_true hne⟩
  · rintro ⟨x, hx, hne⟩
    exact ⟨(List.getElem?_eq_some_iff.mp hx).1, x, hx, decide_eq_true hne⟩

/-- The state of the loop that restores the order of the source: every entry of `w` with the
place where it stood in the view. -/
structure Restoring (view : List (E × Nat)) (l : SortedList E C) (idx : Nat)
    (w : List ((E × Nat) × Nat)) (sorted : List (Option (Element E))) (perm : List Int)
    (p : SortHelper.Perms) (changed : Bool) : Prop where
  length_sorted : sorted.length = l.sorted.length
  length_perm : perm.length = l.perm.length
  entries : w.Perm view.zipIdx
  slots : SlotsFrom 0 (w.map Prod.fst) sorted
  placed : ∀ (k : Nat) (x : (E × Nat) × Nat), w[k]? = some x → x.1.2 = k →
    perm[k]? = some (k : Int)
  before : ∀ (k : Nat) (x : (E × Nat) × Nat), k < idx → w[k]? = some x → x.1.2 = k
  bounded : p.Bounded view.length
  tracked : p.Tracked 0 w
  unchanged : changed = false → w = view.zipIdx

theorem Restoring.start (h : Shows source view l) :
    Restoring view l 0 view.zipIdx l.sorted l.perm (SortHelper.initPermutation view.length)
      false := by
  refine ⟨rfl, rfl, .refl _, ?_, ?_, fun k _ hk => absurd hk (Nat.not_lt_zero k),
    SortHelper.bounded_initPermutation _, ?_, fun _ => rfl⟩
  · rw [zipIdx_map_fst]
    exact h.slots
  · rintro k ⟨x, j⟩ hx hidx
    rw [getElem?_zipIdx, Option.map_eq_some_iff] at hx
    rcases hx with ⟨y, hy, hsame⟩
    rw [Prod.mk.injEq] at hsame
    have hleads := h.leadsTo k y hy
    rwa [hsame.1, hidx] at hleads
  · have htracked : (SortHelper.initPermutation view.length).Tracked 0
        (SortHelper.tagFrom 0 view) := SortHelper.tracked_initPermutation (by omega)
    rwa [SortHelper.tagFrom, ← zipIdx_eq_zip_range'] at htracked

namespace Restoring

variable {idx : Nat} {w : List ((E × Nat) × Nat)} {sorted : List (Option (Element E))}
  {perm : List Int} {p : SortHelper.Perms} {changed : Bool}

theorem length_w (r : Restoring view l idx w sorted perm p changed) : w.length = view.length := by
  rw [r.entries.length_eq, length_zipIdx]

theorem perm_view (r : Restoring view l idx w sorted perm p changed) :
    (w.map Prod.fst).Perm view := by
  have := r.entries.map Prod.fst
  rwa [zipIdx_map_fst] at this

variable {x : (E × Nat) × Nat}

theorem index_lt (h : Shows source view l) (r : Restoring view l idx w sorted perm p changed)
    (hx : x ∈ w) : x.1.2 < source.length :=
  h.index_lt (r.perm_view.mem_iff.mp (mem_map_of_mem hx))

theorem index_inj (h : Shows source view l) (r : Restoring view l idx w sorted perm p changed)
    {j k : Nat} {y : (E × Nat) × Nat} (hx : w[j]? = some x) (hy : w[k]? = some y)
    (hidx : x.1.2 = y.1.2) : j = k := by
  refine scatters_of_perm (r.perm_view.trans h.perm) j k x.1 y.1 ?_ ?_ hidx
  · rw [getElem?_map, hx, Option.map_some]
  · rw [getElem?_map, hy, Option.map_some]

theorem advance (r : Restoring view l idx w sorted perm p changed) (hx : w[idx]? = some x)
    (hidx : x.1.2 = idx) :
    Restoring view l (idx + 1) w sorted perm p changed := by
  refine ⟨r.length_sorted, r.length_perm, r.entries, r.slots, r.placed, ?_, r.bounded, r.tracked,
    r.unchanged⟩
  intro k y hk hy
  rcases Nat.lt_succ_iff_lt_or_eq.mp hk with hlt | rfl
  · exact r.before k y hlt hy
  · rw [hx, Option.some.injEq] at hy
    exact hy ▸ hidx

theorem exchange (h : Shows source view l) (r : Restoring view l idx w sorted perm p changed)
    {y : (E × Nat) × Nat} (hx : w[idx]? = some x) (hy : w[x.1.2]? = some y) (hne : x.1.2 ≠ idx) :
    ∃ sorted' p', SortHelper.swap sorted idx x.1.2 p = .ok (sorted', p') ∧
      Restoring view l idx ((w.set idx y).set x.1.2 x) sorted'
        ((perm.set idx idx).set x.1.2 x.1.2) p' true ∧
      (misplaced ((w.set idx y).set x.1.2 x)).card < (misplaced w).card := by
  have hidx := (List.getElem?_eq_some_iff.mp hx).1
  have hother := (List.getElem?_eq_some_iff.mp hy).1
  have hlen := r.length_w
  have hview := h.length_view
  have hperm := h.size_le_perm
  have hperm' := r.length_perm
  have hsort := h.size_le_sorted
  have hsort' := r.length_sorted
  have hslots : ∀ {k : Nat} {z : (E × Nat) × Nat}, w[k]? = some z →
      sorted[k]? = some (slot z.1) := by
    intro k z hz
    exact r.slots k z.1 (Nat.zero_le k) (by rw [getElem?_map, hz, Option.map_some])
  rcases swap_exchanged r.bounded hlen r.tracked hx hy (Ne.symm hne) with
    ⟨p', hswap, hbounded, htracked⟩
  have hplace : ∀ (k : Nat) (z : (E × Nat) × Nat),
    ((w.set idx y).set x.1.2 x)[k]? = some z → z.1.2 = k →
      ((perm.set idx (idx : Int)).set x.1.2 (x.1.2 : Int))[k]? = some (k : Int) := by
    intro k z hz hindex
    rcases getElem?_exchanged hx hy (Ne.symm hne) hz with ⟨rfl, rfl⟩ | ⟨rfl, rfl⟩ | ⟨hk, hk', hz⟩
    · exact getElem?_set_self (by rw [length_set]; omega)
    · rw [getElem?_set_ne hne, getElem?_set_self (by omega)]
    · rw [getElem?_set_ne (Ne.symm hk'), getElem?_set_ne (Ne.symm hk)]
      exact r.placed k z hz hindex
  refine ⟨(sorted.set idx (slot y.1)).set x.1.2 (slot x.1), p', ?_, ⟨?_, ?_, ?_, ?_, hplace, ?_,
    hbounded, htracked, fun hfalse => nomatch hfalse⟩, ?_⟩
  · rw [SortHelper.swap, load_eq_ok (hslots hx), ok_bind, load_eq_ok (hslots hy), ok_bind,
      store_eq_set _ (by omega), ok_bind, store_eq_set _ (by rw [length_set]; omega), ok_bind,
      hswap, ok_bind]
  · rw [length_set, length_set, hsort']
  · rw [length_set, length_set, hperm']
  · exact (exchanged_perm hx hy).trans r.entries
  · intro k z _ hz
    rw [getElem?_map, Option.map_eq_some_iff] at hz
    rcases hz with ⟨z, hz, rfl⟩
    rcases getElem?_exchanged hx hy (Ne.symm hne) hz with ⟨rfl, rfl⟩ | ⟨rfl, rfl⟩ | ⟨hk, hk', hz⟩
    · exact getElem?_set_self (by rw [length_set]; omega)
    · rw [getElem?_set_ne hne, getElem?_set_self (by omega)]
    · rw [getElem?_set_ne (Ne.symm hk'), getElem?_set_ne (Ne.symm hk)]
      exact hslots hz
  · intro k z hk hz
    rcases getElem?_exchanged hx hy (Ne.symm hne) hz with ⟨rfl, rfl⟩ | ⟨rfl, rfl⟩ | ⟨-, -, hz⟩
    · rfl
    · exact absurd hk (Nat.lt_irrefl _)
    · exact r.before k z hk hz
  · refine Finset.card_lt_card ⟨?_, ?_⟩
    · intro k hk
      rcases mem_misplaced.mp hk with ⟨z, hz, hindex⟩
      rcases getElem?_exchanged hx hy (Ne.symm hne) hz with ⟨rfl, rfl⟩ | ⟨rfl, rfl⟩ | ⟨-, -, hz⟩
      · exact absurd rfl hindex
      · exact mem_misplaced.mpr ⟨x, hx, hne⟩
      · exact mem_misplaced.mpr ⟨z, hz, hindex⟩
    · intro hsub
      have hmem : x.1.2 ∈ misplaced w := by
        refine mem_misplaced.mpr ⟨y, hy, fun hsame => ?_⟩
        exact hne (r.index_inj h hx hy hsame.symm).symm
      rcases mem_misplaced.mp (hsub hmem) with ⟨z, hz, hindex⟩
      rw [getElem?_set_self (by rw [length_set]; exact hother), Option.some.injEq] at hz
      exact hindex (by rw [← hz])

end Restoring

end

section

variable {source : List E} {view : List (E × Nat)} {l : SortedList E C}

theorem restoreOrder_spec (h : Shows source view l) (fuel : Nat) :
    ∀ {idx : Nat} {w : List ((E × Nat) × Nat)} {sorted : List (Option (Element E))}
      {perm : List Int} {p : SortHelper.Perms} {changed : Bool},
      Restoring view l idx w sorted perm p changed → idx ≤ view.length →
      view.length - idx + (misplaced w).card < fuel →
      ∃ w' sorted' perm' p' changed',
        restoreOrder l.size fuel idx sorted perm p changed = .ok (sorted', perm', p', changed') ∧
        Restoring view l view.length w' sorted' perm' p' changed' := by
  have hsize : l.size = view.length := by rw [h.size, h.length_view]
  induction fuel with
  | zero =>
    omega
  | succ fuel ih =>
    intro idx w sorted perm p changed r hle hfuel
    have hlen := r.length_w
    have hview := h.length_view
    rcases Nat.eq_or_lt_of_le hle with rfl | hlt
    · refine ⟨w, sorted, perm, p, changed, ?_, r⟩
      rw [restoreOrder, if_neg (by omega)]
    · have hx := getElem?_eq_getElem (show idx < w.length by omega)
      generalize w[idx] = x at hx
      have hslot : sorted[idx]? = some (slot x.1) :=
        r.slots idx x.1 (Nat.zero_le idx) (by rw [getElem?_map, hx, Option.map_some])
      have hidx := r.index_lt h (mem_of_getElem? hx)
      rw [restoreOrder, if_pos (by omega), elementAt_eq hslot, ok_bind]
      dsimp only
      split
      case isTrue hsame =>
        have hmeasure : view.length - (idx + 1) + (misplaced w).card < fuel := by omega
        exact ih (r.advance hx (by omega)) hlt hmeasure
      case isFalse hother =>
        have hne : x.1.2 ≠ idx := by omega
        have hy := getElem?_eq_getElem (show x.1.2 < w.length by omega)
        rcases r.exchange h hx hy hne with ⟨sorted', p', hswap, hnext, hcard⟩
        have hperm := h.size_le_perm
        have hperm' := r.length_perm
        rw [store_eq_set _ (by omega), ok_bind,
          store_eq_set _ (by rw [length_set]; omega), ok_bind, hswap, ok_bind]
        exact ih hnext hle (by omega)

variable {w : List ((E × Nat) × Nat)} {sorted : List (Option (Element E))} {perm : List Int}
  {changed : Bool}

variable {p : SortHelper.Perms}

theorem Restoring.view_eq (h : Shows source view l)
    (r : Restoring view l view.length w sorted perm p changed) :
    w.map Prod.fst = source.zipIdx := by
  have hlen := r.length_w
  have hview := h.length_view
  refine ext_getElem? fun k => ?_
  rcases Nat.lt_or_ge k w.length with hk | hk
  · have hx := getElem?_eq_getElem hk
    generalize w[k] = x at hx
    have hidx := r.before k x (by omega) hx
    have hmem : x.1 ∈ view :=
      r.perm_view.mem_iff.mp (mem_map_of_mem (mem_of_getElem? hx))
    have hsrc := h.getElem?_source hmem
    rw [hidx] at hsrc
    rw [getElem?_map, hx, getElem?_zipIdx, hsrc, Nat.zero_add]
    exact congrArg some (Prod.ext rfl hidx)
  · rw [getElem?_eq_none (by rw [length_map]; exact hk),
      getElem?_eq_none (by rw [length_zipIdx]; omega)]

theorem Restoring.shows (h : Shows source view l)
    (r : Restoring view l view.length w sorted perm p changed) :
    Shows source source.zipIdx { l with sorted := sorted, perm := perm } := by
  have hslots := r.slots
  rw [r.view_eq h] at hslots
  refine ⟨h.size, ?_, hslots, .refl _, ?_⟩
  · rw [r.length_perm, r.length_sorted]
    exact h.length_perm
  · intro j x hx
    rw [← r.view_eq h, getElem?_map, Option.map_eq_some_iff] at hx
    rcases hx with ⟨y, hy, rfl⟩
    have hj := (List.getElem?_eq_some_iff.mp hy).1
    rw [r.length_w] at hj
    have hidx := r.before j y hj hy
    rw [hidx]
    exact r.placed j y hy hidx

theorem Restoring.carries {idx : Nat} (r : Restoring view l idx w sorted perm p changed) :
    Carries view (w.map Prod.fst) p.permutation := by
  refine ⟨r.bounded.length_permutation, ?_⟩
  intro j x hx
  have hmem : (x, j) ∈ w := r.entries.mem_iff.mpr (mem_zipIdx_iff_getElem?.mpr hx)
  rcases mem_iff_getElem?.mp hmem with ⟨k, hk⟩
  have htracked := (r.tracked k (x, j) hk).2
  rw [Nat.zero_add] at htracked
  exact ⟨k, htracked, by rw [getElem?_map, hk, Option.map_some]⟩

theorem restoreOrder_shows (h : Shows source view l) :
    ∃ sorted' perm' p changed, restoreOrder l.size (2 * l.size + 1) 0 l.sorted l.perm
        (SortHelper.initPermutation l.size) false = .ok (sorted', perm', p, changed) ∧
      Shows source source.zipIdx { l with sorted := sorted', perm := perm' } ∧
      Carries view source.zipIdx p.permutation ∧ (changed = false → view = source.zipIdx) := by
  have hsize : l.size = view.length := by rw [h.size, h.length_view]
  have hcard : (misplaced view.zipIdx).card ≤ view.length := by
    refine (Finset.card_le_card (Finset.filter_subset _ _)).trans ?_
    rw [Finset.card_range, length_zipIdx]
  rcases restoreOrder_spec h (2 * l.size + 1) (Restoring.start h) (Nat.zero_le _) (by omega) with
    ⟨w, sorted', perm', p, changed, hrun, r⟩
  rw [← hsize] at hrun
  refine ⟨sorted', perm', p, changed, hrun, r.shows h, ?_, ?_⟩
  · have := r.carries
    rwa [r.view_eq h] at this
  · intro hfalse
    have := r.view_eq h
    rwa [r.unchanged hfalse, zipIdx_map_fst] at this

end

section

variable (compare : C → H → E → E → Int)

/-- Without a comparator the order is that of the source. -/
def InOrder (world : H) (source : List E) (l : SortedList E C) (view : List (E × Nat)) : Prop :=
  match l.comparator with
  | some comparator => Ordered (compare comparator world) view
  | none => view = source.zipIdx ∧ ∀ i, i < source.length → l.perm[i]? = some (i : Int)

/-- What is reported leads from the old view to the new one. -/
def Reported (view view' : List (E × Nat)) (fired : Option (SubChange E)) : Prop :=
  match fired with
  | some c => c.fromIdx = 0 ∧ c.toIdx = view.length ∧ c.getRemoved = [] ∧ c.wasUpdated = false ∧
      ∀ (j : Nat) (x : E × Nat), view[j]? = some x →
        ∃ k : Nat, c.getPermutation j = .ok (k : Int) ∧ view'[k]? = some x
  | none => view' = view

end

section

variable {compare : C → H → E → E → Int} {source : List E} {view : List (E × Nat)}
  {l : SortedList E C}

theorem Carries.reported {view' : List (E × Nat)} {permutation : List Int}
    (h : Carries view view' permutation) {n : Nat} (hn : n = view.length) :
    Reported view view' (some ⟨0, n, some [], permutation, false⟩) := by
  refine ⟨rfl, by rw [hn], rfl, rfl, ?_⟩
  intro j x hx
  rcases h.2 j x hx with ⟨k, hk, hview⟩
  refine ⟨k, ?_, hview⟩
  have hne : permutation ≠ [] := by
    rintro rfl
    cases hk
  rw [SubChange.getPermutation, if_pos (by simp [SubChange.wasPermutated, hne])]
  exact load_eq_ok hk

/-- The routine ends, whatever the state and the comparator that has been set. -/
theorem doSortWithPermutationChange_spec (world : H) (h : Shows source view l)
    (hcompare : ∀ comparator, l.comparator = some comparator →
      SortHelper.TotalPreorder (compare comparator world)) :
    ∃ l' fired view', doSortWithPermutationChange compare world l = .ok (l', fired) ∧
      l'.comparator = l.comparator ∧ l'.builder = l.builder ∧ Shows source view' l' ∧
      InOrder compare world source l' view' ∧ Reported view view' fired := by
  have hsize : l.size = view.length := by rw [h.size, h.length_view]
  rcases hcomparator : l.comparator with _ | comparator
  · rcases restoreOrder_shows h with ⟨sorted', perm', p, changed, hrun, hshows, hcarries, hfixed⟩
    refine ⟨{ l with sorted := sorted', perm := perm' },
      if changed then some ⟨0, l.size, some [], p.permutation, false⟩ else none, source.zipIdx, ?_,
      hcomparator, rfl, hshows, ?_, ?_⟩
    · rw [doSortWithPermutationChange]
      split
      case h_1 comparator hsome =>
        rw [hcomparator] at hsome
        cases hsome
      case h_2 =>
        rw [hrun]
        rfl
    · rw [InOrder, hcomparator]
      refine ⟨rfl, fun i hi => ?_⟩
      exact hshows.leadsTo i (source[i], i) (by simp [hi])
    · split
      case isTrue => exact hcarries.reported hsize
      case isFalse hunchanged => exact (hfixed (Bool.eq_false_of_not_eq_true hunchanged)).symm
  · rcases sortElements_spec (hcompare comparator hcomparator) h with
      ⟨sorted', perm', permutation, view', hrun, hshows, hordered, hcarries⟩
    refine ⟨{ l with sorted := sorted', perm := perm' }, _, view', ?_, hcomparator, rfl, hshows,
      ?_, hcarries.reported hsize⟩
    · rw [doSortWithPermutationChange]
      split
      case h_1 comparator' hsome =>
        rw [hcomparator, Option.some.injEq] at hsome
        subst hsome
        rw [hrun]
        rfl
      case h_2 hnone =>
        rw [hcomparator] at hnone
        cases hnone
    · rw [InOrder, hcomparator]
      exact hordered

theorem doSortWithPermutationChange_three :
    ∃ l' fired view', doSortWithPermutationChange (fun (_ _ : Unit) => SortHelper.compareTo) ()
        (inSourceOrder [3, 1, 2] (some ())) = .ok (l', fired) ∧
      l'.comparator = some () ∧ l'.builder = Builder.new ∧ Shows [3, 1, 2] view' l' ∧
      InOrder (fun (_ _ : Unit) => SortHelper.compareTo) () [3, 1, 2] l' view' ∧
      Reported ([3, 1, 2] : List Int).zipIdx view' fired :=
  doSortWithPermutationChange_spec () (shows_inSourceOrder [3, 1, 2] (some ()))
    fun _ _ => SortHelper.totalPreorder_compareTo

end

end OpenJfx.Collections.Sorted
