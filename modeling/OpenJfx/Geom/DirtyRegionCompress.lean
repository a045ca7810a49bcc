import OpenJfx.Geom.DirtyRegionHeap

namespace OpenJfx.Geom

open Java.Arrays Java.Ints Data List

def Sheltered (regions others : List RectBounds) : Prop :=
  ∀ r ∈ regions, ∃ other ∈ others, r.Within other

theorem Sheltered.refl (regions : List RectBounds) : Sheltered regions regions :=
  fun r hr => ⟨r, hr, .refl r⟩

theorem Sheltered.trans {a b c : List RectBounds} (hab : Sheltered a b) (hbc : Sheltered b c) :
    Sheltered a c := by
  intro r hr
  rcases hab r hr with ⟨s, hs, hrs⟩
  rcases hbc s hs with ⟨t, ht, hst⟩
  exact ⟨t, ht, hrs.trans hst⟩

/-- The first loop of `heapCompress` after `rounds` rounds: a region lies in the one that stands
for it now, and some region does not stand for itself any more. -/
structure Merged (regions : List RectBounds) (slots size rounds : Nat) (m : Merging)
    (root height : Nat → Nat) : Prop where
  length : m.dirtyRegions.length = regions.length
  mapLength : m.map.length = regions.length
  rootMap : RootMap m.map root height rounds
  shelter : ∀ (a : Nat) (r : RectBounds), regions[a]? = some r →
    ∃ r', m.dirtyRegions[root a]? = some r' ∧ r.Within r'
  paired : m.heap.Paired m.map.length
  slots : m.heap.slots.length = slots
  size : m.heap.size + rounds = size
  start : rounds = 0 → m.map = List.range regions.length
  freed : 0 < rounds → ∃ b < regions.length, m.map[b]? ≠ some b

variable {regions : List RectBounds} {slots size rounds : Nat} {m : Merging}
  {root height : Nat → Nat}

theorem within_set_union {dirtyRegions : List RectBounds} {a b c : Nat} {r r₀ r₁ : RectBounds}
    (ha : dirtyRegions[a]? = some r₀) (hb : dirtyRegions[b]? = some r₁)
    (hc : ∃ r', dirtyRegions[c]? = some r' ∧ r.Within r') :
    ∃ r', (dirtyRegions.set a (r₀.deriveWithUnion r₁))[if c = b then a else c]? = some r' ∧
      r.Within r' := by
  have haLt := (List.getElem?_eq_some_iff.mp ha).1
  rcases hc with ⟨r', hr', hwithin⟩
  split
  · rename_i hcb
    subst hcb
    rw [hb, Option.some.injEq] at hr'
    subst hr'
    exact ⟨_, getElem?_set_self haLt,
      hwithin.trans (RectBounds.within_unionWith_right r₀ r₁)⟩
  · rcases eq_or_ne a c with rfl | hne
    · rw [ha, Option.some.injEq] at hr'
      subst hr'
      exact ⟨_, getElem?_set_self haLt,
        hwithin.trans (RectBounds.within_unionWith_left r₀ r₁)⟩
    · exact ⟨r', (getElem?_set_ne hne).trans hr', hwithin⟩

theorem mergeMin_ok (h : Merged regions slots size rounds m root height)
    (hrounds : rounds < regions.length) (hsize : rounds < size) :
    ∃ m' root' height', mergeMin m = .ok m' ∧
      Merged regions slots size (rounds + 1) m' root' height' := by
  have hbound : rounds ≤ m.map.length := by
    rw [h.mapLength]
    exact hrounds.le
  have hheap : 0 < m.heap.size := by
    have heq := h.size
    omega
  rcases takeMinWithMap_ok h.rootMap hbound (h.length.trans h.mapLength.symm) m.invalidMask
    h.paired hheap with ⟨e, heap, htake, hfst, hsnd, hpaired, hsizes, hslots⟩
  have haLt := hfst.trans hsnd
  have hidx₀ := resolveMap_ok (m.map.length + 1) h.rootMap haLt (by omega)
  have hidx₁ := resolveMap_ok (m.map.length + 1) h.rootMap hsnd (by omega)
  simp only [mergeMin, htake, call_ok_bind, hidx₀, hidx₁]
  split
  case isTrue hne =>
    have hroot₀ := h.rootMap.root_lt _ haLt
    have hroot₁ := h.rootMap.root_lt _ hsnd
    have hregs : m.dirtyRegions.length = m.map.length := h.length.trans h.mapLength.symm
    have hread₀ := getElem?_eq_getElem (hregs ▸ hroot₀)
    have hread₁ := getElem?_eq_getElem (hregs ▸ hroot₁)
    rw [read_eq_ok hread₀, call_ok_bind, read_eq_ok hread₁, call_ok_bind, write_ok (hregs ▸ hroot₀),
      write_ok hroot₁]
    refine ⟨_, fun c => if root c = root e.second then root e.first else root c,
      Function.update height (root e.first)
        (max (height (root e.first)) (height (root e.second) + 1)), rfl, ?_⟩
    constructor
    case length => exact (length_set ..).trans h.length
    case mapLength => exact (length_set ..).trans h.mapLength
    case rootMap =>
      exact h.rootMap.set (h.rootMap.isRoot _ haLt) (h.rootMap.isRoot _ hsnd) hne
    case shelter =>
      intro a r hr
      exact within_set_union hread₀ hread₁ (h.shelter a r hr)
    case paired =>
      rw [length_set]
      exact hpaired
    case slots => exact hslots.trans h.slots
    case size =>
      have heq := h.size
      dsimp only
      omega
    case start => exact fun hzero => absurd hzero (Nat.succ_ne_zero _)
    case freed =>
      intro _
      refine ⟨root e.second, h.mapLength ▸ hroot₁, ?_⟩
      rw [getElem?_set_self hroot₁, Ne, Option.some.injEq]
      exact hne
  case isFalse heq =>
    rw [not_not] at heq
    refine ⟨_, root, height, rfl, h.length, h.mapLength, h.rootMap.mono (Nat.le_succ _),
      h.shelter, hpaired, hslots.trans h.slots, ?_, ?_, ?_⟩
    · have hheapSize := h.size
      dsimp only
      omega
    · exact fun hzero => absurd hzero (Nat.succ_ne_zero _)
    · intro _
      rcases Nat.eq_zero_or_pos rounds with hzero | hpos
      · have hself : ∀ a < m.map.length, root a = a := by
          intro a ha
          apply h.rootMap.root_self a
          rw [h.start hzero, List.getElem?_range (h.mapLength ▸ ha)]
        rw [hself _ haLt, hself _ hsnd] at heq
        exact absurd heq hfst.ne
      · exact h.freed hpos

theorem skipMerged_ok {map : List Nat} {last : Nat} (hle : last ≤ map.length)
    (hroot : ∃ j < last, map[j]? = some j) :
    ∃ e, skipMerged map last = .ok e ∧ 0 < e ∧ e ≤ last ∧ map[e - 1]? = some (e - 1) ∧
      ∀ j < last, map[j]? = some j → j < e := by
  induction last with
  | zero =>
    rcases hroot with ⟨j, hj, -⟩
    exact absurd hj (Nat.not_lt_zero j)
  | succ last ih =>
    have hlast : last < map.length := hle
    rw [skipMerged, read_ok hlast, call_ok_bind]
    split
    case isTrue hne =>
      have hbelow : ∀ j < last + 1, map[j]? = some j → j < last := by
        intro j hj hjRoot
        refine lt_of_le_of_ne (Nat.lt_succ_iff.mp hj) ?_
        rintro rfl
        rw [getElem?_eq_getElem hlast, Option.some.injEq] at hjRoot
        exact hne hjRoot
      rcases hroot with ⟨j, hj, hjRoot⟩
      rcases ih (Nat.le_of_lt hlast) ⟨j, hbelow j hj hjRoot, hjRoot⟩ with
        ⟨e, he, hpos, hle', hself, hroots⟩
      exact ⟨e, he, hpos, hle'.trans (Nat.le_succ _), hself,
        fun j hj hjRoot => hroots j (hbelow j hj hjRoot) hjRoot⟩
    case isFalse heq =>
      rw [not_not] at heq
      refine ⟨last + 1, rfl, Nat.succ_pos _, le_refl _, ?_, fun j hj _ => hj⟩
      rw [Nat.add_sub_cancel, getElem?_eq_getElem hlast, heq]

/-- The last loop of `heapCompress` before round `i`: what stands for itself is below
`emptyIndex`, and that has decreased if something before `i` did not. -/
structure Packed (dirtyRegions : List RectBounds) (map : List Nat) (i : Nat) (c : Compaction) :
    Prop where
  length : c.dirtyRegions.length = dirtyRegions.length
  mapLength : c.map.length = dirtyRegions.length
  emptyIndex_le : c.emptyIndex ≤ dirtyRegions.length
  kept : ∀ r : Nat, map[r]? = some r →
    ∃ j < c.emptyIndex, c.map[j]? = some j ∧ c.dirtyRegions[j]? = dirtyRegions[r]?
  later : ∀ j : Nat, i ≤ j → c.map[j]? = map[j]?
  freed : c.emptyIndex < dirtyRegions.length ∨ ∀ j < i, map[j]? = some j

theorem moveUnused_ok {dirtyRegions : List RectBounds} {map : List Nat} {i : Nat}
    {c : Compaction} (h : Packed dirtyRegions map i c) (hi : i < dirtyRegions.length)
    (hroot : ∃ r : Nat, map[r]? = some r) :
    ∃ c', moveUnused c i = .ok c' ∧ Packed dirtyRegions map (i + 1) c' := by
  have hiMap : i < c.map.length := h.mapLength ▸ hi
  have hlater : ∀ j, i + 1 ≤ j → c.map[j]? = map[j]? := fun j hj => h.later j (by omega)
  rw [moveUnused]
  split
  case isFalse hout =>
    exact ⟨c, rfl, h.length, h.mapLength, h.emptyIndex_le, h.kept, hlater, .inl (by omega)⟩
  case isTrue hin =>
    rw [read_ok hiMap, call_ok_bind]
    split
    case isFalse heq =>
      rw [not_not] at heq
      refine ⟨c, rfl, h.length, h.mapLength, h.emptyIndex_le, h.kept, hlater, ?_⟩
      rcases h.freed with hlt | hroots
      · exact .inl hlt
      · refine .inr fun j hj => ?_
        rcases Nat.lt_succ_iff_lt_or_eq.mp hj with hlt | rfl
        · exact hroots j hlt
        · rw [← h.later j (le_refl j), getElem?_eq_getElem hiMap, heq]
    case isTrue hne =>
      have hiRoot : c.map[i]? ≠ some i := by
        rw [getElem?_eq_getElem hiMap, Ne, Option.some.injEq]
        exact hne
      have hbelow : ∃ j < c.emptyIndex, c.map[j]? = some j := by
        rcases hroot with ⟨r, hr⟩
        rcases h.kept r hr with ⟨j, hj, hjRoot, -⟩
        exact ⟨j, hj, hjRoot⟩
      rcases skipMerged_ok (h.emptyIndex_le.trans h.mapLength.ge) hbelow with
        ⟨e, he, hpos, hle, hself, hroots⟩
      have hle' := h.emptyIndex_le
      rw [he, call_ok_bind]
      split
      case isFalse hout =>
        have hne' : e - 1 ≠ i := fun heq => hiRoot (heq ▸ hself)
        refine ⟨_, rfl, h.length, h.mapLength, hle.trans hle', ?_, hlater, .inl ?_⟩
        · intro r hr
          rcases h.kept r hr with ⟨j, hj, hjRoot, hjRegion⟩
          exact ⟨j, hroots j hj hjRoot, hjRoot, hjRegion⟩
        · dsimp only
          omega
      case isTrue hlt =>
        have heLt : e - 1 < c.dirtyRegions.length := by
          rw [h.length]
          omega
        have hiLt : i < c.dirtyRegions.length := by
          rw [h.length]
          exact hi
        rw [read_ok heLt, call_ok_bind, read_ok hiLt, call_ok_bind, write_ok heLt, call_ok_bind,
          write_ok (by simpa using hiLt), call_ok_bind, write_ok hiMap, call_ok_bind, call_pure]
        refine ⟨_, rfl, ?_, ?_, ?_, ?_, ?_, .inl ?_⟩
        · simpa using h.length
        · simpa using h.mapLength
        · dsimp only
          omega
        · intro r hr
          rcases h.kept r hr with ⟨j, hj, hjRoot, hjRegion⟩
          have hjLt := hroots j hj hjRoot
          dsimp only
          rcases eq_or_ne j (e - 1) with rfl | hjNe
          · refine ⟨i, hlt, getElem?_set_self hiMap, ?_⟩
            rw [getElem?_set_self (by simpa using hiLt), ← hjRegion,
              getElem?_eq_getElem heLt]
          · have hij : i ≠ j := by
              rintro rfl
              exact hiRoot hjRoot
            refine ⟨j, by omega, (getElem?_set_ne hij).trans hjRoot, ?_⟩
            rw [getElem?_set_ne hij, getElem?_set_ne (Ne.symm hjNe), hjRegion]
        · intro j hj
          rw [getElem?_set_ne (by omega), hlater j hj]
        · dsimp only
          omega

namespace DirtyRegionContainer

theorem mem_pairs {n : Nat} {p : Nat × Nat} (hp : p ∈ pairs n) : p.1 < p.2 ∧ p.2 < n := by
  rw [pairs, mem_flatMap] at hp
  rcases hp with ⟨i, hi, hp⟩
  rw [mem_map] at hp
  rcases hp with ⟨j, hj, rfl⟩
  rw [mem_range'_1] at hj
  omega

/-- The number of pairs of `n` indices. -/
def pairCount (n : Nat) : Nat := n * (n - 1) / 2

theorem sum_map_sub_range (n : Nat) :
    2 * ((List.range n).map fun i => n - i).sum = (n + 1) * n := by
  induction n with
  | zero => rfl
  | succ n ih =>
    have hshift : ((List.range n).map fun i => n + 1 - (i + 1)) =
        (List.range n).map fun i => n - i := by
      apply map_congr_left
      intro i _
      exact Nat.add_sub_add_right n 1 i
    have hsum : ((List.range (n + 1)).map fun i => n + 1 - i).sum =
        n + 1 + ((List.range n).map fun i => n - i).sum := by
      rw [range_succ_eq_map, map_cons, map_map, ← hshift]
      rfl
    rw [hsum, Nat.mul_add, ih]
    ring

theorem length_pairs (n : Nat) : (pairs n).length = pairCount n := by
  have hsum : (pairs n).length = ((List.range (n - 1)).map fun i => n - 1 - i).sum := by
    rw [pairs]
    simp
  have hdouble := sum_map_sub_range (n - 1)
  rw [pairCount]
  rcases Nat.eq_zero_or_pos n with rfl | hpos
  · rfl
  · rw [show n - 1 + 1 = n by omega] at hdouble
    omega

/-- The loops of `compress_heap` before round `k`. -/
structure Filled (n : Nat) (start : Heap) (k : Nat) (h : Heap) : Prop where
  slots : h.slots = start.slots
  entries : h.entries.length = start.entries.length
  size : h.size = start.size
  pair : ∀ object ∈ h.slots.take k,
    ∃ e, h.entries[object]? = some e ∧ e.first < e.second ∧ e.second < n

theorem fill_ok {dirtyRegions : List RectBounds} {start h : Heap} (hstart : start.Formed) {k : Nat}
    {p : Nat × Nat} (hfilled : Filled dirtyRegions.length start k h)
    (hp : p ∈ pairs dirtyRegions.length) (hk : k < start.slots.length) :
    ∃ h', fill dirtyRegions h (p, k) = .ok h' ∧
      Filled dirtyRegions.length start (k + 1) h' := by
  rcases mem_pairs hp with ⟨hlt, hltN⟩
  rcases unifiedRegionArea_ok (hlt.trans hltN) hltN with ⟨area, harea⟩
  have hkSlot : k < h.slots.length := by
    rw [hfilled.slots]
    exact hk
  have hobj : h.slots[k] < h.entries.length := by
    rw [hfilled.entries]
    apply hstart.refers
    rw [← hfilled.slots]
    exact getElem_mem hkSlot
  rw [fill, harea, call_ok_bind, read_ok hkSlot, call_ok_bind, write_ok hobj]
  refine ⟨_, rfl, hfilled.slots, (length_set ..).trans hfilled.entries, hfilled.size, ?_⟩
  intro object hmem
  rcases eq_or_ne h.slots[k] object with rfl | hne
  · exact ⟨_, getElem?_set_self hobj, hlt, hltN⟩
  · rw [getElem?_set_ne hne]
    apply hfilled.pair
    rw [take_succ_eq_append_getElem hkSlot, mem_append, mem_singleton] at hmem
    exact hmem.resolve_right (Ne.symm hne)

theorem mergeLoop_ok {heap : Heap} (hpaired : heap.Paired regions.length)
    (hsize : regions.length / 2 ≤ heap.size) :
    ∃ m root height, (List.range (regions.length / 2)).foldlM (fun m _ => mergeMin m)
        ⟨regions, List.range regions.length, heap, 0#64⟩ = .ok m ∧
      Merged regions heap.slots.length heap.size (regions.length / 2) m root height := by
  have hstart : ∃ root height, Merged regions heap.slots.length heap.size 0
      ⟨regions, List.range regions.length, heap, 0#64⟩ root height := by
    refine ⟨id, fun _ => 0, rfl, length_range, .range _, ?_, ?_, rfl, rfl, fun _ => rfl,
      fun hpos => absurd hpos (Nat.lt_irrefl 0)⟩
    · intro a r hr
      exact ⟨r, hr, .refl r⟩
    · rw [length_range]
      exact hpaired
  have hrounds := foldlM_ok (f := fun m (_ : Nat) => mergeMin m)
    (P := fun rounds m => ∃ root height,
      Merged regions heap.slots.length heap.size rounds m root height)
    (l := List.range (regions.length / 2)) hstart ?_
  · rcases hrounds with ⟨m, hok, root, height, hm⟩
    rw [length_range] at hm
    exact ⟨m, root, height, hok, hm⟩
  · intro rounds i hi m hm
    have hlt := (List.getElem?_eq_some_iff.mp hi).1
    rw [length_range] at hlt
    rcases hm with ⟨root, height, hm⟩
    rcases mergeMin_ok hm (by omega) (by omega) with ⟨m', root', height', hok, hm'⟩
    exact ⟨m', hok, root', height', hm'⟩

theorem packLoop_ok {map : List Nat} (hlen : map.length = regions.length)
    (hroot : ∃ r : Nat, map[r]? = some r) (hfreed : ∃ b < regions.length, map[b]? ≠ some b) :
    ∃ packed, (List.range regions.length).foldlM moveUnused ⟨regions, map, regions.length⟩ =
        .ok packed ∧
      packed.dirtyRegions.length = regions.length ∧ packed.emptyIndex < regions.length ∧
      ∀ r : Nat, map[r]? = some r →
        ∃ j < packed.emptyIndex, packed.dirtyRegions[j]? = regions[r]? := by
  have hstart : Packed regions map 0 ⟨regions, map, regions.length⟩ := by
    refine ⟨rfl, hlen, le_refl _, ?_, fun _ _ => rfl, .inr fun j hj =>
      absurd hj (Nat.not_lt_zero j)⟩
    intro r hr
    have hr' := (List.getElem?_eq_some_iff.mp hr).1
    exact ⟨r, hlen ▸ hr', hr, rfl⟩
  have hrounds := foldlM_ok (f := moveUnused) (P := Packed regions map)
    (l := List.range regions.length) hstart ?_
  · rcases hrounds with ⟨packed, hok, hpacked⟩
    rw [length_range] at hpacked
    refine ⟨packed, hok, hpacked.length, ?_, ?_⟩
    · rcases hpacked.freed with hlt | hroots
      · exact hlt
      · rcases hfreed with ⟨b, hb, hne⟩
        exact absurd (hroots b hb) hne
    · intro r hr
      rcases hpacked.kept r hr with ⟨j, hj, -, hreg⟩
      exact ⟨j, hj, hreg⟩
  · intro k i hi c hc
    rcases List.getElem?_eq_some_iff.mp hi with ⟨hlt, hget⟩
    rw [getElem_range] at hget
    subst hget
    rw [length_range] at hlt
    exact moveUnused_ok hc hlt hroot

theorem heapCompress_ok {c : DirtyRegionContainer} (heap : Heap)
    (hpaired : heap.Paired c.dirtyRegions.length) (hfull : c.emptyIndex = c.dirtyRegions.length)
    (hn : 2 ≤ c.dirtyRegions.length) (hsize : c.dirtyRegions.length / 2 ≤ heap.size) :
    ∃ c' heap', c.heapCompress heap = .ok c' ∧
      c'.dirtyRegions.length = c.dirtyRegions.length ∧
      c'.emptyIndex < c.dirtyRegions.length ∧ Sheltered c.dirtyRegions c'.regions ∧
      c'.heap = some heap' ∧ heap'.slots.length = heap.slots.length ∧ heap'.Formed := by
  rcases mergeLoop_ok hpaired hsize with ⟨m, root, height, hmerge, hm⟩
  have hroot : ∃ r : Nat, m.map[r]? = some r :=
    ⟨root 0, hm.rootMap.isRoot 0 (by rw [hm.mapLength]; omega)⟩
  rcases packLoop_ok (hm.mapLength.trans hm.length.symm) hroot
    (hm.length.symm ▸ hm.freed (by omega)) with ⟨packed, hpack, hlen, hemp, hkept⟩
  rw [hm.length] at hpack hlen hemp
  refine ⟨⟨packed.dirtyRegions, packed.emptyIndex, some m.heap⟩, m.heap, ?_, hlen, hemp, ?_,
    rfl, hm.slots, hm.paired.formed⟩
  · rw [heapCompress, hmerge, call_ok_bind, hfull, hpack, call_ok_bind, call_pure]
  · intro r hr
    rcases mem_iff_getElem?.mp hr with ⟨a, ha⟩
    rcases hm.shelter a r ha with ⟨r', hr', hwithin⟩
    have haLt : a < m.map.length := by
      rw [hm.mapLength]
      exact (List.getElem?_eq_some_iff.mp ha).1
    rcases hkept (root a) (hm.rootMap.isRoot a haLt) with ⟨j, hj, hreg⟩
    refine ⟨r', ?_, hwithin⟩
    rw [hr'] at hreg
    apply mem_of_getElem? (i := j)
    rw [regions, getElem?_take_of_lt hj, hreg]

structure Formed (n : Nat) (c : DirtyRegionContainer) : Prop where
  length : c.dirtyRegions.length = n
  emptyIndex_le : c.emptyIndex ≤ n
  heap : ∀ h, c.heap = some h →
    h.slots.length = pairCount n ∧ ∀ object ∈ h.slots, object < h.entries.length

theorem newHeap_eq {n : Nat} (hpos : 0 < n) (hn : n ≤ 46341) :
    newHeap n = .ok ⟨List.range (pairCount n), List.replicate (pairCount n) ⟨0, 0, 0⟩, 0⟩ := by
  have hproduct : ((n : Int) * ((n : Int) - 1)) = ((n * (n - 1) : Nat) : Int) := by
    rw [Nat.cast_mul, Nat.cast_sub hpos, Nat.cast_one]
  have hle : n * (n - 1) ≤ 46341 * 46340 := Nat.mul_le_mul hn (by omega)
  have hint : (int32 ((n : Int) * ((n : Int) - 1))).tdiv 2 = (pairCount n : Int) := by
    rw [hproduct, int32_eq (by omega) (by omega)]
    rfl
  simp only [newHeap, hint, Int.toNat_natCast, if_neg (not_lt.mpr (Int.natCast_nonneg _)),
    call_pure]

theorem half_le_pairCount {n : Nat} (hn : 2 ≤ n) : n / 2 ≤ pairCount n := by
  apply Nat.div_le_div_right
  exact Nat.le_mul_of_pos_right n (by omega)

theorem fillLoop_ok (dirtyRegions : List RectBounds) {start : Heap} (hstart : start.Formed)
    {m : Nat} (hslots : m ≤ start.slots.length) (hpairs : m ≤ pairCount dirtyRegions.length) :
    ∃ h, ((pairs dirtyRegions.length).zipIdx.take m).foldlM (fill dirtyRegions) start = .ok h ∧
      Filled dirtyRegions.length start m h := by
  have hemp : Filled dirtyRegions.length start 0 start := by
    refine ⟨rfl, rfl, rfl, ?_⟩
    intro object hobj
    exact absurd hobj not_mem_nil
  have hrounds := foldlM_ok (f := fill dirtyRegions) (P := Filled dirtyRegions.length start)
    (l := (pairs dirtyRegions.length).zipIdx.take m) hemp ?_
  · rcases hrounds with ⟨h, hok, hfilled⟩
    rw [length_take, length_zipIdx, length_pairs, Nat.min_eq_left hpairs] at hfilled
    exact ⟨h, hok, hfilled⟩
  · intro k p hp h hfilled
    have hk := (List.getElem?_eq_some_iff.mp hp).1
    rw [length_take] at hk
    rw [getElem?_take_of_lt (by omega), getElem?_zipIdx, Option.map_eq_some_iff] at hp
    rcases hp with ⟨pair, hpair, rfl⟩
    rw [Nat.zero_add]
    exact fill_ok hstart hfilled (mem_of_getElem? hpair) (by omega)

theorem compressHeap_ok {n : Nat} {c : DirtyRegionContainer} (hc : c.Formed n) (hn : 2 ≤ n)
    (hint : n ≤ 46341) (hfull : c.emptyIndex = n) :
    ∃ c', c.compressHeap = .ok c' ∧ c'.Formed n ∧ c'.emptyIndex < n ∧
      Sheltered c.regions c'.regions := by
  have hheap : ∃ h, (c.heap.map .ok).getD (newHeap c.dirtyRegions.length) = .ok h ∧
      h.slots.length = pairCount n ∧ ∀ object ∈ h.slots, object < h.entries.length := by
    cases hc' : c.heap with
    | some h => exact ⟨h, rfl, hc.heap h hc'⟩
    | none =>
      refine ⟨_, newHeap_eq (by rw [hc.length]; omega) (by rw [hc.length]; exact hint), ?_, ?_⟩
      · rw [length_range, hc.length]
      · intro object hobj
        rw [mem_range] at hobj
        rw [length_replicate]
        exact hobj
  rcases hheap with ⟨h, hh, hslots, hrefers⟩
  have hstart : Heap.Formed { h with size := h.slots.length } := ⟨le_refl _, hrefers⟩
  have hpairs : (pairs c.dirtyRegions.length).zipIdx.take h.slots.length =
      (pairs c.dirtyRegions.length).zipIdx := by
    apply take_of_length_le
    rw [length_zipIdx, length_pairs, hc.length, hslots]
  rcases fillLoop_ok c.dirtyRegions hstart (le_refl h.slots.length)
    (by rw [hc.length]; exact hslots.le) with ⟨t, ht, hfilled⟩
  rw [hpairs] at ht
  have hpaired : t.Paired n := by
    refine ⟨?_, ?_⟩
    · rw [hfilled.size, hfilled.slots]
    · intro object hobj
      rw [← hc.length]
      apply hfilled.pair
      rw [← hfilled.slots, take_length]
      exact hobj
  rcases Heap.heapify_ok hpaired.formed with ⟨u, hu, hre⟩
  have huPaired := hre.samePairs.paired hpaired
  have huSize : u.size = pairCount n := by
    rw [hre.size, hfilled.size]
    exact hslots
  have hcFull : c.emptyIndex = c.dirtyRegions.length := hfull.trans hc.length.symm
  rcases heapCompress_ok (c := c) u (hc.length.symm ▸ huPaired) hcFull
    (hc.length.symm ▸ hn) (by rw [hc.length, huSize]; exact half_le_pairCount hn) with
    ⟨c', heap', hcompress, hlen, hemp, hshelter, hheap', hslots', hformed'⟩
  refine ⟨c', ?_, ⟨hlen.trans hc.length, ?_, ?_⟩, ?_, ?_⟩
  · rw [compressHeap, hh, call_ok_bind]
    dsimp only
    rw [ht, call_ok_bind, hu, call_ok_bind, hcompress]
  · rw [← hc.length]
    exact hemp.le
  · intro h' hh'
    rw [hheap', Option.some.injEq] at hh'
    subst hh'
    refine ⟨?_, hformed'.refers⟩
    rw [hslots', hre.perm.length_eq, hfilled.slots]
    exact hslots
  · rw [← hc.length]
    exact hemp
  · have hregs : c.regions = c.dirtyRegions := by
      rw [regions, hcFull, take_length]
    rw [hregs]
    exact hshelter

end DirtyRegionContainer

end OpenJfx.Geom
