import OpenJfx.Geom.DirtyRegionCompress

namespace OpenJfx.Geom

open Java.Arrays Java.Ints Data List

def points (regions : List RectBounds) : Set (ℚ × ℚ) :=
  { p | ∃ r ∈ regions, r.contains p.1 p.2 = true }

theorem points_append (a b : List RectBounds) : points (a ++ b) = points a ∪ points b := by
  ext p
  simp only [points, mem_append, Set.mem_ofPred_eq, Set.mem_union, or_and_right, exists_or]

theorem points_cons (r : RectBounds) (a : List RectBounds) :
    points (r :: a) = points [r] ∪ points a :=
  points_append [r] a

theorem points_subset {a b : List RectBounds} (h : Sheltered a b) : points a ⊆ points b := by
  rintro p ⟨r, hr, hp⟩
  rcases h r hr with ⟨other, hother, hwithin⟩
  exact ⟨other, hother, hwithin p.1 p.2 hp⟩

theorem Sheltered.cons {a b : List RectBounds} (h : Sheltered a b) (r : RectBounds) :
    Sheltered (r :: a) (r :: b) := by
  intro s hs
  rcases mem_cons.mp hs with rfl | hs
  · exact ⟨s, mem_cons_self, .refl s⟩
  · rcases h s hs with ⟨t, ht, hst⟩
    exact ⟨t, mem_cons_of_mem r ht, hst⟩

theorem within_deriveWithNewBounds (r : RectBounds) :
    r.Within (RectBounds.deriveWithNewBounds r) := by
  rw [RectBounds.deriveWithNewBounds]
  split
  · rename_i hemp
    exact RectBounds.within_of_isEmpty hemp _
  · exact .refl r

namespace DirtyRegionContainer

structure Absorbed (region : RectBounds) (c : DirtyRegionContainer) (k : Nat) (s : Adding) :
    Prop where
  length : s.dirtyRegions.length = c.dirtyRegions.length
  count : s.emptyIndex + k = c.emptyIndex + s.tempIndex
  emptyIndex_le : s.emptyIndex ≤ c.emptyIndex
  shelter : Sheltered (region :: c.regions) (s.region :: s.dirtyRegions.take s.emptyIndex)

theorem sheltered_absorb {regions : List RectBounds} {region dr last : RectBounds} {e t : Nat}
    (he : e < regions.length) (ht : regions[t]? = some dr) (hlast : regions[e]? = some last)
    (hle : t ≤ e) :
    Sheltered (region :: regions.take (e + 1))
      (region.unionWith dr :: ((regions.set t last).set e dr).take e) := by
  intro r hr
  rcases mem_cons.mp hr with rfl | hr
  · exact ⟨_, mem_cons_self, RectBounds.within_unionWith_left r dr⟩
  rcases mem_take_iff_getElem.mp hr with ⟨j, hj, rfl⟩
  have hjLt : j < regions.length := by omega
  have hget := getElem?_eq_getElem hjLt
  have hstays : ∀ i < e, ((regions.set t last).set e dr)[i]? = some regions[j] →
      ∃ other ∈ region.unionWith dr :: ((regions.set t last).set e dr).take e,
        regions[j].Within other := by
    intro i hi hsome
    refine ⟨regions[j], mem_cons_of_mem _ ?_, .refl _⟩
    apply mem_of_getElem? (i := i)
    rw [getElem?_take_of_lt hi, hsome]
  rcases eq_or_ne j t with rfl | hjt
  · refine ⟨_, mem_cons_self, ?_⟩
    rw [ht, Option.some.injEq] at hget
    rw [← hget]
    exact RectBounds.within_unionWith_right region dr
  rcases eq_or_ne j e with rfl | hje
  · apply hstays t (by omega)
    rw [getElem?_set_ne hjt, getElem?_set_self (by omega), ← hget, hlast]
  · apply hstays j (by omega)
    rw [getElem?_set_ne (Ne.symm hje), getElem?_set_ne (Ne.symm hjt), hget]

variable {n : Nat} {c : DirtyRegionContainer} {region : RectBounds}

theorem absorb_ok {k : Nat} {s : Adding} (hs : Absorbed region c k s) (hk : k < c.emptyIndex)
    (hle : c.emptyIndex ≤ c.dirtyRegions.length) :
    ∃ s', absorb s = .ok s' ∧ Absorbed region c (k + 1) s' := by
  have hcnt := hs.count
  have hemp := hs.emptyIndex_le
  have hlen := hs.length
  have htemp : s.tempIndex < s.dirtyRegions.length := by omega
  rw [absorb, read_ok htemp, call_ok_bind]
  split
  case isTrue =>
    obtain ⟨e, he⟩ : ∃ e, s.emptyIndex = e + 1 := ⟨s.emptyIndex - 1, by omega⟩
    have heLt : e < s.dirtyRegions.length := by omega
    have hidx : ((s.emptyIndex : Int) - 1) = (e : Int) := by omega
    rw [hidx, read_ok heLt, call_ok_bind, write_ok htemp, call_ok_bind,
      write_ok (by simpa using heLt), call_ok_bind, call_pure]
    refine ⟨_, rfl, ?_, ?_, ?_, hs.shelter.trans ?_⟩
    · simpa using hs.length
    · dsimp only
      omega
    · dsimp only
      omega
    · rw [he]
      exact sheltered_absorb heLt (getElem?_eq_getElem htemp) (getElem?_eq_getElem heLt)
        (by omega)
  case isFalse =>
    refine ⟨_, rfl, hs.length, ?_, hs.emptyIndex_le, hs.shelter⟩
    dsimp only
    omega

theorem absorbLoop_ok (hc : c.Formed n) (region : RectBounds) :
    ∃ s, (List.range c.emptyIndex).foldlM (fun s _ => absorb s)
        ⟨region, c.dirtyRegions, c.emptyIndex, 0⟩ = .ok s ∧ Absorbed region c c.emptyIndex s := by
  have hrounds := foldlM_ok (f := fun s (_ : Nat) => absorb s) (P := Absorbed region c)
    (l := List.range c.emptyIndex) (s := ⟨region, c.dirtyRegions, c.emptyIndex, 0⟩)
    ⟨rfl, rfl, le_refl _, .refl _⟩ ?_
  · rcases hrounds with ⟨s, hok, hs⟩
    rw [length_range] at hs
    exact ⟨s, hok, hs⟩
  · intro k i hi s hs
    have hk := (List.getElem?_eq_some_iff.mp hi).1
    rw [length_range] at hk
    exact absorb_ok hs hk (hc.emptyIndex_le.trans hc.length.ge)

theorem addDirtyRegion_ok {depth : Nat} (region : RectBounds) (hc : c.Formed n) (hpos : 0 < n)
    (hint : n ≤ 46341) (hdepth : c.emptyIndex < n ∧ 0 < depth ∨ 1 < depth) :
    ∃ c', c.addDirtyRegion depth region = .ok c' ∧ c'.Formed n ∧
      points (region :: c.regions) ⊆ points c'.regions := by
  induction depth generalizing c region with
  | zero => omega
  | succ depth ih =>
    rw [addDirtyRegion]
    split
    case isTrue hemp =>
      refine ⟨c, rfl, hc, ?_⟩
      rintro p ⟨r, hr, hp⟩
      rcases mem_cons.mp hr with rfl | hr
      · exact absurd hp (RectBounds.not_contains_of_isEmpty hemp _ _)
      · exact ⟨r, hr, hp⟩
    case isFalse =>
      rcases absorbLoop_ok hc region with ⟨s, hs, habsorbed⟩
      have hlen : s.dirtyRegions.length = n := habsorbed.length.trans hc.length
      have hle : s.emptyIndex ≤ n := habsorbed.emptyIndex_le.trans hc.emptyIndex_le
      rw [hs, call_ok_bind]
      dsimp only
      split
      case isTrue hspace =>
        rw [write_ok hspace]
        refine ⟨_, rfl, ⟨?_, ?_, hc.heap⟩, points_subset (habsorbed.shelter.trans ?_)⟩
        · simpa using hlen
        · dsimp only
          omega
        · intro r hr
          rw [regions]
          rw [take_succ_eq_append_getElem (by simpa using hspace), getElem_set_self,
            take_set_of_le (le_refl _)]
          rcases mem_cons.mp hr with rfl | hr
          · exact ⟨_, mem_append_right _ mem_cons_self,
              within_deriveWithNewBounds _⟩
          · exact ⟨r, mem_append_left _ hr, .refl r⟩
      case isFalse hspace =>
        have hfull : s.emptyIndex = n := by omega
        split
        case isTrue hone =>
          obtain ⟨only, honly⟩ := length_eq_one_iff.mp hone
          have hidx : s.emptyIndex = 1 := by omega
          rw [honly]
          refine ⟨⟨[only.deriveWithUnion s.region], s.emptyIndex, c.heap⟩, rfl,
            ⟨?_, hle, hc.heap⟩, points_subset (habsorbed.shelter.trans ?_)⟩
          · rw [← hlen, honly]
            rfl
          · intro r hr
            rw [honly, hidx] at hr
            refine ⟨only.deriveWithUnion s.region, by simp [regions, hidx], ?_⟩
            rcases mem_cons.mp hr with rfl | hr
            · exact RectBounds.within_unionWith_right only _
            · rw [mem_singleton.mp hr]
              exact RectBounds.within_unionWith_left only s.region
        case isFalse hone =>
          have hfull' : c.emptyIndex = n := by
            have hle' := habsorbed.emptyIndex_le
            have hle'' := hc.emptyIndex_le
            omega
          rcases compressHeap_ok (c := ⟨s.dirtyRegions, s.emptyIndex, c.heap⟩)
            ⟨hlen, hle, hc.heap⟩ (by omega) hint hfull with
            ⟨t, ht, htFormed, htSpace, hshelter⟩
          rw [ht]
          rcases ih s.region htFormed (.inl ⟨htSpace, by omega⟩) with
            ⟨c', hc', hformed', hpts⟩
          refine ⟨c', hc', hformed', ?_⟩
          exact (points_subset (habsorbed.shelter.trans (hshelter.cons s.region))).trans hpts

theorem merge_ok (hc : c.Formed n) (hpos : 0 < n) (hint : n ≤ 46341) (other : List RectBounds) :
    ∃ c', c.merge 2 other = .ok c' ∧ c'.Formed n ∧
      points (other ++ c.regions) ⊆ points c'.regions := by
  induction other generalizing c with
  | nil => exact ⟨c, rfl, hc, fun _ hp => hp⟩
  | cons region other ih =>
    rcases addDirtyRegion_ok region hc hpos hint (.inr (Nat.lt_succ_self 1)) with
      ⟨t, ht, htFormed, hadded⟩
    rcases ih htFormed with ⟨c', hc', hformed', hmerged⟩
    refine ⟨c', ?_, hformed', ?_⟩
    · rw [merge, foldlM_cons, ht, call_ok_bind]
      exact hc'
    · rw [points_append] at hmerged
      rw [points_append, points_cons, Set.union_comm (points [region]), Set.union_assoc,
        ← points_cons]
      exact (Set.union_subset_union_right _ hadded).trans hmerged

inductive Operation where
  | addDirtyRegion (region : RectBounds)
  | merge (other : List RectBounds)
  | reset

def run (c : DirtyRegionContainer) : Operation → Call DirtyRegionContainer
  | .addDirtyRegion region => c.addDirtyRegion 2 region
  | .merge other => c.merge 2 other
  | .reset => .ok c.reset

def Operation.added (rectangles : List RectBounds) : Operation → List RectBounds
  | .addDirtyRegion region => region :: rectangles
  | .merge other => other ++ rectangles
  | .reset => []

/-- In every sequence of calls each call returns, and no point is lost. -/
def KeepsArea (n : Nat) : Prop :=
  ∀ operations : List Operation,
    (∀ region, .addDirtyRegion region ∈ operations → region.isEmpty = false) →
    ∃ c, operations.foldlM run (new n) = .ok c ∧ c.regions.length ≤ n ∧
      points (operations.foldl Operation.added []) ⊆ points c.regions

theorem formed_new (n : Nat) : (new n).Formed n :=
  ⟨length_replicate, Nat.zero_le n, fun _ h => absurd h (Option.some_ne_none _).symm⟩

theorem Formed.reset (hc : c.Formed n) : c.reset.Formed n :=
  ⟨hc.length, Nat.zero_le n, hc.heap⟩

theorem length_regions (hc : c.Formed n) : c.regions.length ≤ n := by
  rw [regions, length_take]
  exact (Nat.min_le_left _ _).trans hc.emptyIndex_le

theorem run_ok (hc : c.Formed n) (hpos : 0 < n) (hint : n ≤ 46341) (operation : Operation)
    {rectangles : List RectBounds} (hpts : points rectangles ⊆ points c.regions) :
    ∃ c', run c operation = .ok c' ∧ c'.Formed n ∧
      points (operation.added rectangles) ⊆ points c'.regions := by
  cases operation with
  | addDirtyRegion region =>
    rcases addDirtyRegion_ok region hc hpos hint (.inr (Nat.lt_succ_self 1)) with
      ⟨c', hc', hformed', hadded⟩
    refine ⟨c', hc', hformed', ?_⟩
    rw [points_cons] at hadded
    rw [Operation.added, points_cons]
    exact (Set.union_subset_union_right _ hpts).trans hadded
  | merge other =>
    rcases merge_ok hc hpos hint other with ⟨c', hc', hformed', hmerged⟩
    refine ⟨c', hc', hformed', ?_⟩
    rw [points_append] at hmerged
    rw [Operation.added, points_append]
    exact (Set.union_subset_union_right _ hpts).trans hmerged
  | reset =>
    refine ⟨c.reset, rfl, hc.reset, ?_⟩
    rintro p ⟨r, hr, -⟩
    exact absurd hr not_mem_nil

theorem run_all_ok (hpos : 0 < n) (hint : n ≤ 46341) (operations : List Operation)
    (rectangles : List RectBounds) (hc : c.Formed n)
    (hpts : points rectangles ⊆ points c.regions) :
    ∃ c', operations.foldlM run c = .ok c' ∧ c'.Formed n ∧
      points (operations.foldl Operation.added rectangles) ⊆ points c'.regions := by
  induction operations generalizing c rectangles with
  | nil => exact ⟨c, rfl, hc, hpts⟩
  | cons operation operations ih =>
    rcases run_ok hc hpos hint operation hpts with ⟨t, ht, htFormed, htPoints⟩
    rcases ih _ htFormed htPoints with ⟨c', hc', hformed', hpts'⟩
    refine ⟨c', ?_, hformed', hpts'⟩
    rw [foldlM_cons, ht, call_ok_bind, hc']

theorem keepsArea_of_le (hpos : 0 < n) (hint : n ≤ 46341) : KeepsArea n := by
  intro operations _
  rcases run_all_ok hpos hint operations [] (formed_new n) (by
    rintro p ⟨r, hr, -⟩
    exact absurd hr not_mem_nil) with ⟨c, hc, hformed, hpts⟩
  exact ⟨c, hc, length_regions hformed, hpts⟩

/-- A point of a diagonal. -/
def dot (i : Nat) : RectBounds := ⟨i, i, i, i⟩

theorem isEmpty_dot (i : Nat) : (dot i).isEmpty = false := by
  simp [dot, RectBounds.isEmpty]

theorem intersects_dot {i j : Nat} (h : j < i) : (dot i).intersects (dot j) = false := by
  simp only [RectBounds.intersects]
  simp [dot, h]

/-- The first `k` points are stored, and the container has never been compressed. -/
structure Dotted (n k : Nat) (c : DirtyRegionContainer) : Prop where
  length : c.dirtyRegions.length = n
  emptyIndex : c.emptyIndex = k
  stored : ∀ j < k, c.dirtyRegions[j]? = some (dot j)
  heap : c.heap = none

variable {k : Nat}

theorem absorbLoop_dot (hc : Dotted n k c) :
    (List.range c.emptyIndex).foldlM (fun s _ => absorb s)
        ⟨dot k, c.dirtyRegions, c.emptyIndex, 0⟩ =
      .ok (⟨dot k, c.dirtyRegions, c.emptyIndex, c.emptyIndex⟩ : Adding) := by
  have hrounds := foldlM_ok (f := fun s (_ : Nat) => absorb s)
    (P := fun j s => s = ⟨dot k, c.dirtyRegions, c.emptyIndex, j⟩)
    (l := List.range c.emptyIndex) rfl ?_
  · rcases hrounds with ⟨s, hok, rfl⟩
    rw [hok, length_range]
  · rintro j i hi s rfl
    have hj := (List.getElem?_eq_some_iff.mp hi).1
    rw [length_range, hc.emptyIndex] at hj
    refine ⟨_, ?_, rfl⟩
    rw [absorb]
    rw [read_eq_ok (hc.stored j hj), call_ok_bind, intersects_dot hj]
    rfl

theorem addDirtyRegion_dot (depth : Nat) (hc : Dotted n k c) (hk : k < n) :
    ∃ c', c.addDirtyRegion (depth + 1) (dot k) = .ok c' ∧ Dotted n (k + 1) c' := by
  have hspace : k < c.dirtyRegions.length := by
    rw [hc.length]
    exact hk
  refine ⟨⟨c.dirtyRegions.set k (dot k), k + 1, c.heap⟩, ?_, ?_, rfl, ?_, hc.heap⟩
  · rw [addDirtyRegion, if_neg (by simp [isEmpty_dot]), absorbLoop_dot hc, call_ok_bind,
      hc.emptyIndex]
    rw [if_pos hspace, write_ok hspace, call_ok_bind, call_pure,
      RectBounds.deriveWithNewBounds_of_not_isEmpty (isEmpty_dot k)]
  · exact (length_set ..).trans hc.length
  · intro j hj
    rcases Nat.lt_succ_iff_lt_or_eq.mp hj with hlt | rfl
    · rw [getElem?_set_ne hlt.ne', hc.stored j hlt]
    · exact getElem?_set_self hspace

theorem read_error {α : Type} {array : List α} {index : Nat} (h : array.length ≤ index) :
    read array (index : Int) = .error (.thrown .indexOutOfBounds) := by
  simp only [read, load, Int.toNat_natCast, getElem?_eq_none h]
  rfl

theorem newHeap_overflow (hlarge : 46342 ≤ n) :
    newHeap n = .error .negativeArraySize ∨
      ∃ h, newHeap n = .ok h ∧ Heap.Formed { h with size := h.slots.length } ∧
        h.slots.length < pairCount n := by
  have hproduct : ((n : Int) * ((n : Int) - 1)) = ((n * (n - 1) : Nat) : Int) := by
    rw [Nat.cast_mul, Nat.cast_sub (by omega), Nat.cast_one]
  have hle : 46342 * 46341 ≤ n * (n - 1) := Nat.mul_le_mul hlarge (by omega)
  have hwrapped := int32_le_sub (n := ((n * (n - 1) : Nat) : Int)) (by omega)
  have hhalf := toNat_tdiv (int32 ((n * (n - 1) : Nat) : Int)) 2
  rw [newHeap, hproduct]
  generalize (int32 ((n * (n - 1) : Nat) : Int)).tdiv 2 = length at hhalf ⊢
  have hshort : length.toNat < pairCount n := by
    rw [pairCount]
    omega
  split
  · exact .inl rfl
  · refine .inr ⟨_, rfl, ⟨Nat.le_refl _, ?_⟩, ?_⟩
    · intro object hobj
      rw [mem_range] at hobj
      rw [length_replicate]
      exact hobj
    · rw [length_range]
      exact hshort

theorem fillLoop_overflow {dirtyRegions : List RectBounds} {start : Heap} (hstart : start.Formed)
    (hslots : start.slots.length < pairCount dirtyRegions.length) :
    (pairs dirtyRegions.length).zipIdx.foldlM (fill dirtyRegions) start =
      .error (.thrown .indexOutOfBounds) := by
  have hlast : start.slots.length < (pairs dirtyRegions.length).zipIdx.length := by
    rw [length_zipIdx, length_pairs]
    exact hslots
  have hsplit := take_append_drop start.slots.length (pairs dirtyRegions.length).zipIdx
  rcases fillLoop_ok dirtyRegions hstart (le_refl _) hslots.le with ⟨h, hh, hfilled⟩
  have hpair := getElem_mem (by simpa using hlast :
    start.slots.length < (pairs dirtyRegions.length).length)
  rcases mem_pairs hpair with ⟨hlt, hltN⟩
  rcases unifiedRegionArea_ok (hlt.trans hltN) hltN with ⟨area, harea⟩
  rw [← hsplit, foldlM_append, hh, call_ok_bind, drop_eq_getElem_cons hlast,
    foldlM_cons, getElem_zipIdx, fill]
  rw [harea, Nat.zero_add, read_error (by rw [hfilled.slots])]
  rfl

theorem compressHeap_overflow (hheap : c.heap = none) (hlarge : 46342 ≤ c.dirtyRegions.length) :
    ∃ stop, c.compressHeap = .error stop ∧ stop ≠ .outOfFuel := by
  rcases newHeap_overflow hlarge with hnegative | ⟨h, hh, hformed, hshort⟩
  · refine ⟨.negativeArraySize, ?_, by simp⟩
    rw [compressHeap, hheap, hnegative]
    rfl
  · refine ⟨.thrown .indexOutOfBounds, ?_, by simp⟩
    rw [compressHeap, hheap, Option.map_none, Option.getD_none, hh, call_ok_bind]
    dsimp only
    rw [fillLoop_overflow hformed hshort]
    rfl

theorem addDirtyRegion_overflow (depth : Nat) (hc : Dotted n n c) (hlarge : 46342 ≤ n) :
    ∃ stop, c.addDirtyRegion (depth + 1) (dot n) = .error stop ∧ stop ≠ .outOfFuel := by
  have hlen := hc.length
  rcases compressHeap_overflow (c := c) hc.heap (by rw [hlen]; exact hlarge) with
    ⟨stop, hstop, hne⟩
  refine ⟨stop, ?_, hne⟩
  have hidx := hc.emptyIndex
  rw [addDirtyRegion, if_neg (by simp [isEmpty_dot]), absorbLoop_dot hc, call_ok_bind]
  dsimp only
  rw [if_neg (by omega), if_neg (by omega), hstop]
  rfl

/-- The regions of these calls lie apart, and there is one more than the container can hold. -/
def dots (n : Nat) : List Operation := (List.range n).map fun i => .addDirtyRegion (dot i)

theorem run_dots (hk : k ≤ n) : ∃ c, (dots k).foldlM run (new n) = .ok c ∧
    Dotted n k c := by
  induction k with
  | zero =>
    exact ⟨new n, rfl, length_replicate, rfl, fun j hj => absurd hj (Nat.not_lt_zero j), rfl⟩
  | succ k ih =>
    rcases ih (Nat.le_of_lt hk) with ⟨c, hc, hdotted⟩
    rcases addDirtyRegion_dot 1 hdotted hk with ⟨c', hc', hdotted'⟩
    refine ⟨c', ?_, hdotted'⟩
    rw [dots, range_succ, map_append, foldlM_append]
    change ((dots k).foldlM run (new n) >>= _) = _
    rw [hc, call_ok_bind, map_singleton, foldlM_cons, run, hc']
    rfl

theorem not_keepsArea_of_lt (hlarge : 46342 ≤ n) : ¬KeepsArea n := by
  intro h
  rcases run_dots (le_refl n) with ⟨c, hc, hdotted⟩
  rcases addDirtyRegion_overflow 1 hdotted hlarge with ⟨stop, hstop, -⟩
  have hnonempty : ∀ region, .addDirtyRegion region ∈ dots (n + 1) → region.isEmpty = false := by
    intro region hreg
    rw [dots, mem_map] at hreg
    rcases hreg with ⟨i, -, hi⟩
    cases hi
    exact isEmpty_dot i
  rcases h (dots (n + 1)) hnonempty with ⟨c', hc', -⟩
  have hrun : (dots (n + 1)).foldlM run (new n) = .error stop := by
    rw [dots, range_succ, map_append, foldlM_append]
    change ((dots n).foldlM run (new n) >>= _) = _
    rw [hc, call_ok_bind, map_singleton, foldlM_cons, run, hstop]
    rfl
  rw [hrun] at hc'
  cases hc'

/-- The container keeps what is added exactly for the capacities whose number of pairs is an
`int`. -/
theorem keepsArea_iff (n : Nat) (hpos : 1 ≤ n) : KeepsArea n ↔ n ≤ 46341 := by
  constructor
  · intro h
    by_contra hlarge
    exact not_keepsArea_of_lt (by omega) h
  · intro hint
    exact keepsArea_of_le hpos hint

theorem keepsArea_iff_six : KeepsArea 6 ↔ 6 ≤ 46341 := keepsArea_iff 6 (by decide)

theorem area_lost : ¬∀ n : Nat, 1 ≤ n → KeepsArea n := by
  intro h
  exact not_keepsArea_of_lt (by decide) (h 65537 (by decide))

end DirtyRegionContainer

end OpenJfx.Geom
