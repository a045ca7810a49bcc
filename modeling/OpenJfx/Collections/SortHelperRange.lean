import OpenJfx.Collections.SortHelperMerge

namespace OpenJfx.Collections.SortHelper

open Java.Arrays List

variable {T : Type} {compare : T → T → Int}

/-- No element moves but in the blocks that are sorted in the array itself. -/
def movesInArray (compare : T → T → Int) : Nat → Bool → List T → Bool
  | 0, _, _ => false
  | fuel + 1, inArray, l =>
    if l.length < 7 then inArray || decide (l.Pairwise fun x y => compare x y ≤ 0)
    else
      movesInArray compare fuel (!inArray) (l.take (l.length / 2)) &&
        movesInArray compare fuel (!inArray) (l.drop (l.length / 2)) &&
          (l.take (l.length / 2)).all fun x =>
            (l.drop (l.length / 2)).all fun y => decide (compare x y ≤ 0)

theorem sink_sorted (front back : List T) (pre rest : Tagged T) (x : T × Nat) (p : Perms)
    (fuel : Nat) (hsort : Sorted compare (pre ++ [x])) :
    sink compare front.length fuel ((front.length + pre.length : Nat) : Int)
      (front ++ elements (pre ++ x :: rest) ++ back) p =
      .ok (front ++ elements (pre ++ x :: rest) ++ back, p) := by
  cases fuel with
  | zero => rfl
  | succ fuel =>
    cases pre using List.reverseRecOn with
    | nil => rw [sink, if_neg (by simp)]
    | append_singleton pre y =>
      have hpos : ((front.length + (pre ++ [y]).length : Nat) : Int) - 1 =
          ((front.length + pre.length : Nat) : Int) := by
        rw [length_append, length_singleton]
        omega
      have hy := load_elements front back pre (x :: rest) y (i := front.length + pre.length) rfl
      have hx := load_elements front back (pre ++ [y]) rest x rfl
      have hassoc : (pre ++ [y]) ++ x :: rest = pre ++ y :: x :: rest := by simp
      have hle : compare y.1 x.1 ≤ 0 :=
        (pairwise_append.mp hsort).2.2 y (by simp) x (by simp)
      rw [hassoc] at hx ⊢
      rw [sink, if_pos (by rw [length_append, length_singleton]; omega), hpos, hy,
        ok_bind, hx, ok_bind, if_neg (Int.not_lt.mpr hle)]

theorem insertionSort_sorted (front back : List T) (todo : Tagged T) (p : Perms) :
    ∀ pre : Tagged T, Sorted compare (pre ++ todo) →
      insertionSort compare front.length todo.length ((front.length + pre.length : Nat) : Int)
        (front ++ elements (pre ++ todo) ++ back) p =
        .ok (front ++ elements (pre ++ todo) ++ back, p) := by
  induction todo with
  | nil => exact fun _ _ => rfl
  | cons x todo ih =>
    intro pre hsort
    have hsplit : pre ++ x :: todo = pre ++ [x] ++ todo := by simp
    have hnext : ((front.length + pre.length : Nat) : Int) + 1 =
        ((front.length + (pre ++ [x]).length : Nat) : Int) := by
      rw [length_append, length_singleton]
      omega
    have hpre : Sorted compare (pre ++ [x]) := by
      rw [hsplit] at hsort
      exact (pairwise_append.mp hsort).1
    rw [length_cons, insertionSort, sink_sorted front back pre todo x p _ hpre]
    rw [hnext, hsplit]
    rw [hsplit] at hsort
    exact ih (pre ++ [x]) hsort

theorem mergeHalves_of_le (sa sb da db g : List T) {l r : Tagged T} (p : Perms)
    (hlpos : 0 < l.length) (hrpos : 0 < r.length) (hg : g.length = l.length + r.length)
    (hle : ∀ w ∈ l, ∀ v ∈ r, compare w.1 v.1 ≤ 0) :
    mergeHalves compare (sa ++ (elements l ++ (elements r ++ sb))) (da ++ (g ++ db)) p da.length
      sa.length ((sa.length + l.length : Nat) : Int)
      ((sa.length + l.length + r.length : Nat) : Int) =
      .ok (da ++ (elements (l ++ r) ++ db), p) := by
  obtain ⟨l₀, x, y, r₀, hlx, hry, heq⟩ :=
    mergeHalves_eq compare sa sb (da ++ (g ++ db)) p da.length hlpos hrpos
  rw [heq, if_pos (hle x (by simp [hlx]) y (by simp [hry])), arraycopy_halves sa sb da db g hg,
    ok_bind]

theorem mergeSort_halves (compare : T → T → Int) (fuel : Nat) (sa sb da db : List T)
    (l r : Tagged T) (p : Perms) (hl : l.length = (l.length + r.length) / 2)
    (hlarge : 7 ≤ l.length + r.length) :
    mergeSort compare (fuel + 1) (sa ++ (elements (l ++ r) ++ sb))
        (da ++ (elements (l ++ r) ++ db)) p da.length
        ((da.length + (l ++ r).length : Nat) : Int) (sa.length - da.length) =
      (do
        let (dest, src, p) ← mergeSort compare fuel (da ++ (elements l ++ (elements r ++ db)))
          (sa ++ (elements l ++ (elements r ++ sb))) p sa.length
          ((sa.length + l.length : Nat) : Int) (da.length - sa.length)
        let (dest, src, p) ← mergeSort compare fuel dest src p ((sa.length + l.length : Nat) : Int)
          ((sa.length + l.length + r.length : Nat) : Int) (da.length - sa.length)
        let (dest, p) ← mergeHalves compare src dest p da.length sa.length
          ((sa.length + l.length : Nat) : Int) ((sa.length + l.length + r.length : Nat) : Int)
        .ok (src, dest, p)) := by
  have hlow : (da.length : Int) + (sa.length - da.length) = sa.length := by omega
  have hhigh : ((da.length + (l.length + r.length) : Nat) : Int) + (sa.length - da.length) =
      ((sa.length + l.length + r.length : Nat) : Int) := by omega
  have hmid : ((sa.length : Int) + ((sa.length + l.length + r.length : Nat) : Int)) / 2 =
      ((sa.length + l.length : Nat) : Int) := by omega
  have hoff : -((sa.length : Int) - da.length) = da.length - sa.length := by omega
  rw [mergeSort, length_append, if_neg (by omega)]
  simp only [hlow, hhigh, hmid, hoff, elements_append, append_assoc]

theorem exists_halves (z : Tagged T) : ∃ l r, z = l ++ r ∧
    l.length = (l.length + r.length) / 2 ∧ elements l = (elements z).take (z.length / 2) ∧
      elements r = (elements z).drop (z.length / 2) := by
  refine ⟨z.take (z.length / 2), z.drop (z.length / 2), (take_append_drop _ _).symm, ?_,
    map_take, map_drop⟩
  rw [length_take, length_drop]
  omega

theorem mergeSort_sorted (fuel : Nat) :
    ∀ (sa sb da db : List T) (z : Tagged T) (p : Perms) (low high off : Int), z.length < fuel →
      low = da.length → high = ((da.length + z.length : Nat) : Int) →
      off = sa.length - da.length → Sorted compare z →
      mergeSort compare fuel (sa ++ (elements z ++ sb)) (da ++ (elements z ++ db)) p low high off =
        .ok (sa ++ (elements z ++ sb), da ++ (elements z ++ db), p) := by
  induction fuel with
  | zero => exact fun _ _ _ _ _ _ _ _ _ h => absurd h (by omega)
  | succ fuel ih =>
    rintro sa sb da db z p low high off hfuel rfl rfl rfl hsort
    by_cases hsmall : z.length < 7
    · have hlen : ((da.length + z.length : Nat) : Int) - da.length = z.length := by omega
      have hrun := insertionSort_sorted da db z p [] hsort
      rw [nil_append, length_nil, Nat.add_zero, append_assoc] at hrun
      rw [mergeSort, hlen, if_pos (by omega), Int.toNat_natCast, hrun, ok_bind]
    · obtain ⟨l, r, rfl, hl, -, -⟩ := exists_halves z
      rw [length_append] at hfuel hsmall
      obtain ⟨hsortedl, hsortedr, hle⟩ := pairwise_append.mp hsort
      have hleft := ih da (elements r ++ db) sa (elements r ++ sb) l p sa.length
        ((sa.length + l.length : Nat) : Int) (da.length - sa.length) (by omega) rfl rfl rfl
        hsortedl
      have hright := ih (da ++ elements l) db (sa ++ elements l) sb r p
        ((sa.length + l.length : Nat) : Int) ((sa.length + l.length + r.length : Nat) : Int)
        (da.length - sa.length) (by omega) (by rw [length_append, length_elements])
        (by rw [length_append, length_elements])
        (by rw [length_append, length_append, length_elements]; omega) hsortedr
      have hmerge := mergeHalves_of_le sa sb da db (elements l ++ elements r) p (by omega)
        (by omega) (by simp [length_elements]) hle
      simp only [append_assoc] at hright hmerge
      rw [mergeSort_halves compare fuel sa sb da db l r p hl (by omega), hleft, ok_bind]
      simp only
      rw [hright, ok_bind]
      rw [hmerge, ok_bind, elements_append]
      simp only [append_assoc]

theorem mergeSort_sortedHalves (fuel : Nat) (sa sb da db : List T) (l r : Tagged T) (p : Perms)
    (hfuel : l.length + r.length ≤ fuel) (hl : l.length = (l.length + r.length) / 2)
    (hlarge : 7 ≤ l.length + r.length) (hsortedl : Sorted compare l) (hsortedr : Sorted compare r) :
    mergeSort compare (fuel + 1) (sa ++ (elements (l ++ r) ++ sb))
        (da ++ (elements (l ++ r) ++ db)) p da.length
        ((da.length + (l ++ r).length : Nat) : Int) (sa.length - da.length) =
      (do
        let (dest, p) ← mergeHalves compare (sa ++ (elements l ++ (elements r ++ sb)))
          (da ++ ((elements l ++ elements r) ++ db)) p da.length sa.length
          ((sa.length + l.length : Nat) : Int) ((sa.length + l.length + r.length : Nat) : Int)
        .ok (sa ++ (elements l ++ (elements r ++ sb)), dest, p)) := by
  have hleft := mergeSort_sorted fuel da (elements r ++ db) sa (elements r ++ sb) l p sa.length
    ((sa.length + l.length : Nat) : Int) (da.length - sa.length) (by omega) rfl rfl rfl hsortedl
  have hright := mergeSort_sorted fuel (da ++ elements l) db (sa ++ elements l) sb r p
    ((sa.length + l.length : Nat) : Int) ((sa.length + l.length + r.length : Nat) : Int)
    (da.length - sa.length) (by omega) (by rw [length_append, length_elements])
    (by rw [length_append, length_elements])
    (by rw [length_append, length_append, length_elements]; omega) hsortedr
  simp only [append_assoc] at hright ⊢
  rw [mergeSort_halves compare fuel sa sb da db l r p hl hlarge, hleft, ok_bind]
  simp only
  rw [hright, ok_bind]

theorem mergeSort_inArray (hcmp : TotalPreorder compare) {n : Nat} (fuel : Nat) :
    ∀ (inArray : Bool) (base : Nat) (sa sb da db : List T) (z : Tagged T) (p : Perms)
      (low high off : Int), z.length < fuel → p.Bounded n → base + z.length ≤ n →
      (base = if inArray then da.length else sa.length) → low = da.length →
      high = ((da.length + z.length : Nat) : Int) → off = sa.length - da.length →
      movesInArray compare fuel inArray (elements z) = true → (tags z).Nodup →
      p.Tracked base z →
      ∃ g z' p', mergeSort compare fuel (sa ++ (elements z ++ sb)) (da ++ (elements z ++ db)) p low
          high off = .ok (sa ++ (g ++ sb), da ++ (elements z' ++ db), p') ∧ g.length = z.length ∧
        z'.Perm z ∧ Sorted compare z' ∧ p'.Bounded n ∧ p'.Tracked base z' ∧
        p.Frames base z p' := by
  induction fuel with
  | zero => exact fun _ _ _ _ _ _ _ _ _ _ _ h => absurd h (by omega)
  | succ fuel ih =>
    rintro inArray base sa sb da db z p low high off hfuel hp hn hbase rfl rfl rfl hmoves hnd
      htracked
    rw [movesInArray, length_elements] at hmoves
    by_cases hsmall : z.length < 7
    · rw [if_pos hsmall, Bool.or_eq_true, decide_eq_true_eq] at hmoves
      rcases hmoves with rfl | hsort
      · obtain rfl : base = da.length := hbase
        have hlen : ((da.length + z.length : Nat) : Int) - da.length = z.length := by omega
        obtain ⟨z', p', hrun, hperm, hsort, hmoves, -⟩ :=
          insertionSort_spec hcmp da db z [] p hp (by simpa using hn) List.Pairwise.nil
        obtain ⟨htracked', hframes⟩ := hmoves.tracked htracked
        refine ⟨elements z, z', p', ?_, length_elements z, hperm, hsort, hmoves.bounded,
          htracked', hframes⟩
        simp only [nil_append, length_nil, Nat.add_zero, append_assoc] at hrun
        rw [mergeSort, hlen, if_pos (by omega), Int.toNat_natCast, hrun, ok_bind]
      · have hsort : Sorted compare z := pairwise_map.mp hsort
        exact ⟨elements z, z, p, mergeSort_sorted (fuel + 1) sa sb da db z p _ _ _ hfuel rfl rfl
          rfl hsort, length_elements z, .refl _, hsort, hp, htracked, fun _ _ => rfl,
          fun _ _ => rfl⟩
    · rw [if_neg hsmall, Bool.and_eq_true, Bool.and_eq_true] at hmoves
      obtain ⟨⟨hleft, hright⟩, hle⟩ := hmoves
      obtain ⟨l, r, rfl, hl, htake, hdrop⟩ := exists_halves z
      rw [← htake, ← hdrop] at hle
      rw [← htake] at hleft
      rw [← hdrop] at hright
      rw [length_append] at hfuel hn hsmall
      have hnd' := hnd
      rw [tags, map_append] at hnd'
      -- the left half, with the two arrays exchanged
      obtain ⟨g₁, l', p₁, hrun₁, hg₁, hl', hsort₁, hb₁, htracked₁, hframes₁⟩ :=
        ih (!inArray) base da (elements r ++ db) sa (elements r ++ sb) l p sa.length
          ((sa.length + l.length : Nat) : Int) (da.length - sa.length) (by omega) hp (by omega)
          (by rw [hbase]; cases inArray <;> rfl) rfl rfl rfl hleft hnd'.of_append_left
          (tracked_append.mp htracked).1
      have hll := hl'.length_eq
      -- the right half
      obtain ⟨g₂, r', p₂, hrun₂, hg₂, hr', hsort₂, hb₂, htracked₂, hframes₂⟩ :=
        ih (!inArray) (base + l.length) (da ++ g₁) db (sa ++ elements l') sb r p₁
          ((sa.length + l.length : Nat) : Int) ((sa.length + l.length + r.length : Nat) : Int)
          (da.length - sa.length) (by omega) hb₁ (by omega)
          (by
            rw [hbase, length_append, length_append, length_elements, hg₁, hll]
            cases inArray <;> rfl)
          (by rw [length_append, length_elements, hll])
          (by rw [length_append, length_elements, hll])
          (by rw [length_append, length_append, length_elements]; omega) hright
          hnd'.of_append_right (htracked.right hnd hframes₁)
      have hrr := hr'.length_eq
      have hle' : ∀ w ∈ l', ∀ v ∈ r', compare w.1 v.1 ≤ 0 := by
        intro w hw v hv
        have hx : w.1 ∈ elements l := mem_map_of_mem (hl'.mem_iff.mp hw)
        have hy : v.1 ∈ elements r := mem_map_of_mem (hr'.mem_iff.mp hv)
        exact of_decide_eq_true (all_eq_true.mp (all_eq_true.mp hle _ hx) _ hy)
      have hmerge := mergeHalves_of_le sa sb da db (g₁ ++ g₂) p₂ (by omega) (by omega)
        (by rw [length_append]; omega) hle'
      obtain ⟨htracked', hframes'⟩ :=
        htracked.halves hnd hl' ⟨htracked₁, hframes₁⟩ fun _ => ⟨htracked₂, hframes₂⟩
      refine ⟨elements l' ++ elements r', l' ++ r', p₂, ?_, ?_, hl'.append hr',
        pairwise_append.mpr ⟨hsort₁, hsort₂, hle'⟩, hb₂, htracked', hframes'⟩
      · rw [hll, hrr] at hmerge
        simp only [append_assoc] at hrun₂ hmerge ⊢
        rw [mergeSort_halves compare fuel sa sb da db l r p hl (by omega), hrun₁, ok_bind]
        simp only
        rw [hrun₂, ok_bind]
        rw [hmerge, ok_bind]
      · simp only [length_append, length_elements]
        omega

theorem compareTo_nonpos_iff (x y : Int) : compareTo x y ≤ 0 ↔ x ≤ y := by
  rw [compareTo]
  split_ifs <;> omega

/-- `a[fromIndex..toIndex)`. -/
def rangeOf (a : List T) (fromIndex toIndex : Nat) : List T :=
  (a.drop fromIndex).take (toIndex - fromIndex)

structure RangeSorted (a b : List Int) (fromIndex toIndex : Nat) : Prop where
  sorted : (rangeOf b fromIndex toIndex).Pairwise (· ≤ ·)
  perm : (rangeOf b fromIndex toIndex).Perm (rangeOf a fromIndex toIndex)
  rest : ∀ i, i < fromIndex ∨ toIndex ≤ i → b[i]? = a[i]?

/-- The indexes of the range in some order, those at which the elements of `a` now stand. -/
structure GivesIndexes (a b : List Int) (fromIndex toIndex : Nat) (p : List Int) : Prop where
  perm : p.Perm ((List.range' fromIndex (toIndex - fromIndex)).map Nat.cast)
  index : ∀ (i : Nat) (x : Int), i < toIndex - fromIndex → a[fromIndex + i]? = some x →
    ∃ k : Nat, p[i]? = some (k : Int) ∧ b[k]? = some x

/-- `sort(a, fromIndex, toIndex)` does what it is for. -/
def SortsRange (a : List Int) (fromIndex toIndex : Nat) : Prop :=
  ∃ b p, sort compareTo a fromIndex toIndex = .ok (b, p) ∧ RangeSorted a b fromIndex toIndex ∧
    GivesIndexes a b fromIndex toIndex p

section

variable {front l back : List Int} {z : Tagged Int}

theorem rangeOf_append (front l back : List T) :
    rangeOf (front ++ (l ++ back)) front.length (front.length + l.length) = l := by
  rw [rangeOf, drop_left, Nat.add_sub_cancel_left, take_left]

variable {fromIndex toIndex : Nat}

theorem exists_range {a : List T} (hle : fromIndex ≤ toIndex) (hn : toIndex ≤ a.length) :
    ∃ front l back, a = front ++ (l ++ back) ∧
      fromIndex = front.length ∧ toIndex = front.length + l.length := by
  refine ⟨a.take fromIndex, rangeOf a fromIndex toIndex,
    (a.drop fromIndex).drop (toIndex - fromIndex),
    ?_, ?_, ?_⟩
  · rw [rangeOf, take_append_drop, take_append_drop]
  · rw [length_take]
    omega
  · rw [rangeOf, length_take, length_take, length_drop]
    omega

theorem rangeSorted_of_tagged (hperm : z.Perm (tagFrom front.length l))
    (hsort : Sorted compareTo z) :
    RangeSorted (front ++ (l ++ back)) (front ++ (elements z ++ back)) front.length
      (front.length + l.length) := by
  have hlen : (elements z).length = l.length := by
    rw [length_elements, hperm.length_eq, length_tagFrom]
  have hrange : rangeOf (front ++ (elements z ++ back)) front.length (front.length + l.length) =
      elements z := by rw [← hlen, rangeOf_append]
  constructor
  · rw [hrange]
    exact pairwise_map.mpr (hsort.imp (compareTo_nonpos_iff _ _).mp)
  · rw [hrange, rangeOf_append]
    have helems := hperm.map Prod.fst
    rwa [← elements, ← elements, elements_tagFrom] at helems
  · rintro i (hi | hi)
    · rw [getElem?_append_left hi, getElem?_append_left hi]
    · rw [← append_assoc, ← append_assoc, getElem?_append_right (by simp; omega),
        getElem?_append_right (by simp; omega), length_append, length_append, hlen]

theorem givesIndexes_of_tagged (hperm : z.Perm (tagFrom front.length l)) {p : List Int}
    (hlen : p.length = l.length)
    (hplaced : ∀ (k : Nat) (x : Int × Nat), z[k]? = some x →
      p[x.2 - front.length]? = some ((front.length + k : Nat) : Int)) :
    GivesIndexes (front ++ (l ++ back)) (front ++ (elements z ++ back)) front.length
      (front.length + l.length) p := by
  have hlength : z.length = l.length := by rw [hperm.length_eq, length_tagFrom]
  constructor
  · rw [Nat.add_sub_cancel_left]
    apply perm_of_subset
    · exact (nodup_range' _).map fun _ _ h => Int.ofNat.inj h
    · intro v hv
      obtain ⟨k, hk, rfl⟩ := mem_map.mp hv
      rw [mem_range'_1] at hk
      obtain ⟨k, rfl⟩ := Nat.exists_eq_add_of_le hk.1
      exact mem_of_getElem? (hplaced k _ (getElem?_eq_getElem (by omega)))
    · rw [length_map, length_range', hlen]
  · intro i x hi hx
    rw [Nat.add_sub_cancel_left] at hi
    rw [getElem?_append_right (Nat.le_add_right _ _), Nat.add_sub_cancel_left,
      getElem?_append_left hi] at hx
    obtain ⟨k, hk⟩ := mem_tags_tagFrom hperm hx
    have hidx := hplaced k _ hk
    rw [Nat.add_sub_cancel_left] at hidx
    refine ⟨front.length + k, hidx, ?_⟩
    have hkz := (List.getElem?_eq_some_iff.mp hk).1
    rw [getElem?_append_right (Nat.le_add_right _ _), Nat.add_sub_cancel_left,
      getElem?_append_left (by rw [length_elements]; exact hkz), elements, getElem?_map,
      hk]
    rfl

theorem sort_rangeSorted (a : List Int) (hle : fromIndex ≤ toIndex) (hn : toIndex ≤ a.length) :
    ∃ b p, sort compareTo a fromIndex toIndex = .ok (b, p) ∧ RangeSorted a b fromIndex toIndex := by
  obtain ⟨front, l, back, rfl, rfl, rfl⟩ := exists_range hle hn
  obtain ⟨z, p, hrun, hperm, hsort, -⟩ := sort_spec totalPreorder_compareTo front l back
  exact ⟨_, p, hrun, rangeSorted_of_tagged hperm hsort⟩

theorem sortsRange_zero (a : List Int) (hn : toIndex ≤ a.length) :
    SortsRange a 0 toIndex := by
  obtain ⟨front, l, back, rfl, hfront, rfl⟩ := exists_range (Nat.zero_le toIndex) hn
  obtain rfl : front = [] := eq_nil_of_length_eq_zero hfront.symm
  obtain ⟨z, p, hrun, hperm, hsort, hlen, hplaced⟩ :=
    sort_spec totalPreorder_compareTo [] l back
  refine ⟨_, p, hrun, rangeSorted_of_tagged hperm hsort,
    givesIndexes_of_tagged hperm hlen fun k x hx => ?_⟩
  rw [length_nil, Nat.zero_add]
  exact hplaced rfl k x hx

theorem sortsRange_of_movesInArray (a : List Int) (hle : fromIndex ≤ toIndex)
    (hn : toIndex ≤ a.length) (hmoves : movesInArray compareTo (toIndex - fromIndex + 1) true
      (rangeOf a fromIndex toIndex) = true) : SortsRange a fromIndex toIndex := by
  obtain ⟨front, l, back, rfl, rfl, rfl⟩ := exists_range hle hn
  rw [rangeOf_append, Nat.add_sub_cancel_left] at hmoves
  have hlen := length_tagFrom front.length l
  have hbound : front.length + l.length ≤ (front ++ (l ++ back)).length := by simp
  obtain ⟨g, z, p, hrun, -, hperm, hsort, hbounded, htracked, -⟩ :=
    mergeSort_inArray totalPreorder_compareTo (l.length + 1) true front.length [] [] front back
      (tagFrom front.length l) (initPermutation (front ++ (l ++ back)).length) front.length
      ((front.length + l.length : Nat) : Int) (-front.length) (by omega) (bounded_initPermutation _)
      (by omega) rfl rfl (by rw [hlen]) (by simp) (by rwa [elements_tagFrom])
      (by rw [tags_tagFrom]; exact nodup_range' _) (tracked_initPermutation hbound)
  have hrange : ((front.length + l.length : Nat) : Int) - front.length = l.length := by omega
  have haux : ((front ++ (l ++ back)).drop front.length).take l.length = l := by simp
  refine ⟨front ++ (elements z ++ back), (p.permutation.drop front.length).take l.length, ?_,
    rangeSorted_of_tagged hperm hsort, givesIndexes_of_tagged hperm ?_ ?_⟩
  · simp only [elements_tagFrom, nil_append, append_nil] at hrun
    rw [sort, if_pos (by simp only [length_append]; omega)]
    simp only [hrange, Int.toNat_natCast, haux, hrun, ok_bind]
  · rw [length_take, length_drop, hbounded.length_permutation]
    omega
  · intro k x hx
    have hmem : x.2 ∈ tags (tagFrom front.length l) :=
      (hperm.map Prod.snd).mem_iff.mp (mem_tags_of_getElem? hx)
    rw [tags_tagFrom, mem_range'_1] at hmem
    rw [getElem?_take_of_lt (by omega), getElem?_drop, Nat.add_sub_cancel' hmem.1]
    exact (htracked k x hx).2

theorem showsTags_initPermutation {n low : Nat} {l : List T} (hn : low + l.length ≤ n) :
    ShowsTags (initPermutation n) low (tagFrom low l) :=
  fun j x hx => (tracked_initPermutation hn j x hx).1

theorem tags_tagFrom_append (l r : List T) :
    tags (tagFrom 0 l ++ tagFrom l.length r) = List.range' 0 (l.length + r.length) := by
  rw [tags, map_append, ← tags, ← tags, tags_tagFrom, tags_tagFrom, ← range'_append_1,
    Nat.zero_add]

theorem mergeLoop_untouched (compare : T → T → Int) {n : Nat} (front l r back : List T)
    (hn : front.length + (l.length + r.length) ≤ n) :
    ∃ dest p, mergeLoop compare (l ++ r) l.length ((l.length + r.length : Nat) : Int)
        (l.length + r.length) front.length 0 l.length (front ++ ((l ++ r) ++ back))
        (initPermutation n) = .ok (dest, p) ∧ p.Bounded n ∧
      ∀ i, l.length + r.length ≤ i → p.permutation[i]? = (initPermutation n).permutation[i]? := by
  have hll := length_tagFrom 0 l
  have hlr := length_tagFrom l.length r
  have htags := tags_tagFrom_append l r
  have hshows := shows_append [] r (tagFrom 0 l)
  have hshows' := shows_append l [] (tagFrom l.length r)
  rw [elements_tagFrom] at hshows hshows'
  rw [append_nil] at hshows'
  obtain ⟨p, hloop, hbounded, -, hplaced⟩ := mergeLoop_spec compare l.length
    (l.length + r.length) (l ++ r) back (n := n) (by omega) (by omega) True (l ++ r) (tagFrom 0 l)
    (tagFrom l.length r) front 0 l.length (initPermutation n) (bounded_initPermutation n)
    (by rw [hll, hlr, length_append]) (by omega) (by omega)
    (by rw [length_append]; omega) hshows hshows' (fun _ => by
      refine ⟨showsTags_initPermutation (by omega), showsTags_initPermutation (by omega), ?_, ?_⟩
      · intro u hu
        have hmem : u.2 ∈ tags (tagFrom 0 l ++ tagFrom l.length r) := mem_map_of_mem hu
        rw [htags, mem_range'_1] at hmem
        omega
      · rw [htags]
        exact nodup_range' _)
  rw [length_append] at hloop
  refine ⟨_, p, hloop, hbounded, fun i hi => (hplaced trivial).2 i fun hmem => ?_⟩
  have hperm : (mergeTagged compare (tagFrom 0 l) (tagFrom l.length r)).Perm
      (tagFrom 0 l ++ tagFrom l.length r) := merge_perm_append _
  rw [tags, (hperm.map Prod.snd).mem_iff, ← tags, htags, mem_range'_1] at hmem
  omega

theorem sorted_constant {low : Nat} {m : List Int} {v : Int} (hm : ∀ w ∈ m, w = v) :
    Sorted compareTo (tagFrom low m) := by
  refine pairwise_iff_getElem.mpr fun i j hi hj _ => ?_
  obtain ⟨hx, -⟩ := getElem?_tagFrom (getElem?_eq_getElem hi)
  obtain ⟨hy, -⟩ := getElem?_tagFrom (getElem?_eq_getElem hj)
  have hxv := hm _ (mem_of_getElem? hx)
  have hyv := hm _ (mem_of_getElem? hy)
  exact (compareTo_nonpos_iff _ _).mpr (Int.le_of_eq (hxv.trans hyv.symm))

theorem sort_merged (front l r back : List Int) {x y : Int} (hl : ∀ v ∈ l, v = x)
    (hr : ∀ v ∈ r, v = y) (hyx : y < x) (hhalf : l.length = (l.length + r.length) / 2)
    (hlarge : 7 ≤ l.length + r.length) (hfront : front ≠ []) :
    ∃ b p, sort compareTo (front ++ ((l ++ r) ++ back)) front.length
        ((front.length + (l.length + r.length) : Nat) : Int) = .ok (b, p) ∧
      p[l.length + r.length - 1]? =
        some ((front.length + (l.length + r.length - 1) : Nat) : Int) := by
  have hpos : 0 < front.length := length_pos_of_ne_nil hfront
  obtain ⟨n, hn⟩ : ∃ n, n = (front ++ ((l ++ r) ++ back)).length := ⟨_, rfl⟩
  have hlen : front.length + (l.length + r.length) ≤ n := by
    simp only [hn, length_append]
    omega
  have hll := length_tagFrom 0 l
  have hlr := length_tagFrom l.length r
  have hrun := mergeSort_sortedHalves (l.length + r.length) [] [] front back (tagFrom 0 l)
    (tagFrom l.length r) (initPermutation n) (by omega) (by omega) (by omega) (sorted_constant hl)
    (sorted_constant hr)
  obtain ⟨l₀, v, w, r₀, hlast, hfst, hmerge⟩ := mergeHalves_eq compareTo [] []
    (front ++ ((l ++ r) ++ back)) (l := tagFrom 0 l) (r := tagFrom l.length r)
    (initPermutation n) front.length (by omega) (by omega)
  have hgt : ¬compareTo v.1 w.1 ≤ 0 := by
    have hv : v.1 ∈ l := by
      rw [← elements_tagFrom 0 l, hlast]
      simp [elements]
    have hw : w.1 ∈ r := by
      rw [← elements_tagFrom l.length r, hfst]
      simp [elements]
    rw [compareTo_nonpos_iff, hl _ hv, hr _ hw]
    omega
  obtain ⟨b, p₁, hloop, hb₁, huntouched⟩ := mergeLoop_untouched compareTo front l r back hlen
  obtain ⟨p₂, hreset, -, hperm₂, -⟩ :=
    resetReverse_spec (l.length + r.length) front.length p₁ hb₁ (by omega)
  refine ⟨b, (p₂.permutation.drop front.length).take (l.length + r.length), ?_, ?_⟩
  · have hrange : ((front.length + (l.length + r.length) : Nat) : Int) - front.length =
        ((l.length + r.length : Nat) : Int) := by omega
    have haux : ((front ++ ((l ++ r) ++ back)).drop front.length).take (l.length + r.length) =
        l ++ r := by rw [drop_left, ← length_append, take_left]
    rw [if_neg hgt] at hmerge
    simp only [nil_append, append_nil, length_nil, Nat.zero_add, elements_append,
      elements_tagFrom, length_append, hll, hlr, Int.natCast_zero, Int.zero_sub] at hrun hmerge
    rw [hloop, ok_bind] at hmerge
    rw [hreset, ok_bind] at hmerge
    rw [hmerge, ok_bind] at hrun
    rw [sort, if_pos (by simp only [length_append]; omega), hrange, Int.toNat_natCast,
      Int.toNat_natCast, haux, ← hn]
    dsimp only
    rw [hrun, ok_bind]
  · rw [getElem?_take_of_lt (by omega), getElem?_drop, hperm₂,
      huntouched _ (by omega), initPermutation, getElem?_map, List.getElem?_range (by omega)]
    rfl

theorem exists_not_sortsRange {n : Nat} (hle : fromIndex ≤ toIndex) (hn : toIndex ≤ n)
    (hfrom : fromIndex ≠ 0) (hlarge : 7 ≤ toIndex - fromIndex) :
    ∃ a : List Int, a.length = n ∧ ¬SortsRange a fromIndex toIndex := by
  obtain ⟨k, hk⟩ : ∃ k, k = (toIndex - fromIndex) / 2 := ⟨_, rfl⟩
  obtain ⟨front, hfront⟩ : ∃ front : List Int, front.length = fromIndex :=
    ⟨List.replicate fromIndex 0, length_replicate⟩
  obtain ⟨back, hback⟩ : ∃ back : List Int, back.length = n - toIndex :=
    ⟨List.replicate (n - toIndex) 0, length_replicate⟩
  obtain ⟨l, hl, hone⟩ : ∃ l : List Int, l.length = k ∧ ∀ v ∈ l, v = 1 :=
    ⟨List.replicate k 1, length_replicate, fun _ => eq_of_mem_replicate⟩
  obtain ⟨r, hr, hzero⟩ : ∃ r : List Int, r.length = toIndex - fromIndex - k ∧ ∀ v ∈ r, v = 0 :=
    ⟨List.replicate _ 0, length_replicate, fun _ => eq_of_mem_replicate⟩
  subst hfront
  obtain rfl : toIndex = front.length + (l.length + r.length) := by omega
  have hne : front ≠ [] := by
    rintro rfl
    exact hfrom rfl
  refine ⟨front ++ ((l ++ r) ++ back), by simp only [length_append]; omega, ?_⟩
  rintro ⟨b, p, hrun, hsort, hidxs⟩
  obtain ⟨b', p', hrun', hlast⟩ :=
    sort_merged front l r back hone hzero (by decide) (by omega) (by omega) hne
  rw [hrun'] at hrun
  obtain ⟨rfl, rfl⟩ := Prod.mk.inj (Except.ok.inj hrun)
  -- the last element is a zero, and by the permutation it has stayed where it was
  have hget : (front ++ ((l ++ r) ++ back))[front.length + (l.length + r.length - 1)]? =
      some 0 := by
    rw [getElem?_append_right (by omega), getElem?_append_left (by rw [length_append]; omega),
      getElem?_append_right (by omega), getElem?_eq_getElem (by omega), hzero _ (getElem_mem _)]
  obtain ⟨j, hj, hbj⟩ := hidxs.index (l.length + r.length - 1) 0 (by omega) hget
  rw [hlast] at hj
  obtain rfl := Int.ofNat.inj (Option.some.inj hj)
  have hzeroLast : (rangeOf b' front.length (front.length + (l.length + r.length)))[
      l.length + r.length - 1]? = some 0 := by
    rw [rangeOf, getElem?_take_of_lt (by omega), getElem?_drop]
    exact hbj
  -- but a one has to stand there
  obtain ⟨x, hx⟩ : ∃ x, x ∈ l := exists_mem_of_length_pos (by omega)
  have hmem : x ∈ rangeOf b' front.length (front.length + (l.length + r.length)) := by
    have hrange := rangeOf_append front (l ++ r) back
    rw [length_append] at hrange
    rw [hsort.perm.mem_iff, hrange]
    exact mem_append_left _ hx
  obtain ⟨i, hi, hxi⟩ := mem_iff_getElem.mp hmem
  obtain ⟨hlt, hlast⟩ := List.getElem?_eq_some_iff.mp hzeroLast
  have hi' : i ≤ l.length + r.length - 1 := by
    rw [rangeOf, length_take] at hi
    omega
  have hone := hone x hx
  rcases Nat.lt_or_eq_of_le hi' with hbef | rfl
  · have hle := pairwise_iff_getElem.mp hsort.sorted i _ hi hlt hbef
    omega
  · omega

/-- Every range is sorted; the indexes are right if elements are only moved in the array, and for
all contents of the array exactly if the range starts at its beginning or has fewer than seven
elements. -/
theorem sort_sortsRange_iff (n fromIndex toIndex : Nat) (hle : fromIndex ≤ toIndex)
    (hn : toIndex ≤ n) :
    (∀ a : List Int, a.length = n → ∃ b p, sort compareTo a fromIndex toIndex = .ok (b, p) ∧
      RangeSorted a b fromIndex toIndex) ∧
    (∀ a : List Int, a.length = n →
      movesInArray compareTo (toIndex - fromIndex + 1) true (rangeOf a fromIndex toIndex) = true →
      SortsRange a fromIndex toIndex) ∧
    ((∀ a : List Int, a.length = n → SortsRange a fromIndex toIndex) ↔
      fromIndex = 0 ∨ toIndex - fromIndex < 7) := by
  refine ⟨?_, ?_, ?_, ?_⟩
  · rintro a rfl
    exact sort_rangeSorted a hle hn
  · rintro a rfl
    exact sortsRange_of_movesInArray a hle hn
  · intro h
    by_contra hnot
    rw [not_or, Nat.not_lt] at hnot
    obtain ⟨a, ha, hfails⟩ := exists_not_sortsRange hle hn hnot.1 hnot.2
    exact hfails (h a ha)
  · rintro (rfl | hsmall) a rfl
    · exact sortsRange_zero a hn
    · refine sortsRange_of_movesInArray a hle hn ?_
      rw [movesInArray, if_pos (by rw [rangeOf, length_take]; omega), Bool.true_or]

/-- The ranges `[2, 5)` and `[1, 8)` of arrays of eight elements. -/
theorem sort_sortsRange_iff_eight :
    (∀ a : List Int, a.length = 8 → SortsRange a 2 5) ∧
      ¬∀ a : List Int, a.length = 8 → SortsRange a 1 8 :=
  ⟨(sort_sortsRange_iff 8 2 5 (by decide) (by decide)).2.2.mpr (by decide),
    fun h => absurd ((sort_sortsRange_iff 8 1 8 (by decide) (by decide)).2.2.mp h) (by decide)⟩

/-- The element 2 goes from the index 1 to the index 2, but the array that is returned has the index
0 for it, which is not even in the range. -/
theorem sort_shifted : ¬SortsRange [0, 2, 1, 3, 4, 5, 6, 7] 1 8 := by
  rintro ⟨b, p, hrun, -, hindexes⟩
  have hrun' : sort compareTo [0, 2, 1, 3, 4, 5, 6, 7] ((1 : Nat) : Int) ((8 : Nat) : Int) =
      .ok ([0, 1, 2, 3, 4, 5, 6, 7], [0, 2, 3, 4, 5, 6, 7]) := by decide
  obtain ⟨rfl, rfl⟩ := Prod.mk.inj (Except.ok.inj hrun)
  obtain ⟨k, hk, hx⟩ := hindexes.index 0 2 (by decide) rfl
  obtain rfl : 0 = k := Int.ofNat.inj (Option.some.inj hk)
  exact absurd hx (by decide)

end

end OpenJfx.Collections.SortHelper
