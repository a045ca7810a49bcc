import OpenJfx.Java.Arrays
import Mathlib.Data.List.Perm.Basic
import Mathlib.Data.List.Range
import Mathlib.Data.List.Nodup

namespace OpenJfx.Collections.SortHelper

open Java.Arrays

variable {T : Type}

/-- The permutation that the sort performs and its inverse. -/
structure Perms where
  permutation : List Int
  reversePermutation : List Int

/-- The part of `swap` that concerns the permutations. -/
def Perms.swap (p : Perms) (a b : Int) : Outcome Perms := do
  let ra ← load p.reversePermutation a
  let permutation ← store p.permutation ra b
  let rb ← load p.reversePermutation b
  let permutation ← store permutation rb a
  let reversePermutation ← store p.reversePermutation a rb
  let reversePermutation ← store reversePermutation b ra
  .ok ⟨permutation, reversePermutation⟩

def swap (x : List T) (a b : Int) (p : Perms) : Outcome (List T × Perms) := do
  let t ← load x a
  let u ← load x b
  let x ← store x a u
  let x ← store x b t
  let p ← p.swap a b
  .ok (x, p)

def initPermutation (length : Nat) : Perms :=
  ⟨(List.range length).map (Nat.cast : Nat → Int), (List.range length).map (Nat.cast : Nat → Int)⟩

section

variable (compare : T → T → Int)

/-- The inner loop of the insertion sort. -/
def sink (low : Int) : Nat → Int → List T → Perms → Outcome (List T × Perms)
  | 0, _, dest, p => .ok (dest, p)
  | fuel + 1, j, dest, p =>
    if low < j then do
      let x ← load dest (j - 1)
      let y ← load dest j
      if 0 < compare x y then do
        let (dest, p) ← swap dest j (j - 1) p
        sink low fuel (j - 1) dest p
      else .ok (dest, p)
    else .ok (dest, p)

/-- The insertion sort on small ranges, from the index `i` on. -/
def insertionSort (low : Int) : Nat → Int → List T → Perms → Outcome (List T × Perms)
  | 0, _, dest, p => .ok (dest, p)
  | count + 1, i, dest, p => do
    let (dest, p) ← sink compare low (i - low).toNat i dest p
    insertionSort low count (i + 1) dest p

/-- `q >= high || p < mid && compare(src[p], src[q]) <= 0`. -/
def takesLeft (src : List T) (mid high p q : Int) : Outcome Bool :=
  if high ≤ q then .ok true
  else if p < mid then do
    let x ← load src p
    let y ← load src q
    .ok (decide (compare x y ≤ 0))
  else .ok false

/-- One round of the merge: the element at `k` goes to `i`. -/
def moveElement (src : List T) (k i : Int) (dest : List T) (p : Perms) :
    Outcome (List T × Perms) := do
  let x ← load src k
  let dest ← store dest i x
  let r ← load p.reversePermutation k
  let permutation ← store p.permutation r i
  .ok (dest, { p with permutation := permutation })

/-- The loop that merges the two halves of `src` into `dest`. -/
def mergeLoop (src : List T) (mid high : Int) :
    Nat → Int → Int → Int → List T → Perms → Outcome (List T × Perms)
  | 0, _, _, _, dest, perms => .ok (dest, perms)
  | count + 1, i, p, q, dest, perms => do
    if ← takesLeft compare src mid high p q then do
      let (dest, perms) ← moveElement src p i dest perms
      mergeLoop src mid high count (i + 1) (p + 1) q dest perms
    else do
      let (dest, perms) ← moveElement src q i dest perms
      mergeLoop src mid high count (i + 1) p (q + 1) dest perms

/-- `for (i ...) reversePermutation[permutation[i]] = i`. -/
def resetReverse : Nat → Int → Perms → Outcome Perms
  | 0, _, p => .ok p
  | count + 1, i, p => do
    let k ← load p.permutation i
    let reversePermutation ← store p.reversePermutation k i
    resetReverse count (i + 1) { p with reversePermutation := reversePermutation }

def mergeHalves (src dest : List T) (p : Perms) (destLow low mid high : Int) :
    Outcome (List T × Perms) := do
  let x ← load src (mid - 1)
  let y ← load src mid
  if compare x y ≤ 0 then do
    let dest ← arraycopy src low dest destLow (high - low)
    .ok (dest, p)
  else do
    let (dest, p) ← mergeLoop compare src mid high (high - low).toNat destLow low mid dest p
    let p ← resetReverse (high - low).toNat destLow p
    .ok (dest, p)

def mergeSort : Nat → List T → List T → Perms → Int → Int → Int →
    Outcome (List T × List T × Perms)
  | 0, _, _, _, _, _, _ => .error (.illegalState "out of fuel")
  | fuel + 1, src, dest, p, low, high, off =>
    if high - low < 7 then do
      let (dest, p) ← insertionSort compare low (high - low).toNat low dest p
      .ok (src, dest, p)
    else do
      let mid := (low + off + (high + off)) / 2
      let (dest, src, p) ← mergeSort fuel dest src p (low + off) mid (-off)
      let (dest, src, p) ← mergeSort fuel dest src p mid (high + off) (-off)
      let (dest, p) ← mergeHalves compare src dest p low (low + off) mid (high + off)
      .ok (src, dest, p)

/-- `sort(a, fromIndex, toIndex)`: the sorted array and the permutation of the range.
Halving the range takes fewer rounds than it has elements. -/
def sort (a : List T) (fromIndex toIndex : Int) : Outcome (List T × List Int) :=
  if fromIndex ≤ toIndex ∧ 0 ≤ fromIndex ∧ toIndex ≤ a.length then do
    let aux := (a.drop fromIndex.toNat).take (toIndex - fromIndex).toNat
    let (_, a, p) ← mergeSort compare ((toIndex - fromIndex).toNat + 1) aux a
      (initPermutation a.length) fromIndex toIndex (-fromIndex)
    .ok (a, (p.permutation.drop fromIndex.toNat).take (toIndex - fromIndex).toNat)
  else .error .indexOutOfBounds

end

/-- A comparator that orders all values, some of which may be of equal rank. -/
structure TotalPreorder (compare : T → T → Int) : Prop where
  flip : ∀ x y, compare x y < 0 ↔ 0 < compare y x
  trans : ∀ x y z, compare x y ≤ 0 → compare y z ≤ 0 → compare x z ≤ 0

def compareTo (x y : Int) : Int := if x < y then -1 else if x = y then 0 else 1

theorem totalPreorder_compareTo : TotalPreorder compareTo := by
  constructor
  · intro x y
    simp only [compareTo]
    grind
  · intro x y z
    simp only [compareTo]
    grind

end OpenJfx.Collections.SortHelper

namespace OpenJfx.Collections.SortHelper

open Java.Arrays List

variable {T : Type}

/-- The elements of a range with the indexes they come from. -/
abbrev Tagged (T : Type) := List (T × Nat)

def elements (z : Tagged T) : List T := z.map Prod.fst

def tags (z : Tagged T) : List Nat := z.map Prod.snd

/-- Both arrays have `n` entries, which are indexes themselves. -/
structure Perms.Bounded (n : Nat) (p : Perms) : Prop where
  length_permutation : p.permutation.length = n
  length_reverse : p.reversePermutation.length = n
  mem_permutation : ∀ k ∈ p.permutation, 0 ≤ k ∧ k < n
  mem_reverse : ∀ k ∈ p.reversePermutation, 0 ≤ k ∧ k < n

/-- The element at `low + j` comes from its tag, and the tag leads to it. -/
def Perms.Tracked (low : Nat) (z : Tagged T) (p : Perms) : Prop :=
  ∀ j x, z[j]? = some x → p.reversePermutation[low + j]? = some (x.2 : Int) ∧
    p.permutation[x.2]? = some ((low + j : Nat) : Int)

def Perms.Frames (low : Nat) (z : Tagged T) (p p' : Perms) : Prop :=
  (∀ i ∉ tags z, p'.permutation[i]? = p.permutation[i]?) ∧
    ∀ j, j < low ∨ low + z.length ≤ j → p'.reversePermutation[j]? = p.reversePermutation[j]?

variable {low : Nat} {z : Tagged T} {p p₁ p₂ : Perms}

theorem Perms.Frames.trans {z' : Tagged T} (h₁ : p.Frames low z p₁) (hperm : z'.Perm z)
    (h₂ : p₁.Frames low z' p₂) :
    p.Frames low z p₂ := by
  constructor
  · intro i hi
    rw [h₂.1 i fun hmem => hi ((hperm.map Prod.snd).mem_iff.mp hmem), h₁.1 i hi]
  · intro j hj
    rw [h₂.2 j (by rw [hperm.length_eq]; exact hj), h₁.2 j hj]

/-- How the permutations follow a rearrangement of a range. -/
structure Perms.Moves (n low : Nat) (z z' : Tagged T) (p p' : Perms) : Prop where
  bounded : p'.Bounded n
  tracked : p.Tracked low z → p'.Tracked low z' ∧ p.Frames low z p'

variable {n : Nat}

theorem Perms.Moves.trans {z₁ z₂ : Tagged T} (h₁ : p.Moves n low z z₁ p₁)
    (h₂ : p₁.Moves n low z₁ z₂ p₂) (hperm : z₁.Perm z) :
    p.Moves n low z z₂ p₂ := by
  refine ⟨h₂.bounded, ?_⟩
  intro htracked
  obtain ⟨htracked₁, hframes₁⟩ := h₁.tracked htracked
  obtain ⟨htracked₂, hframes₂⟩ := h₂.tracked htracked₁
  exact ⟨htracked₂, hframes₁.trans hperm hframes₂⟩

theorem Perms.Moves.refl (h : p.Bounded n) :
    p.Moves n low z z p :=
  ⟨h, fun htracked => ⟨htracked, fun _ _ => rfl, fun _ _ => rfl⟩⟩

theorem Perms.Bounded.load_reverse (h : p.Bounded n) {j : Nat} (hj : j < n) :
    ∃ k : Nat, k < n ∧ p.reversePermutation[j]? = some (k : Int) := by
  have hlt : j < p.reversePermutation.length := by rw [h.length_reverse]; exact hj
  obtain ⟨hk₀, hk⟩ := h.mem_reverse _ (getElem_mem hlt)
  refine ⟨(p.reversePermutation[j]).toNat, by omega, ?_⟩
  rw [getElem?_eq_getElem hlt, Int.toNat_of_nonneg hk₀]

theorem Perms.Bounded.load_permutation (h : p.Bounded n) {j : Nat} (hj : j < n) :
    ∃ k : Nat, k < n ∧ p.permutation[j]? = some (k : Int) := by
  have hlt : j < p.permutation.length := by rw [h.length_permutation]; exact hj
  obtain ⟨hk₀, hk⟩ := h.mem_permutation _ (getElem_mem hlt)
  refine ⟨(p.permutation[j]).toNat, by omega, ?_⟩
  rw [getElem?_eq_getElem hlt, Int.toNat_of_nonneg hk₀]

theorem mem_set_bounded {l : List Int} (h : ∀ k ∈ l, 0 ≤ k ∧ k < n) (i : Nat) {v : Nat}
    (hv : v < n) : ∀ k ∈ l.set i (v : Int), 0 ≤ k ∧ k < n := by
  intro k hk
  rcases mem_or_eq_of_mem_set hk with hk | rfl
  · exact h k hk
  · omega

theorem Perms.swap_spec (h : p.Bounded n) {a b : Nat} (ha : a < n) (hb : b < n) :
    ∃ ra rb : Nat, ra < n ∧ rb < n ∧ p.reversePermutation[a]? = some (ra : Int) ∧
      p.reversePermutation[b]? = some (rb : Int) ∧
      p.swap a b = .ok ⟨(p.permutation.set ra b).set rb a,
        (p.reversePermutation.set a rb).set b ra⟩ := by
  obtain ⟨ra, hra, hloada⟩ := h.load_reverse ha
  obtain ⟨rb, hrb, hloadb⟩ := h.load_reverse hb
  refine ⟨ra, rb, hra, hrb, hloada, hloadb, ?_⟩
  have hlen := h.length_permutation
  have hlen' := h.length_reverse
  rw [Perms.swap, load_eq_ok hloada, ok_bind, store_eq_set _ (by omega), ok_bind,
    load_eq_ok hloadb, ok_bind, store_eq_set _ (by rw [length_set]; omega), ok_bind,
    store_eq_set _ (by omega), ok_bind, store_eq_set _ (by rw [length_set]; omega), ok_bind]

theorem Perms.Tracked.inj (h : p.Tracked low z) {j k : Nat} {x y : T × Nat} (hx : z[j]? = some x)
    (hy : z[k]? = some y) (htag : x.2 = y.2) : j = k := by
  have hj := (h j x hx).2
  have hk := (h k y hy).2
  rw [htag, hk] at hj
  have := Option.some.inj hj
  omega

theorem mem_tags_of_getElem? {j : Nat} {x : T × Nat} (h : z[j]? = some x) :
    x.2 ∈ tags z :=
  mem_map_of_mem (mem_of_getElem? h)

theorem getElem?_exchange {α : Type} (pre rest : List α) (y x : α) {j : Nat} (hj : j ≠ pre.length)
    (hj' : j ≠ pre.length + 1) : (pre ++ y :: x :: rest)[j]? = (pre ++ x :: y :: rest)[j]? := by
  rcases Nat.lt_or_ge j pre.length with hlt | hge
  · rw [getElem?_append_left hlt, getElem?_append_left hlt]
  · rw [getElem?_append_right hge, getElem?_append_right hge]
    obtain ⟨k, hk⟩ : ∃ k, j - pre.length = k + 2 := ⟨j - pre.length - 2, by omega⟩
    rw [hk]
    rfl

theorem Perms.swap_moves (h : p.Bounded n) (pre rest : Tagged T) (y x : T × Nat)
    (hn : low + pre.length + 1 < n) :
    ∃ p', p.swap ((low + pre.length + 1 : Nat) : Int) ((low + pre.length : Nat) : Int) = .ok p' ∧
      p.Moves n low (pre ++ y :: x :: rest) (pre ++ x :: y :: rest) p' := by
  obtain ⟨ra, rb, hra, hrb, hloada, hloadb, hswap⟩ :=
    Perms.swap_spec h (a := low + pre.length + 1) (b := low + pre.length) hn (by omega)
  refine ⟨_, hswap, ⟨?_, ?_, ?_, ?_⟩, ?_⟩
  · simp [h.length_permutation]
  · simp [h.length_reverse]
  · exact mem_set_bounded (mem_set_bounded h.mem_permutation _ (by omega)) _ (by omega)
  · exact mem_set_bounded (mem_set_bounded h.mem_reverse _ hrb) _ hra
  · intro htracked
    have hy : (pre ++ y :: x :: rest)[pre.length]? = some y := by simp
    have hx : (pre ++ y :: x :: rest)[pre.length + 1]? = some x := by
      simp
    obtain rfl : rb = y.2 := by
      have := (htracked _ _ hy).1
      rw [hloadb] at this
      exact Int.ofNat.inj (Option.some.inj this)
    obtain rfl : ra = x.2 := by
      have := (htracked _ _ hx).1
      rw [← Nat.add_assoc, hloada] at this
      exact Int.ofNat.inj (Option.some.inj this)
    have hxy : x.2 ≠ y.2 := fun htag => by
      have := htracked.inj hx hy htag
      omega
    have hlenp := h.length_permutation
    have hlenr := h.length_reverse
    refine ⟨?_, ?_, ?_⟩
    · intro j w hw
      by_cases hj : j = pre.length
      · obtain rfl : w = x := by simpa [hj] using hw.symm
        subst hj
        rw [getElem?_set_self (by rw [length_set]; omega),
          getElem?_set_ne hxy.symm, getElem?_set_self (by omega)]
        exact ⟨rfl, rfl⟩
      by_cases hj' : j = pre.length + 1
      · subst hj'
        obtain rfl : w = y := by
          simpa using hw.symm
        rw [← Nat.add_assoc, getElem?_set_ne (by omega), getElem?_set_self (by omega),
          getElem?_set_self (by rw [length_set]; omega)]
        exact ⟨rfl, rfl⟩
      have hw' : (pre ++ y :: x :: rest)[j]? = some w := by
        rw [← hw]
        exact getElem?_exchange pre rest y x hj hj'
      have hne₁ : y.2 ≠ w.2 := fun htag => hj (htracked.inj hy hw' htag).symm
      have hne₂ : x.2 ≠ w.2 := fun htag => hj' (htracked.inj hx hw' htag).symm
      obtain ⟨hr, hp⟩ := htracked j w hw'
      rw [getElem?_set_ne (by omega), getElem?_set_ne (by omega),
        getElem?_set_ne hne₁, getElem?_set_ne hne₂]
      exact ⟨hr, hp⟩
    · intro i hi
      have hne₁ : y.2 ≠ i := fun heq => hi (heq ▸ mem_tags_of_getElem? hy)
      have hne₂ : x.2 ≠ i := fun heq => hi (heq ▸ mem_tags_of_getElem? hx)
      rw [getElem?_set_ne hne₁, getElem?_set_ne hne₂]
    · intro j hj
      simp only [length_append, length_cons] at hj
      rw [getElem?_set_ne (by omega), getElem?_set_ne (by omega)]

section

variable {compare : T → T → Int}

def Sorted (compare : T → T → Int) (z : Tagged T) : Prop :=
  z.Pairwise fun x y => compare x.1 y.1 ≤ 0

/-- In the order of the comparator, and by the tags where this makes no difference. -/
def Before (compare : T → T → Int) (x y : T × Nat) : Prop :=
  compare x.1 y.1 < 0 ∨ compare x.1 y.1 ≤ 0 ∧ x.2 < y.2

/-- Elements of equal rank are in the order of their tags. -/
def Stable (compare : T → T → Int) (z : Tagged T) : Prop := z.Pairwise (Before compare)

theorem TotalPreorder.lt_of_lt_of_le (hcmp : TotalPreorder compare) {x y z : T}
    (hxy : compare x y < 0) (hyz : compare y z ≤ 0) : compare x z < 0 := by
  rw [hcmp.flip]
  by_contra hzx
  have hyx := hcmp.trans y z x hyz (Int.not_lt.mp hzx)
  have := (hcmp.flip x y).mp hxy
  omega

theorem TotalPreorder.lt_of_le_of_lt (hcmp : TotalPreorder compare) {x y z : T}
    (hxy : compare x y ≤ 0) (hyz : compare y z < 0) : compare x z < 0 := by
  rw [hcmp.flip]
  by_contra hzx
  have hzy := hcmp.trans z x y (Int.not_lt.mp hzx) hxy
  have := (hcmp.flip y z).mp hyz
  omega

theorem Before.le {x y : T × Nat} (h : Before compare x y) : compare x.1 y.1 ≤ 0 :=
  h.elim Int.le_of_lt And.left

theorem Before.trans (hcmp : TotalPreorder compare) {x y z : T × Nat}
    (hxy : Before compare x y) (hyz : Before compare y z) : Before compare x z := by
  rcases hxy with hxy | ⟨hxy, htag⟩
  · exact .inl (hcmp.lt_of_lt_of_le hxy hyz.le)
  · rcases hyz with hyz | ⟨hyz, htag'⟩
    · exact .inl (hcmp.lt_of_le_of_lt hxy hyz)
    · exact .inr ⟨hcmp.trans _ _ _ hxy hyz, htag.trans htag'⟩

theorem load_elements (front back : List T) (pre rest : Tagged T) (x : T × Nat) {i : Nat}
    (hi : i = front.length + pre.length) :
    load (front ++ elements (pre ++ x :: rest) ++ back) (i : Int) = .ok x.1 := by
  have := load_append (front ++ elements pre) (elements rest ++ back) x.1
  rw [hi]
  simpa [elements] using this

theorem swap_spec {n : Nat} {p : Perms} (h : p.Bounded n) (front back : List T)
    (pre rest : Tagged T) (y x : T × Nat) (hn : front.length + pre.length + 1 < n) :
    ∃ p', swap (front ++ elements (pre ++ y :: x :: rest) ++ back)
        ((front.length + pre.length + 1 : Nat) : Int) ((front.length + pre.length : Nat) : Int) p =
        .ok (front ++ elements (pre ++ x :: y :: rest) ++ back, p') ∧
      p.Moves n front.length (pre ++ y :: x :: rest) (pre ++ x :: y :: rest) p' := by
  obtain ⟨p', hswap, hmoves⟩ := Perms.swap_moves h pre rest y x hn
  refine ⟨p', ?_, hmoves⟩
  have hx := load_elements front back (pre ++ [y]) rest x
    (i := front.length + pre.length + 1) (by simp; omega)
  have hy := load_elements front back pre (x :: rest) y (i := front.length + pre.length) rfl
  have hstore₁ := store_append (front ++ elements pre ++ [y.1]) (elements rest ++ back) x.1 y.1
  have hstore₂ := store_append (front ++ elements pre) (y.1 :: elements rest ++ back) y.1 x.1
  have hlen₁ : (((front ++ elements pre ++ [y.1]).length : Nat) : Int) =
      ((front.length + pre.length + 1 : Nat) : Int) := by
    simp [elements]
    omega
  have hlen₂ : (((front ++ elements pre).length : Nat) : Int) =
      ((front.length + pre.length : Nat) : Int) := by simp [elements]
  rw [hlen₁] at hstore₁
  rw [hlen₂] at hstore₂
  simp only [elements, map_append, map_cons, append_assoc, cons_append,
    nil_append] at hx hy hstore₁ hstore₂ ⊢
  rw [swap, hx, ok_bind, hy, ok_bind, hstore₁, ok_bind, hstore₂, ok_bind, hswap, ok_bind]

theorem sink_spec (hcmp : TotalPreorder compare) {n : Nat} (front back : List T)
    (x : T × Nat) (pre : Tagged T) :
    ∀ (rest : Tagged T) (p : Perms), p.Bounded n → front.length + pre.length < n →
      Sorted compare pre →
      ∃ pre' p', sink compare front.length pre.length ((front.length + pre.length : Nat) : Int)
          (front ++ elements (pre ++ x :: rest) ++ back) p =
          .ok (front ++ elements (pre' ++ rest) ++ back, p') ∧
        pre'.Perm (pre ++ [x]) ∧ Sorted compare pre' ∧
        p.Moves n front.length (pre ++ x :: rest) (pre' ++ rest) p' ∧
        (Stable compare pre → (∀ w ∈ pre, w.2 < x.2) → Stable compare pre') := by
  induction pre using List.reverseRecOn with
  | nil =>
    intro rest p hp _ _
    exact ⟨[x], p, rfl, .refl _, pairwise_singleton _ _, .refl hp,
      fun _ _ => pairwise_singleton _ _⟩
  | append_singleton pre y ih =>
    intro rest p hp hn hsort
    rw [length_append, length_singleton] at hn ⊢
    have hpos : ((front.length + (pre.length + 1) : Nat) : Int) - 1 =
        ((front.length + pre.length : Nat) : Int) := by omega
    have hy := load_elements front back pre (x :: rest) y (i := front.length + pre.length) rfl
    have hx := load_elements front back (pre ++ [y]) rest x
      (i := front.length + (pre.length + 1)) (by simp)
    have hassoc : (pre ++ [y]) ++ x :: rest = pre ++ y :: x :: rest := by simp
    rw [hassoc] at hx ⊢
    obtain ⟨hpre, -, hall⟩ := pairwise_append.mp hsort
    rw [sink, if_pos (by omega), hpos, hy, ok_bind, hx, ok_bind]
    by_cases hgt : 0 < compare y.1 x.1
    · obtain ⟨p₁, hswap, hmoves₁⟩ := swap_spec hp front back pre rest y x (by omega)
      obtain ⟨pre', p₂, hsink, hperm, hsort', hmoves₂, hstable'⟩ :=
        ih (y :: rest) p₁ hmoves₁.bounded (by omega) hpre
      have hlt : compare x.1 y.1 < 0 := (hcmp.flip _ _).mpr hgt
      have hexchange : (pre ++ x :: y :: rest).Perm (pre ++ y :: x :: rest) :=
        (List.Perm.swap y x rest).append_left pre
      refine ⟨pre' ++ [y], p₂, ?_, ?_, ?_, ?_, ?_⟩
      · rw [if_pos hgt, ← Nat.add_assoc, hswap, ok_bind]
        simpa using hsink
      · refine (hperm.append_right [y]).trans ?_
        simpa using (List.Perm.swap y x []).append_left pre
      · refine pairwise_append.mpr ⟨hsort', pairwise_singleton _ _, ?_⟩
        intro w hw v hv
        obtain rfl := mem_singleton.mp hv
        rcases mem_append.mp (hperm.mem_iff.mp hw) with hw | hw
        · exact hall w hw v (by simp)
        · obtain rfl := mem_singleton.mp hw
          exact Int.le_of_lt hlt
      · simpa using hmoves₁.trans hmoves₂ hexchange
      · intro hstable htags
        obtain ⟨hstable₁, -, hall₁⟩ := pairwise_append.mp hstable
        have htags₁ : ∀ w ∈ pre, w.2 < x.2 := fun w hw => htags w (mem_append_left _ hw)
        refine pairwise_append.mpr
          ⟨hstable' hstable₁ htags₁, pairwise_singleton _ _, ?_⟩
        intro w hw v hv
        obtain rfl := mem_singleton.mp hv
        rcases mem_append.mp (hperm.mem_iff.mp hw) with hw | hw
        · exact hall₁ w hw v (by simp)
        · obtain rfl := mem_singleton.mp hw
          exact .inl hlt
    · rw [if_neg hgt]
      have hyx : compare y.1 x.1 ≤ 0 := Int.not_lt.mp hgt
      have hsplit : pre ++ [y, x] = (pre ++ [y]) ++ [x] := by simp
      have hallx : ∀ w ∈ pre ++ [y], compare w.1 x.1 ≤ 0 := by
        intro w hw
        rcases mem_append.mp hw with hw | hw
        · exact hcmp.trans _ _ _ (hall w hw y (by simp)) hyx
        · obtain rfl := mem_singleton.mp hw
          exact hyx
      refine ⟨pre ++ [y, x], p, by simp, by simp, ?_, by simpa using Perms.Moves.refl hp, ?_⟩
      · rw [hsplit]
        refine pairwise_append.mpr ⟨hsort, pairwise_singleton _ _, ?_⟩
        intro w hw v hv
        obtain rfl := mem_singleton.mp hv
        exact hallx w hw
      · intro hstable htags
        rw [hsplit]
        refine pairwise_append.mpr ⟨hstable, pairwise_singleton _ _, ?_⟩
        intro w hw v hv
        obtain rfl := mem_singleton.mp hv
        exact .inr ⟨hallx w hw, htags w hw⟩

theorem insertionSort_spec (hcmp : TotalPreorder compare) {n : Nat} (front back : List T)
    (todo : Tagged T) :
    ∀ (pre : Tagged T) (p : Perms), p.Bounded n → front.length + pre.length + todo.length ≤ n →
      Sorted compare pre →
      ∃ z p', insertionSort compare front.length todo.length
          ((front.length + pre.length : Nat) : Int) (front ++ elements (pre ++ todo) ++ back) p =
          .ok (front ++ elements z ++ back, p') ∧
        z.Perm (pre ++ todo) ∧ Sorted compare z ∧ p.Moves n front.length (pre ++ todo) z p' ∧
        (Stable compare pre → (∀ w ∈ pre, ∀ v ∈ todo, w.2 < v.2) →
          todo.Pairwise (fun w v => w.2 < v.2) → Stable compare z) := by
  induction todo with
  | nil =>
    intro pre p hp _ hsort
    exact ⟨pre, p, by simp [insertionSort], by simp, hsort, by simpa using Perms.Moves.refl hp,
      fun hstable _ _ => hstable⟩
  | cons x todo ih =>
    intro pre p hp hn hsort
    rw [length_cons] at hn ⊢
    obtain ⟨pre', p₁, hsink, hperm, hsort', hmoves₁, hstable₁⟩ :=
      sink_spec hcmp front back x pre todo p hp (by omega) hsort
    have hlen : pre'.length = pre.length + 1 := by simpa using hperm.length_eq
    obtain ⟨z, p₂, hrun, hz, hsort'', hmoves₂, hstable₂⟩ :=
      ih pre' p₁ hmoves₁.bounded (by omega) hsort'
    have hall : (pre' ++ todo).Perm (pre ++ x :: todo) := by
      simpa using hperm.append_right todo
    refine ⟨z, p₂, ?_, hz.trans hall, hsort'', hmoves₁.trans hmoves₂ hall, ?_⟩
    · have hfuel : (((front.length + pre.length : Nat) : Int) - front.length).toNat =
          pre.length := by omega
      have hnext : ((front.length + pre.length : Nat) : Int) + 1 =
          ((front.length + pre'.length : Nat) : Int) := by omega
      rw [insertionSort, hfuel, hsink, ok_bind]
      simp only
      rw [hnext, hrun]
    · intro hstable htags htodo
      obtain ⟨hx, htodo'⟩ := pairwise_cons.mp htodo
      refine hstable₂ (hstable₁ hstable fun w hw => htags w hw x (by simp)) ?_ htodo'
      intro w hw v hv
      rcases mem_append.mp (hperm.mem_iff.mp hw) with hw | hw
      · exact htags w hw v (mem_cons_of_mem x hv)
      · obtain rfl := mem_singleton.mp hw
        exact hx v hv

end

end OpenJfx.Collections.SortHelper
