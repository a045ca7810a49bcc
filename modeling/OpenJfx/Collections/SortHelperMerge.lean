import OpenJfx.Collections.SortHelper

namespace OpenJfx.Collections.SortHelper

open Java.Arrays List

variable {T : Type} {compare : T → T → Int}

def precedes (compare : T → T → Int) (x y : T × Nat) : Bool := decide (compare x.1 y.1 ≤ 0)

def mergeTagged (compare : T → T → Int) (l r : Tagged T) : Tagged T :=
  l.merge r (precedes compare)

variable {l r : Tagged T}

theorem sorted_mergeTagged (hcmp : TotalPreorder compare) (hl : Sorted compare l)
    (hr : Sorted compare r) : Sorted compare (mergeTagged compare l r) := by
  have htotal : ∀ x y, (precedes compare x y || precedes compare y x) = true := by
    intro x y
    rw [precedes, precedes, Bool.or_eq_true, decide_eq_true_iff, decide_eq_true_iff]
    rcases Int.lt_or_le 0 (compare x.1 y.1) with hgt | hle
    · exact Or.inr (Int.le_of_lt ((hcmp.flip _ _).mpr hgt))
    · exact Or.inl hle
  have htrans : ∀ x y z, precedes compare x y = true → precedes compare y z = true →
      precedes compare x z = true := by
    intro x y z hxy hyz
    exact decide_eq_true
      (hcmp.trans _ _ _ (of_decide_eq_true hxy) (of_decide_eq_true hyz))
  have hmerge := pairwise_merge htrans htotal l r
    (hl.imp fun h => decide_eq_true h) (hr.imp fun h => decide_eq_true h)
  exact hmerge.imp fun h => of_decide_eq_true h

theorem stable_mergeTagged (hcmp : TotalPreorder compare) (hl : Stable compare l)
    (hr : Stable compare r) (htags : ∀ w ∈ l, ∀ v ∈ r, w.2 < v.2) :
    Stable compare (mergeTagged compare l r) := by
  induction l generalizing r with
  | nil => simpa [mergeTagged] using hr
  | cons x l ihl =>
    induction r with
    | nil => simpa [mergeTagged] using hl
    | cons y r ihr =>
      obtain ⟨hx, hl'⟩ := pairwise_cons.mp hl
      obtain ⟨hy, hr'⟩ := pairwise_cons.mp hr
      rw [mergeTagged, cons_merge_cons, precedes]
      by_cases hle : compare x.1 y.1 ≤ 0
      · rw [if_pos (decide_eq_true hle)]
        have hxy : Before compare x y := .inr ⟨hle, htags x (by simp) y (by simp)⟩
        refine pairwise_cons.mpr ⟨?_, ihl hl' hr fun w hw => htags w (by simp [hw])⟩
        intro v hv
        rcases mem_append.mp ((merge_perm_append _).mem_iff.mp hv) with hv | hv
        · exact hx v hv
        · rcases mem_cons.mp hv with rfl | hv
          · exact hxy
          · exact hxy.trans hcmp (hy v hv)
      · rw [if_neg (by simpa using hle)]
        have hyx : Before compare y x := .inl ((hcmp.flip _ _).mpr (Int.not_le.mp hle))
        refine pairwise_cons.mpr
          ⟨?_, ihr hr' fun w hw v hv => htags w hw v (mem_cons_of_mem y hv)⟩
        intro v hv
        rcases mem_append.mp ((merge_perm_append _).mem_iff.mp hv) with hv | hv
        · rcases mem_cons.mp hv with rfl | hv
          · exact hyx
          · exact hyx.trans hcmp (hx v hv)
        · exact hy v hv

/-- The array shows the elements from the index `start` on. -/
def Shows (src : List T) (start : Nat) (l : Tagged T) : Prop :=
  ∀ j x, l[j]? = some x → src[start + j]? = some x.1

def ShowsTags (p : Perms) (start : Nat) (l : Tagged T) : Prop :=
  ∀ j x, l[j]? = some x → p.reversePermutation[start + j]? = some (x.2 : Int)

variable {src : List T} {x : T × Nat}

theorem Shows.tail {start : Nat} (h : Shows src start (x :: l)) : Shows src (start + 1) l := by
  intro j y hy
  rw [Nat.add_assoc, Nat.add_comm 1 j]
  exact h (j + 1) y hy

variable {p : Perms}

theorem ShowsTags.tail {start : Nat} (h : ShowsTags p start (x :: l)) :
    ShowsTags p (start + 1) l := by
  intro j y hy
  rw [Nat.add_assoc, Nat.add_comm 1 j]
  exact h (j + 1) y hy

variable {n k : Nat}

theorem moveElement_spec (h : p.Bounded n) (front rest : List T) (old : T)
    (hsrc : Shows src k (x :: l)) (hk : k < n) (hn : front.length < n) :
    ∃ p', moveElement src k front.length (front ++ old :: rest) p =
        .ok (front ++ x.1 :: rest, p') ∧ p'.Bounded n ∧
      p'.reversePermutation = p.reversePermutation ∧
      (ShowsTags p k (x :: l) → p'.permutation = p.permutation.set x.2 front.length) := by
  obtain ⟨r, hr, hload⟩ := h.load_reverse hk
  have hlen := h.length_permutation
  refine ⟨{ p with permutation := p.permutation.set r front.length }, ?_, ⟨?_, ?_, ?_, ?_⟩, rfl, ?_⟩
  · rw [moveElement, load_eq_ok (by simpa using hsrc 0 x rfl), ok_bind, store_append, ok_bind,
      load_eq_ok hload, ok_bind, store_eq_set _ (by omega), ok_bind]
  · simpa using hlen
  · exact h.length_reverse
  · exact mem_set_bounded h.mem_permutation _ hn
  · exact h.mem_reverse
  · intro htags
    have hx : p.reversePermutation[k]? = some (x.2 : Int) := by simpa using htags 0 x rfl
    rw [hload] at hx
    obtain rfl : r = x.2 := Int.ofNat.inj (Option.some.inj hx)
    rfl

/-- What the loop of the merge leaves in the permutation. -/
def Perms.Placed (start : Nat) (m : Tagged T) (p p' : Perms) : Prop :=
  (∀ j x, m[j]? = some x → p'.permutation[x.2]? = some ((start + j : Nat) : Int)) ∧
    ∀ i ∉ tags m, p'.permutation[i]? = p.permutation[i]?

variable {m : Tagged T} {p₁ p₂ : Perms}

theorem Perms.Placed.cons {start : Nat} (hbounded : p.Bounded n) (hx : x.2 < n)
    (hnd : (tags (x :: m)).Nodup) (h₁ : p₁.permutation = p.permutation.set x.2 start)
    (h₂ : p₁.Placed (start + 1) m p₂) :
    p.Placed start (x :: m) p₂ := by
  have hlen := hbounded.length_permutation
  obtain ⟨hnot, -⟩ := nodup_cons.mp hnd
  constructor
  · intro j y hy
    cases j with
    | zero =>
      obtain rfl : x = y := by simpa using hy
      rw [h₂.2 _ hnot, h₁, getElem?_set_self (by omega)]
      rfl
    | succ j =>
      have := h₂.1 j y hy
      rw [this]
      congr 2
      omega
  · intro i hi
    rw [tags, map_cons, mem_cons, not_or] at hi
    rw [h₂.2 i hi.2, h₁, getElem?_set_ne (Ne.symm hi.1)]

/-- The loop has written `m` after `front`; where `tracked` holds, the permutation follows. -/
def Merges (n : Nat) (front back : List T) (m : Tagged T) (p : Perms) (tracked : Prop)
    (outcome : Outcome (List T × Perms)) : Prop :=
  ∃ p', outcome = .ok (front ++ (elements m ++ back), p') ∧ p'.Bounded n ∧
    p'.reversePermutation = p.reversePermutation ∧ (tracked → p.Placed front.length m p')

theorem Merges.cons {front back gap : List T} {old : T} {rest : Tagged T} {tracked : Prop}
    {next : List T → Perms → Outcome (List T × Perms)} (hp : p.Bounded n)
    (hsrc : Shows src k (x :: rest)) (hk : k < n) (hn : front.length < n)
    (htracked : tracked → ShowsTags p k (x :: rest) ∧ x.2 < n ∧ (tags (x :: m)).Nodup)
    (hnext : ∀ p₁, p₁.Bounded n → p₁.reversePermutation = p.reversePermutation →
      Merges n (front ++ [x.1]) back m p₁ tracked (next (front ++ [x.1] ++ (gap ++ back)) p₁)) :
    Merges n front back (x :: m) p tracked
      (moveElement src k front.length (front ++ (old :: gap ++ back)) p >>=
        fun moved => next moved.1 moved.2) := by
  obtain ⟨p₁, hmove, hb₁, hrev₁, hset⟩ := moveElement_spec hp front (gap ++ back) old hsrc hk hn
  obtain ⟨p₂, hrun, hb₂, hrev₂, hplaced⟩ := hnext p₁ hb₁ hrev₁
  refine ⟨p₂, ?_, hb₂, hrev₂.trans hrev₁, ?_⟩
  · rw [cons_append, hmove, ok_bind]
    simpa [elements] using hrun
  · intro ht
    obtain ⟨htags, hx, hnd⟩ := htracked ht
    have hplaced := hplaced ht
    rw [length_append] at hplaced
    exact Perms.Placed.cons hp hx hnd (hset htags) hplaced

/-- The tags of both halves are shown, distinct and in range. -/
structure Halves (n : Nat) (p : Perms) (start start' : Nat) (l r : Tagged T) : Prop where
  left : ShowsTags p start l
  right : ShowsTags p start' r
  lt : ∀ x ∈ l ++ r, x.2 < n
  nodup : (tags (l ++ r)).Nodup

theorem mergeLoop_spec (compare : T → T → Int) (mid high : Nat) (src back : List T) (hmid : mid ≤ n)
    (hhigh : high ≤ n) (tracked : Prop) (gap : List T) :
    ∀ (l r : Tagged T) (front : List T) (p q : Nat) (perms : Perms), perms.Bounded n →
      l.length + r.length = gap.length → p + l.length = mid → q + r.length = high →
      front.length + gap.length ≤ n → Shows src p l → Shows src q r →
      (tracked → Halves n perms p q l r) →
      Merges n front back (mergeTagged compare l r) perms tracked
        (mergeLoop compare src mid high gap.length front.length p q (front ++ (gap ++ back))
          perms) := by
  induction gap with
  | nil =>
    intro l r front p q perms hp hlen _ _ _ _ _ _
    rw [length_nil] at hlen
    obtain rfl : l = [] := length_eq_zero_iff.mp (by omega)
    obtain rfl : r = [] := length_eq_zero_iff.mp (by omega)
    refine ⟨perms, ?_, hp, rfl, fun _ => ⟨by simp [mergeTagged], fun _ _ => rfl⟩⟩
    simp [mergeLoop, mergeTagged, elements]
  | cons old gap ih =>
    intro l r front p q perms hp hlen hl hr hn hsl hsr hhalves
    rw [length_cons] at hlen hn ⊢
    rw [mergeLoop]
    -- the next element comes from the left half
    have hleft : ∀ x l', l = x :: l' → Merges n front back
        (x :: mergeTagged compare l' r) perms tracked
        (moveElement src p front.length (front ++ (old :: gap ++ back)) perms >>= fun moved =>
          mergeLoop compare src mid high gap.length (front.length + 1) (p + 1) q moved.1
            moved.2) := by
      rintro x l' rfl
      rw [length_cons] at hlen hl
      refine Merges.cons hp hsl (by omega) (by omega) ?_ ?_
      · intro ht
        obtain ⟨htl, -, hlt, hnd⟩ := hhalves ht
        refine ⟨htl, hlt x (by simp), ?_⟩
        have hperm : (mergeTagged compare l' r).Perm (l' ++ r) := merge_perm_append _
        exact ((hperm.cons x).map Prod.snd).nodup_iff.mpr hnd
      · intro p₁ hb₁ hrev₁
        have := ih l' r (front ++ [x.1]) (p + 1) q p₁ hb₁ (by omega) (by omega) hr
          (by simp; omega) hsl.tail hsr ?_
        · simpa using this
        · intro ht
          obtain ⟨htl, htr, hlt, hnd⟩ := hhalves ht
          have htl' : ShowsTags p₁ p (x :: l') := by rwa [ShowsTags, hrev₁]
          exact ⟨htl'.tail, by rwa [ShowsTags, hrev₁],
            fun y hy => hlt y (mem_cons_of_mem x hy), (nodup_cons.mp hnd).2⟩
    have hright : ∀ y r', r = y :: r' → Merges n front back
        (y :: mergeTagged compare l r') perms tracked
        (moveElement src q front.length (front ++ (old :: gap ++ back)) perms >>= fun moved =>
          mergeLoop compare src mid high gap.length (front.length + 1) p (q + 1) moved.1
            moved.2) := by
      rintro y r' rfl
      rw [length_cons] at hlen hr
      have hmiddle : (l ++ y :: r').Perm (y :: (l ++ r')) := perm_middle
      refine Merges.cons hp hsr (by omega) (by omega) ?_ ?_
      · intro ht
        obtain ⟨-, htr, hlt, hnd⟩ := hhalves ht
        refine ⟨htr, hlt y (by simp), ?_⟩
        have hperm : (mergeTagged compare l r').Perm (l ++ r') := merge_perm_append _
        exact (((hperm.cons y).trans hmiddle.symm).map Prod.snd).nodup_iff.mpr hnd
      · intro p₁ hb₁ hrev₁
        have := ih l r' (front ++ [y.1]) p (q + 1) p₁ hb₁ (by omega) hl (by omega)
          (by simp; omega) hsl hsr.tail ?_
        · simpa using this
        · intro ht
          obtain ⟨htl, htr, hlt, hnd⟩ := hhalves ht
          have htr' : ShowsTags p₁ q (y :: r') := by rwa [ShowsTags, hrev₁]
          refine ⟨by rwa [ShowsTags, hrev₁], htr'.tail,
            fun z hz => hlt z (hmiddle.mem_iff.mpr (mem_cons_of_mem y hz)), ?_⟩
          exact (nodup_cons.mp ((hmiddle.map Prod.snd).nodup_iff.mp hnd)).2
    cases r with
    | nil =>
      obtain ⟨x, l', rfl⟩ : ∃ x l', l = x :: l' := by
        cases l with
        | nil => simp at hlen
        | cons x l' => exact ⟨x, l', rfl⟩
      have htakes : takesLeft compare src mid high p q = .ok true := by
        rw [takesLeft, if_pos (by simp at hr; omega)]
      have := hleft x l' rfl
      rw [htakes]
      simpa [mergeTagged] using this
    | cons y r' =>
      have hq : ¬ (high : Int) ≤ q := by
        rw [length_cons] at hr
        omega
      cases l with
      | nil =>
        have htakes : takesLeft compare src mid high p q = .ok false := by
          rw [takesLeft, if_neg hq, if_neg (by simp at hl; omega)]
        have := hright y r' rfl
        rw [htakes]
        simpa [mergeTagged] using this
      | cons x l' =>
        have htakes : takesLeft compare src mid high p q =
            .ok (decide (compare x.1 y.1 ≤ 0)) := by
          rw [takesLeft, if_neg hq, if_pos (by rw [length_cons] at hl; omega),
            load_eq_ok (by simpa using hsl 0 x rfl), ok_bind,
            load_eq_ok (by simpa using hsr 0 y rfl), ok_bind]
        rw [htakes, ok_bind, mergeTagged, cons_merge_cons, precedes]
        by_cases hle : compare x.1 y.1 ≤ 0
        · rw [if_pos (decide_eq_true hle), if_pos (decide_eq_true hle)]
          exact hleft x l' rfl
        · rw [if_neg (by simpa using hle), if_neg (by simpa using hle)]
          exact hright y r' rfl

theorem resetReverse_spec (count : Nat) :
    ∀ (low : Nat) (p : Perms), p.Bounded n → low + count ≤ n →
      ∃ p', resetReverse count low p = .ok p' ∧ p'.Bounded n ∧ p'.permutation = p.permutation ∧
        (∀ j : Nat, (∀ i, low ≤ i → i < low + count → p.permutation[i]? ≠ some (j : Int)) →
          p'.reversePermutation[j]? = p.reversePermutation[j]?) ∧
        ∀ i j : Nat, low ≤ i → i < low + count → p.permutation[i]? = some (j : Int) →
          (∀ i', i < i' → i' < low + count → p.permutation[i']? ≠ some (j : Int)) →
          p'.reversePermutation[j]? = some (i : Int) := by
  induction count with
  | zero =>
    intro low p hp _
    exact ⟨p, rfl, hp, rfl, fun _ _ => rfl, fun i j hi hi' => absurd hi' (by omega)⟩
  | succ count ih =>
    intro low p hp hn
    obtain ⟨k, hk, hload⟩ := hp.load_permutation (j := low) (by omega)
    have hlen := hp.length_reverse
    have hb₁ : Perms.Bounded n { p with reversePermutation := p.reversePermutation.set k low } :=
      ⟨hp.length_permutation, by simpa using hlen, hp.mem_permutation,
        mem_set_bounded hp.mem_reverse _ (by omega)⟩
    obtain ⟨p', hrun, hb', hperm, hother, hlast⟩ := ih (low + 1) _ hb₁ (by omega)
    refine ⟨p', ?_, hb', hperm, ?_, ?_⟩
    · rw [resetReverse, load_eq_ok hload, ok_bind, store_eq_set _ (by omega), ok_bind]
      exact hrun
    · intro j hj
      have hne : k ≠ j := by
        rintro rfl
        exact hj low (by omega) (by omega) hload
      rw [hother j fun i hi hi' => hj i (by omega) (by omega), getElem?_set_ne hne]
    · intro i j hi hi' hij hlater
      rcases Nat.eq_or_lt_of_le hi with rfl | hlt
      · obtain rfl : k = j := by
          rw [hload] at hij
          exact Int.ofNat.inj (Option.some.inj hij)
        rw [hother k fun i hi hi' => hlater i (by omega) (by omega),
          getElem?_set_self (by omega)]
      · exact hlast i j (by omega) (by omega) hij fun i' h h' => hlater i' h (by omega)

variable {low : Nat} {z : Tagged T}

theorem tracked_of_placed {z' : Tagged T} (hz : (tags z).Perm (List.range' low z.length))
    (hperm : z'.Perm z) (hframes : p.Frames low z p₁) (hn : low + z.length ≤ n)
    (hplaced : p₁.Placed low z' p₂) (hrev : p₂.reversePermutation = p₁.reversePermutation)
    (hp₂ : p₂.Bounded n) :
    ∃ p₃, resetReverse z.length low p₂ = .ok p₃ ∧ p₃.Bounded n ∧ p₃.Tracked low z' ∧
      p.Frames low z p₃ := by
  obtain ⟨p₃, hrun, hb₃, hperm₃, hother, hlast⟩ := resetReverse_spec z.length low p₂ hp₂ hn
  have hlen : z'.length = z.length := hperm.length_eq
  have htags : ∀ i, i ∈ tags z' ↔ low ≤ i ∧ i < low + z.length := by
    intro i
    have hmem : i ∈ tags z' ↔ i ∈ tags z := (hperm.map Prod.snd).mem_iff
    rw [hmem, hz.mem_iff, mem_range'_1]
  -- the entries of the range are exactly the places of the elements of `z'`
  have hrange : ∀ i, low ≤ i → i < low + z.length → ∃ j x, z'[j]? = some x ∧ x.2 = i ∧
      p₂.permutation[i]? = some ((low + j : Nat) : Int) := by
    intro i hi hi'
    obtain ⟨x, hx, rfl⟩ := mem_map.mp ((htags i).mpr ⟨hi, hi'⟩)
    obtain ⟨j, hj⟩ := mem_iff_getElem?.mp hx
    exact ⟨j, x, hj, rfl, hplaced.1 j x hj⟩
  refine ⟨p₃, hrun, hb₃, ?_, ?_, ?_⟩
  · intro j x hx
    rw [hperm₃]
    refine ⟨?_, hplaced.1 j x hx⟩
    obtain ⟨hlow, hhigh⟩ := (htags x.2).mp (mem_tags_of_getElem? hx)
    refine hlast x.2 (low + j) hlow hhigh (hplaced.1 j x hx) ?_
    intro i' hi' hi'' heq
    obtain ⟨j', x', hx', rfl, hplace⟩ := hrange i' (by omega) hi''
    rw [hplace] at heq
    have : low + j' = low + j := Int.ofNat.inj (Option.some.inj heq)
    obtain rfl : j' = j := by omega
    rw [hx] at hx'
    obtain rfl := Option.some.inj hx'
    omega
  · intro i hi
    rw [hperm₃, hplaced.2 i fun hmem => hi ((hperm.map Prod.snd).mem_iff.mp hmem)]
    exact hframes.1 i hi
  · intro j hj
    rw [hother j, hrev]
    · exact hframes.2 j hj
    · intro i hi hi' heq
      obtain ⟨j', x', hx', -, hplace⟩ := hrange i hi hi'
      rw [hplace] at heq
      have : low + j' = j := Int.ofNat.inj (Option.some.inj heq)
      have := (List.getElem?_eq_some_iff.mp hx').1
      omega

theorem tracked_append :
    p.Tracked low (l ++ r) ↔ p.Tracked low l ∧ p.Tracked (low + l.length) r := by
  constructor
  · intro h
    constructor
    · intro j x hx
      refine h j x ?_
      rw [getElem?_append_left (List.getElem?_eq_some_iff.mp hx).1, hx]
    · intro j x hx
      rw [Nat.add_assoc]
      refine h (l.length + j) x ?_
      rw [getElem?_append_right (by omega), Nat.add_sub_cancel_left, hx]
  · rintro ⟨hl, hr⟩ j x hx
    rcases Nat.lt_or_ge j l.length with hlt | hge
    · rw [getElem?_append_left hlt] at hx
      exact hl j x hx
    · rw [getElem?_append_right hge] at hx
      have := hr (j - l.length) x hx
      rwa [Nat.add_assoc, Nat.add_sub_cancel' hge] at this

theorem Perms.Tracked.frame {low' : Nat} {w : Tagged T} {p' : Perms} (h : p.Tracked low' w)
    (hframes : p.Frames low z p') (hdisj : ∀ i ∈ tags w, i ∉ tags z)
    (hapart : low' + w.length ≤ low ∨ low + z.length ≤ low') : p'.Tracked low' w := by
  intro j x hx
  have hj := (List.getElem?_eq_some_iff.mp hx).1
  rw [hframes.2 _ (by omega), hframes.1 _ (hdisj _ (mem_tags_of_getElem? hx))]
  exact h j x hx

theorem disjoint_tags (hnd : (tags (l ++ r)).Nodup) :
    ∀ i ∈ tags l, i ∉ tags r := by
  rw [tags, map_append] at hnd
  exact fun i hi hi' => (disjoint_of_nodup_append hnd) hi hi'

theorem Perms.Tracked.right (h : p.Tracked low (l ++ r)) (hnd : (tags (l ++ r)).Nodup)
    (hframes : p.Frames low l p₁) :
    p₁.Tracked (low + l.length) r :=
  (tracked_append.mp h).2.frame hframes (fun i hi hi' => disjoint_tags hnd i hi' hi)
    (Or.inr le_rfl)

theorem Perms.Tracked.halves {l' r' : Tagged T} (h : p.Tracked low (l ++ r))
    (hnd : (tags (l ++ r)).Nodup) (hl : l'.Perm l) (h₁ : p₁.Tracked low l' ∧ p.Frames low l p₁)
    (h₂ : p₁.Tracked (low + l.length) r →
      p₂.Tracked (low + l.length) r' ∧ p₁.Frames (low + l.length) r p₂) :
    p₂.Tracked low (l' ++ r') ∧ p.Frames low (l ++ r) p₂ := by
  obtain ⟨htracked₁, hframes₁⟩ := h₁
  obtain ⟨htracked₂, hframes₂⟩ := h₂ (h.right hnd hframes₁)
  have hlen := hl.length_eq
  refine ⟨tracked_append.mpr ⟨?_, by rwa [hlen]⟩, ?_, ?_⟩
  · refine htracked₁.frame hframes₂ ?_ (Or.inl (by omega))
    intro i hi
    exact disjoint_tags hnd i ((hl.map Prod.snd).mem_iff.mp hi)
  · intro i hi
    rw [tags, map_append, mem_append, not_or] at hi
    rw [hframes₂.1 i hi.2, hframes₁.1 i hi.1]
  · intro j hj
    rw [length_append] at hj
    rw [hframes₂.2 j (by omega), hframes₁.2 j (by omega)]

theorem le_of_halves (hcmp : TotalPreorder compare) {y : T × Nat}
    (hl : Sorted compare (l ++ [x])) (hr : Sorted compare (y :: r)) (hxy : compare x.1 y.1 ≤ 0) :
    ∀ w ∈ l ++ [x], ∀ v ∈ y :: r, compare w.1 v.1 ≤ 0 := by
  obtain ⟨-, -, hlx⟩ := pairwise_append.mp hl
  obtain ⟨hyr, -⟩ := pairwise_cons.mp hr
  have hbef : ∀ w ∈ l ++ [x], compare w.1 y.1 ≤ 0 := by
    intro w hw
    rcases mem_append.mp hw with hw | hw
    · exact hcmp.trans _ _ _ (hlx w hw x (by simp)) hxy
    · obtain rfl := mem_singleton.mp hw
      exact hxy
  intro w hw v hv
  rcases mem_cons.mp hv with rfl | hv
  · exact hbef w hw
  · exact hcmp.trans _ _ _ (hbef w hw) (hyr v hv)

theorem shows_append (front back : List T) (l : Tagged T) :
    Shows (front ++ (elements l ++ back)) front.length l := by
  intro j x hx
  have hj := (List.getElem?_eq_some_iff.mp hx).1
  rw [getElem?_append_right (by omega), Nat.add_sub_cancel_left,
    getElem?_append_left (by simpa [elements] using hj), elements, getElem?_map, hx]
  rfl

theorem length_elements (z : Tagged T) : (elements z).length = z.length := length_map _

theorem elements_append (l r : Tagged T) : elements (l ++ r) = elements l ++ elements r :=
  map_append

theorem mergeHalves_eq (compare : T → T → Int) (sa sb dest : List T) (p : Perms) (destLow : Int)
    (hlpos : 0 < l.length) (hrpos : 0 < r.length) :
    ∃ l₀ x y r₀, l = l₀ ++ [x] ∧ r = y :: r₀ ∧
      mergeHalves compare (sa ++ (elements l ++ (elements r ++ sb))) dest p destLow sa.length
          ((sa.length + l.length : Nat) : Int) ((sa.length + l.length + r.length : Nat) : Int) =
        (if compare x.1 y.1 ≤ 0 then do
          let dest ← arraycopy (sa ++ (elements l ++ (elements r ++ sb))) sa.length dest destLow
            ((l.length + r.length : Nat) : Int)
          .ok (dest, p)
        else do
          let (dest, p) ← mergeLoop compare (sa ++ (elements l ++ (elements r ++ sb)))
            ((sa.length + l.length : Nat) : Int) ((sa.length + l.length + r.length : Nat) : Int)
            (l.length + r.length) destLow sa.length ((sa.length + l.length : Nat) : Int) dest p
          let p ← resetReverse (l.length + r.length) destLow p
          .ok (dest, p)) := by
  obtain ⟨l₀, x, hlx⟩ : ∃ l₀ x, l = l₀ ++ [x] :=
    ⟨l.dropLast, l.getLast (ne_nil_of_length_pos hlpos), (dropLast_concat_getLast _).symm⟩
  obtain ⟨y, r₀, hry⟩ : ∃ y r₀, r = y :: r₀ := exists_cons_of_length_pos hrpos
  have hcnt : (((sa.length + l.length + r.length : Nat) : Int) - sa.length) =
      ((l.length + r.length : Nat) : Int) := by omega
  have hlast : load (sa ++ (elements l ++ (elements r ++ sb)))
      (((sa.length + l.length : Nat) : Int) - 1) = .ok x.1 := by
    have hload := load_append (sa ++ elements l₀) (elements r ++ sb) x.1
    have hidx :
        ((sa.length + l.length : Nat) : Int) - 1 = ((sa ++ elements l₀).length : Int) := by
      simp only [hlx, length_append, length_elements, length_singleton]
      omega
    rw [hidx, hlx]
    simpa [elements] using hload
  have hfst : load (sa ++ (elements l ++ (elements r ++ sb)))
      ((sa.length + l.length : Nat) : Int) = .ok y.1 := by
    have hload := load_append (sa ++ elements l) (elements r₀ ++ sb) y.1
    rw [hry]
    simpa [elements] using hload
  refine ⟨l₀, x, y, r₀, hlx, hry, ?_⟩
  rw [mergeHalves, hlast, ok_bind, hfst, ok_bind, hcnt, Int.toNat_natCast]

theorem arraycopy_halves (sa sb da db g : List T) (hg : g.length = l.length + r.length) :
    arraycopy (sa ++ (elements l ++ (elements r ++ sb))) sa.length (da ++ (g ++ db)) da.length
      ((l.length + r.length : Nat) : Int) = .ok (da ++ (elements (l ++ r) ++ db)) := by
  have hcopy := arraycopy_append sa (elements (l ++ r)) sb da g db
    (by rw [hg, length_elements, length_append])
  rw [length_elements, length_append, elements_append, append_assoc] at hcopy
  rw [hcopy, elements_append]

theorem mergeHalves_spec (hcmp : TotalPreorder compare) (sa sb da db g : List T)
    (hp : p.Bounded n) (hl : Sorted compare l) (hr : Sorted compare r) (hlpos : 0 < l.length)
    (hrpos : 0 < r.length) (hg : g.length = l.length + r.length)
    (hsn : sa.length + l.length + r.length ≤ n) (hdn : da.length + l.length + r.length ≤ n) :
    ∃ z' p', mergeHalves compare (sa ++ (elements l ++ (elements r ++ sb))) (da ++ (g ++ db)) p
        da.length sa.length ((sa.length + l.length : Nat) : Int)
        ((sa.length + l.length + r.length : Nat) : Int) = .ok (da ++ (elements z' ++ db), p') ∧
      z'.Perm (l ++ r) ∧ Sorted compare z' ∧ p'.Bounded n ∧
      (sa.length = da.length → (tags (l ++ r)).Perm (List.range' da.length (l.length + r.length)) →
        p.Tracked da.length (l ++ r) → p'.Tracked da.length z' ∧ p.Frames da.length (l ++ r) p') ∧
      (Stable compare l → Stable compare r → (∀ w ∈ l, ∀ v ∈ r, w.2 < v.2) →
        Stable compare z') := by
  obtain ⟨l₀, x, y, r₀, hlx, hry, heq⟩ :=
    mergeHalves_eq compare sa sb (da ++ (g ++ db)) p da.length hlpos hrpos
  rw [heq]
  by_cases hxy : compare x.1 y.1 ≤ 0
  · rw [if_pos hxy]
    have hall : ∀ w ∈ l, ∀ v ∈ r, compare w.1 v.1 ≤ 0 := by
      subst hlx hry
      exact le_of_halves hcmp hl hr hxy
    refine ⟨l ++ r, p, ?_, .refl _, pairwise_append.mpr ⟨hl, hr, hall⟩, hp, ?_, ?_⟩
    · rw [arraycopy_halves sa sb da db g hg, ok_bind]
    · exact fun _ _ htracked => ⟨htracked, fun _ _ => rfl, fun _ _ => rfl⟩
    · intro hstable hstable' htags
      exact pairwise_append.mpr ⟨hstable, hstable',
        fun w hw v hv => .inr ⟨hall w hw v hv, htags w hw v hv⟩⟩
  · rw [if_neg hxy]
    have hshowsr := shows_append (sa ++ elements l) sb r
    rw [length_append, length_elements, append_assoc] at hshowsr
    have hperm : (mergeTagged compare l r).Perm (l ++ r) := merge_perm_append _
    obtain ⟨p₁, hmerge, hb₁, hrev₁, hplaced⟩ := mergeLoop_spec compare
      (sa.length + l.length) (sa.length + l.length + r.length)
      (sa ++ (elements l ++ (elements r ++ sb))) db (by omega) hsn
      (sa.length = da.length ∧ (tags (l ++ r)).Perm (List.range' da.length (l.length + r.length)) ∧
        p.Tracked da.length (l ++ r)) g l r da sa.length (sa.length + l.length) p hp hg.symm rfl rfl
      (by omega) (shows_append sa _ l) hshowsr (by
        rintro ⟨hoff, htags, htracked⟩
        rw [← hoff] at htracked
        obtain ⟨htl, htr⟩ := tracked_append.mp htracked
        refine ⟨fun j x hx => (htl j x hx).1, fun j x hx => (htr j x hx).1, ?_, ?_⟩
        · intro w hw
          have := htags.mem_iff.mp (mem_map_of_mem hw)
          rw [mem_range'_1] at this
          omega
        · exact htags.nodup_iff.mpr (nodup_range' _))
    obtain ⟨p₂, hreset, hb₂, -⟩ :=
      resetReverse_spec (l.length + r.length) da.length p₁ hb₁ (by omega)
    refine ⟨mergeTagged compare l r, p₂, ?_, hperm, sorted_mergeTagged hcmp hl hr, hb₂, ?_,
      stable_mergeTagged hcmp⟩
    · rw [← hg, hmerge, ok_bind]
      simp only
      rw [hg, hreset, ok_bind]
    · intro hoff htags htracked
      obtain ⟨p₃, hreset', -, htracked', hframes⟩ :=
        tracked_of_placed (by rwa [length_append]) hperm (p := p)
          ⟨fun _ _ => rfl, fun _ _ => rfl⟩ (by rw [length_append]; omega)
          (hplaced ⟨hoff, htags, htracked⟩) hrev₁ hb₁
      rw [length_append, hreset] at hreset'
      obtain rfl := Except.ok.inj hreset'
      exact ⟨htracked', hframes⟩

/-- The untouched range of `dest` that starts at `low` is sorted; `src` shows the same
elements `off` further on and is left with anything in their place. -/
structure Sorts (compare : T → T → Int) (n : Nat) (sa sb da db : List T) (z : Tagged T) (p : Perms)
    (outcome : Outcome (List T × List T × Perms)) (g : List T) (z' : Tagged T) (p' : Perms) :
    Prop where
  run : outcome = .ok (sa ++ (g ++ sb), da ++ (elements z' ++ db), p')
  length : g.length = z.length
  perm : z'.Perm z
  sorted : Sorted compare z'
  bounded : p'.Bounded n
  tracked : sa.length = da.length → tags z = List.range' da.length z.length →
    p.Tracked da.length z → p'.Tracked da.length z' ∧ p.Frames da.length z p'

theorem mergeSort_spec (hcmp : TotalPreorder compare) (fuel : Nat) :
    ∀ (sa sb da db : List T) (z : Tagged T) (p : Perms) (low high off : Int), z.length < fuel →
      p.Bounded n → sa.length + z.length ≤ n → da.length + z.length ≤ n → low = da.length →
      high = low + z.length → off = sa.length - low →
      ∃ g z' p', Sorts compare n sa sb da db z p
        (mergeSort compare fuel (sa ++ (elements z ++ sb))
          (da ++ (elements z ++ db)) p low high off)
        g z' p' ∧ (z.Pairwise (fun w v => w.2 < v.2) → Stable compare z') := by
  induction fuel with
  | zero => exact fun _ _ _ _ _ _ _ _ _ h => absurd h (by omega)
  | succ fuel ih =>
    rintro sa sb da db z p low high off hfuel hp hsn hdn rfl rfl rfl
    have hlen : ((da.length : Int) + z.length - da.length) = (z.length : Int) := by omega
    rw [mergeSort, hlen]
    by_cases hsmall : (z.length : Int) < 7
    · obtain ⟨z', p', hrun, hperm, hsort, hmoves, hstable⟩ :=
        insertionSort_spec hcmp da db z [] p hp (by simpa using hdn) List.Pairwise.nil
      rw [if_pos hsmall]
      refine ⟨elements z, z', p', ⟨?_, length_elements z, hperm, hsort, hmoves.bounded,
        fun _ _ => hmoves.tracked⟩, hstable List.Pairwise.nil nofun⟩
      simp only [nil_append, length_nil, Nat.add_zero, append_assoc] at hrun
      rw [Int.toNat_natCast, hrun, ok_bind]
    · obtain ⟨l, r, rfl, hl⟩ : ∃ l r, z = l ++ r ∧ l.length = z.length / 2 :=
        ⟨z.take (z.length / 2), z.drop (z.length / 2), by simp, by simp; omega⟩
      rw [length_append] at hfuel hsn hdn hsmall hl
      rw [if_neg (by rw [length_append]; exact hsmall), length_append]
      have hmid : ((da.length : Int) + (sa.length - da.length) +
          (da.length + ((l.length + r.length : Nat) : Int) + (sa.length - da.length))) / 2 =
          ((sa.length + l.length : Nat) : Int) := by omega
      simp only [hmid, elements_append]
      -- the left half, with the two arrays exchanged
      obtain ⟨g₁, l', p₁, ⟨hrun₁, hg₁, hl', hsort₁, hb₁, htracked₁⟩, hstable₁⟩ :=
        ih da (elements r ++ db) sa (elements r ++ sb) l p (da.length + (sa.length - da.length))
          ((sa.length + l.length : Nat) : Int) (-(sa.length - da.length)) (by omega) hp (by omega)
          (by omega) (by omega) (by omega) (by omega)
      have hll := hl'.length_eq
      -- the right half
      obtain ⟨g₂, r', p₂, ⟨hrun₂, hg₂, hr', hsort₂, hb₂, htracked₂⟩, hstable₂⟩ :=
        ih (da ++ g₁) db (sa ++ elements l') sb r p₁ ((sa.length + l.length : Nat) : Int)
          (da.length + ((l.length + r.length : Nat) : Int) + (sa.length - da.length))
          (-(sa.length - da.length)) (by omega) hb₁
          (by rw [length_append]; omega) (by rw [length_append, length_elements]; omega)
          (by rw [length_append, length_elements]; omega) (by omega)
          (by rw [length_append]; omega)
      have hrr := hr'.length_eq
      simp only [append_assoc] at hrun₁ hrun₂ ⊢
      rw [hrun₁, ok_bind]
      rw [hrun₂, ok_bind]
      obtain ⟨z', p₃, hhalves, hperm, hsort, hb₃, htracked₃, hstable₃⟩ :=
        mergeHalves_spec hcmp sa sb da db (g₁ ++ g₂) hb₂ hsort₁ hsort₂
          (by omega) (by omega)
          (by rw [length_append]; omega) (by omega) (by omega)
      have hlow : (da.length : Int) + (sa.length - da.length) = sa.length := by omega
      have hhigh : (da.length : Int) + ((l.length + r.length : Nat) : Int) +
          (sa.length - da.length) = ((sa.length + l.length + r'.length : Nat) : Int) := by omega
      rw [hll, append_assoc] at hhalves
      refine ⟨elements l' ++ elements r', z', p₃, ⟨?_, ?_, hperm.trans (hl'.append hr'), hsort,
        hb₃, ?_⟩, ?_⟩
      · rw [hhigh, hlow, hhalves, ok_bind]
        simp only [append_assoc]
      · simp only [length_append, length_elements]
        omega
      · intro hoff htags htracked
        have hnd : (tags (l ++ r)).Nodup := by
          rw [htags]
          exact nodup_range' _
        rw [tags, map_append, length_append, ← range'_append_1] at htags
        obtain ⟨htagsl, htagsr⟩ := append_inj htags (by simp)
        rw [← hoff] at htracked htagsl htagsr
        simp only [length_append, length_elements, hll] at htracked₂
        obtain ⟨htracked₁', hframes₁⟩ :=
          htracked.halves hnd hl' (htracked₁ hoff.symm htagsl (tracked_append.mp htracked).1)
            (htracked₂ (by omega) htagsr)
        rw [hoff] at htracked₁' hframes₁
        have htags' : (tags (l' ++ r')).Perm (List.range' da.length (l'.length + r'.length)) := by
          refine ((hl'.append hr').map Prod.snd).trans ?_
          rw [map_append, htags, hll, hrr, range'_append_1]
        obtain ⟨htracked', hframes'⟩ := htracked₃ hoff htags' htracked₁'
        refine ⟨htracked', ?_⟩
        exact hframes₁.trans (hl'.append hr') hframes'
      · intro htags
        obtain ⟨htagsl, htagsr, htagslr⟩ := pairwise_append.mp htags
        exact hstable₃ (hstable₁ htagsl) (hstable₂ htagsr) fun w hw v hv =>
          htagslr w (hl'.mem_iff.mp hw) v (hr'.mem_iff.mp hv)

/-- The elements of a range that starts at `low`, before anything has moved. -/
def tagFrom (low : Nat) (l : List T) : Tagged T := l.zip (List.range' low l.length)

theorem elements_tagFrom (low : Nat) (l : List T) : elements (tagFrom low l) = l :=
  map_fst_zip (by simp)

theorem tags_tagFrom (low : Nat) (l : List T) : tags (tagFrom low l) = List.range' low l.length :=
  map_snd_zip (by simp)

theorem length_tagFrom (low : Nat) (l : List T) : (tagFrom low l).length = l.length := by
  simp [tagFrom]

theorem getElem?_tagFrom {l : List T} {j : Nat} (h : (tagFrom low l)[j]? = some x) :
    l[j]? = some x.1 ∧ x.2 = low + j := by
  obtain ⟨hx, htag⟩ := getElem?_zip_eq_some.mp h
  refine ⟨hx, ?_⟩
  rw [getElem?_range' (by simpa using (List.getElem?_eq_some_iff.mp hx).1)] at htag
  simpa using htag.symm

theorem bounded_initPermutation (n : Nat) : (initPermutation n).Bounded n := by
  constructor <;> simp [initPermutation]

theorem tracked_initPermutation {l : List T} (hn : low + l.length ≤ n) :
    (initPermutation n).Tracked low (tagFrom low l) := by
  intro j x hx
  obtain ⟨hget, htag⟩ := getElem?_tagFrom hx
  have hj := (List.getElem?_eq_some_iff.mp hget).1
  rw [htag]
  simp [initPermutation, List.getElem?_range (show low + j < n by omega)]

theorem pairwise_tagFrom (low : Nat) (l : List T) :
    (tagFrom low l).Pairwise fun w v => w.2 < v.2 := by
  have htags : (tags (tagFrom low l)).Pairwise (· < ·) := by
    rw [tags_tagFrom]
    exact pairwise_lt_range'
  exact pairwise_map.mp htags

theorem sort_stable_spec (hcmp : TotalPreorder compare) (front l back : List T) :
    ∃ z perm, sort compare (front ++ (l ++ back)) front.length
        ((front.length + l.length : Nat) : Int) = .ok (front ++ (elements z ++ back), perm) ∧
      z.Perm (tagFrom front.length l) ∧ Sorted compare z ∧ Stable compare z ∧
      perm.length = l.length ∧
      (front = [] → ∀ (j : Nat) (x : T × Nat), z[j]? = some x → perm[x.2]? = some (j : Int)) := by
  have hlen := length_tagFrom front.length l
  obtain ⟨g, z, p, ⟨hrun, -, hperm, hsort, hbounded, htracked⟩, hstable⟩ :=
    mergeSort_spec hcmp (l.length + 1) [] [] front back (tagFrom front.length l)
      (initPermutation (front ++ (l ++ back)).length) front.length
      ((front.length + l.length : Nat) : Int) (-front.length) (by omega)
      (bounded_initPermutation _) (by simp; omega) (by simp; omega) rfl (by omega) (by simp)
  have hrange : ((front.length + l.length : Nat) : Int) - front.length = l.length := by omega
  have haux : ((front ++ (l ++ back)).drop front.length).take l.length = l := by simp
  refine ⟨z, (p.permutation.drop front.length).take l.length, ?_, hperm, hsort,
    hstable (pairwise_tagFrom _ l), ?_, ?_⟩
  · simp only [elements_tagFrom, nil_append, append_nil] at hrun
    rw [sort, if_pos (by simp only [length_append]; omega)]
    simp only [hrange, Int.toNat_natCast, haux, hrun, ok_bind]
  · have := hbounded.length_permutation
    simp only [length_append] at this
    simp only [length_take, length_drop]
    omega
  · rintro rfl j x hx
    obtain ⟨htracked, -⟩ := htracked rfl (by rw [tags_tagFrom, hlen])
      (tracked_initPermutation (by simp))
    have hmem : x.2 ∈ tags (tagFrom 0 l) :=
      (hperm.map Prod.snd).mem_iff.mp (mem_tags_of_getElem? hx)
    rw [tags_tagFrom, mem_range'_1] at hmem
    have := (htracked j x hx).2
    rw [length_nil, drop_zero, getElem?_take_of_lt (by omega), this]
    simp

theorem sort_spec (hcmp : TotalPreorder compare) (front l back : List T) :
    ∃ z perm, sort compare (front ++ (l ++ back)) front.length
        ((front.length + l.length : Nat) : Int) = .ok (front ++ (elements z ++ back), perm) ∧
      z.Perm (tagFrom front.length l) ∧ Sorted compare z ∧ perm.length = l.length ∧
      (front = [] → ∀ (j : Nat) (x : T × Nat), z[j]? = some x → perm[x.2]? = some (j : Int)) := by
  obtain ⟨z, perm, hrun, hperm, hsort, -, hspec⟩ := sort_stable_spec hcmp front l back
  exact ⟨z, perm, hrun, hperm, hsort, hspec⟩

variable {T : Type} {compare : T → T → Int}

/-- `sort(a, c)`: the sorted array and the permutation. -/
def sortAll (compare : T → T → Int) (a : List T) : Outcome (List T × List Int) := do
  let (_, a, p) ← mergeSort compare (a.length + 1) a a (initPermutation a.length) 0 a.length 0
  .ok (a, p.permutation)

/-- What a stable sort returns, with the indexes to which the elements have gone. -/
structure SortsStably (compare : T → T → Int) (input result : List T) (p : List Int) : Prop where
  sorted : result.Pairwise fun x y => compare x y ≤ 0
  length : result.length = input.length
  permutation : p.Perm ((List.range input.length).map Nat.cast)
  moved : ∀ (i : Nat) (x : T), input[i]? = some x →
    ∃ k : Nat, p[i]? = some (k : Int) ∧ result[k]? = some x
  stable : ∀ (i j : Nat) (x y : T), i < j → input[i]? = some x → input[j]? = some y →
    compare x y = 0 → ∃ k l : Nat, p[i]? = some (k : Int) ∧ p[j]? = some (l : Int) ∧ k < l

theorem perm_of_subset {α : Type} {l l' : List α} (hnd : l'.Nodup) (hsub : l' ⊆ l)
    (hlen : l.length = l'.length) : l.Perm l' :=
  ((subperm_of_subset hnd hsub).perm_of_length_le (Nat.le_of_eq hlen)).symm

theorem mem_tags_tagFrom {low : Nat} {l : List T} {z : Tagged T} (hperm : z.Perm (tagFrom low l))
    {i : Nat} {x : T} (hx : l[i]? = some x) : ∃ k : Nat, z[k]? = some (x, low + i) := by
  have hi := (List.getElem?_eq_some_iff.mp hx).1
  have htag : (tagFrom low l)[i]? = some (x, low + i) := by
    refine getElem?_zip_eq_some.mpr ⟨hx, ?_⟩
    rw [getElem?_range' hi, Nat.one_mul]
  exact mem_iff_getElem?.mp (hperm.mem_iff.mpr (mem_of_getElem? htag))

theorem Stable.lt_of_tag_lt {z : Tagged T} (h : Stable compare z) (hcmp : TotalPreorder compare)
    {k l i j : Nat} {x y : T} (hx : z[k]? = some (x, i)) (hy : z[l]? = some (y, j)) (hij : i < j)
    (heq : compare x y = 0) : k < l := by
  obtain ⟨hk, hkx⟩ := List.getElem?_eq_some_iff.mp hx
  obtain ⟨hl, hly⟩ := List.getElem?_eq_some_iff.mp hy
  rcases Nat.lt_trichotomy k l with hlt | rfl | hgt
  · exact hlt
  · rw [hkx] at hly
    exact absurd (congrArg Prod.snd hly) (Nat.ne_of_lt hij)
  · have hbef := pairwise_iff_getElem.mp h l k hl hk hgt
    rw [hkx, hly] at hbef
    rcases hbef with hlt | ⟨-, htag⟩
    · exact absurd ((hcmp.flip y x).mp hlt) (by omega)
    · exact absurd htag (Nat.lt_asymm hij)

theorem sortsStably_of_tagged (hcmp : TotalPreorder compare) {l : List T} {z : Tagged T}
    {p : List Int} (hperm : z.Perm (tagFrom 0 l)) (hstable : Stable compare z)
    (hlen : p.length = l.length)
    (hplaced : ∀ (k : Nat) (x : T × Nat), z[k]? = some x → p[x.2]? = some (k : Int)) :
    SortsStably compare l (elements z) p := by
  have hlength : (elements z).length = l.length := by
    rw [length_elements, hperm.length_eq, length_tagFrom]
  constructor
  · exact pairwise_map.mpr (hstable.imp Before.le)
  · exact hlength
  · apply perm_of_subset
    · exact nodup_range.map fun _ _ h => Int.ofNat.inj h
    · intro v hv
      obtain ⟨k, hk, rfl⟩ := mem_map.mp hv
      rw [mem_range, ← hlength, length_elements] at hk
      exact mem_of_getElem? (hplaced k _ (getElem?_eq_getElem hk))
    · rw [length_map, length_range, hlen]
  · intro i x hx
    obtain ⟨k, hk⟩ := mem_tags_tagFrom hperm hx
    rw [Nat.zero_add] at hk
    refine ⟨k, hplaced k _ hk, ?_⟩
    rw [elements, getElem?_map, hk]
    rfl
  · intro i j x y hij hx hy heq
    obtain ⟨k, hk⟩ := mem_tags_tagFrom hperm hx
    obtain ⟨m, hm⟩ := mem_tags_tagFrom hperm hy
    rw [Nat.zero_add] at hk hm
    exact ⟨k, m, hplaced k _ hk, hplaced m _ hm, hstable.lt_of_tag_lt hcmp hk hm hij heq⟩

theorem sort_whole (hcmp : TotalPreorder compare) (l : List T) :
    sortAll compare l = sort compare l 0 l.length := by
  obtain ⟨g, z, p, ⟨hrun, -, hperm, -, hbounded, -⟩, -⟩ :=
    mergeSort_spec hcmp (l.length + 1) [] [] [] [] (tagFrom 0 l) (initPermutation l.length)
      0 l.length 0 (by rw [length_tagFrom]; omega) (bounded_initPermutation _)
      (by simp [length_tagFrom]) (by simp [length_tagFrom]) rfl (by rw [length_tagFrom]; omega) rfl
  simp only [elements_tagFrom, nil_append, append_nil] at hrun
  have hlen := hbounded.length_permutation
  rw [sortAll, sort, if_pos ⟨by omega, by omega, by omega⟩]
  simp only [Int.sub_zero, Int.toNat_natCast, Int.toNat_zero, drop_zero, take_length,
    Int.neg_zero, hrun, ok_bind]
  rw [take_of_length_le (Nat.le_of_eq hlen)]

/-- Both calls for a whole array sort it stably and return the permutation of the elements. -/
theorem sort_sortsStably (hcompare : TotalPreorder compare) (l : List T) :
    ∃ result p, sortAll compare l = .ok (result, p) ∧ sort compare l 0 l.length = .ok (result, p) ∧
      SortsStably compare l result p := by
  obtain ⟨z, p, hrun, hperm, -, hstable, hlen, hplaced⟩ := sort_stable_spec hcompare [] l []
  simp only [nil_append, append_nil, length_nil, Nat.zero_add] at hrun
  refine ⟨elements z, p, ?_, hrun, sortsStably_of_tagged hcompare hperm hstable hlen (hplaced rfl)⟩
  rw [sort_whole hcompare]
  exact hrun

/-- Pairs that are sorted by their first component only. -/
def compareFst (x y : Int × String) : Int := compareTo x.1 y.1

def pairs : List (Int × String) :=
  [(2, "a"), (1, "b"), (3, "c"), (2, "d"), (1, "e"), (2, "f"), (3, "g"), (1, "h")]

theorem sort_sortsStably_pairs : ∃ result p, sortAll compareFst pairs = .ok (result, p) ∧
    sort compareFst pairs 0 8 = .ok (result, p) ∧ SortsStably compareFst pairs result p :=
  sort_sortsStably
    ⟨fun x y => totalPreorder_compareTo.flip x.1 y.1,
      fun x y z => totalPreorder_compareTo.trans x.1 y.1 z.1⟩ _

end OpenJfx.Collections.SortHelper
