import OpenJfx.Network.CookieStoreGet
import OpenJfx.Network.CookieStorePut

/-!
Which cookies the purge of the whole store removes. The queue gives back first what its comparator
takes for the earliest access; the comparator narrows a difference of times to an `int`.
-/

namespace OpenJfx.Network

open Java Data List

namespace CookieStore

section Comparator

theorem toInt_zero : toInt 0 = 0 := rfl

theorem toInt_neg {n : Int} (h : 0 < toInt n) : toInt (-n) < 0 := by
  rw [toInt, Int.bmod_def] at h ⊢
  split_ifs at h ⊢ <;> omega

theorem toInt_pos {n : Int} (hpos : 0 < n) (hsmall : n < 2 ^ 31) : 0 < toInt n := by
  rw [toInt, Int.bmod_eq_of_le (by omega) (by omega)]
  exact hpos

/-- The comparator finds out which of two cookies has been accessed later. -/
def Comparable (now : Int) (store : CookieStore) : Prop :=
  ∀ earlier later, store.Unexpired now earlier → store.Unexpired now later →
    earlier.lastAccessTime < later.lastAccessTime → 0 < RemovalComparator.compare later earlier

variable {store : CookieStore}

theorem comparable_of_close {now : Int}
    (h : ∀ earlier later, store.Unexpired now earlier → store.Unexpired now later →
      later.lastAccessTime - earlier.lastAccessTime < 2 ^ 31) : store.Comparable now := by
  intro earlier later hearlier hlater hlt
  exact toInt_pos (by omega) (h earlier later hearlier hlater)

theorem Comparable.compare_le_iff {now : Int} (h : store.Comparable now) {a b : Cookie}
    (ha : store.Unexpired now a) (hb : store.Unexpired now b) :
    RemovalComparator.compare a b ≤ 0 ↔ a.lastAccessTime ≤ b.lastAccessTime := by
  constructor
  · intro hcmp
    by_contra hlt
    exact absurd (h b a hb ha (Int.not_le.mp hlt)) (Int.not_lt.mpr hcmp)
  · intro hle
    rcases Int.lt_or_eq_of_le hle with hlt | heq
    · have hneg := toInt_neg (h a b ha hb hlt)
      rw [Int.neg_sub] at hneg
      exact Int.le_of_lt hneg
    · rw [RemovalComparator.compare, heq, Int.sub_self]
      exact Int.le_of_eq toInt_zero

theorem Comparable.order_sorted {now : Int} (h : store.Comparable now) (removalQueue : RemovalOrder)
    {live : List Cookie} (hlive : ∀ cookie ∈ live, store.Unexpired now cookie) :
    (removalQueue.order live).Pairwise fun a b => a.lastAccessTime ≤ b.lastAccessTime := by
  have hsort := removalQueue.sorted live ?_ ?_
  · refine hsort.imp_of_mem fun ha hb hcmp => ?_
    have hmem := fun {c} => (removalQueue.perm live).mem_iff (a := c)
    exact (h.compare_le_iff (hlive _ (hmem.mp ha)) (hlive _ (hmem.mp hb))).mp hcmp
  · intro a ha b hb
    rw [h.compare_le_iff (hlive a ha) (hlive b hb), h.compare_le_iff (hlive b hb) (hlive a ha)]
    exact Int.le_total _ _
  · intro a ha b hb c hc hab hbc
    rw [h.compare_le_iff (hlive a ha) (hlive b hb)] at hab
    rw [h.compare_le_iff (hlive b hb) (hlive c hc)] at hbc
    rw [h.compare_le_iff (hlive a ha) (hlive c hc)]
    exact Int.le_trans hab hbc

end Comparator

section Eviction

variable (now : Int) (entrySet : IterationOrder (JString × Bucket)) (removalQueue : RemovalOrder)

def purging (store : CookieStore) (cookie : Cookie) : Option CookieStore :=
  if (store.insert now cookie).2 then
    match (store.insert now cookie).1.buckets.get cookie.domain with
    | none => none
    | some bucket =>
      match (if bucket.size > maxBucketSize then
          purgeBucket now bucket (store.insert now cookie).1.totalCount
        else (bucket, (store.insert now cookie).1.totalCount)) with
      | (bucket, totalCount) =>
        if totalCount > totalCountUpperThreshold then
          some ⟨(store.insert now cookie).1.buckets.put cookie.domain bucket, totalCount⟩
        else none
  else none

variable {full : CookieStore} {cookie : Cookie}

variable {store : CookieStore}

theorem put_of_purging (h : store.purging now cookie = some full) :
    store.put entrySet removalQueue now cookie = full.purge entrySet removalQueue now ∧
      full.totalCount > totalCountUpperThreshold := by
  rw [purging] at h
  split_ifs at h with hadded
  rw [put_eq_insert, if_pos hadded, purgeFull]
  cases hbkt : (store.insert now cookie).1.buckets.get cookie.domain with
  | none =>
    rw [hbkt] at h
    cases h
  | some bucket =>
    rw [hbkt] at h
    dsimp only at h ⊢
    generalize (if bucket.size > maxBucketSize then
      purgeBucket now bucket (store.insert now cookie).1.totalCount
      else (bucket, (store.insert now cookie).1.totalCount)) = purged at h
    split_ifs at h with htotal
    obtain rfl := Option.some.inj h
    rw [if_pos htotal]
    exact ⟨rfl, htotal⟩

theorem insert_added (h : store.Counted) (hadded : (store.insert now cookie).2 = true) :
    ∃ bucket before : Bucket, ∃ start : CookieStore, start.Counted ∧
      start.buckets.get cookie.domain = some before ∧ Placed cookie.domain bucket ∧
      bucket.size = before.size + 1 ∧
      store.insert now cookie =
        (⟨start.buckets.put cookie.domain bucket, start.totalCount + 1⟩, true) := by
  rcases bucketOf_spec h cookie.domain with ⟨hcounted, -, hbkt⟩
  unfold insert at hadded ⊢
  generalize store.bucketOf cookie.domain = found at hadded hcounted hbkt ⊢
  rcases found with ⟨before, start⟩
  unfold putInBucket at hadded ⊢
  split_ifs at hadded with hexpired
  · cases hget : before.get cookie.key with
    | some old | none =>
      rw [hget] at hadded
      exact absurd hadded Bool.false_ne_true
  · cases hget : before.get cookie.key with
    | some old =>
      rw [hget] at hadded
      exact absurd hadded Bool.false_ne_true
    | none =>
      refine ⟨before.put cookie.key cookie, before, start, hcounted, hbkt, ?_, ?_, ?_⟩
      · exact (hcounted.get hbkt).2.put rfl
      · exact HashMap.size_put_of_get_eq_none hget cookie
      · rw [if_neg hexpired]

theorem purging_counted (h : store.Counted) (hfull : store.purging now cookie = some full) :
    full.Counted := by
  rw [purging] at hfull
  split_ifs at hfull with hadded
  obtain ⟨bucket, before, start, hcounted, hbef, hplaced, hsize, hins⟩ :=
    insert_added now h hadded
  rw [hins] at hfull
  rw [HashMap.get_put, if_pos rfl] at hfull
  dsimp only at hfull
  generalize hpurged : (if bucket.size > maxBucketSize then
    purgeBucket now bucket (start.totalCount + 1) else (bucket, start.totalCount + 1)) = purged
    at hfull
  have hle := (hcounted.get hbef).1
  rcases purged_spec now hplaced (by omega) _ hpurged with ⟨hplaced', hsize', hcnt⟩
  split_ifs at hfull
  obtain rfl := Option.some.inj hfull
  rw [HashMap.put_put]
  refine hcounted.putBucket ?_ hsize' hplaced'
  rw [hbef, Option.map_some, Option.getD_some]
  omega

/-- What a purge should leave: nothing that has expired, few enough cookies, and of those that
have not expired the ones with the latest accesses. -/
structure EvictsLeastRecentlyUsed (store store' : CookieStore) : Prop where
  unexpired : ∀ cookie, store'.Stored cookie → store.Unexpired now cookie
  count_eq : store'.totalCount = ((store'.buckets.values.map HashMap.size).sum : Nat)
  count_le : store'.totalCount ≤ totalCountLowerThreshold
  order : ∀ evicted kept, store.Unexpired now evicted → ¬store'.Stored evicted →
    store'.Stored kept → evicted.lastAccessTime ≤ kept.lastAccessTime

/-- No more cookies have not expired than the purge leaves. -/
def FewUnexpired (store : CookieStore) : Prop :=
  (liveCookies now store.buckets.entries).length ≤ 3000

theorem Counted.purge_evicts (h : store.Counted)
    (hcondition : store.FewUnexpired now ∨ store.Comparable now) :
    ∃ store', store.purge entrySet removalQueue now = some store' ∧
      EvictsLeastRecentlyUsed now store store' := by
  obtain ⟨live, store', hlive, hkeys, hpurge, hcounted, htotal, hstored⟩ :=
    purge_stored now entrySet removalQueue h
  have hmem := fun {cookie} => (removalQueue.perm live).mem_iff (a := cookie)
  refine ⟨store', hpurge, ⟨?_, hcounted.count, htotal, ?_⟩⟩
  · intro cookie hcookie
    exact (hlive cookie).mp (hmem.mp (mem_of_mem_drop ((hstored cookie).mp hcookie)))
  · intro evicted kept hevicted hgone hkept
    rw [hstored] at hgone hkept
    have hqueued := hmem.mpr ((hlive evicted).mpr hevicted)
    rcases hcondition with hfew | hcomparable
    · have hperm : live.Perm (liveCookies now store.buckets.entries) := by
        refine (perm_ext_iff_of_nodup hkeys.of_map ?_).mpr fun cookie => ?_
        · exact (nodup_keys_flatMap _ (Bucket.live now) store.buckets.keys_nodup
            fun entry hentry => (h.placed entry hentry).live now).of_map
        · rw [hlive, mem_liveCookies_iff now h (.refl _)]
      have hnone : live.length - 3000 = 0 := by
        rw [hperm.length_eq]
        exact Nat.sub_eq_zero_of_le hfew
      rw [hnone] at hgone
      exact absurd hqueued hgone
    · have hsort := hcomparable.order_sorted removalQueue fun cookie hcookie =>
        (hlive cookie).mp hcookie
      rw [← take_append_drop (live.length - 3000) (removalQueue.order live)] at hsort hqueued
      rcases mem_append.mp hqueued with hfront | hback
      · exact (pairwise_append.mp hsort).2.2 evicted hfront kept hkept
      · exact absurd hback hgone

end Eviction

section Example

/-- The cookie of a host whose name has so many letters. -/
def hostCookie (lastAccessTime : Nat → Int) (i : Nat) : Cookie where
  name := [97]
  value := []
  expiryTime := 2 ^ 63 - 1
  domain := List.replicate (i + 1) 97
  path := [slash]
  creationTime := .currentTime 0
  lastAccessTime := lastAccessTime i
  persistent := false
  hostOnly := true
  secureOnly := false
  httpOnly := false

variable (lastAccessTime : Nat → Int)

def hostBucket (i : Nat) : Bucket :=
  HashMap.empty.put (hostCookie lastAccessTime i).key (hostCookie lastAccessTime i)

def filled : Nat → CookieStore
  | 0 => new
  | n + 1 =>
    ⟨(filled n).buckets.put (hostCookie lastAccessTime n).domain (hostBucket lastAccessTime n),
      n + 1⟩

theorem domain_inj {i j : Nat} :
    (hostCookie lastAccessTime i).domain = (hostCookie lastAccessTime j).domain ↔ i = j := by
  constructor
  · intro h
    have hlen := congrArg List.length h
    simp only [hostCookie, length_replicate] at hlen
    omega
  · rintro rfl
    rfl

theorem totalCount_filled (n : Nat) : (filled lastAccessTime n).totalCount = n := by
  cases n <;> rfl

theorem get_filled (n : Nat) (domain : JString) (bucket : Bucket) :
    (filled lastAccessTime n).buckets.get domain = some bucket ↔
      ∃ i < n, domain = (hostCookie lastAccessTime i).domain ∧
        bucket = hostBucket lastAccessTime i := by
  induction n with
  | zero =>
    constructor
    · intro h
      cases h
    · rintro ⟨i, hi, -⟩
      exact absurd hi (Nat.not_lt_zero i)
  | succ n ih =>
    rw [filled, HashMap.get_put]
    split_ifs with hdom
    · constructor
      · intro h
        exact ⟨n, Nat.lt_succ_self n, hdom, (Option.some.inj h).symm⟩
      · rintro ⟨i, hi, hsame, rfl⟩
        rw [hdom, domain_inj] at hsame
        rw [hsame]
    · rw [ih]
      constructor
      · rintro ⟨i, hi, hrest⟩
        exact ⟨i, Nat.lt_succ_of_lt hi, hrest⟩
      · rintro ⟨i, hi, hsame, hbkt⟩
        refine ⟨i, ?_, hsame, hbkt⟩
        rcases Nat.lt_succ_iff_lt_or_eq.mp hi with hlt | rfl
        · exact hlt
        · exact absurd hsame hdom

theorem stored_filled (n : Nat) (cookie : Cookie) :
    (filled lastAccessTime n).Stored cookie ↔ ∃ i < n, cookie = hostCookie lastAccessTime i := by
  constructor
  · rintro ⟨bucket, hbkt, hcookie⟩
    obtain ⟨i, hi, -, rfl⟩ := (get_filled lastAccessTime n _ _).mp hbkt
    rw [hostBucket, HashMap.get_put] at hcookie
    split_ifs at hcookie
    · exact ⟨i, hi, (Option.some.inj hcookie).symm⟩
    · cases hcookie
  · rintro ⟨i, hi, rfl⟩
    refine ⟨hostBucket lastAccessTime i, (get_filled ..).mpr ⟨i, hi, rfl, rfl⟩, ?_⟩
    rw [hostBucket, HashMap.get_put, if_pos rfl]

theorem insert_filled {now : Int} (hnow : now ≤ 2 ^ 63 - 1) (n : Nat) :
    (filled lastAccessTime n).insert now (hostCookie lastAccessTime n) =
      (filled lastAccessTime (n + 1), true) := by
  have hnone : (filled lastAccessTime n).buckets.get (hostCookie lastAccessTime n).domain =
      none := by
    rw [Option.eq_none_iff_forall_not_mem]
    intro bucket hbkt
    obtain ⟨i, hi, hsame, -⟩ := (get_filled lastAccessTime n _ _).mp hbkt
    rw [domain_inj] at hsame
    omega
  have hexpired : ¬ (hostCookie lastAccessTime n).hasExpired now = true := by
    rw [Cookie.hasExpired, decide_eq_true_eq]
    exact Int.not_lt.mpr hnow
  unfold insert
  rw [bucketOf, hnone]
  rw [putInBucket, if_neg hexpired]
  rw [HashMap.put_put, totalCount_filled]
  rfl

theorem get_filled_succ (n : Nat) :
    (filled lastAccessTime (n + 1)).buckets.get (hostCookie lastAccessTime n).domain =
      some (hostBucket lastAccessTime n) :=
  (get_filled ..).mpr ⟨n, Nat.lt_succ_self n, rfl, rfl⟩

theorem put_filled_succ (n : Nat) :
    (filled lastAccessTime (n + 1)).buckets.put (hostCookie lastAccessTime n).domain
        (hostBucket lastAccessTime n) = (filled lastAccessTime (n + 1)).buckets := by
  rw [filled, HashMap.put_put]

theorem put_filled {now : Int} (hnow : now ≤ 2 ^ 63 - 1)
    (entrySet : IterationOrder (JString × Bucket)) (removalQueue : RemovalOrder) {n : Nat}
    (hn : n < 4000) :
    (filled lastAccessTime n).put entrySet removalQueue now (hostCookie lastAccessTime n) =
      some (filled lastAccessTime (n + 1)) := by
  have hsize : ¬ (hostBucket lastAccessTime n).size > maxBucketSize := by
    change ¬ 1 > 50
    decide
  have htotal : ¬ (filled lastAccessTime (n + 1)).totalCount > totalCountUpperThreshold := by
    rw [totalCount_filled, totalCountUpperThreshold]
    omega
  rw [put_eq_insert, insert_filled lastAccessTime hnow, if_pos rfl, purgeFull, get_filled_succ]
  dsimp only
  rw [if_neg hsize]
  rw [if_neg htotal, put_filled_succ]

theorem purging_filled {now : Int} (hnow : now ≤ 2 ^ 63 - 1) {n : Nat} (hn : 4000 ≤ n) :
    (filled lastAccessTime n).purging now (hostCookie lastAccessTime n) =
      some (filled lastAccessTime (n + 1)) := by
  have hsize : ¬ (hostBucket lastAccessTime n).size > maxBucketSize := by
    change ¬ 1 > 50
    decide
  have htotal : (filled lastAccessTime (n + 1)).totalCount > totalCountUpperThreshold := by
    rw [totalCount_filled, totalCountUpperThreshold]
    omega
  rw [purging, insert_filled lastAccessTime hnow, if_pos rfl, get_filled_succ]
  dsimp only
  rw [if_neg hsize]
  rw [if_pos htotal, put_filled_succ]

def hostCalls (n : Nat) : List Call :=
  (List.range n).map fun i => .put 0 (hostCookie lastAccessTime i)

theorem runSteps_hostCalls (foldCase : UInt16 → UInt16)
    (entrySet : IterationOrder (JString × Bucket)) (removalQueue : RemovalOrder) {n : Nat}
    (hn : n ≤ 4000) :
    runSteps (call foldCase entrySet removalQueue) new (hostCalls lastAccessTime n) =
      some (filled lastAccessTime n) := by
  induction n with
  | zero => rfl
  | succ n ih =>
    rw [hostCalls, range_succ, map_append]
    refine runSteps_concat_iff.mpr ⟨_, ih (Nat.le_of_succ_le hn), ?_⟩
    exact put_filled lastAccessTime (by decide : (0 : Int) ≤ 2 ^ 63 - 1) entrySet removalQueue hn

end Example

/-- When `put` purges the store, in any store that calls have led to, the cookies that have been
accessed last are left, if there are few that have not expired or the comparator finds out which
of two has been accessed later. -/
theorem purge_evicts_after_calls (foldCase : UInt16 → UInt16)
    (entrySet : IterationOrder (JString × Bucket)) (removalQueue : RemovalOrder)
    (calls : List Call) (store full : CookieStore) (now : Int) (cookie : Cookie)
    (hrun : runSteps (call foldCase entrySet removalQueue) new calls = some store)
    (hfull : store.purging now cookie = some full)
    (hcondition : full.FewUnexpired now ∨ full.Comparable now) :
    full.totalCount > totalCountUpperThreshold ∧ ∃ store',
      store.put entrySet removalQueue now cookie = some store' ∧
      full.purge entrySet removalQueue now = some store' ∧
      EvictsLeastRecentlyUsed now full store' := by
  obtain ⟨_, hrun', hcounted, -⟩ := runSteps_counted foldCase entrySet removalQueue calls
  rw [hrun] at hrun'
  obtain rfl := Option.some.inj hrun'
  obtain ⟨hput, htotal⟩ := put_of_purging now entrySet removalQueue hfull
  obtain ⟨store', hpurge, hevicts⟩ := (purging_counted now hcounted hfull).purge_evicts now entrySet
    removalQueue hcondition
  exact ⟨htotal, store', hput.trans hpurge, hpurge, hevicts⟩

theorem comparable_filled {now : Int} {n : Nat} (hn : n ≤ 2 ^ 31) :
    (filled Int.ofNat n).Comparable now := by
  apply comparable_of_close
  rintro earlier later ⟨hearlier, -⟩ ⟨hlater, -⟩
  obtain ⟨i, -, rfl⟩ := (stored_filled _ n _).mp hearlier
  obtain ⟨j, hj, rfl⟩ := (stored_filled _ n _).mp hlater
  change (j : Int) - i < 2 ^ 31
  omega

/-- Cookies of 4001 hosts, accessed one after the other. -/
theorem purge_evicts_after_hosts :
    ((filled Int.ofNat (4000 + 1)).totalCount > totalCountUpperThreshold ∧ ∃ store',
      (filled Int.ofNat 4000).put ⟨id, fun _ => .refl _⟩ .bySort 0 (hostCookie Int.ofNat 4000) =
        some store' ∧
      (filled Int.ofNat (4000 + 1)).purge ⟨id, fun _ => .refl _⟩ .bySort 0 = some store' ∧
      EvictsLeastRecentlyUsed 0 (filled Int.ofNat (4000 + 1)) store') :=
  purge_evicts_after_calls id ⟨id, fun _ => .refl _⟩ .bySort (hostCalls Int.ofNat 4000) _ _ 0
    (hostCookie Int.ofNat 4000)
    (runSteps_hostCalls Int.ofNat id ⟨id, fun _ => .refl _⟩ .bySort le_rfl)
    (purging_filled Int.ofNat (by decide) le_rfl) (.inr (comparable_filled (by decide)))

/-- The last cookie has been accessed by more than an `int` of milliseconds later. -/
def lateAccess (i : Nat) : Int := if i < 4000 then 0 else 2 ^ 31 + 1

theorem lateAccess_cases {i : Nat} (hi : i < 4000 + 1) :
    i ≠ 4000 ∧ lateAccess i = 0 ∨ i = 4000 ∧ lateAccess i = 2 ^ 31 + 1 := by
  rw [lateAccess]
  split_ifs with h
  · exact .inl ⟨Nat.ne_of_lt h, rfl⟩
  · exact .inr ⟨by omega, rfl⟩

theorem compare_late {a b : Cookie} (ha : (filled lateAccess (4000 + 1)).Stored a)
    (hb : (filled lateAccess (4000 + 1)).Stored b) :
    RemovalComparator.compare a b ≤ 0 ↔ b.lastAccessTime ≤ a.lastAccessTime := by
  obtain ⟨i, hi, rfl⟩ := (stored_filled _ _ _).mp ha
  obtain ⟨j, hj, rfl⟩ := (stored_filled _ _ _).mp hb
  change toInt (lateAccess i - lateAccess j) ≤ 0 ↔ lateAccess j ≤ lateAccess i
  rcases lateAccess_cases hi with ⟨-, hi⟩ | ⟨-, hi⟩ <;>
    rcases lateAccess_cases hj with ⟨-, hj⟩ | ⟨-, hj⟩ <;> rw [hi, hj] <;> decide

theorem order_late (removalQueue : RemovalOrder) {live : List Cookie}
    (hlive : ∀ cookie, cookie ∈ live ↔ (filled lateAccess (4000 + 1)).Unexpired (2 ^ 31 + 1) cookie)
    (hkeys : (live.map Cookie.key).Nodup)
    (hlate : hostCookie lateAccess 4000 ∈ live) :
    ∃ rest, removalQueue.order live = hostCookie lateAccess 4000 :: rest := by
  have hstored := fun {cookie} hmem => ((hlive cookie).mp hmem).1
  have hperm := removalQueue.perm live
  have hsort := removalQueue.sorted live ?_ ?_
  · obtain ⟨before, rest, horder⟩ := append_of_mem (hperm.mem_iff.mpr hlate)
    cases before with
    | nil => exact ⟨rest, horder⟩
    | cons first before =>
      have hnd := (hperm.map Cookie.key).nodup_iff.mpr hkeys
      rw [horder, cons_append] at hsort hnd
      have hmem : first ∈ live := by
        rw [← hperm.mem_iff, horder]
        exact mem_append_left _ mem_cons_self
      have hle := (pairwise_cons.mp hsort).1 _
        (mem_append_right _ mem_cons_self)
      rw [compare_late (hstored hmem) (hstored hlate)] at hle
      obtain ⟨i, hi, rfl⟩ := (stored_filled _ _ _).mp (hstored hmem)
      rcases lateAccess_cases hi with ⟨-, haccess⟩ | ⟨rfl, -⟩
      · change lateAccess 4000 ≤ lateAccess i at hle
        rw [haccess] at hle
        exact absurd hle (by decide)
      · rw [map_cons, nodup_cons] at hnd
        exact absurd (mem_map_of_mem (mem_append_right _ mem_cons_self)) hnd.1
  · intro a ha b hb
    rw [compare_late (hstored ha) (hstored hb), compare_late (hstored hb) (hstored ha)]
    exact Int.le_total _ _
  · intro a ha b hb c hc hab hbc
    rw [compare_late (hstored ha) (hstored hb)] at hab
    rw [compare_late (hstored hb) (hstored hc)] at hbc
    rw [compare_late (hstored ha) (hstored hc)]
    exact Int.le_trans hbc hab

theorem unexpired_late (i : Nat) (hi : i < 4000 + 1) :
    (filled lateAccess (4000 + 1)).Unexpired (2 ^ 31 + 1) (hostCookie lateAccess i) :=
  ⟨(stored_filled _ _ _).mpr ⟨i, hi, rfl⟩,
    decide_eq_false (by decide : ¬ (2 ^ 31 + 1 : Int) > 2 ^ 63 - 1)⟩

theorem length_live {live : List Cookie}
    (hlive : ∀ cookie, cookie ∈ live ↔ (filled lateAccess (4000 + 1)).Unexpired (2 ^ 31 + 1) cookie)
    (hkeys : (live.map Cookie.key).Nodup) : live.length = 4000 + 1 := by
  have hnd : ((List.range (4000 + 1)).map (hostCookie lateAccess)).Nodup := by
    refine nodup_range.map fun i j h => ?_
    exact (domain_inj lateAccess).mp (congrArg Cookie.domain h)
  have hperm := (perm_ext_iff_of_nodup hkeys.of_map hnd).mpr fun cookie => by
    rw [hlive, mem_map]
    constructor
    · rintro ⟨hstored, -⟩
      obtain ⟨i, hi, rfl⟩ := (stored_filled _ _ _).mp hstored
      exact ⟨i, mem_range.mpr hi, rfl⟩
    · rintro ⟨i, hi, rfl⟩
      exact unexpired_late i (mem_range.mp hi)
  rw [hperm.length_eq, length_map, length_range]

theorem counted_filled {n : Nat} (hn : n ≤ 4000) : (filled lateAccess n).Counted := by
  obtain ⟨store, hrun, hcounted, -⟩ := runSteps_counted id ⟨id, fun _ => .refl _⟩ .bySort
    (hostCalls lateAccess n)
  rw [runSteps_hostCalls lateAccess id ⟨id, fun _ => .refl _⟩ .bySort hn] at hrun
  rw [Option.some.inj hrun]
  exact hcounted

/-- The cookie that has just been accessed is removed at once, and others stay. -/
theorem late_cookie_evicted : ∃ (calls : List Call) (cookie : Cookie),
    ∀ (foldCase : UInt16 → UInt16) (entrySet : IterationOrder (JString × Bucket))
      (removalQueue : RemovalOrder), ∃ store full store',
      runSteps (call foldCase entrySet removalQueue) new calls = some store ∧
      store.purging (2 ^ 31 + 1) cookie = some full ∧
      full.purge entrySet removalQueue (2 ^ 31 + 1) = some store' ∧
      full.Unexpired (2 ^ 31 + 1) cookie ∧ ¬store'.Stored cookie ∧
      ¬EvictsLeastRecentlyUsed (2 ^ 31 + 1) full store' := by
  refine ⟨hostCalls lateAccess 4000, hostCookie lateAccess 4000, ?_⟩
  intro foldCase entrySet removalQueue
  have hfull : (filled lateAccess 4000).purging (2 ^ 31 + 1) (hostCookie lateAccess 4000) =
      some (filled lateAccess (4000 + 1)) := purging_filled lateAccess (by decide) le_rfl
  obtain ⟨live, store', hlive, hkeys, hpurge, -, -, hstored⟩ := purge_stored (2 ^ 31 + 1) entrySet
    removalQueue (purging_counted _ (counted_filled le_rfl) hfull)
  have hunexpired := unexpired_late 4000 (Nat.lt_succ_self 4000)
  have hlate := (hlive _).mpr hunexpired
  obtain ⟨rest, horder⟩ := order_late removalQueue hlive hkeys hlate
  have hperm := removalQueue.perm live
  have hnodup := (hperm.map Cookie.key).nodup_iff.mpr hkeys
  rw [horder, map_cons, nodup_cons] at hnodup
  have hlength := length_live hlive hkeys
  have hkept : ∀ cookie, store'.Stored cookie ↔ cookie ∈ rest.drop 1000 := by
    intro cookie
    rw [hstored, horder, hlength]
    exact Iff.rfl
  have hgone : ¬store'.Stored (hostCookie lateAccess 4000) := by
    intro hmem
    rw [hkept] at hmem
    exact hnodup.1 (mem_map_of_mem (mem_of_mem_drop hmem))
  refine ⟨_, _, store', runSteps_hostCalls lateAccess foldCase entrySet removalQueue le_rfl, hfull,
    hpurge, hunexpired, hgone, fun hevicts => ?_⟩
  obtain ⟨kept, hkeptMem⟩ : ∃ kept, kept ∈ rest.drop 1000 := by
    apply exists_mem_of_length_pos
    have hsame := hperm.length_eq
    rw [horder, hlength, length_cons] at hsame
    rw [length_drop]
    omega
  have hle := hevicts.order _ kept hunexpired hgone ((hkept kept).mpr hkeptMem)
  obtain ⟨i, hi, rfl⟩ := (stored_filled _ _ _).mp
    (hevicts.unexpired kept ((hkept kept).mpr hkeptMem)).1
  rcases lateAccess_cases hi with ⟨-, haccess⟩ | ⟨rfl, -⟩
  · change lateAccess 4000 ≤ lateAccess i at hle
    rw [haccess] at hle
    exact absurd hle (by decide)
  · exact hnodup.1 (mem_map_of_mem (mem_of_mem_drop hkeptMem))

end CookieStore

end OpenJfx.Network
