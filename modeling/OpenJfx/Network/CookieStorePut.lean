import OpenJfx.Network.CookieStoreCount

namespace OpenJfx.Network

open Java Data

namespace CookieStore

def putInBucket (now : Int) (bucket : Bucket) (store : CookieStore) (cookie : Cookie) :
    CookieStore × Bool :=
  if cookie.hasExpired now then
    match bucket.get cookie.key with
    | some _ =>
      (⟨store.buckets.put cookie.domain (bucket.remove cookie.key), store.totalCount - 1⟩, false)
    | none => (store, false)
  else
    match bucket.get cookie.key with
    | some _ =>
      (⟨store.buckets.put cookie.domain (bucket.put cookie.key cookie), store.totalCount⟩, false)
    | none =>
      (⟨store.buckets.put cookie.domain (bucket.put cookie.key cookie), store.totalCount + 1⟩,
        true)

/-- The first step of `put`. -/
def insert (now : Int) (store : CookieStore) (cookie : Cookie) : CookieStore × Bool :=
  putInBucket now (store.bucketOf cookie.domain).1 (store.bucketOf cookie.domain).2 cookie

variable (entrySet : IterationOrder (JString × Bucket)) (removalQueue : RemovalOrder)

def purgeFull (now : Int) (store : CookieStore) (domain : JString) : Option CookieStore :=
  match store.buckets.get domain with
  | none => some store
  | some bucket =>
    match (if bucket.size > maxBucketSize then purgeBucket now bucket store.totalCount
      else (bucket, store.totalCount)) with
    | (bucket, totalCount) =>
      if totalCount > totalCountUpperThreshold then
        purge entrySet removalQueue now ⟨store.buckets.put domain bucket, totalCount⟩
      else some ⟨store.buckets.put domain bucket, totalCount⟩

theorem put_eq_insert (now : Int) (store : CookieStore) (cookie : Cookie) :
    store.put entrySet removalQueue now cookie =
      if (store.insert now cookie).2 then
        purgeFull entrySet removalQueue now (store.insert now cookie).1 cookie.domain
      else some (store.insert now cookie).1 := by
  unfold put insert
  rcases store.bucketOf cookie.domain with ⟨bucket, store₁⟩
  dsimp only
  unfold putInBucket
  cases hexpired : cookie.hasExpired now with
  | true => cases bucket.get cookie.key <;> rfl
  | false =>
    cases bucket.get cookie.key with
    | some old => rfl
    | none =>
      simp only [Bool.false_eq_true, if_false, if_true, purgeFull, HashMap.get_put,
        HashMap.put_put]

/-- All cookies of the first store lie in the second one. -/
def Within (store' store : CookieStore) : Prop :=
  ∀ cookie, store'.Stored cookie → store.Stored cookie

theorem Within.refl (store : CookieStore) : store.Within store := fun _ h => h

theorem Within.trans {store₁ store₂ store₃ : CookieStore} (h₁ : store₁.Within store₂)
    (h₂ : store₂.Within store₃) : store₁.Within store₃ := fun cookie h => h₂ cookie (h₁ cookie h)

theorem within_putBucket {store : CookieStore} {domain : JString} {bucket bucket' : Bucket}
    (hbkt : store.buckets.get domain = some bucket)
    (hsubset : ∀ entry ∈ bucket'.entries, entry ∈ bucket.entries) (totalCount : Int) :
    Within ⟨store.buckets.put domain bucket', totalCount⟩ store := by
  rintro cookie ⟨found, hfound, hcookie⟩
  rw [HashMap.get_put] at hfound
  split_ifs at hfound with hdom
  · cases hfound
    refine ⟨bucket, hdom ▸ hbkt, ?_⟩
    rw [HashMap.get_eq_some_iff] at hcookie ⊢
    exact hsubset _ hcookie
  · exact ⟨found, hfound, hcookie⟩

section

variable (now : Int)

theorem entries_live_subset (bucket : Bucket) :
    ∀ entry ∈ (bucket.live now).entries, entry ∈ bucket.entries :=
  fun _ hentry => (Bucket.mem_live.mp hentry).1

theorem entries_remove_subset (bucket : Bucket) (key : CookieKey) :
    ∀ entry ∈ (bucket.remove key).entries, entry ∈ bucket.entries :=
  fun _ hentry => (List.mem_filter.mp hentry).1

theorem entries_purgeBucket_subset (bucket : Bucket) (totalCount : Int) :
    ∀ entry ∈ (purgeBucket now bucket totalCount).1.entries, entry ∈ bucket.entries := by
  unfold purgeBucket
  rw [sweep_entries]
  dsimp only
  split_ifs with hexcess
  · cases (bucket.live now).values.foldl earlier none with
    | none => exact entries_live_subset now bucket
    | some cookie =>
      intro entry hentry
      exact entries_live_subset now bucket entry (entries_remove_subset _ _ entry hentry)
  · exact entries_live_subset now bucket

theorem sweepBuckets_within (entries : List (JString × Bucket)) :
    ∀ (queue : List Cookie) (store : CookieStore), (entries.map Prod.fst).Nodup →
      (∀ entry ∈ entries, store.buckets.get entry.1 = some entry.2) →
      (sweepBuckets now entries (queue, store)).2.Within store := by
  induction entries with
  | nil => exact fun _ store _ _ => Within.refl store
  | cons entry entries ih =>
    intro queue store hnd hentries
    rcases entry with ⟨domain, bucket⟩
    rw [List.map_cons, List.nodup_cons] at hnd
    rw [sweepBuckets_cons]
    refine (ih _ _ hnd.2 ?_).trans (within_putBucket (hentries _ List.mem_cons_self)
      (entries_live_subset now bucket) _)
    intro entry hentry
    have hne : entry.1 ≠ domain := fun hdom =>
      hnd.1 (List.mem_map.mpr ⟨entry, hentry, hdom⟩)
    rw [HashMap.get_put, if_neg hne]
    exact hentries entry (List.mem_cons_of_mem _ hentry)

theorem removeExcess_within (queue : List Cookie) :
    ∀ store store' : CookieStore, removeExcess queue store = some store' → store'.Within store := by
  induction queue with
  | nil =>
    intro store store' h
    rw [removeExcess] at h
    split_ifs at h
    cases h
    exact Within.refl store
  | cons cookie queue ih =>
    intro store store' h
    rw [removeExcess] at h
    split_ifs at h
    · cases hbkt : store.buckets.get cookie.domain with
      | none =>
        rw [hbkt] at h
        exact ih store store' h
      | some bucket =>
        rw [hbkt] at h
        exact (ih _ store' h).trans
          (within_putBucket hbkt (entries_remove_subset bucket cookie.key) _)
    · cases h
      exact Within.refl store

theorem purge_within {store store' : CookieStore}
    (h : store.purge entrySet removalQueue now = some store') : store'.Within store := by
  have hperm := entrySet.perm store.buckets.entries
  have hnd : ((entrySet.order store.buckets.entries).map Prod.fst).Nodup :=
    (hperm.map Prod.fst).nodup_iff.mpr store.buckets.keys_nodup
  refine (removeExcess_within _ _ store' h).trans (sweepBuckets_within now _ _ _ hnd ?_)
  intro entry hentry
  exact HashMap.get_eq_some_iff.mpr (hperm.mem_iff.mp hentry)

theorem purgeFull_within {store store' : CookieStore} {domain : JString}
    (h : purgeFull entrySet removalQueue now store domain = some store') :
    store'.Within store := by
  unfold purgeFull at h
  cases hbkt : store.buckets.get domain with
  | none =>
    rw [hbkt] at h
    cases h
    exact Within.refl store
  | some bucket =>
    rw [hbkt] at h
    dsimp only at h
    generalize hpurged : (if bucket.size > maxBucketSize then
      purgeBucket now bucket store.totalCount else (bucket, store.totalCount)) = purged at h
    have hsubset : ∀ entry ∈ purged.1.entries, entry ∈ bucket.entries := by
      rw [← hpurged]
      split_ifs
      · exact entries_purgeBucket_subset now bucket _
      · exact fun _ hentry => hentry
    have hwithin := within_putBucket hbkt hsubset purged.2
    split_ifs at h
    · exact (purge_within entrySet removalQueue now h).trans hwithin
    · cases h
      exact hwithin

theorem getCookie_within (store : CookieStore) (cookie : Cookie) :
    (store.getCookie now cookie).2.Within store := by
  unfold getCookie
  cases hbkt : store.buckets.get cookie.domain with
  | none => exact Within.refl store
  | some bucket =>
    dsimp only
    cases bucket.get cookie.key with
    | none => exact Within.refl store
    | some storedCookie =>
      dsimp only
      split_ifs
      · exact within_putBucket hbkt (entries_remove_subset bucket _) _
      · exact Within.refl store

theorem stored_bucketOf (store : CookieStore) (domain : JString) {cookie : Cookie} :
    (store.bucketOf domain).2.Stored cookie ↔ store.Stored cookie := by
  unfold bucketOf
  cases hbkt : store.buckets.get domain with
  | some bucket => rfl
  | none =>
    constructor
    · rintro ⟨bucket, hget, hcookie⟩
      rw [HashMap.get_put] at hget
      split_ifs at hget
      · cases hget
        exact nomatch hcookie
      · exact ⟨bucket, hget, hcookie⟩
    · rintro ⟨bucket, hget, hcookie⟩
      refine ⟨bucket, ?_, hcookie⟩
      rw [HashMap.get_put, if_neg]
      · exact hget
      · intro hdom
        rw [hdom, hbkt] at hget
        exact nomatch hget

theorem get_bucketOf (store : CookieStore) (domain : JString) :
    (store.bucketOf domain).2.buckets.get domain = some (store.bucketOf domain).1 := by
  unfold bucketOf
  cases hbkt : store.buckets.get domain with
  | some bucket => exact hbkt
  | none => exact (HashMap.get_put _ _ _ _).trans (if_pos rfl)

theorem stored_putBucket {store : CookieStore} {cookie : Cookie} {bucket b : Bucket}
    (hbkt : store.buckets.get cookie.domain = some bucket)
    (hsame : ∀ key, key ≠ cookie.key → b.get key = bucket.get key)
    (hcookie : ∀ old, b.get cookie.key = some old → old = cookie) (totalCount : Int)
    (other : Cookie) :
    (Stored ⟨store.buckets.put cookie.domain b, totalCount⟩ other →
        other = cookie ∨ store.Stored other) ∧
      (other.key ≠ cookie.key → store.Stored other →
        Stored ⟨store.buckets.put cookie.domain b, totalCount⟩ other) := by
  constructor
  · rintro ⟨found, hfound, hother⟩
    rw [HashMap.get_put] at hfound
    split_ifs at hfound with hdom
    · cases hfound
      rcases Decidable.em (other.key = cookie.key) with hkey | hkey
      · rw [hkey] at hother
        exact .inl (hcookie other hother)
      · rw [hsame _ hkey] at hother
        exact .inr ⟨bucket, hdom ▸ hbkt, hother⟩
    · exact .inr ⟨found, hfound, hother⟩
  · rintro hkey ⟨found, hfound, hother⟩
    rcases Decidable.em (other.domain = cookie.domain) with hdom | hdom
    · rw [hdom, hbkt] at hfound
      cases hfound
      refine ⟨b, ?_, ?_⟩
      · rw [HashMap.get_put, if_pos hdom]
      · rw [hsame _ hkey]
        exact hother
    · refine ⟨found, ?_, hother⟩
      rw [HashMap.get_put, if_neg hdom]
      exact hfound

theorem insert_stored (store : CookieStore) (cookie other : Cookie) :
    ((store.insert now cookie).1.Stored other → other = cookie ∨ store.Stored other) ∧
      (other.key ≠ cookie.key → store.Stored other → (store.insert now cookie).1.Stored other) := by
  have hbkt := get_bucketOf store cookie.domain
  rw [← stored_bucketOf store cookie.domain]
  unfold insert
  generalize store.bucketOf cookie.domain = found at hbkt
  rcases found with ⟨bucket, store₁⟩
  have hput := stored_putBucket (b := bucket.put cookie.key cookie) hbkt
    (fun key hkey => (HashMap.get_put ..).trans (if_neg hkey)) (by
      intro old hold
      rw [HashMap.get_put, if_pos rfl] at hold
      exact (Option.some.inj hold).symm)
  have hremove := stored_putBucket (b := bucket.remove cookie.key) hbkt
    (fun key hkey => (HashMap.get_remove ..).trans (if_neg hkey)) (by
      intro old hold
      rw [HashMap.get_remove, if_pos rfl] at hold
      exact nomatch hold)
  unfold putInBucket
  split_ifs
  · cases bucket.get cookie.key with
    | some old => exact hremove _ other
    | none => exact ⟨.inr, fun _ h => h⟩
  · cases bucket.get cookie.key with
    | some old => exact hput _ other
    | none => exact hput _ other

theorem getCookie_stored {store : CookieStore} (h : store.Counted) {other : Cookie}
    (hstored : store.Stored other) (hlive : other.hasExpired now = false) (cookie : Cookie) :
    (store.getCookie now cookie).2.Stored other ∧
      (other.key = cookie.key → (store.getCookie now cookie).1 = some other) := by
  have hdomain_of_key : other.key = cookie.key → other.domain = cookie.domain :=
    congrArg fun key : CookieKey => key.2.1
  unfold getCookie
  cases hbkt : store.buckets.get cookie.domain with
  | none =>
    refine ⟨hstored, ?_⟩
    intro hkey
    rcases hstored with ⟨bucket, hget, -⟩
    rw [hdomain_of_key hkey, hbkt] at hget
    exact nomatch hget
  | some bucket =>
    have hfound : other.key = cookie.key → bucket.get cookie.key = some other := by
      intro hkey
      rcases hstored with ⟨bucket', hget, hother⟩
      rw [hdomain_of_key hkey, hbkt] at hget
      cases hget
      rw [← hkey]
      exact hother
    dsimp only
    cases hcookie : bucket.get cookie.key with
    | none =>
      refine ⟨hstored, ?_⟩
      intro hkey
      exact nomatch (hcookie.symm.trans (hfound hkey))
    | some storedCookie =>
      have heq : other.key = cookie.key → storedCookie = other := by
        intro hkey
        exact Option.some.inj (hcookie.symm.trans (hfound hkey))
      have hplaced := (h.get hbkt).2 _ (HashMap.get_eq_some_iff.mp hcookie)
      dsimp only at hplaced ⊢
      split_ifs with hexpired
      · have hne : other.key ≠ cookie.key := by
          intro hkey
          rw [heq hkey, hlive] at hexpired
          exact nomatch hexpired
        refine ⟨?_, fun hkey => absurd hkey hne⟩
        rw [hplaced.2]
        refine (stored_putBucket hbkt ?_ ?_ _ other).2 hne hstored
        · intro key hkey
          rw [HashMap.get_remove, if_neg hkey]
        · intro old hold
          rw [HashMap.get_remove, if_pos rfl] at hold
          exact nomatch hold
      · exact ⟨hstored, fun hkey => congrArg some (heq hkey)⟩

end

end CookieStore

end OpenJfx.Network
