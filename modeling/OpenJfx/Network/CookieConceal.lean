import OpenJfx.Network.CookieManager
import OpenJfx.Network.CookieStoreGet
import OpenJfx.Network.CookieStorePut

namespace OpenJfx.Network

open Java Data List

def Cookie.conceal (cookie : Cookie) : Cookie :=
  { cookie with value := if cookie.httpOnly then [] else cookie.value }

theorem Cookie.conceal_of_not_httpOnly {cookie : Cookie} (h : cookie.httpOnly = false) :
    cookie.conceal = cookie := by
  rw [Cookie.conceal, if_neg (by rw [h]; decide)]

def Bucket.conceal (bucket : Bucket) : Bucket := bucket.mapValues Cookie.conceal

theorem Bucket.live_conceal (now : Int) (bucket : Bucket) :
    bucket.conceal.live now = (bucket.live now).conceal :=
  bucket.retain_mapValues Cookie.conceal fun _ => rfl

namespace CookieStore

def conceal (store : CookieStore) : CookieStore where
  buckets := store.buckets.mapValues Bucket.conceal
  totalCount := store.totalCount

theorem get_conceal (store : CookieStore) (domain : JString) :
    store.conceal.buckets.get domain = (store.buckets.get domain).map Bucket.conceal :=
  HashMap.get_mapValues _ _ _

theorem Bucket.get_conceal (bucket : Bucket) (key : CookieKey) :
    bucket.conceal.get key = (bucket.get key).map Cookie.conceal :=
  HashMap.get_mapValues _ _ _

theorem Bucket.size_conceal (bucket : Bucket) : bucket.conceal.size = bucket.size :=
  HashMap.size_mapValues _ _

theorem conceal_putBucket (buckets : HashMap JString Bucket) (domain : JString) (bucket : Bucket)
    (totalCount : Int) :
    conceal ⟨buckets.put domain bucket, totalCount⟩ =
      ⟨(buckets.mapValues Bucket.conceal).put domain bucket.conceal, totalCount⟩ := by
  rw [conceal, HashMap.mapValues_put]

variable (now : Int)

theorem getCookie_conceal (store : CookieStore) (cookie : Cookie) :
    store.conceal.getCookie now cookie.conceal =
      ((store.getCookie now cookie).1.map Cookie.conceal,
        (store.getCookie now cookie).2.conceal) := by
  unfold getCookie
  rw [show cookie.conceal.domain = cookie.domain from rfl, get_conceal]
  cases hbkt : store.buckets.get cookie.domain with
  | none => rfl
  | some bucket =>
    dsimp only [Option.map_some]
    rw [show cookie.conceal.key = cookie.key from rfl, Bucket.get_conceal]
    cases hstored : bucket.get cookie.key with
    | none => rfl
    | some storedCookie =>
      dsimp only [Option.map_some]
      change (if storedCookie.hasExpired now = true then _ else _) = _
      split_ifs with hexpired
      · rw [conceal_putBucket, Bucket.conceal, Bucket.conceal, HashMap.mapValues_remove]
        rfl
      · rfl

section Get

variable (foldCase : UInt16 → UInt16) (query : Query)

theorem found_conceal (bucket : Bucket) :
    found foldCase now query bucket.conceal =
      (found foldCase now query bucket).map Cookie.conceal := by
  rw [found, Bucket.live_conceal, Bucket.conceal, HashMap.values_mapValues, filter_map]
  rfl

theorem visit_conceal (list : List Cookie) (store : CookieStore) (domain : JString) :
    visit foldCase now query (list.map Cookie.conceal, store.conceal) domain =
      ((visit foldCase now query (list, store) domain).1.map Cookie.conceal,
        (visit foldCase now query (list, store) domain).2.conceal) := by
  cases hbkt : store.buckets.get domain with
  | none =>
    have hconceal : store.conceal.buckets.get domain = none := by
      rw [get_conceal, hbkt]
      rfl
    rw [visit_of_none foldCase now query hconceal, visit_of_none foldCase now query hbkt]
  | some bucket =>
    have hconceal : store.conceal.buckets.get domain = some bucket.conceal := by
      rw [get_conceal, hbkt]
      rfl
    rw [visit_of_some foldCase now query hconceal, visit_of_some foldCase now query hbkt,
      found_conceal, map_append, conceal_putBucket, Bucket.live_conceal,
      Bucket.size_conceal, Bucket.size_conceal]
    rfl

theorem foldl_visit_conceal (visited : List JString) (list : List Cookie) (store : CookieStore) :
    visited.foldl (visit foldCase now query) (list.map Cookie.conceal, store.conceal) =
      ((visited.foldl (visit foldCase now query) (list, store)).1.map Cookie.conceal,
        (visited.foldl (visit foldCase now query) (list, store)).2.conceal) := by
  induction visited generalizing list store with
  | nil => rfl
  | cons domain visited ih => rw [foldl_cons, visit_conceal, ih, foldl_cons]

theorem setLastAccessTime_conceal (store : CookieStore) (cookie : Cookie) :
    store.conceal.setLastAccessTime now cookie.conceal =
      (store.setLastAccessTime now cookie).conceal := by
  unfold setLastAccessTime
  rw [show cookie.conceal.domain = cookie.domain from rfl, get_conceal]
  cases store.buckets.get cookie.domain with
  | none => rfl
  | some bucket =>
    dsimp only [Option.map_some]
    rw [conceal_putBucket, Bucket.conceal, Bucket.conceal, HashMap.mapValues_put]
    rfl

theorem foldl_setLastAccessTime_conceal (result : List Cookie) (store : CookieStore) :
    (result.map Cookie.conceal).foldl (setLastAccessTime now) store.conceal =
      (result.foldl (setLastAccessTime now) store).conceal := by
  induction result generalizing store with
  | nil => rfl
  | cons cookie result ih =>
    rw [map_cons, foldl_cons, setLastAccessTime_conceal, ih, foldl_cons]

theorem get_query_conceal (store : CookieStore) :
    store.conceal.get foldCase now query =
      ((store.get foldCase now query).1.map Cookie.conceal,
        (store.get foldCase now query).2.conceal) := by
  have hloop := foldl_visit_conceal now foldCase query (domains query.hostname) [] store
  rw [← getLoop_eq_foldl, ← getLoop_eq_foldl, map_nil] at hloop
  unfold CookieStore.get
  rw [hloop]
  generalize getLoop foldCase now query query.hostname ([], store) = state
  rcases state with ⟨list, after⟩
  have hsort : (list.map Cookie.conceal).mergeSort (fun c1 c2 => GetComparator.compare c1 c2 ≤ 0) =
      (list.mergeSort fun c1 c2 => GetComparator.compare c1 c2 ≤ 0).map Cookie.conceal := by
    symm
    apply map_mergeSort
    intro c1 _ c2 _
    rfl
  dsimp only
  rw [hsort, foldl_setLastAccessTime_conceal, map_map, map_map]
  rfl

theorem httpOnly_of_mem_get (store : CookieStore) (h : query.httpApi = false) {cookie : Cookie}
    (hcookie : cookie ∈ (store.get foldCase now query).1) : cookie.httpOnly = false := by
  rw [get_fst] at hcookie
  rcases mem_map.mp hcookie with ⟨found, hfound, rfl⟩
  rw [mem_mergeSort, mem_flatMap] at hfound
  rcases hfound with ⟨domain, -, hfound⟩
  rw [foundAt] at hfound
  cases hbkt : store.buckets.get domain with
  | none =>
    rw [hbkt] at hfound
    cases hfound
  | some bucket =>
    rw [hbkt] at hfound
    have haccepts := (mem_filter.mp hfound).2
    simp only [accepts, h, Bool.and_eq_true] at haccepts
    change found.httpOnly = false
    simpa using haccepts.2

end Get

section Put

theorem earlier_conceal (earliest : Option Cookie) (cookie : Cookie) :
    earlier (earliest.map Cookie.conceal) cookie.conceal =
      (earlier earliest cookie).map Cookie.conceal := by
  cases earliest with
  | none => rfl
  | some earliestCookie =>
    dsimp only [earlier, Option.map_some]
    change (if cookie.lastAccessTime < earliestCookie.lastAccessTime then _ else _) = _
    split_ifs <;> rfl

theorem foldl_earlier_conceal (cookies : List Cookie) (earliest : Option Cookie) :
    (cookies.map Cookie.conceal).foldl earlier (earliest.map Cookie.conceal) =
      (cookies.foldl earlier earliest).map Cookie.conceal := by
  induction cookies generalizing earliest with
  | nil => rfl
  | cons cookie cookies ih =>
    rw [map_cons, foldl_cons, earlier_conceal, ih, foldl_cons]

theorem purgeBucket_conceal (bucket : Bucket) (totalCount : Int) :
    purgeBucket now bucket.conceal totalCount =
      ((purgeBucket now bucket totalCount).1.conceal, (purgeBucket now bucket totalCount).2) := by
  have hearliest : (bucket.live now).conceal.values.foldl earlier none =
      ((bucket.live now).values.foldl earlier none).map Cookie.conceal := by
    rw [Bucket.conceal, HashMap.values_mapValues]
    exact foldl_earlier_conceal _ none
  unfold purgeBucket
  rw [sweep_entries, sweep_entries, Bucket.live_conceal, hearliest, Bucket.size_conceal]
  dsimp only
  rw [Bucket.size_conceal]
  split_ifs with hexcess
  · cases (bucket.live now).values.foldl earlier none with
    | none => rfl
    | some cookie =>
      rw [Bucket.conceal, Bucket.conceal, HashMap.mapValues_remove]
      rfl
  · rfl

theorem sweepBuckets_conceal (entries : List (JString × Bucket)) (queue : List Cookie)
    (store : CookieStore) :
    sweepBuckets now (entries.map (Prod.map id Bucket.conceal))
        (queue.map Cookie.conceal, store.conceal) =
      ((sweepBuckets now entries (queue, store)).1.map Cookie.conceal,
        (sweepBuckets now entries (queue, store)).2.conceal) := by
  induction entries generalizing queue store with
  | nil => rfl
  | cons entry entries ih =>
    rcases entry with ⟨domain, bucket⟩
    rw [map_cons, Prod.map_apply, sweepBuckets_cons, sweepBuckets_cons, ← ih, map_append,
      conceal_putBucket, Bucket.live_conceal, Bucket.size_conceal, Bucket.size_conceal,
      Bucket.conceal, HashMap.values_mapValues]
    rfl

theorem removeExcess_conceal (queue : List Cookie) (store : CookieStore) :
    removeExcess (queue.map Cookie.conceal) store.conceal =
      (removeExcess queue store).map conceal := by
  induction queue generalizing store with
  | nil =>
    rw [map_nil, removeExcess, removeExcess]
    change (if store.totalCount > totalCountLowerThreshold then _ else _) = _
    split_ifs <;> rfl
  | cons cookie queue ih =>
    rw [map_cons, removeExcess, removeExcess]
    rw [show cookie.conceal.domain = cookie.domain from rfl, get_conceal,
      show store.conceal.totalCount = store.totalCount from rfl]
    split_ifs with hexcess
    · cases store.buckets.get cookie.domain with
      | none => exact ih store
      | some bucket =>
        dsimp only [Option.map_some]
        rw [← ih, conceal_putBucket, Bucket.conceal, Bucket.conceal,
          HashMap.mapValues_remove]
        rfl
    · rfl

variable (entrySet : EntrySet) (removalQueue : RemovalQueue)

theorem purge_conceal (store : CookieStore) :
    store.conceal.purge entrySet.toIterationOrder removalQueue.toRemovalOrder now =
      (store.purge entrySet.toIterationOrder removalQueue.toRemovalOrder now).map conceal := by
  unfold purge
  have hentries : store.conceal.buckets.entries =
      store.buckets.entries.map (Prod.map id Bucket.conceal) := rfl
  have hsweep := sweepBuckets_conceal now (entrySet.order store.buckets.entries) [] store
  rw [map_nil] at hsweep
  rw [hentries, entrySet.by_keys, hsweep]
  dsimp only
  rw [removalQueue.by_time Cookie.conceal fun _ => rfl, removeExcess_conceal]

theorem bucketOf_conceal (store : CookieStore) (domain : JString) :
    store.conceal.bucketOf domain =
      ((store.bucketOf domain).1.conceal, (store.bucketOf domain).2.conceal) := by
  unfold bucketOf
  rw [get_conceal]
  cases store.buckets.get domain with
  | some bucket => rfl
  | none =>
    rw [conceal_putBucket]
    rfl

theorem insert_conceal (store : CookieStore) (cookie : Cookie) :
    store.conceal.insert now cookie.conceal =
      ((store.insert now cookie).1.conceal, (store.insert now cookie).2) := by
  have hbkt := bucketOf_conceal store cookie.domain
  unfold insert
  change putInBucket now (store.conceal.bucketOf cookie.domain).1
    (store.conceal.bucketOf cookie.domain).2 cookie.conceal = _
  rw [hbkt]
  generalize store.bucketOf cookie.domain = found
  rcases found with ⟨bucket, store₁⟩
  have hput : bucket.conceal.put cookie.key cookie.conceal =
      Bucket.conceal (bucket.put cookie.key cookie) := (HashMap.mapValues_put _ _ _ _).symm
  have hremove : bucket.conceal.remove cookie.key = Bucket.conceal (bucket.remove cookie.key) :=
    (HashMap.mapValues_remove _ _ _).symm
  have hget : bucket.conceal.get cookie.conceal.key = (bucket.get cookie.key).map Cookie.conceal :=
    Bucket.get_conceal bucket cookie.key
  unfold putInBucket
  rw [hget]
  change (if cookie.hasExpired now = true then _ else _) = _
  split_ifs with hexpired
  · cases bucket.get cookie.key with
    | none => rfl
    | some old =>
      rw [conceal_putBucket, ← hremove]
      rfl
  · cases bucket.get cookie.key with
    | some old | none =>
      rw [conceal_putBucket, ← hput]
      rfl

theorem purgeFull_conceal (store : CookieStore) (domain : JString) :
    purgeFull entrySet.toIterationOrder removalQueue.toRemovalOrder now store.conceal domain =
      (purgeFull entrySet.toIterationOrder removalQueue.toRemovalOrder now store domain).map
        conceal := by
  unfold purgeFull
  rw [get_conceal]
  cases store.buckets.get domain with
  | none => rfl
  | some bucket =>
    have hpurge : (if bucket.conceal.size > maxBucketSize then
          purgeBucket now bucket.conceal store.conceal.totalCount
        else (bucket.conceal, store.conceal.totalCount)) =
        ((if bucket.size > maxBucketSize then purgeBucket now bucket store.totalCount
          else (bucket, store.totalCount)).1.conceal,
        (if bucket.size > maxBucketSize then purgeBucket now bucket store.totalCount
          else (bucket, store.totalCount)).2) := by
      rw [Bucket.size_conceal, purgeBucket_conceal]
      split_ifs <;> rfl
    dsimp only [Option.map_some]
    rw [hpurge]
    generalize (if bucket.size > maxBucketSize then purgeBucket now bucket store.totalCount
          else (bucket, store.totalCount)) = purged
    rcases purged with ⟨bucket, totalCount⟩
    have hstore : (⟨store.conceal.buckets.put domain bucket.conceal, totalCount⟩ : CookieStore) =
        conceal ⟨store.buckets.put domain bucket, totalCount⟩ := (conceal_putBucket ..).symm
    rw [hstore, purge_conceal]
    split_ifs <;> rfl

theorem put_conceal (store : CookieStore) (cookie : Cookie) :
    store.conceal.put entrySet.toIterationOrder removalQueue.toRemovalOrder now cookie.conceal =
      (store.put entrySet.toIterationOrder removalQueue.toRemovalOrder now cookie).map
        conceal := by
  have hpurge := purgeFull_conceal now entrySet removalQueue (store.insert now cookie).1
    cookie.domain
  rw [put_eq_insert, put_eq_insert, insert_conceal]
  split_ifs with hadded
  · exact hpurge
  · rfl

end Put

end CookieStore

end OpenJfx.Network
