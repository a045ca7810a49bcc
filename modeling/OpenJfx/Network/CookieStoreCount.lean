import OpenJfx.Network.CookieStore
import Mathlib.Algebra.BigOperators.Group.List.Basic

namespace OpenJfx.Network

open Java Data List HashMap

def Bucket.live (now : Int) (bucket : Bucket) : Bucket :=
  bucket.retain fun cookie => !cookie.hasExpired now

namespace CookieStore

section Sweep

variable {σ : Type} (now : Int) (body : σ → Cookie → σ)

theorem sweep_append (entries : List (CookieKey × Cookie)) (done : List (CookieKey × Cookie))
    (s : σ) (bucket : Bucket) (totalCount : Int) (h : bucket.entries = done ++ entries) :
    ∃ left : Bucket,
      left.entries = done ++ entries.filter (fun entry => !entry.2.hasExpired now) ∧
      sweep now body entries (s, bucket, totalCount) =
        (((entries.filter fun entry => !entry.2.hasExpired now).map Prod.snd).foldl body s, left,
          totalCount - (bucket.size - left.size)) := by
  induction entries generalizing done s bucket totalCount with
  | nil => exact ⟨bucket, h, by simp [sweep]⟩
  | cons entry entries ih =>
    rcases entry with ⟨key, cookie⟩
    cases hexpired : cookie.hasExpired now with
    | true =>
      have hremove : (bucket.remove key).entries = done ++ entries := by
        have hnd := bucket.keys_nodup
        rw [h, map_append, map_cons, nodup_middle, nodup_cons,
          mem_append, not_or] at hnd
        change bucket.entries.filter _ = _
        rw [h, filter_append, filter_cons_of_neg (by simp), filter_eq_self.mpr,
          filter_eq_self.mpr]
        · rintro ⟨k, c⟩ hmem
          rw [decide_eq_true_eq]
          rintro rfl
          exact hnd.1.2 (mem_map.mpr ⟨_, hmem, rfl⟩)
        · rintro ⟨k, c⟩ hmem
          rw [decide_eq_true_eq]
          rintro rfl
          exact hnd.1.1 (mem_map.mpr ⟨_, hmem, rfl⟩)
      rcases ih done s (bucket.remove key) (totalCount - 1) hremove with ⟨left, hleft, hsweep⟩
      refine ⟨left, ?_, ?_⟩
      · rw [hleft, filter_cons_of_neg (by simp [hexpired])]
      · have hsize : bucket.size = (bucket.remove key).size + 1 := by
          rw [size, size, h, hremove]
          simp only [length_append, length_cons]
          omega
        rw [sweep, if_pos hexpired, hsweep, filter_cons_of_neg (by simp [hexpired])]
        congr 2
        omega
    | false =>
      have hdone : bucket.entries = (done ++ [(key, cookie)]) ++ entries := by
        rw [h, append_assoc, singleton_append]
      rcases ih _ (body s cookie) bucket totalCount hdone with ⟨left, hleft, hsweep⟩
      refine ⟨left, ?_, ?_⟩
      · rw [hleft, filter_cons_of_pos (by simp [hexpired]), append_assoc,
          singleton_append]
      · rw [sweep, if_neg (by simp [hexpired]), hsweep,
          filter_cons_of_pos (by simp [hexpired])]
        rfl

theorem sweep_entries (s : σ) (bucket : Bucket) (totalCount : Int) :
    sweep now body bucket.entries (s, bucket, totalCount) =
      ((bucket.live now).values.foldl body s, bucket.live now,
        totalCount - (bucket.size - (bucket.live now).size)) := by
  rcases sweep_append now body bucket.entries [] s bucket totalCount rfl with
    ⟨left, hleft, hsweep⟩
  have hlive : left = bucket.live now := by
    rcases left with ⟨entries, hnd⟩
    subst hleft
    rfl
  rw [hsweep, hlive]
  rfl

end Sweep

variable {bucket : Bucket}

theorem Bucket.mem_live {now : Int} {entry : CookieKey × Cookie} :
    entry ∈ (bucket.live now).entries ↔
      entry ∈ bucket.entries ∧ entry.2.hasExpired now = false := by
  rw [Bucket.live, retain, mem_filter, Bool.not_eq_true']

theorem Bucket.size_live_le (now : Int) (bucket : Bucket) : (bucket.live now).size ≤ bucket.size :=
  length_filter_le _ _

def Placed (domain : JString) (bucket : Bucket) : Prop :=
  ∀ entry ∈ bucket.entries, entry.2.domain = domain ∧ entry.2.key = entry.1

/-- What all calls keep, also while they are running. -/
structure Counted (store : CookieStore) : Prop where
  count : store.totalCount = ((store.buckets.values.map size).sum : Nat)
  size_le : ∀ entry ∈ store.buckets.entries, entry.2.size ≤ maxBucketSize
  placed : ∀ entry ∈ store.buckets.entries, Placed entry.1 entry.2

variable {domain : JString} {totalCount : Int}

variable {store : CookieStore}

theorem Counted.putBucket (h : store.Counted)
    (hcnt : totalCount + (((store.buckets.get domain).map size).getD 0 : Nat) =
      store.totalCount + bucket.size)
    (hsize : bucket.size ≤ maxBucketSize) (hplaced : Placed domain bucket) :
    Counted { buckets := store.buckets.put domain bucket, totalCount := totalCount } where
  count := by
    have hsum := sum_map_put size store.buckets domain bucket
    have hstore := h.count
    change totalCount = (((store.buckets.put domain bucket).values.map size).sum : Nat)
    omega
  size_le := by
    intro entry hentry
    rcases mem_put.mp hentry with rfl | ⟨hentry, -⟩
    · exact hsize
    · exact h.size_le entry hentry
  placed := by
    intro entry hentry
    rcases mem_put.mp hentry with rfl | ⟨hentry, -⟩
    · exact hplaced
    · exact h.placed entry hentry

theorem Placed.remove (h : Placed domain bucket) (key : CookieKey) :
    Placed domain (bucket.remove key) :=
  fun entry hentry => h entry (mem_filter.mp hentry).1

theorem Placed.live (h : Placed domain bucket) (now : Int) :
    Placed domain (bucket.live now) :=
  fun entry hentry => h entry (mem_filter.mp hentry).1

variable {cookie : Cookie}

theorem Placed.put (h : Placed domain bucket) (hcookie : cookie.domain = domain) :
    Placed domain (bucket.put cookie.key cookie) := by
  intro entry hentry
  rcases mem_put.mp hentry with rfl | ⟨hentry, -⟩
  · exact ⟨hcookie, rfl⟩
  · exact h entry hentry

theorem new_counted : Counted new where
  count := rfl
  size_le := nofun
  placed := nofun

theorem Counted.get (h : store.Counted) (hbkt : store.buckets.get domain = some bucket) :
    bucket.size ≤ maxBucketSize ∧ Placed domain bucket :=
  have hmem := get_eq_some_iff.mp hbkt
  ⟨h.size_le _ hmem, h.placed _ hmem⟩

theorem Counted.removeCookie (h : store.Counted) (hbkt : store.buckets.get domain = some bucket)
    {key : CookieKey} (hcookie : bucket.get key = some cookie) :
    Counted { buckets := store.buckets.put domain (bucket.remove key)
              totalCount := store.totalCount - 1 } := by
  rcases h.get hbkt with ⟨hsize, hplaced⟩
  have hremove := size_remove_of_get_eq_some hcookie
  refine h.putBucket ?_ (by omega) (hplaced.remove key)
  rw [hbkt, Option.map_some, Option.getD_some]
  omega

theorem Counted.replaceCookie (h : store.Counted) (cookie : Cookie) {old : Cookie}
    (hbkt : store.buckets.get cookie.domain = some bucket)
    (hold : bucket.get cookie.key = some old) :
    Counted { store with
      buckets := store.buckets.put cookie.domain (bucket.put cookie.key cookie) } := by
  rcases h.get hbkt with ⟨hsize, hplaced⟩
  have hput := size_put_of_get_eq_some hold cookie
  refine h.putBucket ?_ (by omega) (hplaced.put rfl)
  rw [hbkt, Option.map_some, Option.getD_some]
  omega

theorem Counted.liveBucket (h : store.Counted) (hbkt : store.buckets.get domain = some bucket)
    (now : Int) :
    Counted { buckets := store.buckets.put domain (bucket.live now)
              totalCount := store.totalCount - (bucket.size - (bucket.live now).size) } := by
  rcases h.get hbkt with ⟨hsize, hplaced⟩
  refine h.putBucket ?_ ((Bucket.size_live_le now bucket).trans hsize) (hplaced.live now)
  rw [hbkt, Option.map_some, Option.getD_some]
  omega

theorem getCookie_counted (h : store.Counted) (now : Int) (cookie : Cookie) :
    (store.getCookie now cookie).2.Counted ∧
      (store.getCookie now cookie).2.totalCount ≤ store.totalCount := by
  unfold getCookie
  split
  · exact ⟨h, Int.le_refl _⟩
  · next bucket hbkt =>
      split
      · exact ⟨h, Int.le_refl _⟩
      · next storedCookie hstored =>
          split
          · have hkey : storedCookie.key = cookie.key :=
              ((h.get hbkt).2 _ (get_eq_some_iff.mp hstored)).2
            rw [hkey]
            exact ⟨h.removeCookie hbkt hstored, Int.sub_le_self _ Int.one_nonneg⟩
          · exact ⟨h, Int.le_refl _⟩

def Stored (store : CookieStore) (cookie : Cookie) : Prop :=
  ∃ bucket, store.buckets.get cookie.domain = some bucket ∧ bucket.get cookie.key = some cookie

def HasKey (store : CookieStore) (cookie : Cookie) : Prop :=
  ∃ bucket old, store.buckets.get cookie.domain = some bucket ∧ bucket.get cookie.key = some old

theorem HasKey.putBucket (h : store.HasKey cookie)
    {bucket' : Bucket} (hbkt : store.buckets.get domain = some bucket)
    (hkeys : ∀ old, cookie.domain = domain → bucket.get cookie.key = some old →
      ∃ new, bucket'.get cookie.key = some new) :
    HasKey { buckets := store.buckets.put domain bucket', totalCount := totalCount } cookie := by
  rcases h with ⟨bucket₀, old, hbkt₀, hold⟩
  by_cases hdom : cookie.domain = domain
  · rw [hdom, hbkt] at hbkt₀
    cases hbkt₀
    rcases hkeys old hdom hold with ⟨new, hnew⟩
    refine ⟨bucket', new, ?_, hnew⟩
    rw [get_put, if_pos hdom]
  · refine ⟨bucket₀, old, ?_, hold⟩
    rw [get_put, if_neg hdom]
    exact hbkt₀

section Get

variable (foldCase : UInt16 → UInt16) (now : Int) (query : Query)

theorem foldl_filter_append (p : Cookie → Bool) (cookies list : List Cookie) :
    cookies.foldl (fun list cookie => if p cookie then list ++ [cookie] else list) list =
      list ++ cookies.filter p := by
  induction cookies generalizing list with
  | nil => simp
  | cons cookie cookies ih =>
    rw [foldl_cons, ih]
    by_cases hp : p cookie = true
    · rw [if_pos hp, filter_cons_of_pos hp, append_assoc, singleton_append]
    · rw [if_neg hp, filter_cons_of_neg hp]

/-- What a round of the loop finds in a bucket. -/
def found (bucket : Bucket) : List Cookie :=
  (bucket.live now).values.filter (accepts foldCase query)

variable {state : List Cookie × CookieStore} {domain : JString}

theorem visit_of_none (h : state.2.buckets.get domain = none) :
    visit foldCase now query state domain = state := by
  unfold visit
  rw [h]

theorem visit_of_some {bucket : Bucket} (h : state.2.buckets.get domain = some bucket) :
    visit foldCase now query state domain =
      (state.1 ++ found foldCase now query bucket,
        { buckets := state.2.buckets.put domain (bucket.live now)
          totalCount := state.2.totalCount - (bucket.size - (bucket.live now).size) }) := by
  unfold visit
  rw [h]
  dsimp only
  rw [find, sweep_entries, foldl_filter_append]
  rfl

/-- The store in the loop of `get`, which holds what has been found so far. -/
structure Finds (totalCount : Int) (state : List Cookie × CookieStore) : Prop where
  counted : state.2.Counted
  totalCount_le : state.2.totalCount ≤ totalCount
  stored : ∀ cookie ∈ state.1, state.2.Stored cookie ∧ cookie.hasExpired now = false

theorem mem_found {bucket : Bucket} (hplaced : Placed domain bucket) {cookie : Cookie}
    (h : cookie ∈ found foldCase now query bucket) :
    cookie.domain = domain ∧ (bucket.live now).get cookie.key = some cookie ∧
      cookie.hasExpired now = false := by
  rcases mem_map.mp (mem_filter.mp h).1 with ⟨⟨key, _⟩, hlive, rfl⟩
  rcases Bucket.mem_live.mp hlive with ⟨hmem, hexpired⟩
  rcases hplaced _ hmem with ⟨hdom, hkey⟩
  refine ⟨hdom, ?_, hexpired⟩
  rw [get_eq_some_iff, hkey]
  exact hlive

theorem visit_finds {totalCount : Int} (h : Finds now totalCount state) (domain : JString) :
    Finds now totalCount (visit foldCase now query state domain) := by
  cases hbkt : state.2.buckets.get domain with
  | none =>
    rw [visit_of_none foldCase now query hbkt]
    exact h
  | some bucket =>
    rw [visit_of_some foldCase now query hbkt]
    have hle := Bucket.size_live_le now bucket
    have htotal := h.totalCount_le
    refine ⟨h.counted.liveBucket hbkt now, by dsimp only; omega, ?_⟩
    intro cookie hcookie
    rcases mem_append.mp hcookie with hcookie | hcookie
    · rcases h.stored cookie hcookie with ⟨⟨bucket', hbkt', hget⟩, hexpired⟩
      refine ⟨?_, hexpired⟩
      by_cases hdom : cookie.domain = domain
      · rw [hdom, hbkt] at hbkt'
        cases hbkt'
        refine ⟨bucket.live now, ?_, ?_⟩
        · rw [get_put, if_pos hdom]
        · rw [get_eq_some_iff] at hget ⊢
          exact Bucket.mem_live.mpr ⟨hget, hexpired⟩
      · refine ⟨bucket', ?_, hget⟩
        rw [get_put, if_neg hdom]
        exact hbkt'
    · rcases mem_found foldCase now query (h.counted.get hbkt).2 hcookie with
        ⟨hdom, hget, hexpired⟩
      refine ⟨⟨bucket.live now, ?_, hget⟩, hexpired⟩
      rw [get_put, if_pos hdom]

theorem getLoop_finds {totalCount : Int} (domain : JString) (state : List Cookie × CookieStore)
    (h : Finds now totalCount state) :
    Finds now totalCount (getLoop foldCase now query domain state) := by
  fun_induction getLoop foldCase now query domain state with
  | case1 domain state _ nextPoint _ ih => exact ih (visit_finds foldCase now query h domain)
  | case2 domain state _ _ => exact visit_finds foldCase now query h domain
  | case3 domain state _ => exact h

theorem setLastAccessTime_counted {store : CookieStore} (h : store.Counted) {cookie : Cookie}
    (hkey : store.HasKey cookie) :
    (store.setLastAccessTime now cookie).Counted ∧
      (store.setLastAccessTime now cookie).totalCount = store.totalCount ∧
      ∀ other, store.HasKey other → (store.setLastAccessTime now cookie).HasKey other := by
  rcases hkey with ⟨bucket, old, hbkt, hold⟩
  unfold setLastAccessTime
  rw [hbkt]
  refine ⟨?_, rfl, ?_⟩
  · exact h.replaceCookie (cookie.setLastAccessTime now) hbkt hold
  · intro other hother
    refine hother.putBucket hbkt ?_
    intro old' _ hold'
    rw [get_put]
    split
    · exact ⟨_, rfl⟩
    · exact ⟨old', hold'⟩

theorem foldl_setLastAccessTime_counted (result : List Cookie) (store : CookieStore)
    (h : store.Counted) (hkeys : ∀ cookie ∈ result, store.HasKey cookie) :
    (result.foldl (setLastAccessTime now) store).Counted ∧
      (result.foldl (setLastAccessTime now) store).totalCount = store.totalCount := by
  induction result generalizing store with
  | nil => exact ⟨h, rfl⟩
  | cons cookie result ih =>
    rcases setLastAccessTime_counted now h (hkeys cookie mem_cons_self) with
      ⟨hcounted, htotal, hkept⟩
    rw [← htotal]
    refine ih _ hcounted ?_
    intro other hother
    exact hkept other (hkeys other (mem_cons_of_mem _ hother))

theorem get_counted {store : CookieStore} (h : store.Counted) :
    (store.get foldCase now query).2.Counted ∧
      (store.get foldCase now query).2.totalCount ≤ store.totalCount := by
  have hfinds := getLoop_finds foldCase now query query.hostname ([], store)
    ⟨h, Int.le_refl _, nofun⟩
  unfold get
  generalize getLoop foldCase now query query.hostname ([], store) = state at hfinds
  rcases state with ⟨list, after⟩
  have hkeys : ∀ cookie ∈ list.mergeSort fun c1 c2 => GetComparator.compare c1 c2 ≤ 0,
      after.HasKey cookie := by
    intro cookie hcookie
    rw [mem_mergeSort] at hcookie
    rcases (hfinds.stored cookie hcookie).1 with ⟨bucket, hbkt, hget⟩
    exact ⟨bucket, cookie, hbkt, hget⟩
  rcases foldl_setLastAccessTime_counted now _ after hfinds.counted hkeys with ⟨hcounted, htotal⟩
  exact ⟨hcounted, htotal.trans_le hfinds.totalCount_le⟩

end Get

section Put

variable (now : Int)

theorem exists_earliest {cookies : List Cookie} (h : cookies ≠ []) :
    ∃ earliest ∈ cookies, cookies.foldl earlier none = some earliest := by
  induction cookies using List.reverseRecOn with
  | nil => exact absurd rfl h
  | append_singleton cookies cookie ih =>
    rw [foldl_append, foldl_cons]
    by_cases hnil : cookies = []
    · subst hnil
      exact ⟨cookie, mem_singleton_self cookie, rfl⟩
    · rcases ih hnil with ⟨earliest, hmem, hfold⟩
      rw [hfold, earlier]
      split
      · exact ⟨cookie, mem_append_right _ (mem_singleton_self cookie), rfl⟩
      · exact ⟨earliest, mem_append_left _ hmem, rfl⟩

variable {domain : JString} {bucket : Bucket}

theorem purgeBucket_spec (hplaced : Placed domain bucket) (hsize : bucket.size ≤ maxBucketSize + 1)
    (totalCount : Int) :
    Placed domain (purgeBucket now bucket totalCount).1 ∧
      (purgeBucket now bucket totalCount).1.size ≤ maxBucketSize ∧
      (purgeBucket now bucket totalCount).2 + bucket.size =
        totalCount + (purgeBucket now bucket totalCount).1.size ∧
      (purgeBucket now bucket totalCount).2 ≤ totalCount := by
  have hle := Bucket.size_live_le now bucket
  unfold purgeBucket
  rw [sweep_entries]
  dsimp only
  split
  · next hexcess =>
      have hvals : (bucket.live now).values ≠ [] := by
        intro hnil
        rw [values, map_eq_nil_iff] at hnil
        rw [size, hnil] at hexcess
        exact absurd hexcess (Nat.not_lt_zero _)
      rcases exists_earliest hvals with ⟨earliest, hmem, hfold⟩
      rw [hfold]
      rcases mem_map.mp hmem with ⟨⟨key, cookie⟩, hentry, rfl⟩
      dsimp only
      have hkey : cookie.key = key := (hplaced.live now _ hentry).2
      have hget := get_eq_some_iff.mpr hentry
      rw [← hkey] at hget
      have hremove := size_remove_of_get_eq_some hget
      refine ⟨(hplaced.live now).remove _, ?_, ?_, ?_⟩ <;> omega
  · refine ⟨hplaced.live now, ?_, ?_, ?_⟩ <;> dsimp only <;> omega

theorem stored_removeCookie {store : CookieStore} {cookie : Cookie} {bucket : Bucket}
    (hbkt : store.buckets.get cookie.domain = some bucket) (totalCount : Int) (other : Cookie) :
    Stored ⟨store.buckets.put cookie.domain (bucket.remove cookie.key), totalCount⟩ other ↔
      store.Stored other ∧ other.key ≠ cookie.key := by
  constructor
  · rintro ⟨found, hfound, hother⟩
    rw [HashMap.get_put] at hfound
    split_ifs at hfound with hdom
    · obtain rfl := Option.some.inj hfound
      rw [HashMap.get_remove] at hother
      split_ifs at hother with hkey
      exact ⟨⟨bucket, hdom ▸ hbkt, hother⟩, hkey⟩
    · refine ⟨⟨found, hfound, hother⟩, fun hkey => hdom ?_⟩
      exact congrArg (fun key : CookieKey => key.2.1) hkey
  · rintro ⟨⟨found, hfound, hother⟩, hkey⟩
    by_cases hdom : other.domain = cookie.domain
    · rw [hdom, hbkt] at hfound
      obtain rfl := Option.some.inj hfound
      refine ⟨bucket.remove cookie.key, ?_, ?_⟩
      · rw [HashMap.get_put, if_pos hdom]
      · rw [HashMap.get_remove, if_neg hkey]
        exact hother
    · refine ⟨found, ?_, hother⟩
      rw [HashMap.get_put, if_neg hdom]
      exact hfound

theorem removeExcess_stored (queue : List Cookie) :
    ∀ store : CookieStore, store.Counted → (∀ cookie, store.Stored cookie ↔ cookie ∈ queue) →
      (queue.map Cookie.key).Nodup → store.totalCount = queue.length →
      ∃ store', removeExcess queue store = some store' ∧ store'.Counted ∧
        store'.totalCount ≤ totalCountLowerThreshold ∧
        ∀ cookie, store'.Stored cookie ↔ cookie ∈ queue.drop (queue.length - 3000) := by
  induction queue with
  | nil =>
    intro store hcounted hstored _ htotal
    have hlow : ¬store.totalCount > totalCountLowerThreshold := by
      rw [htotal]
      decide
    exact ⟨store, by rw [removeExcess, if_neg hlow], hcounted, Int.not_lt.mp hlow, hstored⟩
  | cons cookie queue ih =>
    intro store hcounted hstored hnd htotal
    rw [length_cons] at htotal ⊢
    by_cases hlow : store.totalCount > totalCountLowerThreshold
    · obtain ⟨bucket, hbkt, hcookie⟩ := (hstored cookie).mpr mem_cons_self
      rw [map_cons, nodup_cons] at hnd
      have hdrop : queue.length + 1 - 3000 = queue.length - 3000 + 1 := by
        rw [totalCountLowerThreshold] at hlow
        omega
      rw [removeExcess, if_pos hlow, hbkt, hdrop, drop_succ_cons]
      refine ih _ (hcounted.removeCookie hbkt hcookie) ?_ hnd.2 ?_
      · intro other
        rw [stored_removeCookie hbkt, hstored, mem_cons]
        constructor
        · rintro ⟨rfl | hmem, hkey⟩
          · exact absurd rfl hkey
          · exact hmem
        · intro hmem
          exact ⟨.inr hmem, fun hkey => hnd.1 (hkey ▸ mem_map_of_mem hmem)⟩
      · dsimp only
        omega
    · have hdrop : queue.length + 1 - 3000 = 0 := by
        rw [totalCountLowerThreshold] at hlow
        omega
      rw [hdrop]
      exact ⟨store, by rw [removeExcess, if_neg hlow], hcounted, Int.not_lt.mp hlow, hstored⟩

theorem foldl_append_singleton (cookies queue : List Cookie) :
    cookies.foldl (fun queue cookie => queue ++ [cookie]) queue = queue ++ cookies := by
  induction cookies generalizing queue with
  | nil => simp
  | cons cookie cookies ih => rw [foldl_cons, ih, append_assoc, singleton_append]

theorem sweepBuckets_cons (domain : JString) (bucket : Bucket) (entries : List (JString × Bucket))
    (queue : List Cookie) (store : CookieStore) :
    sweepBuckets now ((domain, bucket) :: entries) (queue, store) =
      sweepBuckets now entries (queue ++ (bucket.live now).values,
        { buckets := store.buckets.put domain (bucket.live now)
          totalCount := store.totalCount - (bucket.size - (bucket.live now).size) }) := by
  rw [sweepBuckets, sweep_entries, foldl_append_singleton]

def liveCookies (entries : List (JString × Bucket)) : List Cookie :=
  entries.flatMap fun entry => (entry.2.live now).values

theorem sweepBuckets_spec (entries : List (JString × Bucket)) (queue : List Cookie)
    (store : CookieStore) (h : store.Counted) (hnd : (entries.map Prod.fst).Nodup)
    (hentries : ∀ entry ∈ entries, store.buckets.get entry.1 = some entry.2) :
    ∃ store', sweepBuckets now entries (queue, store) = (queue ++ liveCookies now entries, store') ∧
      store'.Counted ∧
      store'.totalCount + (entries.map fun entry => entry.2.size).sum =
        store.totalCount + (liveCookies now entries).length ∧
      (∀ entry ∈ entries, store'.buckets.get entry.1 = some (entry.2.live now)) ∧
      ∀ domain, domain ∉ entries.map Prod.fst →
        store'.buckets.get domain = store.buckets.get domain := by
  induction entries generalizing queue store with
  | nil => exact ⟨store, by simp [sweepBuckets, liveCookies], h, rfl, nofun, fun _ _ => rfl⟩
  | cons entry entries ih =>
    rcases entry with ⟨domain, bucket⟩
    rw [map_cons, nodup_cons] at hnd
    have hbkt := hentries _ mem_cons_self
    have hrest : ∀ entry ∈ entries, (store.buckets.put domain (bucket.live now)).get entry.1 =
        some entry.2 := by
      intro entry hentry
      have hne : entry.1 ≠ domain := fun hdom =>
        hnd.1 (mem_map.mpr ⟨entry, hentry, hdom⟩)
      rw [get_put, if_neg hne]
      exact hentries entry (mem_cons_of_mem _ hentry)
    rcases ih (queue ++ (bucket.live now).values) _ (h.liveBucket hbkt now) hnd.2 hrest with
      ⟨store', hsweep, hcounted, htotal, hlive, hother⟩
    refine ⟨store', ?_, hcounted, ?_, ?_, ?_⟩
    · rw [sweepBuckets_cons, hsweep, liveCookies, liveCookies, flatMap_cons,
        append_assoc]
    · have hvals : (bucket.live now).values.length = (bucket.live now).size :=
        length_map _
      rw [liveCookies, flatMap_cons, length_append, ← liveCookies, map_cons, sum_cons]
      dsimp only at htotal ⊢
      omega
    · intro entry hentry
      rcases mem_cons.mp hentry with rfl | hentry
      · rw [hother domain hnd.1, get_put, if_pos rfl]
      · exact hlive entry hentry
    · intro other hmem
      rw [map_cons, mem_cons, not_or] at hmem
      rw [hother other hmem.2, get_put, if_neg hmem.1]

theorem nodup_keys_of_placed (h : Placed domain bucket) :
    (bucket.values.map Cookie.key).Nodup := by
  have hkeys : bucket.values.map Cookie.key = bucket.entries.map Prod.fst := by
    rw [values, map_map]
    exact map_congr_left fun entry hentry => (h entry hentry).2
  rw [hkeys]
  exact bucket.keys_nodup

theorem nodup_keys_flatMap (entries : List (JString × Bucket)) (f : Bucket → Bucket)
    (hnd : (entries.map Prod.fst).Nodup)
    (hplaced : ∀ entry ∈ entries, Placed entry.1 (f entry.2)) :
    ((entries.flatMap fun entry => (f entry.2).values).map Cookie.key).Nodup := by
  rw [map_flatMap, nodup_flatMap]
  constructor
  · intro entry hentry
    exact nodup_keys_of_placed (hplaced entry hentry)
  · refine (pairwise_map.mp hnd).imp_of_mem ?_
    intro e₁ e₂ he₁ he₂ hne key hkey₁ hkey₂
    rcases mem_map.mp hkey₁ with ⟨c₁, hc₁, rfl⟩
    rcases mem_map.mp hkey₂ with ⟨c₂, hc₂, hkey⟩
    rcases mem_map.mp hc₁ with ⟨entry₁, hentry₁, rfl⟩
    rcases mem_map.mp hc₂ with ⟨entry₂, hentry₂, rfl⟩
    have hdom₁ := (hplaced e₁ he₁ entry₁ hentry₁).1
    have hdom₂ := (hplaced e₂ he₂ entry₂ hentry₂).1
    rw [← hdom₁, ← hdom₂] at hne
    exact hne (congrArg (fun key : CookieKey => key.2.1) hkey).symm

variable (entrySet : IterationOrder (JString × Bucket)) (removalQueue : RemovalOrder)

variable {store : CookieStore}

def Unexpired (store : CookieStore) (cookie : Cookie) : Prop :=
  store.Stored cookie ∧ cookie.hasExpired now = false

theorem mem_liveCookies_iff {store : CookieStore} (h : store.Counted)
    {entries : List (JString × Bucket)} (hperm : entries.Perm store.buckets.entries)
    (cookie : Cookie) :
    cookie ∈ liveCookies now entries ↔ store.Unexpired now cookie := by
  constructor
  · intro hmem
    rcases mem_flatMap.mp hmem with ⟨⟨domain, bucket⟩, hentry, hval⟩
    rcases mem_map.mp hval with ⟨⟨key, cookie⟩, hlive, rfl⟩
    have hstore := hperm.mem_iff.mp hentry
    rcases Bucket.mem_live.mp hlive with ⟨hbkt, hexpired⟩
    rcases h.placed _ hstore _ hbkt with ⟨hdom, hkey⟩
    refine ⟨⟨bucket, ?_, ?_⟩, hexpired⟩
    · rw [hdom]
      exact HashMap.get_eq_some_iff.mpr hstore
    · rw [hkey]
      exact HashMap.get_eq_some_iff.mpr hbkt
  · rintro ⟨⟨bucket, hbkt, hcookie⟩, hexpired⟩
    rw [HashMap.get_eq_some_iff] at hbkt hcookie
    refine mem_flatMap.mpr ⟨_, hperm.mem_iff.mpr hbkt, ?_⟩
    exact mem_map.mpr ⟨_, Bucket.mem_live.mpr ⟨hcookie, hexpired⟩, rfl⟩

theorem purge_stored {store : CookieStore} (h : store.Counted) :
    ∃ live store', (∀ cookie, cookie ∈ live ↔ store.Unexpired now cookie) ∧
      (live.map Cookie.key).Nodup ∧ store.purge entrySet removalQueue now = some store' ∧
      store'.Counted ∧ store'.totalCount ≤ totalCountLowerThreshold ∧
      ∀ cookie, store'.Stored cookie ↔
        cookie ∈ (removalQueue.order live).drop (live.length - 3000) := by
  have hperm := entrySet.perm store.buckets.entries
  have hnd : ((entrySet.order store.buckets.entries).map Prod.fst).Nodup :=
    (hperm.map Prod.fst).nodup_iff.mpr store.buckets.keys_nodup
  have hentries : ∀ entry ∈ entrySet.order store.buckets.entries,
      store.buckets.get entry.1 = some entry.2 := fun entry hentry =>
    HashMap.get_eq_some_iff.mpr (hperm.mem_iff.mp hentry)
  have hplaced : ∀ entry ∈ entrySet.order store.buckets.entries, Placed entry.1 entry.2 :=
    fun entry hentry => h.placed entry (hperm.mem_iff.mp hentry)
  have hlive := mem_liveCookies_iff now h hperm
  have hkeys := nodup_keys_flatMap _ (Bucket.live now) hnd fun entry hentry =>
    (hplaced entry hentry).live now
  obtain ⟨after, hsweep, hcounted, htotal, hafter, hother⟩ :=
    sweepBuckets_spec now _ [] store h hnd hentries
  have hstored : ∀ cookie, after.Stored cookie ↔
      cookie ∈ liveCookies now (entrySet.order store.buckets.entries) := by
    intro cookie
    constructor
    · rintro ⟨bucket, hbkt, hcookie⟩
      have hdom : cookie.domain ∈
          (entrySet.order store.buckets.entries).map Prod.fst := by
        by_contra hmem
        rw [hother _ hmem, HashMap.get_eq_some_iff] at hbkt
        exact hmem (mem_map.mpr ⟨_, hperm.mem_iff.mpr hbkt, rfl⟩)
      rcases mem_map.mp hdom with ⟨entry, hentry, hsame⟩
      rw [← hsame, hafter entry hentry] at hbkt
      obtain rfl := Option.some.inj hbkt
      exact mem_flatMap.mpr ⟨entry, hentry, mem_map.mpr
        ⟨_, HashMap.get_eq_some_iff.mp hcookie, rfl⟩⟩
    · intro hmem
      rcases mem_flatMap.mp hmem with ⟨entry, hentry, hval⟩
      rcases mem_map.mp hval with ⟨⟨key, cookie⟩, hbkt, rfl⟩
      rcases (hplaced entry hentry).live now _ hbkt with ⟨hdom, hkey⟩
      refine ⟨entry.2.live now, ?_, ?_⟩
      · rw [hdom]
        exact hafter entry hentry
      · rw [hkey]
        exact HashMap.get_eq_some_iff.mpr hbkt
  have hqueue := removalQueue.perm (liveCookies now (entrySet.order store.buckets.entries))
  have hcnt : after.totalCount =
      (liveCookies now (entrySet.order store.buckets.entries)).length := by
    have hsum : (store.buckets.values.map HashMap.size).sum =
        ((entrySet.order store.buckets.entries).map fun entry => entry.2.size).sum := by
      rw [HashMap.values, map_map]
      exact (hperm.map fun entry => entry.2.size).sum_nat.symm
    have hstore := h.count
    omega
  obtain ⟨store', hremove, hcounted', htotal', hstored'⟩ := removeExcess_stored
    (removalQueue.order (liveCookies now (entrySet.order store.buckets.entries))) after hcounted
    (fun cookie => (hstored cookie).trans hqueue.mem_iff.symm)
    ((hqueue.map Cookie.key).nodup_iff.mpr hkeys) (by rw [hcnt, hqueue.length_eq])
  refine ⟨_, store', hlive, hkeys, ?_, hcounted', htotal', ?_⟩
  · rw [purge, hsweep]
    exact hremove
  · intro cookie
    rw [hstored', hqueue.length_eq]

theorem bucketOf_spec (h : store.Counted) (domain : JString) :
    (store.bucketOf domain).2.Counted ∧
      (store.bucketOf domain).2.totalCount = store.totalCount ∧
      (store.bucketOf domain).2.buckets.get domain = some (store.bucketOf domain).1 := by
  unfold bucketOf
  split
  · next bucket hbkt => exact ⟨h, rfl, hbkt⟩
  · next hbkt =>
      refine ⟨h.putBucket ?_ (Nat.zero_le _) nofun, rfl, ?_⟩
      · rw [hbkt]
        rfl
      · rw [get_put, if_pos rfl]

theorem purged_spec (hplaced : Placed domain bucket) (hsize : bucket.size ≤ maxBucketSize + 1)
    (totalCount : Int) {added : Bucket × Int}
    (hadded : (if bucket.size > maxBucketSize then purgeBucket now bucket totalCount
      else (bucket, totalCount)) = added) :
    Placed domain added.1 ∧ added.1.size ≤ maxBucketSize ∧
      added.2 + bucket.size = totalCount + added.1.size := by
  subst hadded
  split
  · rcases purgeBucket_spec now hplaced hsize totalCount with ⟨hplaced', hsize', hcnt, -⟩
    exact ⟨hplaced', hsize', hcnt⟩
  · next hle => exact ⟨hplaced, Nat.le_of_not_gt hle, rfl⟩

theorem put_counted (h : store.Counted) (htotal : store.totalCount ≤ totalCountUpperThreshold)
    (cookie : Cookie) :
    ∃ store', store.put entrySet removalQueue now cookie = some store' ∧ store'.Counted ∧
      store'.totalCount ≤ totalCountUpperThreshold := by
  rcases bucketOf_spec h cookie.domain with ⟨hcounted, hsame, hbkt⟩
  unfold put
  generalize store.bucketOf cookie.domain = found at hcounted hsame hbkt
  rcases found with ⟨bucket, store₁⟩
  dsimp only at hcounted hsame hbkt ⊢
  rw [← hsame] at htotal
  split
  · split
    · next old hold =>
        refine ⟨_, rfl, hcounted.removeCookie hbkt hold, ?_⟩
        dsimp only
        omega
    · exact ⟨store₁, rfl, hcounted, htotal⟩
  · split
    · next old hold => exact ⟨_, rfl, hcounted.replaceCookie cookie hbkt hold, htotal⟩
    · next hnew =>
        rcases hcounted.get hbkt with ⟨hsize, hplaced⟩
        have hput := size_put_of_get_eq_none hnew cookie
        generalize hadded : (if (bucket.put cookie.key cookie).size > maxBucketSize then
          purgeBucket now (bucket.put cookie.key cookie) (store₁.totalCount + 1)
          else (bucket.put cookie.key cookie, store₁.totalCount + 1)) = added
        rcases purged_spec now (hplaced.put rfl) (by omega) _ hadded with
          ⟨hplaced', hsize', hcnt⟩
        have hcounted' : Counted ⟨store₁.buckets.put cookie.domain added.1, added.2⟩ := by
          refine hcounted.putBucket ?_ hsize' hplaced'
          rw [hbkt, Option.map_some, Option.getD_some]
          omega
        split
        · obtain ⟨-, store', -, -, hpurge, hcounted'', hlow, -⟩ :=
            purge_stored now entrySet removalQueue hcounted'
          exact ⟨store', hpurge, hcounted'', hlow.trans (by decide)⟩
        · next hle => exact ⟨_, rfl, hcounted', Int.not_lt.mp hle⟩

end Put

/-- What the store keeps to between two calls. -/
structure Bookkeeping (store : CookieStore) : Prop where
  totalCount_eq : store.totalCount = ((store.buckets.values.map size).sum : Nat)
  size_le : ∀ entry ∈ store.buckets.entries, entry.2.size ≤ maxBucketSize
  totalCount_le : store.totalCount ≤ totalCountUpperThreshold
  domain_eq : ∀ entry ∈ store.buckets.entries, ∀ cookie ∈ entry.2.values, cookie.domain = entry.1
  keys_ne : ∀ entry ∈ store.buckets.entries, entry.2.values.Pairwise fun c1 c2 =>
    ¬(c1.name = c2.name ∧ c1.domain = c2.domain ∧ c1.path = c2.path)

theorem Counted.bookkeeping (h : store.Counted)
    (htotal : store.totalCount ≤ totalCountUpperThreshold) : store.Bookkeeping where
  totalCount_eq := h.count
  size_le := h.size_le
  totalCount_le := htotal
  domain_eq := by
    intro entry hentry cookie hcookie
    rcases mem_map.mp hcookie with ⟨e, he, rfl⟩
    exact (h.placed entry hentry e he).1
  keys_ne := by
    intro entry hentry
    refine (pairwise_map.mp (nodup_keys_of_placed (h.placed entry hentry))).imp ?_
    rintro c1 c2 hne ⟨hname, hdom, hpath⟩
    exact hne (Prod.ext hname (Prod.ext hdom hpath))

variable (foldCase : UInt16 → UInt16) (entrySet : IterationOrder (JString × Bucket))
  (removalQueue : RemovalOrder)

theorem call_counted (h : store.Counted) (htotal : store.totalCount ≤ totalCountUpperThreshold)
    (made : Call) :
    ∃ store', store.call foldCase entrySet removalQueue made = some store' ∧ store'.Counted ∧
      store'.totalCount ≤ totalCountUpperThreshold := by
  cases made with
  | put now cookie => exact put_counted now entrySet removalQueue h htotal cookie
  | getCookie now cookie =>
    rcases getCookie_counted h now cookie with ⟨hcounted, hle⟩
    exact ⟨_, rfl, hcounted, Int.le_trans hle htotal⟩
  | get now query =>
    rcases get_counted foldCase now query h with ⟨hcounted, hle⟩
    exact ⟨_, rfl, hcounted, Int.le_trans hle htotal⟩

theorem runSteps_counted (calls : List Call) :
    ∃ store, runSteps (call foldCase entrySet removalQueue) new calls = some store ∧
      store.Counted ∧ store.totalCount ≤ totalCountUpperThreshold := by
  induction calls using List.reverseRecOn with
  | nil => exact ⟨new, rfl, new_counted, by decide⟩
  | append_singleton calls made ih =>
    rcases ih with ⟨store, hrun, hcounted, htotal⟩
    rcases call_counted foldCase entrySet removalQueue hcounted htotal made with
      ⟨store', hcall, hcounted', htotal'⟩
    exact ⟨store', runSteps_concat_iff.mpr ⟨store, hrun, hcall⟩, hcounted', htotal'⟩

/-- No call fails, and each of them leaves a store that keeps its books. -/
theorem bookkeeping_after_calls (calls : List Call) :
    ∃ store, runSteps (call foldCase entrySet removalQueue) new calls = some store ∧
      store.Bookkeeping := by
  rcases runSteps_counted foldCase entrySet removalQueue calls with
    ⟨store, hrun, hcounted, htotal⟩
  exact ⟨store, hrun, hcounted.bookkeeping htotal⟩

end CookieStore

end OpenJfx.Network
