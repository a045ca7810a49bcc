import OpenJfx.Java.HashMap
import OpenJfx.Network.Cookie
import OpenJfx.Data.Interleaving

namespace OpenJfx.Network

open Java

/-- The cookies of a domain, in the order in which they have been added. -/
abbrev Bucket := HashMap CookieKey Cookie

/-- Buckets of cookies by domain, with limits on each of them and on all. -/
structure CookieStore where
  buckets : HashMap JString Bucket
  totalCount : Int

structure Query where
  hostname : JString
  path : Option JString
  secureProtocol : Bool
  httpApi : Bool

namespace CookieStore

def maxBucketSize : Nat := 50

def totalCountLowerThreshold : Int := 3000

def totalCountUpperThreshold : Int := 4000

namespace GetComparator

def compare (c1 c2 : Cookie) : Int :=
  let d : Int := c2.path.length - c1.path.length
  if d ≠ 0 then d
  else c1.creationTime.compareTo c2.creationTime

end GetComparator

namespace RemovalComparator

def compare (c1 c2 : Cookie) : Int := toInt (c1.lastAccessTime - c2.lastAccessTime)

end RemovalComparator

/-- The order in which a `PriorityQueue` gives back what has been added to it: the order of the
comparator, provided that this is one, with ties broken arbitrarily. -/
structure RemovalOrder where
  order : List Cookie → List Cookie
  perm : ∀ l, (order l).Perm l
  sorted : ∀ l, (∀ a ∈ l, ∀ b ∈ l, RemovalComparator.compare a b ≤ 0 ∨
      RemovalComparator.compare b a ≤ 0) →
    (∀ a ∈ l, ∀ b ∈ l, ∀ c ∈ l, RemovalComparator.compare a b ≤ 0 →
      RemovalComparator.compare b c ≤ 0 → RemovalComparator.compare a c ≤ 0) →
    (order l).Pairwise fun a b => RemovalComparator.compare a b ≤ 0

def new : CookieStore := ⟨.empty, 0⟩

def getCookie (now : Int) (store : CookieStore) (cookie : Cookie) : Option Cookie × CookieStore :=
  match store.buckets.get cookie.domain with
  | none => (none, store)
  | some bucket =>
    match bucket.get cookie.key with
    | none => (none, store)
    | some storedCookie =>
      if storedCookie.hasExpired now then
        (none,
          { buckets := store.buckets.put cookie.domain (bucket.remove storedCookie.key)
            totalCount := store.totalCount - 1 })
      else (some storedCookie, store)

def sweep {σ : Type} (now : Int) (body : σ → Cookie → σ) :
    List (CookieKey × Cookie) → σ × Bucket × Int → σ × Bucket × Int
  | [], state => state
  | (key, cookie) :: entries, (s, bucket, totalCount) =>
    if cookie.hasExpired now then
      sweep now body entries (s, bucket.remove key, totalCount - 1)
    else sweep now body entries (body s cookie, bucket, totalCount)

section Get

variable (foldCase : UInt16 → UInt16)

/-- The conditions under which `find` adds a cookie that has not expired. -/
def accepts (query : Query) (cookie : Cookie) : Bool :=
  (if cookie.hostOnly then equalsIgnoreCase foldCase query.hostname cookie.domain
    else Cookie.domainMatches query.hostname cookie.domain) &&
  Cookie.pathMatches query.path cookie.path &&
  !(cookie.secureOnly && !query.secureProtocol) &&
  !(cookie.httpOnly && !query.httpApi)

def find (now : Int) (query : Query) (list : List Cookie) (bucket : Bucket) (totalCount : Int) :
    List Cookie × Bucket × Int :=
  sweep now (fun list cookie => if accepts foldCase query cookie then list ++ [cookie] else list)
    bucket.entries (list, bucket, totalCount)

/-- One round of the loop of `get`. -/
def visit (now : Int) (query : Query) (state : List Cookie × CookieStore) (domain : JString) :
    List Cookie × CookieStore :=
  match state.2.buckets.get domain with
  | none => state
  | some bucket =>
    match find foldCase now query state.1 bucket state.2.totalCount with
    | (list, bucket, totalCount) =>
      (list, { buckets := state.2.buckets.put domain bucket, totalCount := totalCount })

def getLoop (now : Int) (query : Query) (domain : JString) (state : List Cookie × CookieStore) :
    List Cookie × CookieStore :=
  if domain.length > 0 then
    match domain.idxOf? dot with
    | some nextPoint =>
      getLoop now query (domain.drop (nextPoint + 1)) (visit foldCase now query state domain)
    | none => visit foldCase now query state domain
  else state
termination_by domain.length
decreasing_by
  rw [List.length_drop]
  omega

/-- `Cookie.setLastAccessTime` on a cookie in the store. -/
def setLastAccessTime (now : Int) (store : CookieStore) (cookie : Cookie) : CookieStore :=
  match store.buckets.get cookie.domain with
  | none => store
  | some bucket =>
    { store with
      buckets := store.buckets.put cookie.domain
        (bucket.put cookie.key (cookie.setLastAccessTime now)) }

def get (now : Int) (store : CookieStore) (query : Query) : List Cookie × CookieStore :=
  match getLoop foldCase now query query.hostname ([], store) with
  | (list, store) =>
    let result := list.mergeSort fun c1 c2 => GetComparator.compare c1 c2 ≤ 0
    (result.map (Cookie.setLastAccessTime now), result.foldl (setLastAccessTime now) store)

end Get

section Put

/-- The cookie that has been accessed earliest, ties going to the one in front. -/
def earlier : Option Cookie → Cookie → Option Cookie
  | none, cookie => some cookie
  | some earliestCookie, cookie =>
    if cookie.lastAccessTime < earliestCookie.lastAccessTime then some cookie
    else some earliestCookie

/-- `purge(Map)`: removes excess cookies from a bucket. -/
def purgeBucket (now : Int) (bucket : Bucket) (totalCount : Int) : Bucket × Int :=
  match sweep now earlier bucket.entries (none, bucket, totalCount) with
  | (earliestCookie, bucket, totalCount) =>
    if bucket.size > maxBucketSize then
      match earliestCookie with
      | none => (bucket, totalCount - 1)
      | some cookie => (bucket.remove cookie.key, totalCount - 1)
    else (bucket, totalCount)

variable (entrySet : IterationOrder (JString × Bucket)) (removalQueue : RemovalOrder)

/-- The first loop of `purge()`, over the buckets. -/
def sweepBuckets (now : Int) :
    List (JString × Bucket) → List Cookie × CookieStore → List Cookie × CookieStore
  | [], state => state
  | (domain, bucket) :: entries, (queue, store) =>
    match sweep now (fun queue cookie => queue ++ [cookie]) bucket.entries
        (queue, bucket, store.totalCount) with
    | (queue, bucket, totalCount) =>
      sweepBuckets now entries
        (queue, { buckets := store.buckets.put domain bucket, totalCount := totalCount })

/-- The second loop of `purge()`, which throws if the queue runs empty. -/
def removeExcess : List Cookie → CookieStore → Option CookieStore
  | [], store => if store.totalCount > totalCountLowerThreshold then none else some store
  | cookie :: queue, store =>
    if store.totalCount > totalCountLowerThreshold then
      match store.buckets.get cookie.domain with
      | none => removeExcess queue store
      | some bucket =>
        removeExcess queue
          { buckets := store.buckets.put cookie.domain (bucket.remove cookie.key)
            totalCount := store.totalCount - 1 }
    else some store

/-- `purge()`: removes excess cookies globally. -/
def purge (now : Int) (store : CookieStore) : Option CookieStore :=
  match sweepBuckets now (entrySet.order store.buckets.entries) ([], store) with
  | (queue, store) => removeExcess (removalQueue.order queue) store

def bucketOf (store : CookieStore) (domain : JString) : Bucket × CookieStore :=
  match store.buckets.get domain with
  | some bucket => (bucket, store)
  | none => (.empty, { store with buckets := store.buckets.put domain .empty })

def put (now : Int) (store : CookieStore) (cookie : Cookie) : Option CookieStore :=
  match store.bucketOf cookie.domain with
  | (bucket, store) =>
    if cookie.hasExpired now then
      match bucket.get cookie.key with
      | some _ =>
        some { buckets := store.buckets.put cookie.domain (bucket.remove cookie.key)
               totalCount := store.totalCount - 1 }
      | none => some store
    else
      match bucket.get cookie.key with
      | some _ =>
        some { store with
          buckets := store.buckets.put cookie.domain (bucket.put cookie.key cookie) }
      | none =>
        let bucket := bucket.put cookie.key cookie
        let totalCount := store.totalCount + 1
        match (if bucket.size > maxBucketSize then purgeBucket now bucket totalCount
          else (bucket, totalCount)) with
        | (bucket, totalCount) =>
          let store : CookieStore :=
            { buckets := store.buckets.put cookie.domain bucket, totalCount := totalCount }
          if store.totalCount > totalCountUpperThreshold then
            store.purge entrySet removalQueue now
          else some store

end Put

/-- The calls on a store, each at the time that the clock shows. -/
inductive Call
  | put (now : Int) (cookie : Cookie)
  | getCookie (now : Int) (cookie : Cookie)
  | get (now : Int) (query : Query)

variable (foldCase : UInt16 → UInt16) (entrySet : IterationOrder (JString × Bucket))
  (removalQueue : RemovalOrder)

def call (store : CookieStore) : Call → Option CookieStore
  | .put now cookie => store.put entrySet removalQueue now cookie
  | .getCookie now cookie => some (store.getCookie now cookie).2
  | .get now query => some (store.get foldCase now query).2

end CookieStore

end OpenJfx.Network
