import OpenJfx.Network.CookieStoreCount

namespace OpenJfx.Network

open Java Data List

theorem pairwise_mergeSort_of_mem {α : Type} (le : α → α → Bool) {l : List α}
    (htrans : ∀ a ∈ l, ∀ b ∈ l, ∀ c ∈ l, le a b = true → le b c = true → le a c = true)
    (htotal : ∀ a ∈ l, ∀ b ∈ l, le a b = true ∨ le b a = true) :
    (l.mergeSort le).Pairwise fun a b => le a b = true := by
  have hattach : l.mergeSort le =
      (l.attach.mergeSort fun a b => le a.1 b.1).map Subtype.val := by
    rw [map_mergeSort (s := le) fun _ _ _ _ => rfl, attach_map_subtype_val]
  rw [hattach, pairwise_map]
  refine pairwise_mergeSort ?_ ?_ l.attach
  · intro a b c
    exact htrans a.1 a.2 b.1 b.2 c.1 c.2
  · intro a b
    rw [Bool.or_eq_true]
    exact htotal a.1 a.2 b.1 b.2

theorem mergeSort_pair {α : Type} (le : α → α → Bool) {a b : α} (h : le a b = false) :
    [a, b].mergeSort le = [b, a] := by
  simp [List.mergeSort, h]

namespace CookieStore

/-- The domains whose buckets the loop of `get` visits. -/
def domains (domain : JString) : List JString :=
  if domain.length > 0 then
    match domain.idxOf? dot with
    | some nextPoint => domain :: domains (domain.drop (nextPoint + 1))
    | none => [domain]
  else []
termination_by domain.length
decreasing_by
  rw [length_drop]
  omega

theorem exists_of_idxOf?_eq_some {s : JString} {c : UInt16} {i : Nat} (h : s.idxOf? c = some i) :
    ∃ front, s = front ++ c :: s.drop (i + 1) ∧ c ∉ front := by
  rcases idxOf?_eq_some_iff.mp h with ⟨hi, hget, hbef⟩
  refine ⟨s.take i, ?_, ?_⟩
  · rw [← hget, ← drop_eq_getElem_cons hi, take_append_drop]
  · intro hmem
    rcases mem_take_iff_getElem.mp hmem with ⟨j, hj, hc⟩
    exact hbef j (Nat.lt_of_lt_of_le hj (Nat.min_le_left ..)) hc

def EndsInDot (front : JString) : Prop := front = [] ∨ front.getLast? = some dot

variable {hostname domain : JString}

theorem mem_domains :
    domain ∈ domains hostname ↔
      domain ≠ [] ∧ ∃ front, hostname = front ++ domain ∧ EndsInDot front := by
  fun_induction domains hostname with
  | case1 hostname hpos nextPoint hdot ih =>
    rcases exists_of_idxOf?_eq_some hdot with ⟨front, hsplit, hfront⟩
    generalize hostname.drop (nextPoint + 1) = rest at ih hsplit
    subst hsplit
    rw [mem_cons, ih]
    constructor
    · rintro (rfl | ⟨hne, before, rfl, hbef⟩)
      · exact ⟨ne_nil_of_length_pos hpos, [], rfl, .inl rfl⟩
      · refine ⟨hne, front ++ dot :: before, by simp, .inr ?_⟩
        rcases hbef with rfl | hbef
        · exact getLast?_concat
        · rw [getLast?_append, getLast?_cons, hbef]
          rfl
    · rintro ⟨hne, before, hsplit, hbef⟩
      rcases hbef with rfl | hbef
      · exact .inl hsplit.symm
      · right
        -- The first dot stands within what comes before the domain.
        rcases append_eq_append_iff.mp hsplit with ⟨middle, rfl, hrest⟩ | ⟨middle, rfl, -⟩
        · rcases middle with _ | ⟨c, middle⟩
          · rw [append_nil] at hbef
            exact absurd (mem_of_getLast? hbef) hfront
          · rw [cons_append, List.cons.injEq] at hrest
            refine ⟨hne, middle, hrest.2, ?_⟩
            rcases eq_nil_or_concat' middle with rfl | ⟨initial, last, rfl⟩
            · exact .inl rfl
            · rw [← cons_append, ← append_assoc, getLast?_concat] at hbef
              exact .inr (getLast?_concat.trans hbef)
        · exact absurd (mem_append_left _ (mem_of_getLast? hbef)) hfront
  | case2 hostname hpos hdot =>
    rw [idxOf?_eq_none_iff] at hdot
    rw [mem_singleton]
    constructor
    · rintro rfl
      exact ⟨ne_nil_of_length_pos hpos, [], rfl, .inl rfl⟩
    · rintro ⟨hne, before, rfl, rfl | hbef⟩
      · rfl
      · exact absurd (mem_append_left _ (mem_of_getLast? hbef)) hdot
  | case3 hostname hpos =>
    have hnil : hostname = [] := eq_nil_of_length_eq_zero (Nat.eq_zero_of_not_pos hpos)
    subst hnil
    refine ⟨nofun, ?_⟩
    rintro ⟨hne, before, hsplit, -⟩
    exact absurd (append_eq_nil_iff.mp hsplit.symm).2 hne

theorem length_le_of_mem_domains (h : domain ∈ domains hostname) :
    domain.length ≤ hostname.length := by
  rcases (mem_domains.mp h).2 with ⟨front, rfl, -⟩
  rw [length_append]
  exact Nat.le_add_left ..

theorem nodup_domains (hostname : JString) : (domains hostname).Nodup := by
  fun_induction domains hostname with
  | case1 hostname hpos nextPoint hdot ih =>
    rw [nodup_cons]
    refine ⟨?_, ih⟩
    intro hmem
    have hle := length_le_of_mem_domains hmem
    rw [length_drop] at hle
    omega
  | case2 hostname hpos hdot => exact nodup_singleton hostname
  | case3 hostname hpos => exact nodup_nil

variable (foldCase : UInt16 → UInt16) (now : Int) (query : Query)

theorem getLoop_eq_foldl (domain : JString) (state : List Cookie × CookieStore) :
    getLoop foldCase now query domain state =
      (domains domain).foldl (visit foldCase now query) state := by
  fun_induction getLoop foldCase now query domain state with
  | case1 domain state hpos nextPoint hdot ih =>
    rw [domains, if_pos hpos, hdot]
    exact ih
  | case2 domain state hpos hdot =>
    rw [domains, if_pos hpos, hdot]
    rfl
  | case3 domain state hpos =>
    rw [domains, if_neg hpos]
    rfl

def foundAt (store : CookieStore) (domain : JString) : List Cookie :=
  ((store.buckets.get domain).map (found foldCase now query)).getD []

theorem foldl_visit (visited : List JString) (hnd : visited.Nodup)
    (state : List Cookie × CookieStore) :
    (visited.foldl (visit foldCase now query) state).1 =
      state.1 ++ visited.flatMap (foundAt foldCase now query state.2) := by
  induction visited generalizing state with
  | nil => simp
  | cons domain visited ih =>
    rw [nodup_cons] at hnd
    rw [foldl_cons, ih hnd.2, flatMap_cons]
    cases hbkt : state.2.buckets.get domain with
    | none =>
      rw [visit_of_none foldCase now query hbkt, foundAt, hbkt]
      rfl
    | some bucket =>
      rw [visit_of_some foldCase now query hbkt, foundAt, hbkt, append_assoc]
      congr 2
      refine flatMap_congr ?_
      intro other hother
      have hne : other ≠ domain := fun h => hnd.1 (h ▸ hother)
      rw [foundAt, foundAt, HashMap.get_put, if_neg hne]

def Matches (cookie : Cookie) : Bool :=
  Cookie.domainMatches query.hostname cookie.domain &&
  (!cookie.hostOnly || cookie.domain == query.hostname) &&
  Cookie.pathMatches query.path cookie.path &&
  (!cookie.secureOnly || query.secureProtocol) &&
  (!cookie.httpOnly || query.httpApi)

theorem domainMatches_self (domain : JString) : Cookie.domainMatches domain domain = true := by
  rw [Cookie.domainMatches, Bool.and_eq_true, isSuffixOf_iff_suffix]
  exact ⟨suffix_refl domain, by simp⟩

variable {cookie : Cookie}

theorem accepts_eq_matches (h : cookie.domain ∈ domains query.hostname) :
    accepts foldCase query cookie = Matches query cookie := by
  have hhost : (if cookie.hostOnly = true then
        equalsIgnoreCase foldCase query.hostname cookie.domain
      else Cookie.domainMatches query.hostname cookie.domain) =
      (Cookie.domainMatches query.hostname cookie.domain &&
        (!cookie.hostOnly || cookie.domain == query.hostname)) := by
    cases cookie.hostOnly with
    | false => simp
    | true =>
      rw [if_pos rfl, Bool.not_true, Bool.false_or]
      by_cases heq : cookie.domain = query.hostname
      · rw [heq, domainMatches_self]
        simp [equalsIgnoreCase]
      · -- A proper end of the hostname is shorter than it.
        rcases (mem_domains.mp h).2 with ⟨front, hfront, -⟩
        have hlen : query.hostname.length ≠ cookie.domain.length := by
          intro hlen
          rw [hfront, length_append, Nat.add_eq_right] at hlen
          rw [eq_nil_of_length_eq_zero hlen] at hfront
          exact heq hfront.symm
        have hfold : query.hostname.map foldCase ≠ cookie.domain.map foldCase := by
          intro hfold
          have := congrArg List.length hfold
          rw [length_map, length_map] at this
          exact hlen this
        rw [equalsIgnoreCase, beq_false_of_ne hfold, beq_false_of_ne heq, Bool.and_false]
  rw [accepts, Matches, hhost]
  cases cookie.secureOnly <;> cases cookie.httpOnly <;> simp

theorem mem_domains_of_domainMatches (h : Cookie.domainMatches hostname domain = true)
    (hdom : domain ≠ []) :
    domain ∈ domains hostname := by
  rw [Cookie.domainMatches, Bool.and_eq_true, isSuffixOf_iff_suffix] at h
  rcases h with ⟨⟨front, rfl⟩, hbef⟩
  refine mem_domains.mpr ⟨hdom, front, rfl, ?_⟩
  rcases eq_nil_or_concat' front with rfl | ⟨initial, last, rfl⟩
  · exact .inl rfl
  · right
    have hlen : (initial ++ [last] ++ domain).length = initial.length + 1 + domain.length := by
      rw [length_append, length_append, length_singleton]
    have hidx : (initial ++ [last] ++ domain).length - domain.length - 1 = initial.length := by
      omega
    have hlast : (initial ++ [last] ++ domain)[initial.length]? = some last := by simp
    have hne : ((initial ++ [last] ++ domain).length == domain.length) = false := by
      rw [beq_eq_false_iff_ne]
      omega
    rw [hidx, hlast, hne, Bool.false_or, Bool.and_eq_true, beq_iff_eq] at hbef
    rw [getLast?_concat]
    exact hbef.1

def scan (store : CookieStore) : List Cookie :=
  (store.buckets.entries.flatMap fun entry => entry.2.values).filter fun cookie =>
    !cookie.hasExpired now && Matches query cookie

variable {store : CookieStore}

theorem mem_scan (h : store.Counted) :
    cookie ∈ scan now query store ↔
      (∃ bucket, store.buckets.get cookie.domain = some bucket ∧ cookie ∈ bucket.values) ∧
        cookie.hasExpired now = false ∧ Matches query cookie = true := by
  rw [scan, mem_filter, mem_flatMap, Bool.and_eq_true, Bool.not_eq_true']
  refine and_congr_left fun _ => ?_
  constructor
  · rintro ⟨⟨domain, bucket⟩, hentry, hcookie⟩
    rcases mem_map.mp hcookie with ⟨⟨key, cookie⟩, hmem, rfl⟩
    have hdom : cookie.domain = domain := (h.placed _ hentry _ hmem).1
    refine ⟨bucket, ?_, hcookie⟩
    rw [hdom]
    exact HashMap.get_eq_some_iff.mpr hentry
  · rintro ⟨bucket, hbkt, hcookie⟩
    exact ⟨(cookie.domain, bucket), HashMap.get_eq_some_iff.mp hbkt, hcookie⟩

theorem mem_foundAt (h : store.Counted) :
    cookie ∈ foundAt foldCase now query store domain ↔
      cookie.domain = domain ∧
        (∃ bucket, store.buckets.get cookie.domain = some bucket ∧ cookie ∈ bucket.values) ∧
        cookie.hasExpired now = false ∧ accepts foldCase query cookie = true := by
  rw [foundAt]
  constructor
  · intro hcookie
    cases hbkt : store.buckets.get domain with
    | none =>
      rw [hbkt] at hcookie
      cases hcookie
    | some bucket =>
      rw [hbkt] at hcookie
      rcases mem_found foldCase now query (h.get hbkt).2 hcookie with ⟨hdom, hget, hlive⟩
      rw [HashMap.get_eq_some_iff] at hget
      have hval : cookie ∈ bucket.values :=
        mem_map.mpr ⟨_, (Bucket.mem_live.mp hget).1, rfl⟩
      exact ⟨hdom, ⟨bucket, hdom ▸ hbkt, hval⟩, hlive, (mem_filter.mp hcookie).2⟩
  · rintro ⟨rfl, ⟨bucket, hbkt, hval⟩, hlive, haccepts⟩
    rw [hbkt]
    rcases mem_map.mp hval with ⟨entry, hentry, rfl⟩
    exact mem_filter.mpr
      ⟨mem_map.mpr ⟨entry, Bucket.mem_live.mpr ⟨hentry, hlive⟩, rfl⟩, haccepts⟩

theorem nodup_scan (h : store.Counted) : (scan now query store).Nodup :=
  (List.Nodup.of_map _ (nodup_keys_flatMap store.buckets.entries id store.buckets.keys_nodup
    h.placed)).filter _

theorem nodup_found {bucket : Bucket} (hplaced : Placed domain bucket) :
    (found foldCase now query bucket).Nodup :=
  (List.Nodup.of_map _ (nodup_keys_of_placed (hplaced.live now))).filter _

theorem flatMap_foundAt_perm_scan (h : store.Counted)
    (hdom : ∀ cookie ∈ scan now query store, cookie.domain ≠ []) :
    ((domains query.hostname).flatMap (foundAt foldCase now query store)).Perm
      (scan now query store) := by
  refine (perm_ext_iff_of_nodup ?_ (nodup_scan now query h)).mpr ?_
  · rw [nodup_flatMap]
    constructor
    · intro domain _
      rw [foundAt]
      cases hbkt : store.buckets.get domain with
      | none => exact nodup_nil
      | some bucket => exact nodup_found foldCase now query (h.get hbkt).2
    · refine (nodup_domains query.hostname).imp ?_
      intro d₁ d₂ hne cookie h₁ h₂
      exact hne (((mem_foundAt foldCase now query h).mp h₁).1.symm.trans
        ((mem_foundAt foldCase now query h).mp h₂).1)
  · intro cookie
    rw [mem_flatMap]
    constructor
    · rintro ⟨domain, hvisited, hfound⟩
      rcases (mem_foundAt foldCase now query h).mp hfound with ⟨rfl, hstored, hlive, haccepts⟩
      rw [accepts_eq_matches foldCase query hvisited] at haccepts
      exact (mem_scan now query h).mpr ⟨hstored, hlive, haccepts⟩
    · intro hscan
      rcases (mem_scan now query h).mp hscan with ⟨hstored, hlive, hmatches⟩
      have hmatch : Cookie.domainMatches query.hostname cookie.domain = true := by
        simp only [Matches, Bool.and_eq_true] at hmatches
        exact hmatches.1.1.1.1
      have hvisited := mem_domains_of_domainMatches hmatch (hdom cookie hscan)
      refine ⟨cookie.domain, hvisited, (mem_foundAt foldCase now query h).mpr ?_⟩
      rw [accepts_eq_matches foldCase query hvisited]
      exact ⟨rfl, hstored, hlive, hmatches⟩

/-- The order of the result: longer paths first, then what has been created earlier. -/
def Before (c1 c2 : Cookie) : Prop :=
  c2.path.length < c1.path.length ∨
    c1.path.length = c2.path.length ∧
      (c1.creationTime.baseTime < c2.creationTime.baseTime ∨
        c1.creationTime.baseTime = c2.creationTime.baseTime ∧
          c1.creationTime.subtime ≤ c2.creationTime.subtime)

instance (c1 c2 : Cookie) : Decidable (Before c1 c2) := inferInstanceAs (Decidable (_ ∨ _))

/-- The difference is that of two values of type `int` no further apart than this type reaches. -/
def InRange (d : Int) : Prop := -2 ^ 31 < d ∧ d < 2 ^ 31

def NearTimes (c1 c2 : Cookie) : Prop :=
  InRange (c1.creationTime.baseTime - c2.creationTime.baseTime) ∧
    (c1.creationTime.baseTime = c2.creationTime.baseTime →
      InRange (c1.creationTime.subtime - c2.creationTime.subtime))

instance (d : Int) : Decidable (InRange d) := inferInstanceAs (Decidable (_ ∧ _))

instance (c1 c2 : Cookie) : Decidable (NearTimes c1 c2) := inferInstanceAs (Decidable (_ ∧ _))

theorem toInt_of_inRange {d : Int} (h : InRange d) : toInt d = d := by
  rcases h with ⟨hlow, hhigh⟩
  exact Int.bmod_eq_of_le (by omega) (by omega)

theorem compareTo_le_zero_iff {c1 c2 : Cookie} (h : NearTimes c1 c2) :
    c1.creationTime.compareTo c2.creationTime ≤ 0 ↔
      c1.creationTime.baseTime < c2.creationTime.baseTime ∨
        c1.creationTime.baseTime = c2.creationTime.baseTime ∧
          c1.creationTime.subtime ≤ c2.creationTime.subtime := by
  rcases h with ⟨hbase, hsub⟩
  unfold ExtendedTime.compareTo
  rw [toInt_of_inRange hbase]
  dsimp only
  split
  · omega
  · rw [toInt_of_inRange (hsub (by omega))]
    omega

theorem compare_le_zero_iff {c1 c2 : Cookie}
    (h : c1.path.length = c2.path.length → NearTimes c1 c2) :
    GetComparator.compare c1 c2 ≤ 0 ↔ Before c1 c2 := by
  unfold GetComparator.compare Before
  dsimp only
  split
  · omega
  · have hlen : c1.path.length = c2.path.length := by omega
    rw [compareTo_le_zero_iff (h hlen)]
    omega

theorem Before.trans {c1 c2 c3 : Cookie} (h₁ : Before c1 c2) (h₂ : Before c2 c3) :
    Before c1 c3 := by
  unfold Before at *
  omega

theorem Before.total (c1 c2 : Cookie) : Before c1 c2 ∨ Before c2 c1 := by
  unfold Before
  omega

theorem mergeSort_before {l : List Cookie}
    (h : ∀ c1 ∈ l, ∀ c2 ∈ l, c1.path.length = c2.path.length → NearTimes c1 c2) :
    (l.mergeSort fun c1 c2 => GetComparator.compare c1 c2 ≤ 0).Pairwise Before := by
  have hle : ∀ c1 ∈ l, ∀ c2 ∈ l,
      decide (GetComparator.compare c1 c2 ≤ 0) = true ↔ Before c1 c2 := by
    intro c1 h₁ c2 h₂
    rw [decide_eq_true_eq]
    exact compare_le_zero_iff (h c1 h₁ c2 h₂)
  have hsorted := pairwise_mergeSort_of_mem (fun c1 c2 => decide (GetComparator.compare c1 c2 ≤ 0))
    (fun a ha b hb c hc hab hbc => (hle a ha c hc).mpr
      (((hle a ha b hb).mp hab).trans ((hle b hb c hc).mp hbc)))
    (fun a ha b hb => (Before.total a b).imp (hle a ha b hb).mpr (hle b hb a ha).mpr)
  refine hsorted.imp_of_mem ?_
  intro a b ha hb hab
  exact (hle a (mem_mergeSort.mp ha) b (mem_mergeSort.mp hb)).mp hab

/-- `get` returns what a scan finds, in order; the cookies get the time of the access. -/
def GetsByScan (store : CookieStore) : Prop :=
  (store.get foldCase now query).1.Perm
      ((scan now query store).map (Cookie.setLastAccessTime now)) ∧
    (store.get foldCase now query).1.Pairwise Before

/-- The comparator can sort the cookies that match. -/
def Orderly (store : CookieStore) : Prop :=
  (∀ cookie ∈ scan now query store, cookie.domain ≠ []) ∧
    ∀ c1 ∈ scan now query store, ∀ c2 ∈ scan now query store,
      c1.path.length = c2.path.length → NearTimes c1 c2

instance (store : CookieStore) : Decidable (Orderly now query store) :=
  inferInstanceAs (Decidable (_ ∧ _))

theorem get_fst (store : CookieStore) : (store.get foldCase now query).1 =
    (((domains query.hostname).flatMap (foundAt foldCase now query store)).mergeSort fun c1 c2 =>
      GetComparator.compare c1 c2 ≤ 0).map (Cookie.setLastAccessTime now) := by
  have hfound := foldl_visit foldCase now query _ (nodup_domains query.hostname) ([], store)
  rw [nil_append] at hfound
  rw [← hfound, CookieStore.get, getLoop_eq_foldl]

theorem Counted.getsByScan (h : store.Counted) (horderly : Orderly now query store) :
    GetsByScan foldCase now query store := by
  have hperm := flatMap_foundAt_perm_scan foldCase now query h horderly.1
  rw [GetsByScan, get_fst]
  constructor
  · exact ((mergeSort_perm _ _).trans hperm).map _
  · rw [pairwise_map]
    refine mergeSort_before ?_
    intro c1 h₁ c2 h₂
    exact horderly.2 c1 (hperm.mem_iff.mp h₁) c2 (hperm.mem_iff.mp h₂)

theorem get_by_scan (entrySet : IterationOrder (JString × Bucket)) (removalQueue : RemovalOrder)
    (calls : List Call) (store : CookieStore)
    (hrun : runSteps (call foldCase entrySet removalQueue) new calls = some store)
    (horderly : Orderly now query store) : GetsByScan foldCase now query store := by
  rcases runSteps_counted foldCase entrySet removalQueue calls with ⟨_, hrun', hcounted, -⟩
  rw [hrun] at hrun'
  cases hrun'
  exact hcounted.getsByScan foldCase now query horderly

/-- A queue that gives back what has been accessed earliest, as a sort finds it. -/
def RemovalOrder.bySort : RemovalOrder where
  order := fun l => l.mergeSort fun c1 c2 => RemovalComparator.compare c1 c2 ≤ 0
  perm := fun l => mergeSort_perm l _
  sorted := by
    intro l htotal htrans
    have hsorted := pairwise_mergeSort_of_mem
      (fun c1 c2 => decide (RemovalComparator.compare c1 c2 ≤ 0))
      (fun a ha b hb c hc hab hbc => decide_eq_true (htrans a ha b hb c hc (of_decide_eq_true hab)
        (of_decide_eq_true hbc)))
      (fun a ha b hb => (htotal a ha b hb).imp decide_eq_true decide_eq_true)
    exact hsorted.imp of_decide_eq_true

/-- A cookie of the host `c` that does not expire. -/
def sessionCookie (name : JString) (createdAt : Int) : Cookie where
  name := name
  value := []
  expiryTime := 2 ^ 63 - 1
  domain := [99]
  path := [slash]
  creationTime := .currentTime createdAt
  lastAccessTime := createdAt
  persistent := false
  hostOnly := true
  secureOnly := false
  httpOnly := false

/-- Two cookies of a host that have been created within the same second. -/
theorem get_by_scan_session : ∃ store,
    runSteps (call id ⟨id, fun _ => .refl _⟩ .bySort) new
      [.put 4000 (sessionCookie [97] 4000), .put 4500 (sessionCookie [98] 4500)] = some store ∧
    Orderly 5000 ⟨[99], some [slash], false, true⟩ store ∧
    GetsByScan id 5000 ⟨[99], some [slash], false, true⟩ store := by
  refine ⟨_, rfl, ?_, get_by_scan id 5000 _ ⟨id, fun _ => .refl _⟩ .bySort
    [.put 4000 (sessionCookie [97] 4000), .put 4500 (sessionCookie [98] 4500)] _ rfl ?_⟩
  · decide
  · decide

theorem older_cookie_last : ¬∀ (foldCase : UInt16 → UInt16) (now : Int) (query : Query)
    (entrySet : IterationOrder (JString × Bucket)) (removalQueue : RemovalOrder)
    (calls : List Call) (store : CookieStore),
    runSteps (call foldCase entrySet removalQueue) new calls = some store →
      GetsByScan foldCase now query store := by
  intro h
  have hscan := h id (2 ^ 31 + 1) ⟨[99], some [slash], false, true⟩ ⟨id, fun _ => .refl _⟩ .bySort
    [.put 0 (sessionCookie [97] 0), .put (2 ^ 31 + 1) (sessionCookie [98] (2 ^ 31 + 1))] _ rfl
  have hdomains : domains [99] = [[99]] := by
    rw [domains]
    rfl
  have hbefore := hscan.2
  rw [get_fst, hdomains] at hbefore
  change (List.map _
    (List.mergeSort [sessionCookie [97] 0, sessionCookie [98] (2 ^ 31 + 1)] _)).Pairwise _
    at hbefore
  rw [mergeSort_pair _ (by decide)] at hbefore
  revert hbefore
  decide

end CookieStore

end OpenJfx.Network
