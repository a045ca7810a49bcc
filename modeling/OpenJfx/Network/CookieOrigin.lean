import OpenJfx.Network.HttpOnly

namespace OpenJfx.Network

open Java Data List

namespace CookieStore

def All (P : Cookie → Prop) (store : CookieStore) : Prop := ∀ cookie, store.Stored cookie → P cookie

variable {P : Cookie → Prop} {store store' : CookieStore}

theorem All.within (h : store.All P) (hwithin : store'.Within store) : store'.All P :=
  fun cookie hcookie => h cookie (hwithin cookie hcookie)

theorem put_all {entrySet : IterationOrder (JString × Bucket)} {removalQueue : RemovalOrder}
    {now : Int} {cookie : Cookie} (h : store.All P) (hcookie : P cookie)
    (hput : store.put entrySet removalQueue now cookie = some store') : store'.All P := by
  have hins : (store.insert now cookie).1.All P := by
    intro other hother
    rcases (insert_stored now store cookie other).1 hother with rfl | hstored
    · exact hcookie
    · exact h other hstored
  rw [put_eq_insert] at hput
  split_ifs at hput
  · exact hins.within (purgeFull_within _ _ _ hput)
  · cases hput
    exact hins

section

variable (foldCase : UInt16 → UInt16) (now : Int) (query : Query)

theorem visit_within (state : List Cookie × CookieStore) (domain : JString) :
    (visit foldCase now query state domain).2.Within state.2 := by
  cases hbkt : state.2.buckets.get domain with
  | none =>
    rw [visit_of_none foldCase now query hbkt]
    exact Within.refl _
  | some bucket =>
    rw [visit_of_some foldCase now query hbkt]
    exact within_putBucket hbkt (entries_live_subset now bucket) _

theorem getLoop_within (domain : JString) (state : List Cookie × CookieStore) :
    (getLoop foldCase now query domain state).2.Within state.2 := by
  rw [getLoop_eq_foldl]
  generalize domains domain = visited
  induction visited generalizing state with
  | nil => exact Within.refl _
  | cons domain visited ih => exact (ih _).trans (visit_within foldCase now query state domain)

theorem setLastAccessTime_all {cookie : Cookie} (h : store.All P)
    (hcookie : P (cookie.setLastAccessTime now)) : (store.setLastAccessTime now cookie).All P := by
  unfold setLastAccessTime
  cases hbkt : store.buckets.get cookie.domain with
  | none => exact h
  | some bucket =>
    have hbkt' : store.buckets.get (cookie.setLastAccessTime now).domain = some bucket := hbkt
    have hput : ∀ key, (bucket.put cookie.key (cookie.setLastAccessTime now)).get key = _ :=
      HashMap.get_put bucket _ _
    intro other hother
    have hstored := (stored_putBucket hbkt' (fun key hne => (hput key).trans (if_neg hne)) ?_ _
      other).1 hother
    · rcases hstored with rfl | hstored
      · exact hcookie
      · exact h other hstored
    · intro old hold
      rw [hput] at hold
      exact (Option.some.inj ((if_pos rfl).symm.trans hold)).symm

theorem get_all (hcounted : store.Counted) (h : store.All P)
    (htime : ∀ cookie, P cookie → P (cookie.setLastAccessTime now)) :
    (store.get foldCase now query).2.All P := by
  have hfinds := getLoop_finds foldCase now query query.hostname ([], store)
    ⟨hcounted, Int.le_refl _, by simp⟩
  have hall := h.within (getLoop_within foldCase now query query.hostname ([], store))
  unfold CookieStore.get
  generalize getLoop foldCase now query query.hostname ([], store) = state at hfinds hall
  rcases state with ⟨list, after⟩
  have hresult : ∀ cookie ∈ list.mergeSort fun c1 c2 => GetComparator.compare c1 c2 ≤ 0,
      P (cookie.setLastAccessTime now) := by
    intro cookie hcookie
    exact htime cookie (hall cookie (hfinds.stored cookie (mem_mergeSort.mp hcookie)).1)
  dsimp only
  generalize (list.mergeSort fun c1 c2 => GetComparator.compare c1 c2 ≤ 0) = result at hresult
  clear hfinds
  induction result generalizing after with
  | nil => exact hall
  | cons cookie result ih =>
    refine ih _ (setLastAccessTime_all now hall (hresult cookie mem_cons_self)) ?_
    exact fun cookie hcookie => hresult cookie (mem_cons_of_mem _ hcookie)

/-- What is found is stored, and it matches as the hostname itself says, whatever its case. -/
theorem matches_of_mem_get (hcounted : store.Counted) {cookie : Cookie}
    (hcookie : cookie ∈ (store.get foldCase now query).1) :
    ∃ stored, store.Stored stored ∧ stored.setLastAccessTime now = cookie ∧ stored.domain ≠ [] ∧
      Matches query stored = true := by
  rw [get_fst] at hcookie
  obtain ⟨stored, hfound, rfl⟩ := mem_map.mp hcookie
  rw [mem_mergeSort, mem_flatMap] at hfound
  obtain ⟨domain, hdomain, hfound⟩ := hfound
  obtain ⟨rfl, ⟨bucket, hbkt, hvalue⟩, -, haccepts⟩ :=
    (mem_foundAt foldCase now query hcounted).1 hfound
  rw [accepts_eq_matches foldCase query hdomain] at haccepts
  refine ⟨stored, ⟨bucket, hbkt, ?_⟩, rfl, (mem_domains.mp hdomain).1, haccepts⟩
  obtain ⟨entry, hentry, rfl⟩ := mem_map.mp hvalue
  rw [((hcounted.get hbkt).2 entry hentry).2]
  exact HashMap.get_eq_some_iff.mpr hentry

end

end CookieStore

namespace CookieManager

variable (env : ManagerEnv)

/-- The cookie is what the host of the URI may set by the parsed cookie. -/
structure MaySet (uri : Uri) (host : JString) (parsed : ParsedCookie) (cookie : Cookie) :
    Prop where
  canonical : canonicalHost env uri = some host
  name : cookie.name = parsed.name
  value : cookie.value = parsed.value
  hostOnly : cookie.hostOnly = true → cookie.domain = host
  shared : cookie.hostOnly = false →
    Cookie.domainMatches host cookie.domain = true ∧ isPublicSuffix env.rules cookie.domain = false
  httpOnly : cookie.httpOnly = true → httpApi env uri = true

def SetBy (uri : Uri) (responseHeaders : List Header) (cookie : Cookie) : Prop :=
  ∃ header ∈ responseHeaders, isSetCookie env header = true ∧
    ∃ s ∈ header.2, ∃ time parsed host,
      Cookie.parse env.toParseEnv s time = some parsed ∧ MaySet env uri host parsed cookie

/-- Every stored cookie has been set by a response. -/
def Authorized (calls : List Call) (m : CookieManager) : Prop :=
  m.store.All fun cookie =>
    ∃ uri responseHeaders, .put uri responseHeaders ∈ calls ∧ SetBy env uri responseHeaders cookie

/-- The hosts are one, or both lie below a domain that is no public suffix. -/
def MayShare (host host' : JString) : Prop :=
  host' = host ∨ ∃ domain, domain ≠ [] ∧ isPublicSuffix env.rules domain = false ∧
    Cookie.domainMatches host domain = true ∧ Cookie.domainMatches host' domain = true

/-- The flags allow to send it, and a host that may share it has set it. -/
def MaySend (calls : List Call) (uri : Uri) (host : JString) (cookie : Cookie) : Prop :=
  (cookie.secureOnly = true → secureProtocol env uri = true) ∧
    (cookie.httpOnly = true → httpApi env uri = true) ∧
    ∃ uri' responseHeaders host', .put uri' responseHeaders ∈ calls ∧
      SetBy env uri' responseHeaders cookie ∧ canonicalHost env uri' = some host' ∧
      MayShare env host host'

variable {env} {uri : Uri} {m m' : CookieManager} {P : Cookie → Prop}

theorem place_maySet {parsed : ParsedCookie} {placed : Cookie}
    (h : place env uri parsed = some placed) : ∃ host, MaySet env uri host parsed placed := by
  unfold place at h
  cases hhost : canonicalHost env uri with
  | none =>
    rw [hhost] at h
    cases h
  | some host =>
    rw [hhost] at h
    dsimp only at h
    cases hdom : placeDomain env host parsed.domain with
    | none =>
      rw [hdom] at h
      cases h
    | some found =>
      rw [hdom] at h
      dsimp only at h
      split_ifs at h with hblocked
      cases h
      refine ⟨host, hhost, rfl, rfl, ?_, ?_, ?_⟩
      · intro hhostOnly
        grind [placeDomain]
      · intro hshared
        grind [placeDomain]
      · intro hhttpOnly
        simpa [show parsed.httpOnly = true from hhttpOnly] using hblocked

theorem putCookie_all {parsed : ParsedCookie} (h : m.store.All P)
    (hset : ∀ host placed, MaySet env uri host parsed placed → P placed)
    (hput : putCookie env uri m parsed = some m') : m'.store.All P := by
  unfold putCookie at hput
  cases hplace : place env uri parsed with
  | none =>
    rw [hplace] at hput
    cases hput
    exact h
  | some placed =>
    rw [hplace] at hput
    obtain ⟨host, hmay⟩ := place_maySet hplace
    have hwithin := CookieStore.getCookie_within (env.clock m.ticks) m.store placed
    dsimp only [lookUp] at hput
    generalize m.store.getCookie (env.clock m.ticks) placed = result at hput hwithin
    rcases result with ⟨oldCookie, store⟩
    have hall := h.within hwithin
    have hstore : ∀ {cookie : Cookie}, P cookie →
        putStore env ⟨store, m.ticks + 1⟩ cookie = some m' → m'.store.All P := by
      intro cookie hcookie hlast
      rw [putStore, Option.map_eq_some_iff] at hlast
      obtain ⟨store', hlast, rfl⟩ := hlast
      exact CookieStore.put_all hall hcookie hlast
    cases oldCookie with
    | none => exact hstore (hset host placed hmay) hput
    | some old =>
      dsimp only at hput
      split_ifs at hput
      · cases hput
        exact hall
      · have hold : MaySet env uri host parsed { placed with creationTime := old.creationTime } :=
          { hmay with }
        exact hstore (hset host _ hold) hput

theorem putStrings_all (strings : List JString)
    (hset : ∀ s ∈ strings, ∀ time parsed host placed,
      Cookie.parse env.toParseEnv s time = some parsed → MaySet env uri host parsed placed →
        P placed) :
    ∀ (currentTime : ExtendedTime) {m : CookieManager}, m.store.All P →
      putStrings env uri strings currentTime m = some m' → m'.store.All P := by
  induction strings with
  | nil =>
    intro currentTime m h hput
    cases hput
    exact h
  | cons s strings ih =>
    intro currentTime m h hput
    rw [putStrings] at hput
    have hlater := ih fun s hs => hset s (mem_cons_of_mem _ hs)
    cases hparse : Cookie.parse env.toParseEnv s currentTime with
    | none =>
      rw [hparse] at hput
      exact hlater currentTime h hput
    | some parsed =>
      rw [hparse] at hput
      dsimp only at hput
      cases hcookie : putCookie env uri m parsed with
      | none =>
        rw [hcookie] at hput
        cases hput
      | some m₁ =>
        rw [hcookie] at hput
        refine hlater _ (putCookie_all h ?_ hcookie) hput
        exact fun host placed => hset s mem_cons_self currentTime parsed host placed hparse

theorem put_all (responseHeaders : List Header)
    (hset : ∀ placed, SetBy env uri responseHeaders placed → P placed) :
    ∀ {m : CookieManager}, m.store.All P → m.put env uri responseHeaders = some m' →
      m'.store.All P := by
  induction responseHeaders with
  | nil =>
    intro m h hput
    cases hput
    exact h
  | cons header headers ih =>
    intro m h hput
    rw [put, foldlM_cons] at hput
    obtain ⟨m₁, hheader, hrest⟩ := Option.bind_eq_some_iff.mp hput
    have hlater : ∀ placed, SetBy env uri headers placed → P placed := by
      rintro placed ⟨other, hother, hset'⟩
      exact hset placed ⟨other, mem_cons_of_mem _ hother, hset'⟩
    refine ih hlater ?_ hrest
    rw [putHeader] at hheader
    split_ifs at hheader with hkey
    · have hticked : ({ m with ticks := m.ticks + 1 } : CookieManager).store.All P := h
      refine putStrings_all _ ?_ _ hticked hheader
      intro s hs time parsed host placed hparse hmay
      exact hset placed ⟨header, mem_cons_self, hkey, s, mem_reverse.mp hs, time, parsed, host,
        hparse, hmay⟩
    · cases hheader
      exact h

variable (env)

theorem calls_authorized (calls : List Call) :
    ∃ m, runSteps (call env) new calls = some m ∧ m.Kept ∧ Authorized env calls m := by
  induction calls using List.reverseRecOn with
  | nil => exact ⟨new, rfl, new_kept, by rintro cookie ⟨bucket, hbkt, -⟩; cases hbkt⟩
  | append_singleton calls c ih =>
    obtain ⟨m, hrun, hkept, hauth⟩ := ih
    obtain ⟨m', hcall, hkept'⟩ := call_kept env hkept c
    refine ⟨m', runSteps_concat_iff.mpr ⟨m, hrun, hcall⟩, hkept', ?_⟩
    have hbefore : Authorized env (calls ++ [c]) m := by
      intro cookie hcookie
      obtain ⟨uri, headers, hmem, hset⟩ := hauth cookie hcookie
      exact ⟨uri, headers, mem_append_left _ hmem, hset⟩
    cases c with
    | put uri headers =>
      refine put_all headers ?_ hbefore hcall
      exact fun placed hset => ⟨uri, headers, by simp, hset⟩
    | get uri =>
      cases hcall
      unfold CookieManager.get
      cases canonicalHost env uri with
      | none => exact hbefore
      | some host =>
        refine CookieStore.get_all _ _ _ hkept.1 hbefore ?_
        rintro cookie ⟨uri, headers, hput, header, hheader, hkey, s, hs, time, parsed, host,
          hparse, hmay⟩
        exact ⟨uri, headers, hput, header, hheader, hkey, s, hs, time, parsed, host, hparse,
          { hmay with }⟩

/-- Whatever requests and responses there are, in any order, each cookie comes from a header of
a response of a host that it belongs to. -/
theorem authorized_after_calls (calls : List Call) :
    ∃ m, runSteps (call env) new calls = some m ∧ Authorized env calls m := by
  obtain ⟨m, hrun, -, hauth⟩ := calls_authorized env calls
  exact ⟨m, hrun, hauth⟩

/-- What is sent to a host has been set by one that may share its cookies with it. -/
theorem sent_after_calls (calls : List Call) :
    ∃ m, runSteps (call env) new calls = some m ∧ ∀ uri reply, (m.get env uri).1 = some reply →
      ∃ host cookies, canonicalHost env uri = some host ∧ reply = cookieString cookies ∧
        ∀ cookie ∈ cookies, MaySend env calls uri host cookie := by
  obtain ⟨m, hrun, hkept, hauth⟩ := calls_authorized env calls
  refine ⟨m, hrun, ?_⟩
  intro uri reply hreply
  unfold CookieManager.get at hreply
  cases hhost : canonicalHost env uri with
  | none =>
    rw [hhost] at hreply
    cases hreply
  | some host =>
    rw [hhost] at hreply
    dsimp only at hreply
    split_ifs at hreply
    cases hreply
    refine ⟨host, _, rfl, rfl, ?_⟩
    intro cookie hcookie
    obtain ⟨stored, hstored, rfl, hdomain, hmatches⟩ :=
      CookieStore.matches_of_mem_get _ _ _ hkept.1 hcookie
    obtain ⟨uri', headers, hput, header, hheader, hkey, s, hs, time, parsed, host', hparse,
      hmay⟩ := hauth stored hstored
    simp only [CookieStore.Matches, Bool.and_eq_true, Bool.or_eq_true, Bool.not_eq_true',
      beq_iff_eq] at hmatches
    obtain ⟨⟨⟨⟨hbelow, hown⟩, -⟩, hsecure⟩, hhttp⟩ := hmatches
    refine ⟨?_, ?_, uri', headers, host', hput, ⟨header, hheader, hkey, s, hs, time, parsed, host',
      hparse, { hmay with }⟩, hmay.canonical, ?_⟩
    · intro hcookie
      exact hsecure.resolve_left (ne_false_of_eq_true hcookie)
    · intro hcookie
      exact hhttp.resolve_left (ne_false_of_eq_true hcookie)
    · cases honly : stored.hostOnly with
      | false =>
        obtain ⟨hmatch, hrule⟩ := hmay.shared honly
        exact .inr ⟨stored.domain, hdomain, hrule, hbelow, hmatch⟩
      | true =>
        have hsame := hown.resolve_left (ne_false_of_eq_true honly)
        exact .inl ((hmay.hostOnly honly).symm.trans hsame)

end CookieManager

end OpenJfx.Network
