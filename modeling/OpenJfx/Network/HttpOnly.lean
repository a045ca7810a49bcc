import OpenJfx.Network.CookieConceal

namespace OpenJfx.Network

open Java Data List

def ParsedCookie.conceal (cookie : ParsedCookie) : ParsedCookie :=
  { cookie with value := if cookie.httpOnly then [] else cookie.value }

namespace Cookie

variable (env : ParseEnv)

/-- Two strings of `Set-Cookie` headers that differ in the value of a cookie that is HttpOnly. -/
def DifferInSecret (s s' : JString) : Prop :=
  ∃ name value value' items,
    61 ∉ name ∧ s.splitOn 59 = (name ++ 61 :: value) :: items ∧
      s'.splitOn 59 = (name ++ 61 :: value') :: items ∧
      ∃ item ∈ items, isAttribute env "HttpOnly" item = true

theorem splitPair_append {name : JString} (hname : 61 ∉ name) (value : JString) :
    splitPair (name ++ 61 :: value) = (name, some value) := by
  have hall : ∀ c ∈ name, decide (c ≠ 61) = true := by
    intro c hc
    rw [decide_eq_true_eq]
    rintro rfl
    exact hname hc
  rw [splitPair, takeWhile_append_of_pos hall, dropWhile_append_of_pos hall]
  simp

theorem isAttribute_of_length {item : JString} {name name' : String}
    (h : isAttribute env name item = true) (hlen : (str name').length ≠ (str name).length) :
    isAttribute env name' item = false := by
  rw [isAttribute, equalsIgnoreCase, beq_iff_eq] at h
  rw [isAttribute, equalsIgnoreCase, beq_eq_false_iff_ne]
  intro h'
  have heq := congrArg List.length (h'.trans h.symm)
  rw [length_map, length_map] at heq
  exact hlen heq

theorem addAttribute_httpOnly {item : JString} (h : isAttribute env "HttpOnly" item = true)
    (currentTime : Int) (attributes : Attributes) :
    addAttribute env currentTime attributes item = { attributes with httpOnly := true } := by
  unfold addAttribute
  rw [isAttribute_of_length env h (by decide), isAttribute_of_length env h (by decide),
    isAttribute_of_length env h (by decide), isAttribute_of_length env h (by decide),
    isAttribute_of_length env h (by decide), h]
  rfl

theorem httpOnly_addAttribute {attributes : Attributes} (h : attributes.httpOnly = true)
    (currentTime : Int) (item : JString) :
    (addAttribute env currentTime attributes item).httpOnly = true := by
  unfold addAttribute
  split_ifs
  · cases parseExpires env (attributeValue item) <;> exact h
  · cases parseMaxAge env (attributeValue item) currentTime <;> exact h
  · cases parseDomain env (attributeValue item) <;> exact h
  · exact h
  · exact h
  · rfl
  · exact h

theorem httpOnly_foldl (currentTime : Int) (items : List JString) (attributes : Attributes)
    (h : attributes.httpOnly = true ∨ ∃ item ∈ items, isAttribute env "HttpOnly" item = true) :
    (items.foldl (addAttribute env currentTime) attributes).httpOnly = true := by
  induction items generalizing attributes with
  | nil =>
    rcases h with h | ⟨item, hitem, -⟩
    · exact h
    · exact nomatch hitem
  | cons item items ih =>
    apply ih
    rcases h with h | ⟨other, hother, h⟩
    · exact .inl (httpOnly_addAttribute env h currentTime item)
    · rcases mem_cons.mp hother with rfl | hother
      · rw [addAttribute_httpOnly env h]
        exact .inl rfl
      · exact .inr ⟨other, hother, h⟩

theorem DifferInSecret.parse {s s' : JString} (h : DifferInSecret env s s')
    (currentTime : ExtendedTime) :
    (Cookie.parse env s currentTime).map ParsedCookie.conceal =
      (Cookie.parse env s' currentTime).map ParsedCookie.conceal := by
  rcases h with ⟨name, value, value', items, hname, hs, hs', hitem⟩
  have hhttpOnly : (parseAttributes env currentTime.baseTime items).httpOnly = true :=
    httpOnly_foldl env _ items {} (.inr hitem)
  unfold Cookie.parse
  rw [hs, hs']
  dsimp only
  rw [splitPair_append hname, splitPair_append hname]
  dsimp only
  split_ifs
  · rfl
  · simp only [Option.map_some, ParsedCookie.conceal, ofAttributes, hhttpOnly, if_true]

end Cookie

namespace CookieManager

variable (env : ManagerEnv)

def conceal (m : CookieManager) : CookieManager := ⟨m.store.conceal, m.ticks⟩

theorem place_conceal (uri : Uri) (cookie : ParsedCookie) :
    place env uri cookie.conceal = (place env uri cookie).map Cookie.conceal := by
  unfold place
  cases canonicalHost env uri with
  | none => rfl
  | some host =>
    dsimp only [ParsedCookie.conceal]
    cases placeDomain env host cookie.domain with
    | none => rfl
    | some found =>
      rw [apply_ite (Option.map Cookie.conceal)]
      rfl

theorem lookUp_conceal (uri : Uri) (m : CookieManager) (cookie : Cookie) :
    lookUp env uri m.conceal cookie.conceal =
      ((lookUp env uri m cookie).1.map Cookie.conceal, (lookUp env uri m cookie).2.conceal) := by
  have hget : m.conceal.store.getCookie (env.clock m.conceal.ticks) cookie.conceal = _ :=
    CookieStore.getCookie_conceal (env.clock m.ticks) m.store cookie
  unfold lookUp
  rw [hget]
  generalize m.store.getCookie (env.clock m.ticks) cookie = found
  rcases found with ⟨_ | oldCookie, store⟩
  · rfl
  · dsimp only [Option.map_some, Cookie.conceal]
    cases oldCookie.httpOnly && !httpApi env uri <;> rfl

theorem putStore_conceal (m : CookieManager) (cookie : Cookie) :
    putStore env m.conceal cookie.conceal = (putStore env m cookie).map conceal := by
  have hput := CookieStore.put_conceal (env.clock m.ticks) env.entrySet env.removalQueue m.store
    cookie
  unfold putStore
  change (CookieStore.put _ _ (env.clock m.ticks) m.store.conceal cookie.conceal).map _ = _
  rw [hput, Option.map_map, Option.map_map]
  rfl

theorem putCookie_conceal (uri : Uri) (m : CookieManager) (cookie : ParsedCookie) :
    putCookie env uri m.conceal cookie.conceal = (putCookie env uri m cookie).map conceal := by
  unfold putCookie
  rw [place_conceal]
  cases place env uri cookie with
  | none => rfl
  | some placed =>
    dsimp only [Option.map_some]
    rw [lookUp_conceal]
    generalize lookUp env uri m placed = found
    rcases found with ⟨_ | placed, m'⟩
    · rfl
    · exact putStore_conceal env m' placed

/-- The strings of a header that are the same, or set a secret through HTTP. -/
def SameString (uri : Uri) (s s' : JString) : Prop :=
  s = s' ∨ httpApi env uri = true ∧ Cookie.DifferInSecret env.toParseEnv s s'

def SameHeader (uri : Uri) (header header' : Header) : Prop :=
  header.1 = header'.1 ∧ List.Forall₂ (SameString env uri) header.2 header'.2

/-- The same calls but for the values of HttpOnly cookies that are set through HTTP. -/
inductive SameCall : Call → Call → Prop
  | get (uri : Uri) : SameCall (.get uri) (.get uri)
  | put (uri : Uri) {headers headers' : List Header} :
      List.Forall₂ (SameHeader env uri) headers headers' →
      SameCall (.put uri headers) (.put uri headers')

variable {env}

variable {uri : Uri}

theorem SameString.parse {s s' : JString} (h : SameString env uri s s')
    (currentTime : ExtendedTime) :
    (Cookie.parse env.toParseEnv s currentTime).map ParsedCookie.conceal =
      (Cookie.parse env.toParseEnv s' currentTime).map ParsedCookie.conceal := by
  rcases h with rfl | ⟨-, hsecret⟩
  · rfl
  · exact hsecret.parse env.toParseEnv currentTime

theorem putStrings_same {strings strings' : List JString}
    (h : List.Forall₂ (SameString env uri) strings strings') :
    ∀ (currentTime : ExtendedTime) {m m' : CookieManager}, m.conceal = m'.conceal →
      (putStrings env uri strings currentTime m).map conceal =
        (putStrings env uri strings' currentTime m').map conceal := by
  induction h with
  | nil =>
    intro currentTime m m' hm
    exact congrArg some hm
  | @cons s s' strings strings' hs _ ih =>
    intro currentTime m m' hm
    have hparse := hs.parse currentTime
    unfold putStrings
    generalize Cookie.parse env.toParseEnv s currentTime = parsed at hparse
    generalize Cookie.parse env.toParseEnv s' currentTime = parsed' at hparse
    rcases parsed with _ | cookie <;> rcases parsed' with _ | cookie'
    · exact ih currentTime hm
    · exact nomatch hparse
    · exact nomatch hparse
    · have hput : (putCookie env uri m cookie).map conceal =
          (putCookie env uri m' cookie').map conceal := by
        rw [← putCookie_conceal, ← putCookie_conceal, hm]
        exact congrArg _ (Option.some.inj hparse)
      dsimp only
      generalize putCookie env uri m cookie = next at hput
      generalize putCookie env uri m' cookie' = next' at hput
      rcases next with _ | next <;> rcases next' with _ | next'
      · rfl
      · exact nomatch hput
      · exact nomatch hput
      · exact ih currentTime.incrementSubtime (Option.some.inj hput)

variable {m m' : CookieManager}

theorem putHeader_same {header header' : Header} (h : SameHeader env uri header header')
    (hm : m.conceal = m'.conceal) :
    (putHeader env uri m header).map conceal = (putHeader env uri m' header').map conceal := by
  rcases h with ⟨hkey, hstrs⟩
  obtain ⟨hconceal, hticks⟩ := CookieManager.mk.inj hm
  have hset : isSetCookie env header = isSetCookie env header' := by
    rw [isSetCookie, isSetCookie, hkey]
  have hstore : conceal ⟨m.store, m.ticks + 1⟩ = conceal ⟨m'.store, m'.ticks + 1⟩ := by
    rw [conceal, conceal, hticks, hconceal]
  rw [putHeader, putHeader, hset]
  split_ifs
  · rw [hticks] at hstore ⊢
    exact putStrings_same (rel_reverse hstrs) _ hstore
  · exact congrArg some hm

theorem put_same {headers headers' : List Header}
    (h : List.Forall₂ (SameHeader env uri) headers headers') :
    ∀ {m m' : CookieManager}, m.conceal = m'.conceal →
      (m.put env uri headers).map conceal = (m'.put env uri headers').map conceal := by
  induction h with
  | nil =>
    intro m m' hm
    exact congrArg some hm
  | @cons header header' headers headers' hheader _ ih =>
    intro m m' hm
    have hput := putHeader_same hheader hm
    rw [put, put, foldlM_cons, foldlM_cons]
    generalize putHeader env uri m header = next at hput
    generalize putHeader env uri m' header' = next' at hput
    rcases next with _ | next <;> rcases next' with _ | next'
    · rfl
    · exact nomatch hput
    · exact nomatch hput
    · exact ih (Option.some.inj hput)

theorem get_conceal (uri : Uri) (m : CookieManager) :
    (m.conceal.get env uri).2 = (m.get env uri).2.conceal ∧
      (httpApi env uri = false → (m.conceal.get env uri).1 = (m.get env uri).1) := by
  unfold CookieManager.get
  cases canonicalHost env uri with
  | none => exact ⟨rfl, fun _ => rfl⟩
  | some host =>
    let query : Query := ⟨host, uri.path, secureProtocol env uri, httpApi env uri⟩
    have hget : m.conceal.store.get env.foldCase (env.clock m.conceal.ticks) query = _ :=
      CookieStore.get_query_conceal (env.clock m.ticks) env.foldCase query m.store
    dsimp only
    rw [hget]
    refine ⟨rfl, ?_⟩
    intro hscr
    have hlist : (m.store.get env.foldCase (env.clock m.ticks) query).1.map Cookie.conceal =
        (m.store.get env.foldCase (env.clock m.ticks) query).1 := by
      refine (map_congr_left ?_).trans (map_id _)
      intro cookie hcookie
      exact Cookie.conceal_of_not_httpOnly
        (CookieStore.httpOnly_of_mem_get _ _ query m.store hscr hcookie)
    rw [hlist]

theorem call_same {c c' : Call} (h : SameCall env c c') (hm : m.conceal = m'.conceal) :
    (m.call env c).map conceal = (m'.call env c').map conceal := by
  cases h with
  | get uri =>
    change some (m.get env uri).2.conceal = some (m'.get env uri).2.conceal
    rw [← (get_conceal uri m).1, ← (get_conceal uri m').1, hm]
  | put uri hhdrs => exact put_same hhdrs hm

theorem answers_same {calls calls' : List Call} (h : List.Forall₂ (SameCall env) calls calls') :
    ∀ {m m' : CookieManager}, m.conceal = m'.conceal →
      answers env calls m = answers env calls' m' := by
  induction h with
  | nil => exact fun _ => rfl
  | @cons c c' calls calls' hc _ ih =>
    intro m m' hm
    have hcall := call_same hc hm
    rw [answers, answers]
    generalize m.call env c = next at hcall
    generalize m'.call env c' = next' at hcall
    rcases next with _ | next <;> rcases next' with _ | next'
    · rfl
    · exact nomatch hcall
    · exact nomatch hcall
    · have hrest := ih (Option.some.inj hcall)
      have hanswer : ∀ uri, httpApi env uri = false →
          (m.get env uri).1 = (m'.get env uri).1 := by
        intro uri hscr
        rw [← (get_conceal uri m).2 hscr, ← (get_conceal uri m').2 hscr, hm]
      cases hc with
      | get uri =>
        change ((answers env calls next).bind fun rest => _) =
          (answers env calls' next').bind fun rest => _
        congr 1
        funext rest
        dsimp only
        split_ifs with hscr
        · rfl
        · rw [hanswer uri (Bool.not_eq_true _ ▸ hscr)]
      | put uri hhdrs =>
        change ((answers env calls next).bind fun rest => _) =
          (answers env calls' next').bind fun rest => _
        rw [hrest]

variable (env)

def Kept (m : CookieManager) : Prop :=
  m.store.Counted ∧ m.store.totalCount ≤ CookieStore.totalCountUpperThreshold

theorem new_kept : Kept new := ⟨CookieStore.new_counted, by decide⟩

theorem lookUp_kept (h : m.Kept) (uri : Uri) (cookie : Cookie) :
    (lookUp env uri m cookie).2.Kept := by
  rcases CookieStore.getCookie_counted h.1 (env.clock m.ticks) cookie with ⟨hcounted, hle⟩
  exact ⟨hcounted, Int.le_trans hle h.2⟩

theorem putCookie_kept (h : m.Kept) (uri : Uri) (cookie : ParsedCookie) :
    ∃ m', putCookie env uri m cookie = some m' ∧ m'.Kept := by
  unfold putCookie
  cases place env uri cookie with
  | none => exact ⟨m, rfl, h⟩
  | some placed =>
    have hkept := lookUp_kept env h uri placed
    dsimp only
    generalize lookUp env uri m placed = found at hkept
    rcases found with ⟨_ | placed, m₁⟩
    · exact ⟨m₁, rfl, hkept⟩
    · rcases CookieStore.put_counted (env.clock m₁.ticks) env.entrySet.toIterationOrder
        env.removalQueue.toRemovalOrder hkept.1 hkept.2 placed with ⟨store, hput, hcounted⟩
      refine ⟨⟨store, m₁.ticks + 1⟩, ?_, hcounted⟩
      dsimp only
      rw [putStore, hput]
      rfl

theorem putStrings_kept (uri : Uri) (strings : List JString) :
    ∀ (currentTime : ExtendedTime) {m : CookieManager}, m.Kept →
      ∃ m', putStrings env uri strings currentTime m = some m' ∧ m'.Kept := by
  induction strings with
  | nil => exact fun _ m h => ⟨m, rfl, h⟩
  | cons s strings ih =>
    intro currentTime m h
    rw [putStrings]
    cases Cookie.parse env.toParseEnv s currentTime with
    | none => exact ih currentTime h
    | some cookie =>
      rcases putCookie_kept env h uri cookie with ⟨m₁, hput, hkept⟩
      dsimp only
      rw [hput]
      exact ih currentTime.incrementSubtime hkept

theorem putHeader_kept (h : m.Kept) (uri : Uri) (header : Header) :
    ∃ m', putHeader env uri m header = some m' ∧ m'.Kept := by
  rw [putHeader]
  split_ifs
  · exact putStrings_kept env uri _ _ h
  · exact ⟨m, rfl, h⟩

theorem put_kept (uri : Uri) (headers : List Header) (h : m.Kept) :
    ∃ m', m.put env uri headers = some m' ∧ m'.Kept := by
  induction headers generalizing m with
  | nil => exact ⟨m, rfl, h⟩
  | cons header headers ih =>
    rcases putHeader_kept env h uri header with ⟨m₁, hput, hkept⟩
    rw [put, foldlM_cons, hput]
    exact ih hkept

theorem call_kept (h : m.Kept) (c : Call) :
    ∃ m', m.call env c = some m' ∧ m'.Kept := by
  cases c with
  | get uri =>
    refine ⟨_, rfl, ?_⟩
    unfold CookieManager.get
    cases canonicalHost env uri with
    | none => exact h
    | some host =>
      rcases CookieStore.get_counted env.foldCase (env.clock m.ticks)
        ⟨host, uri.path, secureProtocol env uri, httpApi env uri⟩ h.1 with ⟨hcounted, hle⟩
      exact ⟨hcounted, Int.le_trans hle h.2⟩
  | put uri headers => exact put_kept env uri headers h

theorem exists_answers (calls : List Call) (h : m.Kept) :
    ∃ result, answers env calls m = some result := by
  induction calls generalizing m with
  | nil => exact ⟨[], rfl⟩
  | cons c calls ih =>
    rcases call_kept env h c with ⟨m₁, hcall, hkept⟩
    rcases ih hkept with ⟨result, hres⟩
    rw [answers, hcall]
    change ∃ result', (answers env calls m₁ >>= fun rest => _) = some result'
    rw [hres]
    cases c with
    | get uri =>
      change ∃ result', (if httpApi env uri = true then _ else _) = some result'
      split_ifs
      · exact ⟨_, rfl⟩
      · exact ⟨_, rfl⟩
    | put uri headers => exact ⟨_, rfl⟩

theorem runSteps_kept (calls : List Call) (hrun : runSteps (call env) new calls = some m) :
    m.Kept := by
  have hinduction := runSteps_induction (P := fun _ m => Kept m) new_kept ?_ calls m hrun
  · exact hinduction
  · intro steps m c m' _ hkept hcall
    rcases call_kept env hkept c with ⟨m₁, hcall₁, hkept₁⟩
    rw [hcall] at hcall₁
    cases hcall₁
    exact hkept₁

section

variable (env : ManagerEnv) (uri : Uri) (other : Cookie)

def PurgedByStore (m : CookieManager) (cookie : Cookie) : Prop :=
  (m.store.insert (env.clock m.ticks) cookie).2 = true ∧
    (m.store.insert (env.clock m.ticks) cookie).1.Stored other ∧
    ∀ store, CookieStore.purgeFull env.entrySet.toIterationOrder env.removalQueue.toRemovalOrder
      (env.clock m.ticks) (m.store.insert (env.clock m.ticks) cookie).1 cookie.domain =
        some store → ¬store.Stored other

def PurgedByCookie (m : CookieManager) (cookie : ParsedCookie) : Prop :=
  ∃ placed stored m', place env uri cookie = some placed ∧
    lookUp env uri m placed = (some stored, m') ∧ PurgedByStore env other m' stored

def PurgedByStrings : List JString → ExtendedTime → CookieManager → Prop
  | [], _, _ => False
  | s :: strings, currentTime, m =>
    match Cookie.parse env.toParseEnv s currentTime with
    | none => PurgedByStrings strings currentTime m
    | some cookie =>
      PurgedByCookie env uri other m cookie ∨
        ∃ m', putCookie env uri m cookie = some m' ∧
          PurgedByStrings strings currentTime.incrementSubtime m'

def PurgedByHeader (m : CookieManager) (header : Header) : Prop :=
  isSetCookie env header = true ∧
    PurgedByStrings env uri other header.2.reverse (.currentTime (env.clock m.ticks))
      ⟨m.store, m.ticks + 1⟩

/-- Some purge in a call of `put` removes a cookie. -/
def PurgedByHeaders : List Header → CookieManager → Prop
  | [], _ => False
  | header :: headers, m =>
    PurgedByHeader env uri other m header ∨
      ∃ m', putHeader env uri m header = some m' ∧ PurgedByHeaders headers m'

/-- What a part of a call does to an HttpOnly cookie: it does not come in, and it does not go
unless it expires on a reading of the clock or is `purged`. -/
structure Leaves (purged : Prop) (m m' : CookieManager) : Prop where
  ticks_le : m.ticks ≤ m'.ticks
  stored : m'.store.Stored other → m.store.Stored other
  stays : m.store.Stored other →
    (∀ i, m.ticks ≤ i → i < m'.ticks → other.hasExpired (env.clock i) = false) →
      m'.store.Stored other ∨ purged

variable {env other}

theorem Leaves.refl (purged : Prop) (m : CookieManager) : Leaves env other purged m m :=
  ⟨Nat.le_refl _, fun h => h, fun h _ => .inl h⟩

variable {m m' : CookieManager}

theorem Leaves.mono {purged purged' : Prop} (h : Leaves env other purged m m')
    (himp : purged → purged') :
    Leaves env other purged' m m' :=
  ⟨h.ticks_le, h.stored, fun hstored hlive => (h.stays hstored hlive).imp_right himp⟩

theorem Leaves.trans {purged purged' : Prop} {m₁ m₂ m₃ : CookieManager}
    (h₁ : Leaves env other purged m₁ m₂) (h₂ : Leaves env other purged' m₂ m₃) :
    Leaves env other (purged ∨ purged') m₁ m₃ where
  ticks_le := Nat.le_trans h₁.ticks_le h₂.ticks_le
  stored h := h₁.stored (h₂.stored h)
  stays := by
    intro hstored hlive
    have hticks₁ := h₁.ticks_le
    have hticks₂ := h₂.ticks_le
    rcases h₁.stays hstored fun i hle hlt => hlive i hle (by omega) with hstored | hpurged
    · exact (h₂.stays hstored fun i hle hlt => hlive i (by omega) hlt).imp_right .inr
    · exact .inr (.inl hpurged)

variable (env)

theorem httpOnly_place (hscr : httpApi env uri = false) {cookie : ParsedCookie} {placed : Cookie}
    (h : place env uri cookie = some placed) : placed.httpOnly = false := by
  unfold place at h
  cases hhost : canonicalHost env uri with
  | none =>
    rw [hhost] at h
    exact nomatch h
  | some host =>
    rw [hhost] at h
    dsimp only at h
    cases hdom : placeDomain env host cookie.domain with
    | none =>
      rw [hdom] at h
      exact nomatch h
    | some found =>
      rw [hdom, hscr] at h
      split_ifs at h with hhttpOnly
      cases h
      simpa using hhttpOnly

theorem lookUp_leaves {m₁ : CookieManager} (hkept : m.Kept) (hother : other.httpOnly = true)
    (hscr : httpApi env uri = false) {placed : Cookie} {found : Option Cookie}
    (hlook : lookUp env uri m placed = (found, m₁)) :
    Leaves env other False m m₁ ∧ (∀ stored ∈ found, stored.httpOnly = placed.httpOnly) ∧
      (m.store.Stored other → other.hasExpired (env.clock m.ticks) = false →
        ∀ stored ∈ found, other.key ≠ stored.key) := by
  have hwithin := CookieStore.getCookie_within (env.clock m.ticks) m.store placed
  have hfind : m.store.Stored other → other.hasExpired (env.clock m.ticks) = false → _ :=
    fun hstored hlive => CookieStore.getCookie_stored _ hkept.1 hstored hlive placed
  unfold lookUp at hlook
  generalize m.store.getCookie (env.clock m.ticks) placed = result at hlook hwithin hfind
  rcases result with ⟨oldCookie, store⟩
  obtain ⟨hfound, rfl⟩ := Prod.mk.inj hlook
  refine ⟨⟨Nat.le_succ _, hwithin other, ?_⟩, ?_, ?_⟩
  · intro hstored hlive
    exact .inl (hfind hstored (hlive m.ticks (Nat.le_refl _) (Nat.lt_succ_self _))).1
  · intro stored hmem
    rw [← hfound] at hmem
    cases oldCookie with
    | none => rw [← Option.some.inj hmem]
    | some old =>
      dsimp only at hmem
      split_ifs at hmem
      · exact nomatch hmem
      · rw [← Option.some.inj hmem]
  · intro hstored hlive stored hmem hkey
    rw [← hfound] at hmem
    have hold := (hfind hstored hlive).2
    cases oldCookie with
    | none =>
      rw [← Option.some.inj hmem] at hkey
      exact nomatch hold hkey
    | some old =>
      dsimp only at hmem hold
      split_ifs at hmem with hblocked
      · exact nomatch hmem
      · rw [← Option.some.inj hmem] at hkey
        rw [Option.some.inj (hold hkey), hother, hscr] at hblocked
        exact hblocked rfl

theorem putStore_leaves {cookie : Cookie} (hother : other.httpOnly = true)
    (hcookie : cookie.httpOnly = false) (hput : putStore env m cookie = some m') :
    m'.ticks = m.ticks + 1 ∧ (m'.store.Stored other → m.store.Stored other) ∧
      (m.store.Stored other → other.key ≠ cookie.key →
        m'.store.Stored other ∨ PurgedByStore env other m cookie) := by
  rcases Option.map_eq_some_iff.mp hput with ⟨store, hstore, rfl⟩
  rw [CookieStore.put_eq_insert] at hstore
  rcases CookieStore.insert_stored (env.clock m.ticks) m.store cookie other with ⟨hin, hkeep⟩
  have hne : other ≠ cookie := by
    rintro rfl
    rw [hcookie] at hother
    exact nomatch hother
  refine ⟨rfl, ?_, ?_⟩
  · intro hstored
    refine (hin ?_).resolve_left hne
    split_ifs at hstore
    · exact CookieStore.purgeFull_within _ _ _ hstore other hstored
    · rw [Option.some.inj hstore]
      exact hstored
  · intro hstored hkey
    have hins := hkeep hkey hstored
    split_ifs at hstore with hadded
    · rcases Classical.em (store.Stored other) with hleft | hgone
      · exact .inl hleft
      · refine .inr ⟨hadded, hins, ?_⟩
        intro store' hstore'
        rw [hstore] at hstore'
        rw [← Option.some.inj hstore']
        exact hgone
    · rw [← Option.some.inj hstore]
      exact .inl hins

theorem putCookie_leaves (hkept : m.Kept) (hother : other.httpOnly = true)
    (hscr : httpApi env uri = false) {cookie : ParsedCookie}
    (hput : putCookie env uri m cookie = some m') :
    Leaves env other (PurgedByCookie env uri other m cookie) m m' := by
  unfold putCookie at hput
  cases hplace : place env uri cookie with
  | none =>
    rw [hplace] at hput
    cases hput
    exact Leaves.refl _ m
  | some placed =>
    rw [hplace] at hput
    dsimp only at hput
    generalize hlook : lookUp env uri m placed = result at hput
    rcases result with ⟨found, m₁⟩
    rcases lookUp_leaves env uri hkept hother hscr hlook with ⟨hleaves, hhttpOnly, hkey⟩
    cases found with
    | none =>
      cases hput
      exact hleaves.mono False.elim
    | some stored =>
      have hcookie : stored.httpOnly = false :=
        (hhttpOnly stored rfl).trans (httpOnly_place env uri hscr hplace)
      rcases putStore_leaves env hother hcookie hput with ⟨hticks, hin, hstays⟩
      have hle := hleaves.ticks_le
      refine ⟨by omega, fun h => hleaves.stored (hin h), ?_⟩
      intro hstored hlive
      have hfst : m₁.store.Stored other :=
        (hleaves.stays hstored fun i hi hlt => hlive i hi (by omega)).resolve_right id
      have hne := hkey hstored (hlive m.ticks (Nat.le_refl _) (by omega)) stored rfl
      refine (hstays hfst hne).imp_right ?_
      intro hpurged
      exact ⟨placed, stored, m₁, hplace, hlook, hpurged⟩

theorem putStrings_leaves (hother : other.httpOnly = true) (hscr : httpApi env uri = false)
    (strings : List JString) : ∀ (currentTime : ExtendedTime) {m m' : CookieManager}, m.Kept →
      putStrings env uri strings currentTime m = some m' →
      Leaves env other (PurgedByStrings env uri other strings currentTime m) m m' := by
  induction strings with
  | nil =>
    intro currentTime m m' _ hput
    cases hput
    exact Leaves.refl _ m
  | cons s strings ih =>
    intro currentTime m m' hkept hput
    rw [putStrings] at hput
    rw [PurgedByStrings]
    cases hparse : Cookie.parse env.toParseEnv s currentTime with
    | none =>
      rw [hparse] at hput
      exact ih currentTime hkept hput
    | some cookie =>
      rw [hparse] at hput
      rcases putCookie_kept env hkept uri cookie with ⟨m₁, hcookie, hkept₁⟩
      dsimp only at hput ⊢
      rw [hcookie] at hput
      have hfst := putCookie_leaves env uri hkept hother hscr hcookie
      have hrest := ih currentTime.incrementSubtime hkept₁ hput
      refine (hfst.trans hrest).mono (Or.imp_right ?_)
      intro hpurged
      exact ⟨m₁, hcookie, hpurged⟩

theorem putHeader_leaves (hother : other.httpOnly = true) (hscr : httpApi env uri = false)
    (hkept : m.Kept) {header : Header} (hput : putHeader env uri m header = some m') :
    Leaves env other (PurgedByHeader env uri other m header) m m' := by
  rw [putHeader] at hput
  split_ifs at hput with hset
  · have hstrs := putStrings_leaves env uri hother hscr _ _
      (show Kept ⟨m.store, m.ticks + 1⟩ from hkept) hput
    refine ⟨Nat.le_of_succ_le hstrs.ticks_le, hstrs.stored, ?_⟩
    intro hstored hlive
    refine (hstrs.stays hstored fun i hi hlt => hlive i (Nat.le_of_succ_le hi) hlt).imp_right ?_
    intro hpurged
    exact ⟨hset, hpurged⟩
  · cases hput
    exact Leaves.refl _ m

theorem put_leaves (hother : other.httpOnly = true) (hscr : httpApi env uri = false)
    (headers : List Header) : ∀ {m m' : CookieManager}, m.Kept →
      m.put env uri headers = some m' →
      Leaves env other (PurgedByHeaders env uri other headers m) m m' := by
  induction headers with
  | nil =>
    intro m m' _ hput
    cases hput
    exact Leaves.refl _ m
  | cons header headers ih =>
    intro m m' hkept hput
    rcases putHeader_kept env hkept uri header with ⟨m₁, hheader, hkept₁⟩
    rw [put, List.foldlM_cons, hheader] at hput
    have hfst := putHeader_leaves env uri hother hscr hkept hheader
    have hrest := ih hkept₁ hput
    refine (hfst.trans hrest).mono (Or.imp_right ?_)
    intro hpurged
    exact ⟨m₁, hheader, hpurged⟩

end

/-- Scripts see nothing of the values of HttpOnly cookies, and their calls of `put` neither make
nor change such a cookie nor remove one that has not expired, unless the store is purged. -/
theorem httpOnly_isolated (env : ManagerEnv) :
    (∀ calls calls', List.Forall₂ (SameCall env) calls calls' →
      ∃ result, answers env calls new = some result ∧ answers env calls' new = some result) ∧
    ∀ calls m, runSteps (call env) new calls = some m →
      ∀ uri headers, httpApi env uri = false → ∃ m', m.put env uri headers = some m' ∧
        ∀ cookie, cookie.httpOnly = true →
          (m'.store.Stored cookie → m.store.Stored cookie) ∧
          (m.store.Stored cookie →
            (∀ i, m.ticks ≤ i → i < m'.ticks → cookie.hasExpired (env.clock i) = false) →
            m'.store.Stored cookie ∨ PurgedByHeaders env uri cookie headers m) := by
  constructor
  · intro calls calls' hsame
    rcases exists_answers env calls new_kept with ⟨result, hresult⟩
    exact ⟨result, hresult, (answers_same hsame rfl).symm.trans hresult⟩
  · intro calls m hrun uri headers hscript
    have hkept := runSteps_kept env calls hrun
    rcases put_kept env uri headers hkept with ⟨m', hput, -⟩
    refine ⟨m', hput, ?_⟩
    intro cookie hcookie
    have hleaves := put_leaves env uri hcookie hscript headers hkept hput
    exact ⟨hleaves.stored, hleaves.stays⟩

/-- ASCII letters, no dates, no public suffixes, and a clock that goes on by a second at each
reading. -/
def sampleEnv : ManagerEnv where
  foldCase c := if 65 ≤ c ∧ c ≤ 90 then c + 32 else c
  toLowerCase s := s.map fun c => if 65 ≤ c ∧ c ≤ 90 then c + 32 else c
  digit c := if 48 ≤ c ∧ c ≤ 57 then some (c.toNat - 48) else none
  parseDate _ := none
  clock i := 1000 * i
  rules _ := none
  entrySet :=
    { order := id
      perm := fun _ => .refl _
      by_keys := fun _ _ => rfl }
  removalQueue :=
    { CookieStore.RemovalOrder.bySort with
      by_time := by
        intro f hf l
        symm
        apply List.map_mergeSort
        intro c1 _ c2 _
        change decide (toInt _ ≤ 0) = decide (toInt _ ≤ 0)
        rw [hf, hf] }

/-- A server sets an HttpOnly cookie, and a script asks for the cookies. -/
def sampleCalls (value : String) : List Call :=
  [.put ⟨some (str "https"), some (str "host"), some (str "/")⟩
      [(some (str "Set-Cookie"), [str ("a=" ++ value ++ "; HttpOnly")])],
    .get ⟨some (str "javascripts"), some (str "host"), some (str "/")⟩]

theorem httpOnly_isolated_sample : sampleCalls "1" ≠ sampleCalls "2" ∧
    ∃ result, answers sampleEnv (sampleCalls "1") new = some result ∧
      answers sampleEnv (sampleCalls "2") new = some result := by
  refine ⟨by decide, (httpOnly_isolated sampleEnv).1 _ _ ?_⟩
  refine .cons (.put _ (.cons ⟨rfl, .cons (.inr ⟨by decide, ?_⟩) .nil⟩ .nil)) (.cons (.get _) .nil)
  exact ⟨str "a", str "1", str "2", [str " HttpOnly"], by decide, by decide, by decide,
    str " HttpOnly", List.mem_singleton_self _, by decide⟩

end CookieManager

end OpenJfx.Network
