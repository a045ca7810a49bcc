import OpenJfx.Network.CookieStore

namespace OpenJfx.Network

open Java

structure Uri where
  scheme : Option JString
  host : Option JString
  path : Option JString
  deriving DecidableEq

/-- The rules of the list of public suffixes. -/
inductive Rule where
  | simpleRule
  | wildcardRule
  | exceptionRule
  deriving DecidableEq

structure EntrySet extends IterationOrder (JString × Bucket) where
  by_keys : ∀ (f : Bucket → Bucket) (l : List (JString × Bucket)),
    order (l.map (Prod.map id f)) = (order l).map (Prod.map id f)

/-- The queue sees nothing of a cookie but what the comparator compares. -/
structure RemovalQueue extends CookieStore.RemovalOrder where
  by_time : ∀ (f : Cookie → Cookie), (∀ c, (f c).lastAccessTime = c.lastAccessTime) →
    ∀ l, order (l.map f) = (order l).map f

/-- What a manager calls that is not its own: the readings of the clock, the list of public
suffixes, and the Java library. -/
structure ManagerEnv extends ParseEnv where
  clock : Nat → Int
  rules : JString → Option Rule
  entrySet : EntrySet
  removalQueue : RemovalQueue

def isPublicSuffix (rules : JString → Option Rule) (domain : JString) : Bool :=
  if domain.length = 0 then false
  else
    match rules domain with
    | some .exceptionRule => false
    | some .simpleRule | some .wildcardRule => true
    | none =>
      let parent := match domain.idxOf? dot with
        | some pos => domain.drop (pos + 1)
        | none => []
      rules parent = some .wildcardRule

def Cookie.defaultPath (uri : Uri) : JString :=
  match uri.path with
  | none => [slash]
  | some path =>
    if ¬ [slash].isPrefixOf path then [slash]
    else
      let path := (path.reverse.dropWhile (· ≠ slash)).tail.reverse
      if path.length = 0 then [slash] else path

/-- The store, with the number of readings of the clock. -/
structure CookieManager where
  store : CookieStore
  ticks : Nat

namespace CookieManager

def new : CookieManager := ⟨CookieStore.new, 0⟩

section

variable (env : ManagerEnv)

def isScheme (uri : Uri) (scheme : String) : Bool :=
  match uri.scheme with
  | some s => equalsIgnoreCase env.foldCase (str scheme) s
  | none => false

def httpApi (uri : Uri) : Bool := isScheme env uri "http" || isScheme env uri "https"

def secureProtocol (uri : Uri) : Bool := isScheme env uri "https" || isScheme env uri "javascripts"

def canonicalHost (uri : Uri) : Option JString :=
  match uri.host with
  | none => none
  | some host => if host.length = 0 then none else some (env.toLowerCase host)

/-- The string that `get(URI)` builds. -/
def cookieString (cookieList : List Cookie) : JString :=
  cookieList.foldl (fun sb cookie =>
    (if sb.length > 0 then sb ++ str "; " else sb) ++ cookie.name ++ str "=" ++ cookie.value) []

def get (uri : Uri) (m : CookieManager) : Option JString × CookieManager :=
  match canonicalHost env uri with
  | none => (none, m)
  | some host =>
    match m.store.get env.foldCase (env.clock m.ticks)
        ⟨host, uri.path, secureProtocol env uri, httpApi env uri⟩ with
    | (cookieList, store) =>
      let sb := cookieString cookieList
      (if sb.length > 0 then some sb else none, ⟨store, m.ticks + 1⟩)

def placeDomain (host domain : JString) : Option (JString × Bool) :=
  let domain? :=
    if isPublicSuffix env.rules domain then
      if domain = host then some [] else none
    else some domain
  match domain? with
  | none => none
  | some domain =>
    if domain.length > 0 then
      if Cookie.domainMatches host domain then some (domain, false) else none
    else some (host, true)

def place (uri : Uri) (cookie : ParsedCookie) : Option Cookie :=
  match canonicalHost env uri with
  | none => none
  | some host =>
    match placeDomain env host cookie.domain with
    | none => none
    | some (domain, hostOnly) =>
      if cookie.httpOnly && !httpApi env uri then none
      else
        some
          { name := cookie.name
            value := cookie.value
            expiryTime := cookie.expiryTime
            domain := domain
            path := cookie.path.getD (Cookie.defaultPath uri)
            creationTime := cookie.creationTime
            lastAccessTime := cookie.lastAccessTime
            persistent := cookie.persistent
            hostOnly := hostOnly
            secureOnly := cookie.secureOnly
            httpOnly := cookie.httpOnly }

/-- The part of `put(URI, Cookie)` that looks for the cookie to be replaced: what is to be
stored, if it may be. -/
def lookUp (uri : Uri) (m : CookieManager) (cookie : Cookie) : Option Cookie × CookieManager :=
  match m.store.getCookie (env.clock m.ticks) cookie with
  | (oldCookie, store) =>
    (match oldCookie with
      | none => some cookie
      | some oldCookie =>
        if oldCookie.httpOnly && !httpApi env uri then none
        else some { cookie with creationTime := oldCookie.creationTime },
      ⟨store, m.ticks + 1⟩)

def putStore (m : CookieManager) (cookie : Cookie) : Option CookieManager :=
  (m.store.put env.entrySet.toIterationOrder env.removalQueue.toRemovalOrder (env.clock m.ticks)
    cookie).map fun store => ⟨store, m.ticks + 1⟩

def putCookie (uri : Uri) (m : CookieManager) (cookie : ParsedCookie) : Option CookieManager :=
  match place env uri cookie with
  | none => some m
  | some cookie =>
    match lookUp env uri m cookie with
    | (none, m) => some m
    | (some cookie, m) => putStore env m cookie

/-- The loop of `put` over the strings of a header, last one first. -/
def putStrings (uri : Uri) :
    List JString → ExtendedTime → CookieManager → Option CookieManager
  | [], _, m => some m
  | s :: strings, currentTime, m =>
    match Cookie.parse env.toParseEnv s currentTime with
    | none => putStrings uri strings currentTime m
    | some cookie =>
      match putCookie env uri m cookie with
      | none => none
      | some m => putStrings uri strings currentTime.incrementSubtime m

abbrev Header := Option JString × List JString

def isSetCookie (header : Header) : Bool :=
  match header.1 with
  | some key => equalsIgnoreCase env.foldCase (str "Set-Cookie") key
  | none => false

def putHeader (uri : Uri) (m : CookieManager) (header : Header) : Option CookieManager :=
  if isSetCookie env header then
    putStrings env uri header.2.reverse (.currentTime (env.clock m.ticks))
      ⟨m.store, m.ticks + 1⟩
  else some m

def put (uri : Uri) (responseHeaders : List Header) (m : CookieManager) : Option CookieManager :=
  responseHeaders.foldlM (putHeader env uri) m

end

inductive Call where
  | get (uri : Uri)
  | put (uri : Uri) (responseHeaders : List Header)
  deriving DecidableEq

variable (env : ManagerEnv)

def call (m : CookieManager) : Call → Option CookieManager
  | .get uri => some (m.get env uri).2
  | .put uri responseHeaders => m.put env uri responseHeaders

def answers : List Call → CookieManager → Option (List (Option JString))
  | [], _ => some []
  | c :: calls, m => do
    let m' ← m.call env c
    let rest ← answers calls m'
    match c with
    | .get uri => if httpApi env uri then some rest else some ((m.get env uri).1 :: rest)
    | .put _ _ => some rest

end CookieManager

end OpenJfx.Network
