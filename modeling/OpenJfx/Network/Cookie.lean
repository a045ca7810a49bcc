import Mathlib.Data.List.Infix
import Mathlib.Data.List.TakeWhile
import Mathlib.Algebra.Order.Ring.Int

namespace OpenJfx.Network

abbrev JString := List UInt16

def dot : UInt16 := 46

def slash : UInt16 := 47

/-- `String.equalsIgnoreCase`, with the case of a char taken away by `foldCase`. -/
def equalsIgnoreCase (foldCase : UInt16 → UInt16) (s t : JString) : Bool :=
  s.map foldCase == t.map foldCase

/-- The narrowing of a `long` to an `int`, and the wrapping of an `int`. -/
def toInt (n : Int) : Int := n.bmod (2 ^ 32)

structure ExtendedTime where
  baseTime : Int
  subtime : Int

namespace ExtendedTime

def currentTime (currentTimeMillis : Int) : ExtendedTime := ⟨currentTimeMillis, 0⟩

def incrementSubtime (time : ExtendedTime) : ExtendedTime :=
  ⟨time.baseTime, toInt (time.subtime + 1)⟩

def compareTo (time otherExtendedTime : ExtendedTime) : Int :=
  let d := toInt (time.baseTime - otherExtendedTime.baseTime)
  if d ≠ 0 then d
  else toInt (time.subtime - otherExtendedTime.subtime)

end ExtendedTime

structure Cookie where
  name : JString
  value : JString
  expiryTime : Int
  domain : JString
  path : JString
  creationTime : ExtendedTime
  lastAccessTime : Int
  persistent : Bool
  hostOnly : Bool
  secureOnly : Bool
  httpOnly : Bool

/-- What `Cookie.equals` compares. -/
abbrev CookieKey := JString × JString × JString

namespace Cookie

def key (cookie : Cookie) : CookieKey := (cookie.name, cookie.domain, cookie.path)

def setLastAccessTime (lastAccessTime : Int) (cookie : Cookie) : Cookie :=
  { cookie with lastAccessTime := lastAccessTime }

def hasExpired (currentTimeMillis : Int) (cookie : Cookie) : Bool :=
  currentTimeMillis > cookie.expiryTime

/-- A group of the pattern of IP addresses: one to three digits, of a value up to 255. -/
def isIpGroup (group : JString) : Bool :=
  1 ≤ group.length && group.length ≤ 3 && group.all (fun c => 48 ≤ c && c ≤ 57) &&
    group.foldl (fun n c => 10 * n + (c.toNat - 48)) 0 ≤ 255

def isIpAddress (hostname : JString) : Bool :=
  match hostname.splitOn dot with
  | [a, b, c, d] => isIpGroup a && isIpGroup b && isIpGroup c && isIpGroup d
  | _ => false

def domainMatches (domain cookieDomain : JString) : Bool :=
  cookieDomain.isSuffixOf domain &&
    (domain.length == cookieDomain.length ||
      domain[domain.length - cookieDomain.length - 1]? == some dot && !isIpAddress domain)

def pathMatches (path : Option JString) (cookiePath : JString) : Bool :=
  match path with
  | none => false
  | some path =>
    cookiePath.isPrefixOf path &&
      (path.length == cookiePath.length || [slash].isSuffixOf cookiePath ||
        path[cookiePath.length]? == some slash)

end Cookie

end OpenJfx.Network

namespace OpenJfx.Network

def str (s : String) : JString := s.toList.map fun c => UInt16.ofNat c.toNat

/-- The wrapping of a `long`. -/
def toLong (n : Int) : Int := n.bmod (2 ^ 64)

def maxLong : Int := 2 ^ 63 - 1

def trim (s : JString) : JString :=
  ((s.dropWhile (· ≤ 32)).reverse.dropWhile (· ≤ 32)).reverse

/-- `split("=", 2)`, where there is no second string if there is no `=`. -/
def splitPair (s : JString) : JString × Option JString :=
  (s.takeWhile (· ≠ 61), (s.dropWhile (· ≠ 61)).tail?)

/-- The methods of the Java library and of `DateParser` that `Cookie.parse` calls. -/
structure ParseEnv where
  foldCase : UInt16 → UInt16
  toLowerCase : JString → JString
  /-- `Character.digit` for the radix 10 -/
  digit : UInt16 → Option Nat
  parseDate : JString → Option Int

structure ParsedCookie where
  name : JString
  value : JString
  expiryTime : Int
  domain : JString
  path : Option JString
  creationTime : ExtendedTime
  lastAccessTime : Int
  persistent : Bool
  secureOnly : Bool
  httpOnly : Bool

/-- The attributes of a cookie, as the loop of `parse` collects them. -/
structure Attributes where
  expires : Option Int := none
  maxAge : Option Int := none
  domain : Option JString := none
  path : Option JString := none
  secure : Bool := false
  httpOnly : Bool := false

namespace Cookie

section

variable (env : ParseEnv)

def parseLong (s : JString) : Option Int := do
  let (negative, digits) :=
    match s with
    | 45 :: digits => (true, digits)
    | 43 :: digits => (false, digits)
    | digits => (false, digits)
  if digits = [] then none
  else
    let n : Nat ← digits.foldlM (fun n c => (env.digit c).map (10 * n + ·)) 0
    let value : Int := if negative then -n else n
    if -2 ^ 63 ≤ value ∧ value ≤ maxLong then some value else none

def parseExpires (attributeValue : JString) : Option Int :=
  (env.parseDate attributeValue).map fun time => max time 0

def parseMaxAge (attributeValue : JString) (currentTime : Int) : Option Int :=
  (parseLong env attributeValue).map fun maxAge =>
    if maxAge ≤ 0 then 0
    else if maxAge > (toLong (maxLong - currentTime)).tdiv 1000 then maxLong
    else toLong (currentTime + maxAge * 1000)

def parseDomain (attributeValue : JString) : Option JString :=
  match attributeValue with
  | [] => none
  | c :: rest => some (env.toLowerCase (if c = dot then rest else c :: rest))

def parsePath (attributeValue : JString) : Option JString :=
  if [slash].isPrefixOf attributeValue then some attributeValue else none

def attributeName (item : JString) : JString := trim (splitPair item).1

def attributeValue (item : JString) : JString := trim ((splitPair item).2.getD [])

def isAttribute (name : String) (item : JString) : Bool :=
  equalsIgnoreCase env.foldCase (str name) (attributeName item)

/-- A turn of the loop of `parse`; a value that cannot be parsed is ignored. -/
def addAttribute (currentTime : Int) (attributes : Attributes) (item : JString) : Attributes :=
  if isAttribute env "Expires" item then
    match parseExpires env (attributeValue item) with
    | some time => { attributes with expires := some time }
    | none => attributes
  else if isAttribute env "Max-Age" item then
    match parseMaxAge env (attributeValue item) currentTime with
    | some time => { attributes with maxAge := some time }
    | none => attributes
  else if isAttribute env "Domain" item then
    match parseDomain env (attributeValue item) with
    | some domain => { attributes with domain := some domain }
    | none => attributes
  else if isAttribute env "Path" item then
    { attributes with path := parsePath (attributeValue item) }
  else if isAttribute env "Secure" item then { attributes with secure := true }
  else if isAttribute env "HttpOnly" item then { attributes with httpOnly := true }
  else attributes

def parseAttributes (currentTime : Int) (items : List JString) : Attributes :=
  items.foldl (addAttribute env currentTime) {}

def ofAttributes (name value : JString) (currentTime : ExtendedTime) (attributes : Attributes) :
    ParsedCookie where
  name := name
  value := value
  expiryTime := (attributes.maxAge.or attributes.expires).getD maxLong
  domain := attributes.domain.getD []
  path := attributes.path
  creationTime := currentTime
  lastAccessTime := currentTime.baseTime
  persistent := (attributes.maxAge.or attributes.expires).isSome
  secureOnly := attributes.secure
  httpOnly := attributes.httpOnly

def parse (setCookieString : JString) (currentTime : ExtendedTime) : Option ParsedCookie :=
  match setCookieString.splitOn 59 with
  | [] => none
  | item :: items =>
    match splitPair item with
    | (_, none) => none
    | (name, some value) =>
      if (trim name).length = 0 then none
      else
        some (ofAttributes (trim name) (trim value) currentTime
          (parseAttributes env currentTime.baseTime items))

end

end Cookie

end OpenJfx.Network
