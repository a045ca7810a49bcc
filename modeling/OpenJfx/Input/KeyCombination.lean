import OpenJfx.Input.KeyCode

/-!
The names of key combinations, and how `KeyCombination.valueOf` reads a combination from a name.
The platform's texts for display and the matching of key events are left out.
-/

namespace OpenJfx.Input

open Java

inductive Thrown where
  | illegalArgument (message : Text)
  | stringIndexOutOfBounds
deriving DecidableEq

def quote : UInt16 := 39

def plus : UInt16 := 43

def backslash : UInt16 := 92

def blank : UInt16 := 32

/-- The blanks that separate words, which are those of the regular expression `\s` as well. -/
def isBlank (c : UInt16) : Bool :=
  c = blank ∨ c = 9 ∨ c = 10 ∨ c = 12 ∨ c = 13 ∨ c = 11

inductive ModifierValue where
  | down
  | up
  | any
deriving DecidableEq

structure Modifier where
  key : KeyCode
  value : ModifierValue
deriving DecidableEq

def Modifier.toString (modifier : Modifier) : Text :=
  (if modifier.value = .any then chars "Ignore " else []) ++ modifier.key.getName

def possibleModifiers : List Modifier :=
  [⟨.shift, .down⟩, ⟨.shift, .any⟩, ⟨.control, .down⟩, ⟨.control, .any⟩, ⟨.alt, .down⟩,
    ⟨.alt, .any⟩, ⟨.metaKey, .down⟩, ⟨.metaKey, .any⟩, ⟨.shortcut, .down⟩, ⟨.shortcut, .any⟩]

def getModifier (name : Text) : Option Modifier :=
  possibleModifiers.find? fun modifier => modifier.toString = name

def getModifierValue (modifiers : List Modifier) (modifierKey : KeyCode) :
    Except Thrown ModifierValue :=
  modifiers.foldlM
    (fun modifierValue modifier =>
      if modifier.key = modifierKey then
        if modifierValue ≠ .up then
          .error (.illegalArgument (chars
            (if modifier.value ≠ modifierValue then "Conflicting modifiers specified!"
            else "Duplicate modifiers specified!")))
        else .ok modifier.value
      else .ok modifierValue)
    .up

structure KeyCombination where
  shift : ModifierValue
  control : ModifierValue
  alt : ModifierValue
  metaValue : ModifierValue
  shortcut : ModifierValue
deriving DecidableEq

namespace KeyCombination

def new (modifiers : List Modifier) : Except Thrown KeyCombination := do
  let shift ← getModifierValue modifiers .shift
  let control ← getModifierValue modifiers .control
  let alt ← getModifierValue modifiers .alt
  let metaValue ← getModifierValue modifiers .metaKey
  let shortcut ← getModifierValue modifiers .shortcut
  return ⟨shift, control, alt, metaValue, shortcut⟩

def addModifierIntoString (sb : Text) (modifierKey : KeyCode) (modifierValue : ModifierValue) :
    Text :=
  if modifierValue = .up then sb
  else
    (if sb.length > 0 then sb ++ [plus] else sb) ++
      (if modifierValue = .any then chars "Ignore " else []) ++ modifierKey.getName

def addModifiersIntoString (c : KeyCombination) (sb : Text) : Text :=
  let sb := addModifierIntoString sb .shift c.shift
  let sb := addModifierIntoString sb .control c.control
  let sb := addModifierIntoString sb .alt c.alt
  let sb := addModifierIntoString sb .metaKey c.metaValue
  addModifierIntoString sb .shortcut c.shortcut

def getName (c : KeyCombination) : Text := c.addModifiersIntoString []

def namePrefix (c : KeyCombination) : Text :=
  if c.getName.length > 0 then c.getName ++ [plus] else c.getName

end KeyCombination

def validateKeyCode (keyCode : KeyCode) : Except Thrown Unit :=
  if getModifier keyCode.getName ≠ none then
    .error (.illegalArgument (chars "Key code must not match modifier key!"))
  else if keyCode = .undefined then
    .error (.illegalArgument (chars "Key code must differ from undefined value!"))
  else .ok ()

structure KeyCodeCombination extends KeyCombination where
  code : KeyCode
  validated : validateKeyCode code = .ok ()
deriving DecidableEq

namespace KeyCodeCombination

def new (code : KeyCode) (modifiers : List Modifier) : Except Thrown KeyCodeCombination := do
  let c ← KeyCombination.new modifiers
  match hvalidated : validateKeyCode code with
  | .ok () => return { c with code := code, validated := hvalidated }
  | .error e => throw e

def getName (c : KeyCodeCombination) : Text := c.namePrefix ++ c.code.getName

end KeyCodeCombination

/-- `character.replace("'", "\\'")`. -/
def escape (character : Text) : Text :=
  character.flatMap fun c => if c = quote then [backslash, quote] else [c]

/-- `text.replace("\\'", "'")`. -/
def unescape : Text → Text
  | [] => []
  | [c] => [c]
  | c :: d :: rest =>
    if c = backslash ∧ d = quote then quote :: unescape rest else c :: unescape (d :: rest)

structure KeyCharacterCombination extends KeyCombination where
  character : Text
deriving DecidableEq

namespace KeyCharacterCombination

def new (character : Text) (modifiers : List Modifier) :
    Except Thrown KeyCharacterCombination := do
  let c ← KeyCombination.new modifiers
  return { c with character := character }

def getName (c : KeyCharacterCombination) : Text :=
  c.namePrefix ++ [quote] ++ escape c.character ++ [quote]

end KeyCharacterCombination

inductive Combination where
  | ofCode (c : KeyCodeCombination)
  | ofCharacter (c : KeyCharacterCombination)
deriving DecidableEq

namespace Combination

def getName : Combination → Text
  | .ofCode c => c.getName
  | .ofCharacter c => c.getName

def equals : Combination → Combination → Bool
  | .ofCode c, .ofCode other =>
    c.code = other.code ∧ c.toKeyCombination = other.toKeyCombination
  | .ofCharacter c, .ofCharacter other =>
    c.character = other.character ∧ c.toKeyCombination = other.toKeyCombination
  | .ofCode _, .ofCharacter _ | .ofCharacter _, .ofCode _ => false

end Combination

def asciiUpper (c : UInt16) : UInt16 := if 97 ≤ c ∧ c ≤ 122 then c - 32 else c

def asciiLower (c : UInt16) : UInt16 := if 65 ≤ c ∧ c ≤ 90 then c + 32 else c

/-- `String.toUpperCase` and `String.toLowerCase` in the root locale, and what they do to texts
of ASCII characters. -/
structure CaseMapping where
  toUpperCase : Text → Text
  toLowerCase : Text → Text
  toUpperCase_ascii : ∀ text : Text, (∀ c ∈ text, c < 128) →
    toUpperCase text = text.map asciiUpper
  toLowerCase_ascii : ∀ text : Text, (∀ c ∈ text, c < 128) →
    toLowerCase text = text.map asciiLower

/-- `token.split("\\s+")`: an empty word remains in front of leading blanks, but not behind
trailing ones. -/
def splitWords (token : Text) : List Text :=
  match token.splitOnP isBlank with
  | [] => []
  | first :: rest =>
    let rest := rest.filter (· ≠ [])
    if first = [] ∧ rest = [] ∧ token ≠ [] then [] else first :: rest

def appendWord (locale : CaseMapping) (sb word : Text) : Except Thrown Text :=
  match word with
  | [] => .error .stringIndexOutOfBounds
  | c :: rest =>
    .ok ((if sb.length > 0 then sb ++ [blank] else sb) ++ locale.toUpperCase [c] ++
      locale.toLowerCase rest)

def normalizeToken (locale : CaseMapping) (token : Text) : Except Thrown Text :=
  (splitWords token).foldlM (appendWord locale) []

def trim (s : Text) : Text :=
  ((s.dropWhile (· ≤ blank)).reverse.dropWhile (· ≤ blank)).reverse

def cannotParse (name : Text) : Thrown :=
  .illegalArgument (chars "Cannot parse key binding " ++ name)

inductive ScanState where
  | basic
  | whitespace
  | separator
  | quoted

structure Scanner where
  state : ScanState
  tokenStart : Nat
  tokenEnd : Int
  tokens : List Text

namespace Scanner

def start : Scanner := ⟨.basic, 0, -1, []⟩

/-- The state after the character at which a token starts or goes on. -/
def textState (c : UInt16) : ScanState := if c = quote then .quoted else .basic

def step (name chars : Text) (s : Scanner) (i : Nat) (c : UInt16) : Except Thrown Scanner :=
  match s.state with
  | .basic =>
    if isBlank c then .ok { s with tokenEnd := i, state := .whitespace }
    else if c = plus then .ok { s with tokenEnd := i, state := .separator }
    else if c = quote ∧ (i = 0 ∨ chars[i - 1]? ≠ some backslash) then
      .ok { s with state := .quoted }
    else .ok s
  | .whitespace =>
    if isBlank c then .ok s
    else if c = plus then .ok { s with state := .separator }
    else .ok { s with state := textState c, tokenEnd := -1 }
  | .separator =>
    if isBlank c then .ok s
    else if c = plus then .error (cannotParse name)
    else if s.tokenEnd ≤ s.tokenStart then .error (cannotParse name)
    else
      .ok
        { state := textState c
          tokenStart := i
          tokenEnd := -1
          tokens := s.tokens ++
            [(chars.drop s.tokenStart).take (s.tokenEnd - s.tokenStart).toNat] }
  | .quoted =>
    if c = quote ∧ chars[i - 1]? ≠ some backslash then .ok { s with state := .basic }
    else .ok s

def scan (name chars : Text) : Scanner → Nat → Text → Except Thrown Scanner
  | s, _, [] => .ok s
  | s, i, c :: rest => do
    let s ← step name chars s i c
    scan name chars s (i + 1) rest

end Scanner

def splitName (name : Text) : Except Thrown (List Text) := do
  let chars := trim name
  let s ← Scanner.scan name chars Scanner.start 0 chars
  match s.state with
  | .basic | .whitespace => return s.tokens ++ [chars.drop s.tokenStart]
  | .separator | .quoted => throw (cannotParse name)

structure Parsed where
  modifiers : List Modifier
  keyCode : Option KeyCode
  keyCharacter : Option Text

def isQuoted (token : Text) : Bool :=
  token.length > 2 ∧ token.head? = some quote ∧ token.getLast? = some quote

def readToken (locale : CaseMapping) (value : Text) (p : Parsed) (token : Text) :
    Except Thrown Parsed :=
  if isQuoted token then
    if p.keyCode ≠ none ∨ p.keyCharacter ≠ none then .error (cannotParse value)
    else .ok { p with keyCharacter := some (unescape token.tail.dropLast) }
  else do
    let normalizedToken ← normalizeToken locale token
    match getModifier normalizedToken with
    | some modifier => return { p with modifiers := p.modifiers ++ [modifier] }
    | none =>
      if p.keyCode ≠ none ∨ p.keyCharacter ≠ none then throw (cannotParse value)
      match KeyCode.getKeyCode normalizedToken with
      | some keyCode => return { p with keyCode := some keyCode }
      | none => return { p with keyCode := none, keyCharacter := some token }

def valueOf (locale : CaseMapping) (value : Text) : Except Thrown Combination := do
  let tokens ← splitName value
  let p ← tokens.foldlM (readToken locale value) ⟨[], none, none⟩
  match p.keyCode, p.keyCharacter with
  | none, none => throw (cannotParse value)
  | some keyCode, _ => return .ofCode (← KeyCodeCombination.new keyCode p.modifiers)
  | none, some keyCharacter =>
    return .ofCharacter (← KeyCharacterCombination.new keyCharacter p.modifiers)

open List

theorem isBlank_eq_false {c : UInt16} (hc : blank < c) : isBlank c = false := by
  have hne : ∀ n : UInt16, n ≤ blank → c ≠ n := by
    rintro n hn rfl
    exact absurd hc (UInt16.not_lt.mpr hn)
  have hblanks : c ≠ blank ∧ c ≠ 9 ∧ c ≠ 10 ∧ c ≠ 12 ∧ c ≠ 13 ∧ c ≠ 11 := by
    refine ⟨?_, ?_, ?_, ?_, ?_, ?_⟩ <;> exact hne _ (by decide)
  simp [isBlank, hblanks]

/-- A token that is neither quoted nor interrupted by a plus, and that trimming leaves alone. -/
structure IsName (token : Text) : Prop where
  plain : ∀ c ∈ token, c ≠ plus ∧ c ≠ quote
  head : ∃ c ∈ token.head?, blank < c
  last : ∃ c ∈ token.getLast?, blank < c

theorem trim_eq_self {s : Text} (hhead : ∃ c ∈ s.head?, blank < c)
    (hlast : ∃ c ∈ s.getLast?, blank < c) : trim s = s := by
  have hkept : ∀ t : Text, (∃ c ∈ t.head?, blank < c) → t.dropWhile (· ≤ blank) = t := by
    rintro t ⟨c, hc, hblank⟩
    rcases t with _ | ⟨d, t⟩
    · simp at hc
    · cases hc
      rw [dropWhile_cons_of_neg]
      simpa using hblank
  rw [trim, hkept s hhead, hkept s.reverse (by simpa using hlast), reverse_reverse]

/-- The main key section of a combination with a character. -/
def quoted (character : Text) : Text := quote :: escape character ++ [quote]

theorem escape_getLast? (character : Text) : (escape character).getLast? = character.getLast? := by
  rcases eq_nil_or_concat character with rfl | ⟨first, c, rfl⟩
  · rfl
  · by_cases hc : c = quote
    · simp [escape, hc]
    · simp [escape, hc]

theorem getLast?_quote_escape (character : Text) :
    (quote :: escape character).getLast? = some backslash ↔
      character.getLast? = some backslash := by
  rw [getLast?_cons, escape_getLast?]
  rcases character.getLast? with _ | c
  · simp [show quote ≠ backslash by decide]
  · simp

namespace Scanner

variable {name chars : Text} {s : Scanner} {i : Nat}

theorem scan_append (first rest : Text) :
    scan name chars s i (first ++ rest) =
      (scan name chars s i first).bind fun s' => scan name chars s' (i + first.length) rest := by
  induction first generalizing s i with
  | nil => rfl
  | cons c first ih =>
    simp only [cons_append, scan]
    rcases step name chars s i c with e | s'
    · rfl
    · have hlen : i + (c :: first).length = i + 1 + first.length := by
        simp only [length_cons]
        omega
      rw [hlen]
      exact ih

theorem scan_append_of {first rest : Text} {s' : Scanner}
    (hfst : scan name chars s i first = .ok s') :
    scan name chars s i (first ++ rest) = scan name chars s' (i + first.length) rest := by
  rw [scan_append, hfst]
  rfl

theorem scan_cons_of {c : UInt16} {rest : Text} {s' : Scanner}
    (hstep : step name chars s i c = .ok s') :
    scan name chars s i (c :: rest) = scan name chars s' (i + 1) rest := by
  rw [scan, hstep]
  rfl

def plainState (c : UInt16) : ScanState := if isBlank c then .whitespace else .basic

theorem step_plain (name chars : Text) {c : UInt16} (hs : s.state = .basic ∨ s.state = .whitespace)
    (hc : c ≠ plus ∧ c ≠ quote) :
    ∃ tokenEnd, step name chars s i c =
      .ok { s with state := plainState c, tokenEnd := tokenEnd } := by
  rcases s with ⟨state, tokenStart, tokenEnd, tokens⟩
  rcases hs with rfl | rfl
  · by_cases hblank : isBlank c = true
    · exact ⟨i, by simp [step, plainState, hblank]⟩
    · exact ⟨tokenEnd, by simp [step, plainState, hblank, hc]⟩
  · by_cases hblank : isBlank c = true
    · exact ⟨tokenEnd, by simp [step, plainState, hblank]⟩
    · exact ⟨-1, by simp [step, plainState, hblank, hc, textState]⟩

theorem scan_plain (name chars t : Text) (hs : s.state = .basic ∨ s.state = .whitespace)
    (hplain : ∀ c ∈ t, c ≠ plus ∧ c ≠ quote) :
    ∃ tokenEnd, scan name chars s i t =
      .ok { s with state := (t.getLast?.map plainState).getD s.state, tokenEnd := tokenEnd } := by
  induction t generalizing s i with
  | nil => exact ⟨s.tokenEnd, rfl⟩
  | cons c t ih =>
    rcases step_plain name chars (i := i) hs (hplain c (mem_cons_self ..)) with ⟨e, hstep⟩
    have hs' : plainState c = .basic ∨ plainState c = .whitespace := by
      unfold plainState
      split <;> simp
    rcases ih (s := { s with state := plainState c, tokenEnd := e }) (i := i + 1) hs'
      (fun d hd => hplain d (mem_cons_of_mem c hd)) with ⟨tokenEnd, hscan⟩
    refine ⟨tokenEnd, (scan_cons_of hstep).trans ?_⟩
    rw [hscan]
    rcases t with _ | ⟨d, t⟩
    · rfl
    · rfl

theorem scan_name (name chars : Text) {t : Text} (hs : s.state = .basic)
    (hplain : ∀ c ∈ t, c ≠ plus ∧ c ≠ quote)
    (hlast : ∀ c ∈ t.getLast?, blank < c) :
    ∃ tokenEnd, scan name chars s i t = .ok { s with tokenEnd := tokenEnd } := by
  rcases scan_plain name chars t (i := i) (.inl hs) hplain with ⟨tokenEnd, hscan⟩
  have hst : (t.getLast?.map plainState).getD s.state = s.state := by
    rcases hlast' : t.getLast? with _ | c
    · rfl
    · have hc : isBlank c = false := isBlank_eq_false (hlast c hlast')
      simp [plainState, hc, hs]
  rw [hst] at hscan
  exact ⟨tokenEnd, hscan⟩

theorem scan_escape (name character before after : Text) (hs : s.state = .quoted)
    (hchars : chars = before ++ escape character ++ after) :
    scan name chars s before.length (escape character) = .ok s := by
  induction character generalizing before with
  | nil => rfl
  | cons c character ih =>
    by_cases hc : c = quote
    · have hesc : escape (c :: character) = [backslash, quote] ++ escape character := by
        simp [escape, hc]
      rw [hesc] at hchars ⊢
      have hback : step name chars s before.length backslash = .ok s := by
        simp [step, hs, show backslash ≠ quote by decide]
      have hprev : chars[before.length]? = some backslash := by
        simp [hchars]
      have hquote : step name chars s (before.length + 1) quote = .ok s := by
        simp [step, hs, hprev]
      rw [cons_append, scan_cons_of hback, singleton_append, scan_cons_of hquote]
      have hrest := ih (before ++ [backslash, quote]) (by simpa using hchars)
      simpa using hrest
    · have hesc : escape (c :: character) = c :: escape character := by
        simp [escape, hc]
      rw [hesc] at hchars ⊢
      have hstep : step name chars s before.length c = .ok s := by
        simp [step, hs, hc]
      rw [scan_cons_of hstep]
      have hrest := ih (before ++ [c]) (by simpa using hchars)
      simpa using hrest

def AtToken (chars : Text) (i : Nat) (tokens : List Text) (s : Scanner) : Prop :=
  (i = 0 ∧ s = start ∧ tokens = []) ∨
    (s.state = .separator ∧ (s.tokenStart : Int) < s.tokenEnd ∧
      tokens = s.tokens ++ [(chars.drop s.tokenStart).take (s.tokenEnd - s.tokenStart).toNat])

variable {tokens : List Text}

theorem step_atToken (name : Text) {c : UInt16} (h : AtToken chars i tokens s) (hblank : blank < c)
    (hplus : c ≠ plus) :
    step name chars s i c = .ok ⟨textState c, i, -1, tokens⟩ := by
  have hnot : isBlank c = false := isBlank_eq_false hblank
  rcases h with ⟨rfl, rfl, rfl⟩ | ⟨hst, hend, rfl⟩
  · by_cases hquote : c = quote
    · subst hquote
      rfl
    · simp [step, start, hnot, hplus, hquote, textState]
  · have hmore : ¬s.tokenEnd ≤ s.tokenStart := by omega
    simp [step, hst, hnot, hplus, hmore]

theorem scan_token (name : Text) {token : Text} (htok : IsName token)
    (h : AtToken chars i tokens s) :
    ∃ tokenEnd, scan name chars s i token = .ok ⟨.basic, i, tokenEnd, tokens⟩ := by
  rcases htok with ⟨hplain, ⟨c, hc, hblank⟩, last, hlast, hlastBlank⟩
  rcases token with _ | ⟨c', rest⟩
  · simp at hc
  · cases hc
    have hfst := hplain c (mem_cons_self ..)
    have hstep := step_atToken name h hblank hfst.1
    rw [show textState c = .basic from if_neg hfst.2] at hstep
    rw [scan_cons_of hstep]
    apply scan_name name chars rfl
    · intro d hd
      exact hplain d (mem_cons_of_mem c hd)
    · intro d hd
      rw [getLast?_cons, Option.mem_def.mp hd] at hlast
      cases hlast
      exact hlastBlank

theorem scan_part (name : Text) {part before after : Text} (hpart : IsName part)
    (hchars : chars = before ++ (part ++ [plus]) ++ after)
    (h : AtToken chars before.length tokens s) :
    ∃ s', scan name chars s before.length (part ++ [plus]) = .ok s' ∧
      AtToken chars (before ++ (part ++ [plus])).length (tokens ++ [part]) s' := by
  rcases scan_token name hpart h with ⟨e, hscan⟩
  have hlen : 0 < part.length := by
    rcases hpart.head with ⟨c, hc, -⟩
    exact length_pos_of_mem (mem_of_mem_head? hc)
  refine ⟨⟨.separator, before.length, (before.length + part.length : Nat), tokens⟩, ?_, .inr ?_⟩
  · rw [scan_append_of hscan]
    rfl
  · refine ⟨rfl, ?_, ?_⟩
    · change (before.length : Int) < (before.length + part.length : Nat)
      omega
    · have htok : (chars.drop before.length).take part.length = part := by
        simp [hchars]
      have hwd : (((before.length + part.length : Nat) : Int) - before.length).toNat =
          part.length := by omega
      rw [hwd, htok]

theorem scan_quoted (name character : Text) {before : Text}
    (hchars : chars = before ++ quoted character) (h : AtToken chars before.length tokens s) :
    scan name chars s before.length (quoted character) =
      .ok ⟨if character.getLast? = some backslash then .quoted else .basic, before.length, -1,
        tokens⟩ := by
  have hopen := step_atToken name h (c := quote) (by decide) (by decide)
  have hinside : scan name chars ⟨.quoted, before.length, -1, tokens⟩ (before.length + 1)
      (escape character) = .ok ⟨.quoted, before.length, -1, tokens⟩ := by
    have hsplit : chars = (before ++ [quote]) ++ escape character ++ [quote] := by
      simp [hchars, quoted]
    have hesc := scan_escape name character _ _
      (s := ⟨.quoted, before.length, -1, tokens⟩) rfl hsplit
    simpa using hesc
  have hprev : chars[before.length + (escape character).length]? =
      (quote :: escape character).getLast? := by
    rw [getLast?_eq_getElem?, hchars, getElem?_append_right (Nat.le_add_right ..),
      quoted, getElem?_append_left (by simp)]
    simp
  have hclose : step name chars ⟨.quoted, before.length, -1, tokens⟩
      (before.length + 1 + (escape character).length) quote =
        .ok ⟨if character.getLast? = some backslash then .quoted else .basic, before.length, -1,
          tokens⟩ := by
    have hidx : before.length + 1 + (escape character).length - 1 =
        before.length + (escape character).length := by omega
    simp only [step, hidx, hprev, ne_eq, getLast?_quote_escape]
    split <;> simp_all
  rw [quoted, cons_append, scan_cons_of hopen]
  change scan name chars ⟨.quoted, before.length, -1, tokens⟩ _ _ = _
  rw [scan_append_of hinside, scan_cons_of hclose]
  rfl

def joined (parts : List Text) : Text := parts.flatMap (· ++ [plus])

theorem scan_joined (name : Text) {parts : List Text} (hparts : ∀ part ∈ parts, IsName part)
    {before after : Text} (hchars : chars = before ++ joined parts ++ after)
    (h : AtToken chars before.length tokens s) :
    ∃ s', scan name chars s before.length (joined parts) = .ok s' ∧
      AtToken chars (before ++ joined parts).length (tokens ++ parts) s' := by
  induction parts generalizing s tokens before with
  | nil =>
    refine ⟨s, rfl, ?_⟩
    simpa [joined] using h
  | cons part parts ih =>
    have hjoined : joined (part :: parts) = (part ++ [plus]) ++ joined parts := rfl
    rw [hjoined] at hchars ⊢
    rcases scan_part name (hparts part (mem_cons_self ..))
      (by simpa using hchars) h with ⟨m, hpart, hm⟩
    have hrest : ∀ p ∈ parts, IsName p := fun p hp => hparts p (mem_cons_of_mem part hp)
    rcases ih hrest (by simpa using hchars) hm with ⟨s', hscan, hs'⟩
    refine ⟨s', ?_, ?_⟩
    · rw [scan_append_of hpart, ← length_append]
      exact hscan
    · simpa using hs'

end Scanner

section

variable {parts : List Text}

theorem scan_to_last (hparts : ∀ part ∈ parts, IsName part) (last : Text) :
    ∃ s, Scanner.scan (Scanner.joined parts ++ last) (Scanner.joined parts ++ last) Scanner.start 0
        (Scanner.joined parts) = .ok s ∧
      Scanner.AtToken (Scanner.joined parts ++ last) (Scanner.joined parts).length parts s := by
  have hstart : Scanner.AtToken (Scanner.joined parts ++ last) ([] : Text).length []
      Scanner.start := .inl ⟨rfl, rfl, rfl⟩
  exact Scanner.scan_joined _ hparts rfl hstart

theorem trim_joined (hparts : ∀ part ∈ parts, IsName part) {last : Text}
    (hhead : ∃ c ∈ last.head?, blank < c) (hlast : ∃ c ∈ last.getLast?, blank < c) :
    trim (Scanner.joined parts ++ last) = Scanner.joined parts ++ last := by
  apply trim_eq_self
  · rcases parts with _ | ⟨part, parts⟩
    · exact hhead
    · rcases (hparts part (mem_cons_self ..)).head with ⟨c, hc, hblank⟩
      refine ⟨c, ?_, hblank⟩
      simp [Scanner.joined, Option.mem_def.mp hc]
  · rcases hlast with ⟨c, hc, hblank⟩
    exact ⟨c, mem_getLast?_append_of_mem_getLast? hc, hblank⟩

theorem splitName_name (hparts : ∀ part ∈ parts, IsName part) {last : Text}
    (hlast : IsName last) :
    splitName (Scanner.joined parts ++ last) = .ok (parts ++ [last]) := by
  rcases scan_to_last hparts last with ⟨s, hscan, hs⟩
  rcases Scanner.scan_token (Scanner.joined parts ++ last) hlast hs with ⟨e, htok⟩
  rw [splitName, trim_joined hparts hlast.head hlast.last, Scanner.scan_append_of hscan,
    Nat.zero_add, htok]
  simp [bind, Except.bind, pure, Except.pure]

theorem splitName_quoted (hparts : ∀ part ∈ parts, IsName part) (character : Text) :
    splitName (Scanner.joined parts ++ quoted character) =
      if character.getLast? = some backslash then
        .error (cannotParse (Scanner.joined parts ++ quoted character))
      else .ok (parts ++ [quoted character]) := by
  rcases scan_to_last hparts (quoted character) with ⟨s, hscan, hs⟩
  have hquoted := Scanner.scan_quoted (Scanner.joined parts ++ quoted character) character rfl hs
  have hend : ∃ c ∈ (quoted character).getLast?, blank < c :=
    ⟨quote, getLast?_concat, by decide⟩
  rw [splitName, trim_joined hparts ⟨quote, rfl, by decide⟩ hend,
    Scanner.scan_append_of hscan, Nat.zero_add, hquoted]
  split
  · rfl
  · simp [bind, Except.bind, pure, Except.pure]

end

end OpenJfx.Input
