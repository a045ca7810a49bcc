import OpenJfx.Java.Strings
import OpenJfx.Css.StylesheetBinary
import Mathlib

namespace OpenJfx.Css.SelectorText

open Java.Arrays Java.Strings

/-- The variables of the loop over the characters. -/
structure Scan where
  combinators : List Combinator := []
  parts : List (List Char) := []
  start : Nat := 0
  /-- `end` -/
  stop : Int := -1
  combinator : Char := '\x00'

/-- The body of the loop. -/
def scanChar (cssSelector : List Char) (scan : Scan) (i : Nat) (ch : Char) : Outcome Scan :=
  if ch = ' ' then
    .ok (if scan.combinator = '\x00' then { scan with combinator := ch, stop := i } else scan)
  else if ch = '>' then
    .ok { scan with
      stop := if scan.combinator = '\x00' then i else scan.stop
      combinator := ch }
  else if scan.combinator ≠ '\x00' then do
    let part ← substring cssSelector scan.start scan.stop
    .ok { scan with
      parts := scan.parts ++ [part]
      start := i
      combinators := scan.combinators ++
        [if scan.combinator = ' ' then .descendant else .child]
      combinator := '\x00' }
  else .ok scan

/-- The loop from a character on. -/
def scanFrom (cssSelector : List Char) : List Char → Nat → Scan → Outcome Scan
  | [], _, scan => .ok scan
  | ch :: rest, i, scan => do
    let scan ← scanChar cssSelector scan i ch
    scanFrom cssSelector rest (i + 1) scan

/-- The loops that collect the strings after the first one, trimmed, but for empty ones. -/
def collect (parts : List (List Char)) : List (Option String) :=
  ((parts.drop 1).filter fun part => !part.isEmpty).map fun part => some (.ofList (trim part))

def nameAndId (head : List Char) : Option String × Option String :=
  match head with
  | [] => (none, none)
  | c :: rest =>
    if c = '#' then (none, some (.ofList (trim rest))) else (some (.ofList (trim head)), none)

def parsePart (registry : Registry) (part : List Char) : Outcome SimpleSelector := do
  let pseudoClassParts := split ':' part
  let pseudoClasses := collect pseudoClassParts
  let selector := trim (← load pseudoClassParts 0)
  let styleClassParts := split '.' selector
  let styleClasses := collect styleClassParts
  let (name, id) := nameAndId (← load styleClassParts 0)
  .ok (.new registry name styleClasses pseudoClasses id)

def parseParts (registry : Registry) (parts : List (List Char)) : Outcome (List SimpleSelector) :=
  (parts.filter fun part => !part.isEmpty).mapM (parsePart registry)

def toSelector (selectors : List SimpleSelector) (combinators : List Combinator) : AnySelector :=
  match selectors with
  | [selector] => .simple selector
  | _ => .compound selectors combinators

def createSelector (registry : Registry) (cssSelector : Option (List Char)) :
    Outcome (Option AnySelector) :=
  match cssSelector with
  | none => .ok none
  | some [] => .ok none
  | some cssSelector => do
    let scan ← scanFrom cssSelector cssSelector 0 {}
    let last ← substring cssSelector scan.start cssSelector.length
    let selectors ← parseParts registry (scan.parts ++ [last])
    .ok (some (toSelector selectors scan.combinators))

open Data Data.WordSet List

section Grammar

/-- The characters of identifiers: letters, digits, `-`, `_` and what is outside ASCII. -/
def isNameChar (c : Char) : Bool :=
  c.isAlphanum || c == '-' || c == '_' || decide (128 ≤ c.toNat)

structure Name where
  chars : List Char
  ne_nil : chars ≠ []
  isName : ∀ c ∈ chars, isNameChar c = true

def Name.string (name : Name) : String := .ofList name.chars

structure SimpleText where
  typeName : Option Name
  id : Option Name
  styleClasses : List Name
  pseudoClasses : List Name
  present : typeName.isSome ∨ id.isSome ∨ styleClasses ≠ [] ∨ pseudoClasses ≠ []

def SimpleText.head (simple : SimpleText) : List Char :=
  (simple.typeName.map Name.chars).getD [] ++ (simple.id.map fun id => '#' :: id.chars).getD []

def SimpleText.text (simple : SimpleText) : List Char :=
  simple.head ++ Lines.opened '.' (simple.styleClasses.map Name.chars) ++
    Lines.opened ':' (simple.pseudoClasses.map Name.chars)

/-- What stands between two simple selectors: at least one space, or `>` between spaces. -/
inductive Joint
  | descendant (more : Nat)
  | child (before after : Nat)

namespace Joint

def text : Joint → List Char
  | descendant more => List.replicate (more + 1) ' '
  | child before after => List.replicate before ' ' ++ '>' :: List.replicate after ' '

def combinator : Joint → Combinator
  | descendant _ => .descendant
  | child _ _ => .child

/-- What the loop keeps of it. -/
def char : Joint → Char
  | descendant _ => ' '
  | child _ _ => '>'

theorem char_ne (joint : Joint) : joint.char ≠ '\x00' := by
  cases joint with
  | descendant more => exact (by decide : (' ' : Char) ≠ '\x00')
  | child before after => exact (by decide : ('>' : Char) ≠ '\x00')

end Joint

/-- Simple selectors with what stands between them, and spaces at the end. -/
structure SelectorSource where
  first : SimpleText
  rest : List (Joint × SimpleText)
  trailing : Nat

namespace SelectorSource

def simples (source : SelectorSource) : List SimpleText :=
  source.first :: source.rest.map Prod.snd

def combinators (source : SelectorSource) : List Combinator :=
  source.rest.map fun next => next.1.combinator

def text (source : SelectorSource) : List Char :=
  source.first.text ++ source.rest.flatMap (fun next => next.1.text ++ next.2.text) ++
    List.replicate source.trailing ' '

end SelectorSource

/-- A selector has the names of a text, as its getters tell them. -/
structure SimpleText.Denotes (tables : NameTables) (simple : SimpleText)
    (selector : SimpleSelector) : Prop where
  name : selector.name = (simple.typeName.map Name.string).getD "*"
  id : selector.id = (simple.id.map Name.string).getD ""
  styleClasses : ∀ name, name ∈ selector.getStyleClasses tables ↔
    name ∈ simple.styleClasses.map Name.string
  pseudoClasses : ∀ name, name ∈ selector.getPseudoclasses tables ↔
    name ∈ simple.pseudoClasses.map Name.string

def SelectorSource.Denotes (tables : NameTables) (source : SelectorSource) : AnySelector → Prop
  | .simple selector => source.rest = [] ∧ source.first.Denotes tables selector
  | .compound selectors relationships =>
    source.rest ≠ [] ∧ relationships = source.combinators ∧
      List.Forall₂ (SimpleText.Denotes tables) source.simples selectors

end Grammar

section Characters

theorem visible_of_isNameChar {c : Char} (h : isNameChar c = true) : ' ' < c := by
  change 32 < c.toNat
  simp only [isNameChar, Char.isAlphanum, Char.isAlpha, Char.isUpper, Char.isLower, Char.isDigit,
    Bool.or_eq_true, Bool.and_eq_true, decide_eq_true_eq, beq_iff_eq] at h
  change (((((65 ≤ c.toNat ∧ c.toNat ≤ 90) ∨ (97 ≤ c.toNat ∧ c.toNat ≤ 122)) ∨
    (48 ≤ c.toNat ∧ c.toNat ≤ 57)) ∨ c = '-') ∨ c = '_') ∨ 128 ≤ c.toNat at h
  rcases h with ((h | rfl) | rfl) | h
  · omega
  · decide
  · decide
  · omega

theorem Name.not_mem (name : Name) {c : Char} (h : isNameChar c = false) : c ∉ name.chars := by
  intro hmem
  have hname := name.isName c hmem
  rw [h] at hname
  exact Bool.false_ne_true hname

theorem Name.visible (name : Name) : Visible name.chars :=
  fun c hc => visible_of_isNameChar (name.isName c hc)

theorem mem_opened {sep c : Char} {names : List Name}
    (h : c ∈ Lines.opened sep (names.map Name.chars)) : c = sep ∨ isNameChar c = true := by
  rw [Lines.opened, mem_flatMap] at h
  rcases h with ⟨chars, hchars, hmem⟩
  rcases mem_map.mp hchars with ⟨name, -, rfl⟩
  exact (mem_cons.mp hmem).imp_right (name.isName c)

namespace SimpleText

variable {simple : SimpleText} {c : Char}

theorem mem_head (h : c ∈ simple.head) : c = '#' ∨ isNameChar c = true := by
  rcases mem_append.mp h with h | h
  · cases htype : simple.typeName with
    | none => simp [htype] at h
    | some name =>
      rw [htype] at h
      exact .inr (name.isName c h)
  · cases hid : simple.id with
    | none => simp [hid] at h
    | some name =>
      rw [hid] at h
      exact (mem_cons.mp h).imp_right (name.isName c)

theorem mem_text (h : c ∈ simple.text) :
    c = '#' ∨ c = '.' ∨ c = ':' ∨ isNameChar c = true := by
  rcases mem_append.mp h with h | h
  · rcases mem_append.mp h with h | h
    · exact (mem_head h).imp_right fun h => .inr (.inr h)
    · exact .inr ((mem_opened h).imp_right .inr)
  · exact .inr (.inr (mem_opened h))

theorem visible_text : Visible simple.text := by
  intro c hc
  rcases mem_text hc with rfl | rfl | rfl | h
  · decide
  · decide
  · decide
  · exact visible_of_isNameChar h

theorem not_mem_text (h : '>' ∈ simple.text) : False := by
  have hmem := mem_text h
  revert hmem
  decide

theorem text_ne_nil : simple.text ≠ [] := by
  intro h
  simp only [text, head, append_eq_nil_iff] at h
  rcases h with ⟨⟨⟨htype, hid⟩, hclasses⟩, hps⟩
  have hopened : ∀ {sep : Char} {names : List Name},
      Lines.opened sep (names.map Name.chars) = [] → names = [] := by
    intro sep names hnil
    cases names with
    | nil => rfl
    | cons name names => simp at hnil
  rcases simple.present with h | h | h | h
  · rcases Option.isSome_iff_exists.mp h with ⟨name, hname⟩
    rw [hname] at htype
    exact name.ne_nil htype
  · rcases Option.isSome_iff_exists.mp h with ⟨name, hname⟩
    rw [hname] at hid
    exact cons_ne_nil _ _ hid
  · exact h (hopened hclasses)
  · exact h (hopened hps)

end SimpleText

end Characters

section Parts

theorem collect_names (head : List Char) (names : List Name) :
    collect (head :: names.map Name.chars) = names.map fun name => some name.string := by
  rw [collect, drop_one, tail_cons, filter_eq_self.mpr, map_map]
  · apply map_congr_left
    intro name _
    exact congrArg (fun chars => some (String.ofList chars)) (trim_visible name.visible)
  · intro chars hmem
    rcases mem_map.mp hmem with ⟨name, -, rfl⟩
    rw [Bool.not_eq_true', isEmpty_eq_false_iff]
    exact name.ne_nil

theorem split_names {sep : Char} {head : List Char} (names : List Name) (hhead : sep ∉ head)
    (hsep : isNameChar sep = false) :
    split sep (head ++ Lines.opened sep (names.map Name.chars)) =
      head :: names.map Name.chars := by
  apply split_append_opened hhead
  · intro chars hmem
    rcases mem_map.mp hmem with ⟨name, -, rfl⟩
    exact name.not_mem hsep
  · intro chars hmem
    rcases mem_map.mp hmem with ⟨name, -, rfl⟩
    exact name.ne_nil

theorem split_names_spaces {sep : Char} {head : List Char} (names : List Name)
    (hhead : sep ∉ head) (hvisible : Visible head) (hsep : isNameChar sep = false)
    (hspace : sep ≠ ' ') (n : Nat) :
    ∃ first parts, split sep (head ++ Lines.opened sep (names.map Name.chars) ++
        List.replicate n ' ') = first :: parts ∧ trim first = head ∧
      collect (first :: parts) = names.map fun name => some name.string := by
  have hspaces : sep ∉ List.replicate n ' ' := fun hmem =>
    hspace (eq_of_mem_replicate hmem)
  rcases eq_nil_or_concat names with rfl | ⟨front, last, rfl⟩
  · refine ⟨head ++ List.replicate n ' ', [], ?_, trim_append_spaces hvisible n, rfl⟩
    have hjoined : sep ∉ head ++ List.replicate n ' ' := by simp [hhead, hspaces]
    have hsplit := split_names [] hjoined hsep
    rw [map_nil, Lines.opened_nil, append_nil] at hsplit
    rw [map_nil, Lines.opened_nil, append_nil, hsplit]
  · refine ⟨head, front.map Name.chars ++ [last.chars ++ List.replicate n ' '], ?_,
      trim_visible hvisible, ?_⟩
    · have hlines : head ++ Lines.opened sep ((front.concat last).map Name.chars) ++
          List.replicate n ' ' = head ++ Lines.opened sep (front.map Name.chars ++
            [last.chars ++ List.replicate n ' ']) := by
        simp
      rw [hlines]
      apply split_append_opened hhead
      · intro piece hmem
        rcases mem_append.mp hmem with hmem | hmem
        · rcases mem_map.mp hmem with ⟨name, -, rfl⟩
          exact name.not_mem hsep
        · rw [mem_singleton.mp hmem, mem_append, not_or]
          exact ⟨last.not_mem hsep, hspaces⟩
      · intro piece hmem
        rcases mem_append.mp hmem with hmem | hmem
        · rcases mem_map.mp hmem with ⟨name, -, rfl⟩
          exact name.ne_nil
        · rw [mem_singleton.mp hmem]
          exact append_ne_nil_of_left_ne_nil last.ne_nil _
    · have hfront := collect_names head front
      have hlast : ¬ (last.chars ++ List.replicate n ' ').isEmpty = true := by
        rw [List.isEmpty_iff]
        exact append_ne_nil_of_left_ne_nil last.ne_nil _
      rw [collect, drop_one, tail_cons] at hfront ⊢
      rw [filter_append, map_append, hfront, filter_cons_of_pos (by simp [hlast]),
        filter_nil, map_singleton, trim_append_spaces last.visible,
        concat_eq_append, map_append]
      rfl

namespace SimpleText

def taken (simple : SimpleText) : Option String × Option String :=
  match simple.typeName, simple.id with
  | none, id => (none, id.map Name.string)
  | some name, none => (some name.string, none)
  | some name, some id => (some (.ofList (name.chars ++ '#' :: id.chars)), none)

theorem nameAndId_of_name (name : Name) {rest : List Char} (hrest : Visible rest) :
    nameAndId (name.chars ++ rest) = (some (.ofList (name.chars ++ rest)), none) := by
  have hvisible : Visible (name.chars ++ rest) := by
    rintro c hc
    rcases mem_append.mp hc with hc | hc
    · exact name.visible c hc
    · exact hrest c hc
  have htrim := trim_visible hvisible
  have hhash := name.not_mem (c := '#') (by decide)
  rcases hchars : name.chars with _ | ⟨c, chars⟩
  · exact absurd hchars name.ne_nil
  · rw [hchars] at htrim hhash
    have hne : c ≠ '#' := fun h => hhash (h ▸ mem_cons_self)
    rw [cons_append, nameAndId, if_neg hne, ← cons_append, htrim]

theorem nameAndId_head (simple : SimpleText) : nameAndId simple.head = simple.taken := by
  rcases simple with ⟨typeName, id, styleClasses, pseudoClasses, hpresent⟩
  cases typeName with
  | none =>
    cases id with
    | none => rfl
    | some id =>
      have htrim := trim_visible id.visible
      change (none, some (String.ofList (trim id.chars))) = _
      rw [htrim]
      rfl
  | some name =>
    cases id with
    | none =>
      have hname := nameAndId_of_name name (forall_mem_nil (fun c : Char => ' ' < c))
      rw [append_nil] at hname
      change nameAndId (name.chars ++ []) = _
      rw [append_nil]
      exact hname
    | some id =>
      apply nameAndId_of_name
      rintro c (_ | ⟨_, hc⟩)
      · decide
      · exact id.visible c hc

def parsed (registry : Registry) (simple : SimpleText) : SimpleSelector :=
  .new registry simple.taken.1 (simple.styleClasses.map fun name => some name.string)
    (simple.pseudoClasses.map fun name => some name.string) simple.taken.2

theorem parsePart_text (registry : Registry) (simple : SimpleText) (n : Nat) :
    parsePart registry (simple.text ++ List.replicate n ' ') = .ok (simple.parsed registry) := by
  have hcolon : ':' ∉ simple.head ++ Lines.opened '.' (simple.styleClasses.map Name.chars) := by
    intro hmem
    rcases mem_append.mp hmem with hmem | hmem
    · have hhead := mem_head hmem
      revert hhead
      decide
    · have hopened := mem_opened hmem
      revert hopened
      decide
  have hdot : '.' ∉ simple.head := by
    intro hmem
    have hhead := mem_head hmem
    revert hhead
    decide
  have hvisible : Visible (simple.head ++
      Lines.opened '.' (simple.styleClasses.map Name.chars)) :=
    fun c hc => visible_text c (mem_append_left _ hc)
  obtain ⟨first, parts, hsplit, hfst, hps⟩ :=
    split_names_spaces simple.pseudoClasses hcolon hvisible (by decide) (by decide) n
  have hclasses := split_names simple.styleClasses hdot (by decide)
  rw [parsePart, text, hsplit, hps]
  change (do
    let styleClassParts := split '.' (trim first)
    let (name, id) := nameAndId (← load styleClassParts 0)
    .ok (SimpleSelector.new registry name (collect styleClassParts)
      (simple.pseudoClasses.map fun (name : Name) => some name.string) id)) = _
  rw [hfst, hclasses]
  dsimp only
  rw [collect_names]
  change (match nameAndId simple.head with
    | (name, id) => Except.ok (SimpleSelector.new registry name _ _ id)) = _
  rw [nameAndId_head]
  rfl

end SimpleText

end Parts

section Scanning

variable {cssSelector : List Char}

theorem scanFrom_append (front back : List Char) (i : Nat) (scan : Scan) :
    scanFrom cssSelector (front ++ back) i scan =
      scanFrom cssSelector front i scan >>= scanFrom cssSelector back (i + front.length) := by
  induction front generalizing i scan with
  | nil => rfl
  | cons ch front ih =>
    rw [cons_append, scanFrom, scanFrom, length_cons]
    cases scanChar cssSelector scan i ch with
    | error failure => rfl
    | ok scan =>
      rw [ok_bind, ok_bind, ih]
      have hplace : i + 1 + front.length = i + (front.length + 1) := by omega
      rw [hplace]

variable {scan : Scan}

theorem scanFrom_of_plain {text : List Char} (hspace : ' ' ∉ text) (hchild : '>' ∉ text)
    (hscan : scan.combinator = '\x00') (i : Nat) :
    scanFrom cssSelector text i scan = .ok scan := by
  induction text generalizing i with
  | nil => rfl
  | cons ch text ih =>
    rw [mem_cons, not_or] at hspace hchild
    have hchar : scanChar cssSelector scan i ch = .ok scan := by
      rw [scanChar, if_neg (Ne.symm hspace.1), if_neg (Ne.symm hchild.1),
        if_neg (not_not.mpr hscan)]
    rw [scanFrom, hchar]
    exact ih hspace.2 hchild.2 (i + 1)

theorem scanFrom_spaces (hscan : scan.combinator ≠ '\x00') (n i : Nat) :
    scanFrom cssSelector (List.replicate n ' ') i scan = .ok scan := by
  induction n generalizing i with
  | zero => rfl
  | succ n ih =>
    have hchar : scanChar cssSelector scan i ' ' = .ok scan := by
      rw [scanChar, if_pos rfl, if_neg hscan]
    rw [replicate_succ, scanFrom, hchar]
    exact ih (i + 1)

theorem scanFrom_spaces_succ (hscan : scan.combinator = '\x00') (n i : Nat) :
    scanFrom cssSelector (List.replicate (n + 1) ' ') i scan =
      .ok { scan with combinator := ' ', stop := i } := by
  rw [replicate_succ, scanFrom, scanChar, if_pos hscan]
  exact scanFrom_spaces (by decide : (' ' : Char) ≠ '\x00') n (i + 1)

theorem scanFrom_joint (hscan : scan.combinator = '\x00') (joint : Joint) (i : Nat) :
    scanFrom cssSelector joint.text i scan =
      .ok { scan with combinator := joint.char, stop := i } := by
  cases joint with
  | descendant more => exact scanFrom_spaces_succ hscan more i
  | child before after =>
    rw [Joint.text, scanFrom_append]
    cases before with
    | zero =>
      rw [replicate_zero, scanFrom, ok_bind, scanFrom, scanChar, if_neg (by decide),
        if_pos rfl, if_pos hscan, ok_bind]
      exact scanFrom_spaces (by decide : ('>' : Char) ≠ '\x00') after _
    | succ before =>
      rw [scanFrom_spaces_succ hscan, ok_bind, scanFrom, scanChar, if_neg (by decide), if_pos rfl,
        ok_bind]
      exact scanFrom_spaces (by decide : ('>' : Char) ≠ '\x00') after _

theorem scanFrom_after_joint (scan : Scan) {text part : List Char} (hne : text ≠ [])
    (hspace : ' ' ∉ text) (hchild : '>' ∉ text) {joint : Joint}
    (hscan : scan.combinator = joint.char)
    (hpart : substring cssSelector scan.start scan.stop = .ok part) (i : Nat) :
    scanFrom cssSelector text i scan =
      .ok { scan with
        parts := scan.parts ++ [part]
        start := i
        combinators := scan.combinators ++ [joint.combinator]
        combinator := '\x00' } := by
  cases text with
  | nil => exact absurd rfl hne
  | cons ch text =>
    rw [mem_cons, not_or] at hspace hchild
    have hpend : scan.combinator ≠ '\x00' := by
      rw [hscan]
      exact joint.char_ne
    have hcombinator : (if scan.combinator = ' ' then Combinator.descendant else .child) =
        joint.combinator := by
      rw [hscan]
      cases joint <;> rfl
    rw [scanFrom, scanChar, if_neg (Ne.symm hspace.1), if_neg (Ne.symm hchild.1),
      if_pos hpend, hpart, ok_bind, ok_bind, hcombinator]
    exact scanFrom_of_plain hspace.2 hchild.2 rfl (i + 1)

theorem scanFrom_rest (cssSelector : List Char) (rest : List (Joint × SimpleText))
    (back : List Char) :
    ∀ (front : List Char) (before : List SimpleText) (simple : SimpleText) (scan : Scan),
      cssSelector = front ++ (simple.text ++
        (rest.flatMap (fun next => next.1.text ++ next.2.text) ++ back)) →
      scan.combinator = '\x00' → scan.start = front.length →
      scan.parts = before.map SimpleText.text →
      ∃ scan' front' before' last,
        scanFrom cssSelector (rest.flatMap fun next => next.1.text ++ next.2.text)
          (front.length + simple.text.length) scan = .ok scan' ∧
        scan'.combinator = '\x00' ∧
        scan'.combinators = scan.combinators ++ rest.map (fun next => next.1.combinator) ∧
        scan'.parts = before'.map SimpleText.text ∧
        before' ++ [last] = before ++ simple :: rest.map Prod.snd ∧
        cssSelector = front' ++ (last.text ++ back) ∧ scan'.start = front'.length := by
  induction rest with
  | nil =>
    intro front before simple scan htext hscan hstart hparts
    exact ⟨scan, front, before, simple, rfl, hscan, (append_nil _).symm, hparts, rfl,
      htext, hstart⟩
  | cons next rest ih =>
    rcases next with ⟨joint, following⟩
    intro front before simple scan htext hscan hstart hparts
    have hpart : substring cssSelector scan.start (front.length + simple.text.length : Nat) =
        .ok simple.text := by
      rw [htext, hstart]
      exact substring_append _ _ _
    have hafter := scanFrom_after_joint
      { scan with combinator := joint.char, stop := (front.length + simple.text.length : Nat) }
      following.text_ne_nil (fun hmem => absurd (following.visible_text _ hmem) (by decide))
      following.not_mem_text rfl hpart (front.length + simple.text.length + joint.text.length)
    obtain ⟨scan', front', before', last, hrun, hrest⟩ := ih
      (front ++ (simple.text ++ joint.text)) (before ++ [simple]) following
      { scan with
        parts := scan.parts ++ [simple.text]
        start := front.length + simple.text.length + joint.text.length
        combinators := scan.combinators ++ [joint.combinator]
        combinator := '\x00'
        stop := (front.length + simple.text.length : Nat) }
      (by rw [htext]; simp) rfl (by simp [Nat.add_assoc]) (by simp [hparts])
    refine ⟨scan', front', before', last, ?_, ?_⟩
    · rw [flatMap_cons, scanFrom_append, scanFrom_append, scanFrom_joint hscan, ok_bind,
        hafter, ok_bind, ← hrun]
      congr 1
      simp only [length_append]
      omega
    · simpa [append_assoc] using hrest

theorem scanFrom_text (source : SelectorSource) :
    ∃ scan before last, scanFrom source.text source.text 0 {} = .ok scan ∧
      scan.combinators = source.combinators ∧ scan.parts = before.map SimpleText.text ∧
      before ++ [last] = source.simples ∧
      substring source.text scan.start source.text.length =
        .ok (last.text ++ List.replicate source.trailing ' ') := by
  obtain ⟨scan, front, before, last, hrun, hscan, hcombinators, hparts, hsimples, htext, hstart⟩ :=
    scanFrom_rest source.text source.rest (List.replicate source.trailing ' ') []
      [] source.first {} (by rw [SelectorSource.text, nil_append, append_assoc]) rfl rfl
      rfl
  have hfst : scanFrom source.text source.first.text 0 {} = .ok {} :=
    scanFrom_of_plain (fun hmem => absurd (source.first.visible_text _ hmem) (by decide))
      source.first.not_mem_text rfl 0
  have hlast : substring source.text scan.start source.text.length =
      .ok (last.text ++ List.replicate source.trailing ' ') := by
    rw [hstart, htext]
    exact substring_of_append _ _
  have hwhole : scanFrom source.text source.text 0 {} =
      scanFrom source.text (List.replicate source.trailing ' ')
        (0 + (source.first.text ++ source.rest.flatMap fun next =>
          next.1.text ++ next.2.text).length) scan := by
    conv_lhs =>
      arg 2
      rw [SelectorSource.text]
    rw [scanFrom_append, scanFrom_append, hfst, ok_bind, Nat.zero_add]
    rw [length_nil, Nat.zero_add] at hrun
    rw [hrun, ok_bind]
  cases htrailing : source.trailing with
  | zero =>
    rw [htrailing] at hwhole hlast
    exact ⟨scan, before, last, hwhole, hcombinators, hparts, hsimples, hlast⟩
  | succ n =>
    rw [htrailing, scanFrom_spaces_succ hscan] at hwhole
    rw [htrailing] at hlast
    exact ⟨_, before, last, hwhole, hcombinators, hparts, hsimples, hlast⟩

end Scanning

section Selectors

theorem mapM_eq_ok {α β γ : Type} {f : β → Outcome γ} {g : α → β} {h : α → γ} {xs : List α}
    (hf : ∀ x ∈ xs, f (g x) = .ok (h x)) : (xs.map g).mapM f = .ok (xs.map h) := by
  induction xs with
  | nil => rfl
  | cons x xs ih =>
    rw [map_cons, mapM_cons, hf x mem_cons_self, ok_bind,
      ih fun y hy => hf y (mem_cons_of_mem _ hy), ok_bind]
    rfl

theorem createSelector_text (registry : Registry) (source : SelectorSource) :
    createSelector registry (some source.text) =
      .ok (some (toSelector (source.simples.map (SimpleText.parsed registry))
        source.combinators)) := by
  obtain ⟨scan, before, last, hscan, hcombinators, hparts, hsimples, hlast⟩ :=
    scanFrom_text source
  have hne : source.text ≠ [] := by
    rw [SelectorSource.text, append_assoc]
    exact append_ne_nil_of_left_ne_nil source.first.text_ne_nil _
  have hparse : parseParts registry (scan.parts ++
      [last.text ++ List.replicate source.trailing ' ']) =
        .ok (source.simples.map (SimpleText.parsed registry)) := by
    rw [parseParts, hparts, filter_eq_self.mpr, mapM_append, mapM_eq_ok, mapM_cons,
      SimpleText.parsePart_text, ← hsimples, map_append]
    · rfl
    · intro simple _
      have hpart := SimpleText.parsePart_text registry simple 0
      rwa [replicate_zero, append_nil] at hpart
    · intro part hmem
      rw [Bool.not_eq_true', isEmpty_eq_false_iff]
      rcases mem_append.mp hmem with hmem | hmem
      · rcases mem_map.mp hmem with ⟨simple, -, rfl⟩
        exact simple.text_ne_nil
      · rw [mem_singleton.mp hmem]
        exact append_ne_nil_of_left_ne_nil last.text_ne_nil _
  rcases htext : source.text with _ | ⟨c, text⟩
  · exact absurd htext hne
  · rw [htext] at hscan hlast
    rw [createSelector, hscan, ok_bind, hlast, ok_bind, hparse, ok_bind, hcombinators]
    nofun

variable {tables : NameTables}

theorem startsIgnoreCase_mem {pattern : List Char} :
    ∀ {cs : List Char}, SimpleSelector.startsIgnoreCase pattern cs = true →
      ∀ p ∈ pattern, ∃ c ∈ cs, SimpleSelector.equalsIgnoreCase p c = true := by
  induction pattern with
  | nil => exact fun _ _ hmem => absurd hmem not_mem_nil
  | cons p pattern ih =>
    intro cs h q hq
    cases cs with
    | nil => exact absurd h Bool.false_ne_true
    | cons c cs =>
      rw [SimpleSelector.startsIgnoreCase, Bool.and_eq_true] at h
      rcases mem_cons.mp hq with rfl | hq
      · exact ⟨c, mem_cons_self, h.1⟩
      · rcases ih h.2 q hq with ⟨d, hd, heq⟩
        exact ⟨d, mem_cons_of_mem _ hd, heq⟩

theorem toLower_ne {c : Char} (h : isNameChar c = true) : c.toLower ≠ '(' := by
  intro hlower
  have hval : c.toLower.val = '('.val := congrArg Char.val hlower
  rw [Char.toLower] at hval
  split at hval
  · next hupper =>
      have hsum := congrArg UInt32.toNat hval
      change (c.val.toNat + 32) % 2 ^ 32 = 40 at hsum
      change 65 ≤ c.val.toNat ∧ c.val.toNat ≤ 90 at hupper
      omega
  · have heq : c = '(' := Char.ext hval
    rw [heq] at h
    revert h
    decide

theorem isDir_name (name : Name) : SimpleSelector.isDir name.string = false := by
  rw [Bool.eq_false_iff]
  intro hdir
  have hchars : name.string.toList = name.chars := String.toList_ofList
  rw [SimpleSelector.isDir, hchars] at hdir
  rcases startsIgnoreCase_mem hdir '(' (by decide) with ⟨c, hc, heq⟩
  have hname := name.isName c hc
  rw [SimpleSelector.equalsIgnoreCase, Bool.or_eq_true, Bool.or_eq_true, beq_iff_eq,
    beq_iff_eq] at heq
  rcases heq with (rfl | hlower) | hdotted
  · exact name.not_mem (c := '(') (by decide) hc
  · exact toLower_ne hname hlower
  · exact absurd hdotted (by simp)

theorem string_ne_empty (name : Name) : name.string ≠ "" := by
  intro h
  have hchars := congrArg String.toList h
  rw [Name.string, String.toList_ofList] at hchars
  exact name.ne_nil hchars

theorem mem_names_addNames {index : String → Nat} {nameOf : Nat → String}
    (hnameOf : ∀ name, nameOf (index name) = name) (names : List Name) (name : String) :
    name ∈ (SimpleSelector.addNames index BitSet.new
        (names.map fun name => some name.string)).indexes.map nameOf ↔
      name ∈ names.map Name.string := by
  simp only [mem_map, mem_indexes, SimpleSelector.mem_addNames]
  constructor
  · rintro ⟨i, hnew | ⟨added, ⟨known, hknown, hsome⟩, -, rfl⟩, rfl⟩
    · exact absurd hnew (by simp [BitSet.new])
    · exact ⟨known, hknown, by rw [hnameOf, Option.some.inj hsome]⟩
  · rintro ⟨known, hknown, rfl⟩
    exact ⟨index known.string, .inr ⟨known.string, ⟨known, hknown, rfl⟩, string_ne_empty known,
      rfl⟩, hnameOf _⟩

theorem getPseudoclasses_parsed (simple : SimpleText) (name : String) :
    name ∈ (simple.parsed tables.toRegistry).getPseudoclasses tables ↔
      name ∈ simple.pseudoClasses.map Name.string := by
  have hdirs : ∀ pclass ∈ simple.pseudoClasses.map (fun name => some name.string),
      pclass.any SimpleSelector.isDir = false := by
    intro pclass hmem
    rcases mem_map.mp hmem with ⟨name, -, rfl⟩
    exact isDir_name name
  have horientation : (simple.parsed tables.toRegistry).nodeOrientation = .inherit := by
    rcases SimpleSelector.addPseudoClasses_fst_append tables.pseudoClass _ [] hdirs .inherit
      BitSet.new with ⟨set, hset⟩
    rw [append_nil] at hset
    exact hset
  have hset : (simple.parsed tables.toRegistry).pseudoClassState =
      SimpleSelector.addNames tables.pseudoClass BitSet.new
        (simple.pseudoClasses.map fun name => some name.string) := by
    refine (SimpleSelector.addPseudoClasses_snd tables.pseudoClass _ .inherit BitSet.new).trans ?_
    rw [filter_eq_self.mpr]
    intro pclass hmem
    rw [hdirs pclass hmem]
    rfl
  rw [SimpleSelector.getPseudoclasses, horientation, hset, SimpleSelector.dirNames,
    append_nil]
  exact mem_names_addNames tables.pseudoClassName_pseudoClass _ _

theorem denotes_parsed_iff (tables : NameTables) (simple : SimpleText) :
    simple.Denotes tables (simple.parsed tables.toRegistry) ↔
      simple.typeName = none ∨ simple.id = none := by
  have hstyles : ∀ name,
      name ∈ (simple.parsed tables.toRegistry).getStyleClasses tables ↔
        name ∈ simple.styleClasses.map Name.string :=
    mem_names_addNames tables.styleClassName_styleClass simple.styleClasses
  have hname : (simple.parsed tables.toRegistry).name = simple.taken.1.getD "*" := rfl
  have hid : (simple.parsed tables.toRegistry).id = simple.taken.2.getD "" := rfl
  constructor
  · intro h
    have hsame := h.id
    rw [hid, SimpleText.taken] at hsame
    cases htype : simple.typeName with
    | none => exact .inl rfl
    | some name =>
      cases hidText : simple.id with
      | none => exact .inr rfl
      | some id =>
        rw [htype, hidText] at hsame
        exact absurd hsame.symm (string_ne_empty id)
  · intro h
    refine ⟨?_, ?_, hstyles, getPseudoclasses_parsed simple⟩
    · rw [hname, SimpleText.taken]
      rcases h with h | h
      · rw [h]
        rfl
      · rw [h]
        cases simple.typeName <;> rfl
    · rw [hid, SimpleText.taken]
      rcases h with h | h
      · rw [h]
      · rw [h]
        cases simple.typeName <;> rfl

theorem denotes_toSelector_iff (tables : NameTables) (source : SelectorSource) :
    source.Denotes tables (toSelector (source.simples.map (SimpleText.parsed tables.toRegistry))
        source.combinators) ↔
      ∀ simple ∈ source.simples, simple.typeName = none ∨ simple.id = none := by
  rcases source with ⟨first, rest, trailing⟩
  cases rest with
  | nil =>
    have hfst := denotes_parsed_iff tables first
    constructor
    · rintro ⟨-, h⟩ simple hmem
      rw [mem_singleton.mp hmem]
      exact hfst.mp h
    · intro h
      exact ⟨rfl, hfst.mpr (h first mem_cons_self)⟩
  | cons next rest =>
    have hall : List.Forall₂ (SimpleText.Denotes tables)
        (SelectorSource.mk first (next :: rest) trailing).simples
        ((SelectorSource.mk first (next :: rest) trailing).simples.map
          (SimpleText.parsed tables.toRegistry)) ↔
        ∀ simple ∈ (SelectorSource.mk first (next :: rest) trailing).simples,
          simple.typeName = none ∨ simple.id = none := by
      rw [forall₂_map_right_iff, forall₂_same]
      simp only [denotes_parsed_iff]
    constructor
    · rintro ⟨-, -, h⟩
      exact hall.mp h
    · intro h
      exact ⟨cons_ne_nil _ _, rfl, hall.mpr h⟩

end Selectors

/-- `createSelector` of the text of a selector has the type names, ids, style classes,
pseudo-classes and combinators of the text exactly if no simple selector of it has both a type
name and an id. -/
theorem createSelector_denotes_iff (tables : NameTables) (source : SelectorSource) :
    (∃ selector, createSelector tables.toRegistry (some source.text) = .ok (some selector) ∧
        source.Denotes tables selector) ↔
      ∀ simple ∈ source.simples, simple.typeName = none ∨ simple.id = none := by
  rw [← denotes_toSelector_iff tables]
  constructor
  · rintro ⟨selector, hcreate, h⟩
    rw [createSelector_text] at hcreate
    rw [Option.some.inj (Except.ok.inj hcreate)]
    exact h
  · intro h
    exact ⟨_, createSelector_text _ source, h⟩

/-- `Button#save` -/
def buttonSave : SelectorSource :=
  ⟨⟨some ⟨"Button".toList, by decide, all_eq_true.mp (by decide)⟩,
    some ⟨"save".toList, by decide, all_eq_true.mp (by decide)⟩, [], [], .inl rfl⟩, [], 0⟩

theorem not_denotes_buttonSave :
    buttonSave.text = "Button#save".toList ∧
      ¬ ∃ selector, createSelector Stylesheet.encodedTables.toRegistry (some buttonSave.text) =
          .ok (some selector) ∧ buttonSave.Denotes Stylesheet.encodedTables selector := by
  refine ⟨by decide, ?_⟩
  rintro ⟨selector, hcreate, h⟩
  rw [createSelector_text] at hcreate
  rw [← Option.some.inj (Except.ok.inj hcreate), denotes_toSelector_iff] at h
  have hfirst := h _ mem_cons_self
  revert hfirst
  decide

end OpenJfx.Css.SelectorText
