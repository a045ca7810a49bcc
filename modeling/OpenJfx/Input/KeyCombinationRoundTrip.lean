import OpenJfx.Input.KeyCombination
import Mathlib.Data.Fintype.Basic

namespace OpenJfx.Input

open Java List

instance : DecidablePred IsName := fun token =>
  decidable_of_iff
    ((token.all fun c => c ≠ plus ∧ c ≠ quote) = true ∧ (token.head?.any fun c => blank < c) ∧
      token.getLast?.any fun c => blank < c)
    (by
      constructor
      · rintro ⟨hplain, hhead, hlast⟩
        refine ⟨by simpa using hplain, ?_, ?_⟩
        · simpa [Option.any_eq_true] using hhead
        · simpa [Option.any_eq_true] using hlast
      · rintro ⟨hplain, hhead, hlast⟩
        refine ⟨by simpa using hplain, ?_, ?_⟩
        · simpa [Option.any_eq_true] using hhead
        · simpa [Option.any_eq_true] using hlast)

instance : Fintype ModifierValue where
  elems := {.down, .up, .any}
  complete := by
    rintro (_ | _ | _) <;> decide

def KeyCombination.sections (c : KeyCombination) : List Modifier :=
  [⟨.shift, c.shift⟩, ⟨.control, c.control⟩, ⟨.alt, c.alt⟩, ⟨.metaKey, c.metaValue⟩,
    ⟨.shortcut, c.shortcut⟩]

def KeyCombination.modifiers (c : KeyCombination) : List Modifier :=
  c.sections.filter fun modifier => modifier.value ≠ .up

theorem possible_of_mem_modifiers {c : KeyCombination} {modifier : Modifier}
    (h : modifier ∈ c.modifiers) : modifier ∈ possibleModifiers := by
  rcases mem_filter.mp h with ⟨hmem, hup⟩
  have hall : ∀ key ∈ [KeyCode.shift, .control, .alt, .metaKey, .shortcut],
      ∀ value : ModifierValue, value ≠ .up → ⟨key, value⟩ ∈ possibleModifiers := by decide
  rcases modifier with ⟨key, value⟩
  apply hall key ?_ value (by simpa using hup)
  simp only [KeyCombination.sections, mem_cons, Modifier.mk.injEq] at hmem ⊢
  tauto

theorem new_modifiers (c : KeyCombination) : KeyCombination.new c.modifiers = .ok c := by
  have hall : ∀ shift control alt metaValue shortcut : ModifierValue,
      KeyCombination.new (KeyCombination.modifiers ⟨shift, control, alt, metaValue, shortcut⟩) =
        .ok ⟨shift, control, alt, metaValue, shortcut⟩ := by decide +kernel
  exact hall c.shift c.control c.alt c.metaValue c.shortcut

theorem isName_getName (key : KeyCode) : IsName key.getName := by
  have hall : ∀ key ∈ KeyCode.values, IsName key.bytes := by decide +kernel
  rw [KeyCode.getName_eq_bytes]
  exact hall key (KeyCode.mem_values key)

theorem isName_modifier : ∀ modifier ∈ possibleModifiers, IsName modifier.toString := by
  decide +kernel

def withPlus (sb : Text) : Text := if sb.length > 0 then sb ++ [plus] else sb

theorem withPlus_addModifierIntoString (sb : Text) (modifier : Modifier) :
    withPlus (KeyCombination.addModifierIntoString sb modifier.key modifier.value) =
      withPlus sb ++ if modifier.value = .up then [] else modifier.toString ++ [plus] := by
  rw [KeyCombination.addModifierIntoString]
  split
  · rw [append_nil]
  · have hname : 0 < modifier.key.getName.length := by
      rcases (isName_getName modifier.key).head with ⟨c, hc, -⟩
      exact length_pos_of_mem (mem_of_mem_head? hc)
    rw [withPlus, if_pos (by simp only [length_append]; omega)]
    simp [withPlus, Modifier.toString]

theorem withPlus_sections (modifiers : List Modifier) (sb : Text) :
    withPlus (modifiers.foldl
        (fun sb m => KeyCombination.addModifierIntoString sb m.key m.value) sb) =
      withPlus sb ++ Scanner.joined
        ((modifiers.filter fun modifier => modifier.value ≠ .up).map Modifier.toString) := by
  induction modifiers generalizing sb with
  | nil => simp [Scanner.joined]
  | cons modifier modifiers ih =>
    rw [foldl_cons, ih, withPlus_addModifierIntoString]
    by_cases hup : modifier.value = .up
    · simp [hup]
    · simp [hup, Scanner.joined]

theorem namePrefix_eq (c : KeyCombination) :
    c.namePrefix = Scanner.joined (c.modifiers.map Modifier.toString) :=
  withPlus_sections c.sections []

theorem head?_escape_ne (character : Text) : (escape character).head? ≠ some quote := by
  rcases character with _ | ⟨c, character⟩
  · simp [escape]
  · by_cases hc : c = quote
    · simp [escape, hc, show backslash ≠ quote by decide]
    · simp [escape, hc]

theorem unescape_escape (character : Text) : unescape (escape character) = character := by
  induction character with
  | nil => rfl
  | cons c character ih =>
    by_cases hc : c = quote
    · subst hc
      change unescape (backslash :: quote :: escape character) = _
      rw [unescape, if_pos ⟨rfl, rfl⟩, ih]
    · have hesc : escape (c :: character) = c :: escape character := by
        simp [escape, hc]
      rw [hesc]
      rcases hrest : escape character with _ | ⟨d, rest⟩
      · rw [hrest] at ih
        rw [← ih]
        rfl
      · have hd : ¬(c = backslash ∧ d = quote) := by
          rintro ⟨-, rfl⟩
          exact head?_escape_ne character (by rw [hrest]; rfl)
        rw [unescape, if_neg hd, ← hrest, ih]

def asciiCase : CaseMapping where
  toUpperCase text := text.map asciiUpper
  toLowerCase text := text.map asciiLower
  toUpperCase_ascii _ _ := rfl
  toLowerCase_ascii _ _ := rfl

def Ascii (token : Text) : Prop := ∀ word ∈ splitWords token, ∀ c ∈ word, c < 128

instance : DecidablePred Ascii := fun token =>
  decidable_of_iff (((splitWords token).all fun word => word.all fun c => c < 128) = true)
    (by simp [Ascii])

theorem appendWord_ascii (locale : CaseMapping) (sb : Text) {word : Text}
    (hword : ∀ c ∈ word, c < 128) : appendWord locale sb word = appendWord asciiCase sb word := by
  rcases word with _ | ⟨c, rest⟩
  · rfl
  · have hupper : locale.toUpperCase [c] = [c].map asciiUpper := by
      apply locale.toUpperCase_ascii
      intro d hd
      exact hword d (mem_cons.mpr (.inl (mem_singleton.mp hd)))
    have hlower : locale.toLowerCase rest = rest.map asciiLower := by
      apply locale.toLowerCase_ascii
      intro d hd
      exact hword d (mem_cons_of_mem c hd)
    rw [appendWord, hupper, hlower]
    rfl

theorem normalizeToken_ascii (locale : CaseMapping) {token : Text} (htok : Ascii token) :
    normalizeToken locale token = normalizeToken asciiCase token := by
  have hwords : ∀ (words : List Text) (sb : Text), (∀ word ∈ words, ∀ c ∈ word, c < 128) →
      words.foldlM (appendWord locale) sb = words.foldlM (appendWord asciiCase) sb := by
    intro words
    induction words with
    | nil => intro sb _; rfl
    | cons word words ih =>
      intro sb hascii
      rw [foldlM_cons, appendWord_ascii locale sb (hascii word (mem_cons_self ..))]
      congr 1
      funext sb'
      exact ih sb' fun w hw => hascii w (mem_cons_of_mem word hw)
  exact hwords (splitWords token) [] htok

/-- The tokens that normalization leaves as they are. -/
def Normal (token : Text) : Prop := Ascii token ∧ normalizeToken asciiCase token = .ok token

instance : DecidablePred Normal := fun token =>
  inferInstanceAs (Decidable (Ascii token ∧ normalizeToken asciiCase token = .ok token))

theorem Normal.normalizeToken {token : Text} (h : Normal token) (locale : CaseMapping) :
    normalizeToken locale token = .ok token :=
  (normalizeToken_ascii locale h.1).trans h.2

theorem normal_modifier : ∀ modifier ∈ possibleModifiers, Normal modifier.toString := by
  decide +kernel

theorem getModifier_toString :
    ∀ modifier ∈ possibleModifiers, getModifier modifier.toString = some modifier := by
  decide +kernel

theorem normal_getName {key : KeyCode} (hkey : key ≠ .inputMethodOnOff) : Normal key.getName := by
  have hall : ∀ key ∈ KeyCode.values, key ≠ .inputMethodOnOff → Normal key.bytes := by
    decide +kernel
  rw [KeyCode.getName_eq_bytes]
  exact hall key (KeyCode.mem_values key) hkey

theorem IsName.not_isQuoted {token : Text} (h : IsName token) : isQuoted token = false := by
  have hhead : token.head? ≠ some quote := by
    intro hhead
    exact (h.plain quote (mem_of_mem_head? hhead)).2 rfl
  simp [isQuoted, hhead]

section

variable (locale : CaseMapping) (value : Text)

theorem readToken_modifier {modifier : Modifier} (h : modifier ∈ possibleModifiers) (p : Parsed) :
    readToken locale value p modifier.toString =
      .ok { p with modifiers := p.modifiers ++ [modifier] } := by
  rw [readToken, (isName_modifier modifier h).not_isQuoted,
    (normal_modifier modifier h).normalizeToken locale]
  simp [bind, Except.bind, pure, Except.pure, getModifier_toString modifier h]

theorem readTokens_modifiers {modifiers : List Modifier}
    (h : ∀ modifier ∈ modifiers, modifier ∈ possibleModifiers) (p : Parsed) :
    (modifiers.map Modifier.toString).foldlM (readToken locale value) p =
      .ok { p with modifiers := p.modifiers ++ modifiers } := by
  induction modifiers generalizing p with
  | nil => simp [pure, Except.pure]
  | cons modifier modifiers ih =>
    rw [map_cons, foldlM_cons,
      readToken_modifier locale value (h modifier (mem_cons_self ..))]
    have hrest := ih (fun m hm => h m (mem_cons_of_mem modifier hm))
      { p with modifiers := p.modifiers ++ [modifier] }
    simpa [bind, Except.bind] using hrest

theorem readTokens_last (c : KeyCombination) (last : Text) :
    (c.modifiers.map Modifier.toString ++ [last]).foldlM (readToken locale value)
        ⟨[], none, none⟩ =
      readToken locale value ⟨c.modifiers, none, none⟩ last := by
  rw [foldlM_append, readTokens_modifiers locale value fun _ => possible_of_mem_modifiers]
  change ([last].foldlM (readToken locale value) ⟨c.modifiers, none, none⟩) = _
  exact bind_pure _

theorem readToken_last (modifiers : List Modifier) {last normalized : Text}
    (hquoted : isQuoted last = false) (hnormal : normalizeToken locale last = .ok normalized)
    (hmod : getModifier normalized = none) :
    readToken locale value ⟨modifiers, none, none⟩ last =
      .ok (match KeyCode.getKeyCode normalized with
        | some keyCode => ⟨modifiers, some keyCode, none⟩
        | none => ⟨modifiers, none, some last⟩) := by
  rw [readToken, hquoted, hnormal]
  simp only [bind, Except.bind, hmod]
  rcases KeyCode.getKeyCode normalized with _ | keyCode
  · rfl
  · rfl

theorem readToken_quoted {modifiers : List Modifier} {character : Text}
    (hchar : character ≠ []) :
    readToken locale value ⟨modifiers, none, none⟩ (quoted character) =
      .ok ⟨modifiers, none, some character⟩ := by
  have hesc : escape character ≠ [] := by
    intro hemp
    have hlast := escape_getLast? character
    rw [hemp, getLast?_nil, eq_comm, getLast?_eq_none_iff] at hlast
    exact hchar hlast
  have hlen : 0 < (escape character).length := length_pos_iff.mpr hesc
  have hquoted : isQuoted (quoted character) = true := by
    have hlong : (quoted character).length > 2 := by
      simp only [quoted, length_append, length_cons]
      omega
    have hlast : (quoted character).getLast? = some quote := getLast?_concat
    simp [isQuoted, hlong, hlast, show (quoted character).head? = some quote from rfl]
  have hinside : (quoted character).tail.dropLast = escape character := by
    change (escape character ++ [quote]).dropLast = _
    rw [dropLast_concat]
  rw [readToken, hquoted, hinside, unescape_escape]
  rfl

end

section

variable (locale : CaseMapping)

theorem isName_of_mem_modifiers (c : KeyCombination) :
    ∀ part ∈ c.modifiers.map Modifier.toString, IsName part := by
  intro part hpart
  rcases mem_map.mp hpart with ⟨modifier, hmod, rfl⟩
  exact isName_modifier modifier (possible_of_mem_modifiers hmod)

/-- The combination that `valueOf` makes of what it has read. -/
def build (value : Text) (p : Parsed) : Except Thrown Combination :=
  match p.keyCode, p.keyCharacter with
  | none, none => throw (cannotParse value)
  | some keyCode, _ => return .ofCode (← KeyCodeCombination.new keyCode p.modifiers)
  | none, some keyCharacter =>
    return .ofCharacter (← KeyCharacterCombination.new keyCharacter p.modifiers)

theorem valueOf_eq {value : Text} {c : KeyCombination} {last : Text} {p : Parsed}
    (hsplit : splitName value = .ok (c.modifiers.map Modifier.toString ++ [last]))
    (hlast : readToken locale value ⟨c.modifiers, none, none⟩ last = .ok p) :
    valueOf locale value = build value p := by
  have hread := readTokens_last locale value c last
  rw [hlast] at hread
  rw [valueOf, hsplit]
  change (List.foldlM (readToken locale value) ⟨[], none, none⟩ _ >>= build value) = _
  rw [hread]
  rfl

theorem build_character (value : Text) (c : KeyCombination) (character : Text) :
    build value ⟨c.modifiers, none, some character⟩ = .ok (.ofCharacter ⟨c, character⟩) := by
  simp only [build, KeyCharacterCombination.new, new_modifiers]
  rfl

theorem valueOf_fallback (normalized : Text) {value : Text} {c : KeyCombination} {last : Text}
    (hsplit : splitName value = .ok (c.modifiers.map Modifier.toString ++ [last]))
    (hquoted : isQuoted last = false) (hascii : Ascii last)
    (hnormal : normalizeToken asciiCase last = .ok normalized)
    (hmod : getModifier normalized = none) (hkey : KeyCode.getKeyCode normalized = none) :
    valueOf locale value = .ok (.ofCharacter ⟨c, last⟩) := by
  have hlast := readToken_last locale value c.modifiers hquoted
    ((normalizeToken_ascii locale hascii).trans hnormal) hmod
  rw [hkey] at hlast
  rw [valueOf_eq locale hsplit hlast]
  exact build_character value c last

theorem build_code (value : Text) (c : KeyCodeCombination) :
    build value ⟨c.modifiers, some c.code, none⟩ = .ok (.ofCode c) := by
  have hnew : KeyCodeCombination.new c.code c.modifiers = .ok c := by
    rw [KeyCodeCombination.new, new_modifiers]
    split
    · rfl
    · rename_i e herr
      rw [c.validated] at herr
      cases herr
  simp only [build, hnew]
  rfl

theorem getModifier_code (c : KeyCodeCombination) : getModifier c.code.getName = none := by
  by_contra hmod
  have hvalidated := c.validated
  rw [validateKeyCode, if_pos hmod] at hvalidated
  cases hvalidated

theorem KeyCodeCombination.splitName_getName (c : KeyCodeCombination) :
    splitName c.getName = .ok (c.modifiers.map Modifier.toString ++ [c.code.getName]) := by
  rw [KeyCodeCombination.getName, namePrefix_eq]
  exact splitName_name (isName_of_mem_modifiers _) (isName_getName _)

theorem valueOf_code (c : KeyCodeCombination) :
    valueOf locale c.getName =
      .ok (if c.code = .inputMethodOnOff then
          .ofCharacter ⟨c.toKeyCombination, c.code.getName⟩
        else .ofCode c) := by
  split
  · rename_i hcode
    have hsplit := c.splitName_getName
    rw [hcode] at hsplit ⊢
    exact valueOf_fallback locale (chars "Input Method On/off") hsplit
      (by decide +kernel) (by decide +kernel) (by decide +kernel) (by decide +kernel)
      (KeyCode.getKeyCode_eq_none (by decide +kernel))
  · rename_i hcode
    have hlast := readToken_last locale c.getName c.modifiers
      (isName_getName c.code).not_isQuoted ((normal_getName hcode).normalizeToken locale)
      (getModifier_code c)
    rw [KeyCode.getKeyCode_getName] at hlast
    rw [valueOf_eq locale c.splitName_getName hlast]
    exact build_code _ c

theorem KeyCharacterCombination.splitName_getName (c : KeyCharacterCombination) :
    splitName c.getName =
      if c.character.getLast? = some backslash then .error (cannotParse c.getName)
      else .ok (c.modifiers.map Modifier.toString ++ [quoted c.character]) := by
  have hname : c.getName =
      Scanner.joined (c.modifiers.map Modifier.toString) ++ quoted c.character := by
    rw [KeyCharacterCombination.getName, namePrefix_eq]
    simp [quoted]
  rw [hname]
  exact splitName_quoted (isName_of_mem_modifiers _) _

theorem valueOf_character (c : KeyCharacterCombination) :
    valueOf locale c.getName =
      if c.character.getLast? = some backslash then .error (cannotParse c.getName)
      else if c.character = [] then .ok (.ofCharacter ⟨c.toKeyCombination, [quote, quote]⟩)
      else .ok (.ofCharacter c) := by
  have hsplit := c.splitName_getName
  split
  · rename_i hlast
    rw [if_pos hlast] at hsplit
    rw [valueOf, hsplit]
    rfl
  · rename_i hlast
    rw [if_neg hlast] at hsplit
    split
    · rename_i hemp
      rw [hemp] at hsplit
      exact valueOf_fallback locale [quote, quote] hsplit
        (by decide +kernel) (by decide +kernel) (by decide +kernel) (by decide +kernel)
        (KeyCode.getKeyCode_eq_none (by decide +kernel))
    · rename_i hchar
      rw [valueOf_eq locale hsplit (readToken_quoted locale _ hchar)]
      exact build_character _ _ _

end

namespace Combination

/-- What `valueOf` can read: the key's name consists of words in lower case that start with a
capital letter, or the character is not empty and does not end with a backslash. -/
def Readable : Combination → Prop
  | .ofCode c => c.code ≠ .inputMethodOnOff
  | .ofCharacter c => c.character ≠ [] ∧ c.character.getLast? ≠ some backslash

/-- A combination is restored from its name exactly when it is readable. -/
theorem restored_iff_readable (locale : CaseMapping) (c : Combination) :
    (∃ restored, valueOf locale c.getName = .ok restored ∧ restored.equals c = true) ↔
      c.Readable := by
  rcases c with c | c
  · rw [getName, valueOf_code, Readable]
    split
    · rename_i hcode
      simp [hcode, equals]
    · rename_i hcode
      simp [hcode, equals]
  · rw [getName, valueOf_character, Readable]
    split
    · rename_i hlast
      simp [hlast]
    · rename_i hlast
      split
      · rename_i hempty
        simp [hempty, equals]
      · rename_i hcharacter
        simp [hlast, hcharacter, equals]

/-- A backslash in quotes cannot be read. -/
theorem backslash_lost : ¬∀ (locale : CaseMapping) (c : Combination),
    ∃ restored, valueOf locale c.getName = .ok restored ∧ restored.equals c = true := by
  intro h
  rcases h asciiCase (.ofCharacter ⟨⟨.up, .up, .up, .up, .up⟩, [backslash]⟩) with
    ⟨restored, hvalue, -⟩
  have hthrown : valueOf asciiCase [quote, backslash, quote] =
      .error (cannotParse [quote, backslash, quote]) := by decide +kernel
  cases hthrown.symm.trans hvalue

end Combination

end OpenJfx.Input
