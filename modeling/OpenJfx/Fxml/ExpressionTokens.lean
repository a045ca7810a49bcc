import OpenJfx.Fxml.ExpressionParser

namespace OpenJfx.Fxml

open Data.Postfix List

variable {δ : Type} (platform : Platform δ)

def IsName (key : List Nat) : Prop :=
  (∃ c rest, key = c :: rest ∧ platform.isJavaIdentifierStart c = true) ∧
    ∀ c ∈ key, platform.isJavaIdentifierPart c = true

inductive Bracketed : List Nat → List Nat → Prop
  | index {key : List Nat} : key ≠ [] → (∀ c ∈ key, platform.isDigit c = true) →
      Bracketed key (unit '[' :: (key ++ [unit ']']))
  | quoted {key : List Nat} (quote : Nat) : quote = unit '"' ∨ quote = unit '\'' → key ≠ [] →
      (∀ c ∈ key, isISOControl c = false ∧ c ≠ quote ∧ c ≠ unit ']') →
      Bracketed key (unit '[' :: quote :: (key ++ [quote, unit ']']))

def SpellsKey (key spelling : List Nat) : Prop :=
  IsName platform key ∧ spelling = key ∨ Bracketed platform key spelling

inductive SpellsKeys : KeyPath → List Nat → Prop
  | nil : SpellsKeys [] []
  | name {key : List Nat} {keys : KeyPath} {text : List Nat} : IsName platform key →
      SpellsKeys keys text → SpellsKeys (key :: keys) (unit '.' :: (key ++ text))
  | bracketed {key spelling : List Nat} {keys : KeyPath} {text : List Nat} :
      Bracketed platform key spelling → SpellsKeys keys text →
      SpellsKeys (key :: keys) (spelling ++ text)

/-- The spelling of the characters of a string with the delimiter `t`. -/
inductive SpellsChars (t : Nat) : List Nat → List Nat → Prop
  | nil : SpellsChars t [] []
  | plain {c : Nat} {value text : List Nat} : c ≠ t → isISOControl c = false → c ≠ unit '\\' →
      SpellsChars t value text → SpellsChars t (c :: value) (c :: text)
  | escape {e c : Nat} {value text : List Nat} : escapes.lookup e = some c →
      SpellsChars t value text → SpellsChars t (c :: value) (unit '\\' :: e :: text)
  | unicode {digits : List Nat} {c : Nat} {value text : List Nat} : digits.length = 4 →
      parseHex platform digits = some (c : Int) → c < 2 ^ 16 → SpellsChars t value text →
      SpellsChars t (c :: value) (unit '\\' :: unit 'u' :: (digits ++ text))

def BinaryOperator.spelling : BinaryOperator → List Nat
  | .multiply => [unit '*']
  | .divide => [unit '/']
  | .modulo => [unit '%']
  | .add => [unit '+']
  | .subtract => [unit '-']
  | .greaterThan => [unit '>']
  | .greaterThanOrEqualTo => [unit '>', unit '=']
  | .lessThan => [unit '<']
  | .lessThanOrEqualTo => [unit '<', unit '=']
  | .equalTo => [unit '=', unit '=']
  | .notEqualTo => [unit '!', unit '=']
  | .and => [unit '&', unit '&']
  | .or => [unit '|', unit '|']

def UnaryOperator.spelling : UnaryOperator → List Nat
  | .negate => [unit '-']
  | .not => [unit '!']

inductive SpellsLiteral : Literal δ → List Nat → Prop
  | null : SpellsLiteral .null nullKeyword
  | isTrue : SpellsLiteral (.boolean true) trueKeyword
  | isFalse : SpellsLiteral (.boolean false) falseKeyword
  | long {value : Nat} {text : List Nat} : text ≠ [] →
      (∀ c ∈ text, platform.isDigit c = true) → parseLong platform text = some value →
      SpellsLiteral (.long value) text
  | double {value : δ} {c : Nat} {text : List Nat} : platform.isDigit c = true →
      (∀ c ∈ text, isNumberPart platform c = true) → unit '.' ∈ text →
      platform.parseDouble (c :: text) = some value → SpellsLiteral (.double value) (c :: text)
  | string {value text : List Nat} (t : Nat) : t = unit '"' ∨ t = unit '\'' →
      SpellsChars platform t value text → SpellsLiteral (.string value) (t :: (text ++ [t]))

inductive SpellsToken : Token δ → List Nat → Prop
  | literal {value : Literal δ} {text : List Nat} : SpellsLiteral platform value text →
      SpellsToken (.part (.atom (.literal value))) text
  | variable {key : List Nat} {keys : KeyPath} {text : List Nat} : IsName platform key →
      SpellsKeys platform keys text →
      SpellsToken (.part (.atom (.variable (key :: keys)))) (key ++ text)
  | unary (op : UnaryOperator) : SpellsToken (.part (.unary op)) op.spelling
  | binary (op : BinaryOperator) : SpellsToken (.part (.binary op)) op.spelling
  | beginGroup : SpellsToken .beginGroup [unit '(']
  | endGroup : SpellsToken .endGroup [unit ')']

/-- The text cannot continue a name, a key path or a number. -/
def EndsWord (rest : List Nat) : Prop :=
  ∀ c ∈ rest.head?, platform.isJavaIdentifierPart c = false ∧ c ≠ unit '.' ∧ c ≠ unit '['

section

variable {buffer rest : List Nat}

theorem readKeyword_eq (keyword : List Nat) :
    ∀ (i : Nat) (buffer : List Nat), ∃ buffer', buffer'.length = buffer.length ∧
      readKeyword keyword i buffer (keyword ++ rest) = (true, buffer', rest) := by
  induction keyword with
  | nil => exact fun i buffer => ⟨buffer, rfl, rfl⟩
  | cons k keyword ih =>
    intro i buffer
    rcases ih (i + 1) (buffer.set i k) with ⟨buffer', hlen, hread⟩
    refine ⟨buffer', hlen.trans length_set, ?_⟩
    simp only [cons_append, readKeyword, ne_eq]
    exact hread

theorem take_set_succ {i c : Nat} (hi : i < buffer.length) :
    (buffer.set i c).take (i + 1) = buffer.take i ++ [c] := by
  have hlen : (buffer.take i).length ≤ i := by
    rw [length_take]
    omega
  rw [take_add_one, getElem?_set_self hi, take_set,
    set_eq_of_length_le hlen]
  rfl

theorem readKeyword_differs (keyword : List Nat) :
    ∀ (i : Nat) (buffer text : List Nat), i + keyword.length ≤ buffer.length →
      ¬ keyword <+: text → ¬ text <+: keyword →
      ∃ buffer', buffer'.length = buffer.length ∧
        readKeyword keyword i buffer text = (false, buffer', buffer.take i ++ text) := by
  induction keyword with
  | nil => exact fun i buffer text _ hnot => absurd nil_prefix hnot
  | cons k keyword ih =>
    intro i buffer text hlen hnot hnot'
    cases text with
    | nil => exact absurd nil_prefix hnot'
    | cons c text =>
      rw [length_cons] at hlen
      have hset := take_set_succ (c := c) (show i < buffer.length by omega)
      simp only [readKeyword]
      split_ifs with hne
      · refine ⟨buffer.set i c, length_set, ?_⟩
        rw [hset, append_assoc, singleton_append]
      · have heq : k = c := not_not.mp hne
        subst heq
        rw [cons_prefix_cons] at hnot hnot'
        rcases ih (i + 1) (buffer.set i k) text (by rw [length_set]; omega)
          (fun h => hnot ⟨rfl, h⟩) (fun h => hnot' ⟨rfl, h⟩) with ⟨buffer', hlen', hread⟩
        refine ⟨buffer', hlen'.trans length_set, ?_⟩
        rw [hread, hset, append_assoc, singleton_append]

end

section

variable {platform} {rest : List Nat}

variable {text : List Nat}

theorem takeWhile_append_rest {p : Nat → Bool} (hall : ∀ c ∈ text, p c = true)
    (hrest : ∀ c ∈ rest.head?, p c = false) :
    (text ++ rest).takeWhile p = text ∧ (text ++ rest).dropWhile p = rest := by
  have hstop : rest.takeWhile p = [] ∧ rest.dropWhile p = rest := by
    cases rest with
    | nil => exact ⟨rfl, rfl⟩
    | cons c rest => simp [hrest c rfl]
  rw [takeWhile_append_of_pos hall, dropWhile_append_of_pos hall, hstop.1, hstop.2,
    append_nil]
  exact ⟨rfl, rfl⟩

theorem symbol_not_part {c : Nat} (hc : c ∈ symbols) :
    platform.isJavaIdentifierPart c = false :=
  (platform.symbol_class c hc).2

theorem part_ne_symbol {c d : Nat} (hc : platform.isJavaIdentifierPart c = true)
    (hd : d ∈ symbols) : c ≠ d := by
  rintro rfl
  rw [symbol_not_part hd] at hc
  exact nomatch hc

variable {key : List Nat}

theorem readKey_name (hname : IsName platform key)
    (hrest : ∀ c ∈ rest.head?, isKeyPart platform c = false) :
    readKey platform (key ++ rest) = .ok (key, rest) := by
  rcases hname with ⟨⟨c, key, rfl, hstart⟩, hpart⟩
  have hkey : ∀ c' ∈ c :: key, isKeyPart platform c' = true := by
    intro c' hc'
    have hpart' := hpart c' hc'
    exact decide_eq_true ⟨part_ne_symbol hpart' (by decide), part_ne_symbol hpart' (by decide),
      hpart'⟩
  have hc : c ≠ 91 := part_ne_symbol (hpart c mem_cons_self) (by decide)
  rcases takeWhile_append_rest hkey hrest with ⟨htake, hdrop⟩
  rw [readKey]
  · rw [htake, hdrop]
  · intro text heq
    exact hc (List.cons.inj heq).1

theorem readBracketed_index (key : List Nat) : ∀ (turns quote : Nat) (done : List Nat),
    key ≠ [] → (∀ c ∈ key, platform.isDigit c = true) → key.length ≤ turns →
    readBracketed platform turns false quote done (key ++ unit ']' :: rest) =
      .ok (done ++ key, rest) := by
  induction key with
  | nil => exact fun _ _ _ hne => absurd rfl hne
  | cons c key ih =>
    intro turns quote done _ hdigit hturns
    rcases turns with _ | turns
    · exact absurd hturns (Nat.not_succ_le_zero _)
    · have hc := hdigit c mem_cons_self
      have hctl := platform.digit_not_control c hc
      cases key with
      | nil => simp [readBracketed, hc, hctl, closeQuote]
      | cons d key =>
        have hd := hdigit d (mem_cons_of_mem _ mem_cons_self)
        have hne : d ≠ unit ']' := part_ne_symbol (platform.digit_part d hd) (by decide)
        have hread := ih turns quote (done ++ [c]) (cons_ne_nil _ _)
          (fun c hc => hdigit c (mem_cons_of_mem _ hc)) (Nat.le_of_succ_le_succ hturns)
        rw [append_assoc] at hread
        simp [readBracketed, hc, hctl, closeQuote, hne]
        exact hread

theorem readBracketed_quoted (key : List Nat) : ∀ (turns quote : Nat) (done : List Nat),
    key ≠ [] → (∀ c ∈ key, isISOControl c = false ∧ c ≠ quote ∧ c ≠ unit ']') →
    key.length ≤ turns →
    readBracketed platform turns true quote done (key ++ quote :: unit ']' :: rest) =
      .ok (done ++ key, rest) := by
  induction key with
  | nil => exact fun _ _ _ hne => absurd rfl hne
  | cons c key ih =>
    intro turns quote done _ hkey hturns
    rcases turns with _ | turns
    · exact absurd hturns (Nat.not_succ_le_zero _)
    · have hc := hkey c mem_cons_self
      cases key with
      | nil => simp [readBracketed, hc, closeQuote]
      | cons d key =>
        have hd := hkey d (mem_cons_of_mem _ mem_cons_self)
        have hread := ih turns quote (done ++ [c]) (cons_ne_nil _ _)
          (fun c hc => hkey c (mem_cons_of_mem _ hc)) (Nat.le_of_succ_le_succ hturns)
        rw [append_assoc] at hread
        simp [readBracketed, hc, closeQuote, hd]
        exact hread

variable {spelling : List Nat}

theorem readKey_bracketed (h : Bracketed platform key spelling) :
    readKey platform (spelling ++ rest) = .ok (key, rest) := by
  cases h with
  | index hne hdigit =>
    rcases exists_cons_of_ne_nil hne with ⟨c, key, rfl⟩
    have hc : platform.isJavaIdentifierPart c = true :=
      platform.digit_part c (hdigit c mem_cons_self)
    have hquote : ¬ (c = unit '"' ∨ c = unit '\'') := by
      rintro (h | h)
      · exact part_ne_symbol hc (by decide) h
      · exact part_ne_symbol hc (by decide) h
    have hlen : (c :: key).length ≤ (c :: key ++ unit ']' :: rest).length + 1 := by
      rw [length_append]
      omega
    have hread : readBracketed platform _ false 0 [] (c :: key ++ unit ']' :: rest) = _ :=
      readBracketed_index (c :: key) _ 0 [] hne hdigit hlen
    change readKey platform (91 :: c :: (key ++ [unit ']'] ++ rest)) = _
    rw [append_assoc]
    simp only [readKey, if_neg hquote]
    exact hread
  | quoted quote hquote hne hkey =>
    have hlen : key.length ≤ (key ++ quote :: unit ']' :: rest).length + 1 := by
      rw [length_append]
      omega
    have hread : readBracketed platform _ true quote [] (key ++ quote :: unit ']' :: rest) = _ :=
      readBracketed_quoted key _ quote [] hne hkey hlen
    change readKey platform (91 :: quote :: (key ++ [quote, unit ']'] ++ rest)) = _
    rw [append_assoc]
    simp only [readKey, if_pos hquote]
    exact hread

theorem EndsWord.not_keyPart (h : EndsWord platform rest) :
    ∀ c ∈ rest.head?, isKeyPart platform c = false := by
  intro c hc
  simp [isKeyPart, (h c hc).1]

theorem EndsWord.skipDot (h : EndsWord platform rest) : skipDot rest = .ok rest := by
  cases rest with
  | nil => rfl
  | cons c rest => simp only [Fxml.skipDot, if_neg (h c rfl).2.1]

theorem EndsWord.readKeys (h : EndsWord platform rest) (turns : Nat) :
    readKeys platform turns rest = .ok ([], rest) := by
  cases turns with
  | zero => rfl
  | succ turns =>
    cases rest with
    | nil => rfl
    | cons c rest =>
      have hstart : ¬ (platform.isJavaIdentifierStart c = true ∨ c = unit '[') := by
        rintro (hstart | hbracket)
        · have hpart := platform.start_part c hstart
          rw [(h c rfl).1] at hpart
          exact nomatch hpart
        · exact (h c rfl).2.2 hbracket
      exact if_neg hstart

variable {keys : KeyPath}

theorem SpellsKeys.not_keyPart (h : SpellsKeys platform keys text)
    (hrest : EndsWord platform rest) :
    ∀ c ∈ (text ++ rest).head?, isKeyPart platform c = false := by
  cases h with
  | nil => exact hrest.not_keyPart
  | name hname hkeys =>
    intro c hc
    obtain rfl : unit '.' = c := Option.some.inj hc
    simp [isKeyPart]
  | bracketed hkey hkeys =>
    intro c hc
    have hhead : unit '[' = c := by
      cases hkey with
      | index hne hdigit | quoted quote hquote hne hkey => exact Option.some.inj hc
    subst hhead
    simp [isKeyPart]

theorem readKey_append (h : SpellsKey platform key spelling)
    (hrest : ∀ c ∈ rest.head?, isKeyPart platform c = false) :
    readKey platform (spelling ++ rest) = .ok (key, rest) := by
  rcases h with ⟨hname, rfl⟩ | hkey
  · exact readKey_name hname hrest
  · exact readKey_bracketed hkey

theorem SpellsKey.ne_nil (h : SpellsKey platform key spelling) :
    key ≠ [] := by
  rcases h with ⟨⟨⟨c, key, rfl, -⟩, -⟩, -⟩ | hkey
  · exact cons_ne_nil _ _
  · cases hkey with
    | index hne hdigit => exact hne
    | quoted quote hquote hne hkey => exact hne

theorem SpellsKey.eq_cons {key spelling : List Nat} (h : SpellsKey platform key spelling) :
    ∃ c rest, spelling = c :: rest ∧
      (platform.isJavaIdentifierStart c = true ∨ c = unit '[') := by
  rcases h with ⟨⟨⟨c, key, rfl, hstart⟩, -⟩, rfl⟩ | hkey
  · exact ⟨c, key, rfl, .inl hstart⟩
  · cases hkey with
    | index hne hdigit | quoted quote hquote hne hkey => exact ⟨_, _, rfl, .inr rfl⟩

theorem readKeys_succ {next : List Nat} {turns : Nat} (h : SpellsKey platform key spelling)
    (htext : ∀ c ∈ text.head?, isKeyPart platform c = false) (hnext : skipDot text = .ok next)
    (hkeys : readKeys platform turns next = .ok (keys, rest)) :
    readKeys platform (turns + 1) (spelling ++ text) = .ok (key :: keys, rest) := by
  have hkey := readKey_append h htext
  rcases h.eq_cons with ⟨c, tail, rfl, hstart⟩
  rw [cons_append] at hkey ⊢
  refine (if_pos hstart).trans ?_
  rw [hkey]
  change (skipDot text).bind _ = _
  rw [hnext]
  refine (if_neg h.ne_nil).trans ?_
  rw [hkeys]
  rfl

theorem readKeys_append (hkeys : SpellsKeys platform keys text) (hrest : EndsWord platform rest) :
    ∀ {key spelling : List Nat} {turns : Nat},
      SpellsKey platform key spelling → keys.length < turns →
      readKeys platform turns (spelling ++ (text ++ rest)) = .ok (key :: keys, rest) := by
  induction hkeys with
  | nil =>
    intro key spelling turns hkey hturns
    obtain ⟨turns, rfl⟩ := Nat.exists_eq_succ_of_ne_zero (Nat.ne_zero_of_lt hturns)
    exact readKeys_succ hkey hrest.not_keyPart hrest.skipDot (hrest.readKeys turns)
  | @name key' keys text hname hkeys ih =>
    intro key spelling turns hkey hturns
    obtain ⟨turns, rfl⟩ := Nat.exists_eq_succ_of_ne_zero (Nat.ne_zero_of_lt hturns)
    have hnext : skipDot (unit '.' :: (key' ++ text) ++ rest) =
        .ok (key' ++ (text ++ rest)) := by
      rcases hname with ⟨⟨c, key', rfl, -⟩, -⟩
      simp [skipDot]
    exact readKeys_succ hkey ((SpellsKeys.name hname hkeys).not_keyPart hrest) hnext
      (ih (.inl ⟨hname, rfl⟩) (Nat.lt_of_succ_lt_succ hturns))
  | @bracketed key' spelling' keys text hkey' hkeys ih =>
    intro key spelling turns hkey hturns
    obtain ⟨turns, rfl⟩ := Nat.exists_eq_succ_of_ne_zero (Nat.ne_zero_of_lt hturns)
    have hnext : skipDot (spelling' ++ text ++ rest) = .ok (spelling' ++ (text ++ rest)) := by
      have hbracket : unit '[' ≠ unit '.' := by decide
      rw [append_assoc]
      cases hkey' with
      | index hne hdigit
      | quoted quote hquote hne hkey => simp only [cons_append, skipDot, if_neg hbracket]
    exact readKeys_succ hkey ((SpellsKeys.bracketed hkey' hkeys).not_keyPart hrest) hnext
      (ih (.inr hkey') (Nat.lt_of_succ_lt_succ hturns))

theorem SpellsKeys.length_le (h : SpellsKeys platform keys text) : keys.length ≤ text.length := by
  induction h with
  | nil => exact Nat.le_refl _
  | name hname hkeys ih =>
    simp only [length_cons, length_append]
    omega
  | bracketed hkey hkeys ih =>
    rcases SpellsKey.eq_cons (.inr hkey) with ⟨c, tail, rfl, -⟩
    simp only [length_cons, length_append]
    omega

theorem readKeyPath_append (hkey : SpellsKey platform key spelling)
    (hkeys : SpellsKeys platform keys text) (hrest : EndsWord platform rest) :
    readKeyPath platform (spelling ++ text ++ rest) = .ok (key :: keys, rest) := by
  have hlen : keys.length < (spelling ++ (text ++ rest)).length := by
    have hle := hkeys.length_le
    rcases hkey.eq_cons with ⟨c, tail, rfl, -⟩
    simp only [length_append, length_cons]
    omega
  rw [readKeyPath, append_assoc, readKeys_append hkeys hrest hkey hlen]
  rfl

theorem EndsWord.not_numberPart (h : EndsWord platform rest) :
    ∀ c ∈ rest.head?, isNumberPart platform c = false := by
  intro c hc
  have hpart := (h c hc).1
  have hletter : ∀ d : Char, d.isAlpha = true → c ≠ unit d := by
    rintro d hd rfl
    rw [platform.start_part _ (platform.letter_start d hd)] at hpart
    exact nomatch hpart
  refine decide_eq_false ?_
  rintro (hdigit | hdot | he | he)
  · rw [platform.digit_part c hdigit] at hpart
    exact nomatch hpart
  · exact (h c hc).2.1 hdot
  · exact hletter 'e' (by decide) he
  · exact hletter 'E' (by decide) he

theorem readNumber_append {value : Literal δ} (hall : ∀ c ∈ text, isNumberPart platform c = true)
    (hrest : EndsWord platform rest)
    (hval : (unit '.' ∈ text ∧ ∃ d, platform.parseDouble text = some d ∧ value = .double d) ∨
      (unit '.' ∉ text ∧ ∃ n, parseLong platform text = some n ∧ value = .long n)) :
    readNumber platform (text ++ rest) = .ok (value, rest) := by
  rcases takeWhile_append_rest hall hrest.not_numberPart with ⟨htake, hdrop⟩
  rw [readNumber, htake, hdrop]
  rcases hval with ⟨hdot, d, hd, rfl⟩ | ⟨hdot, n, hn, rfl⟩
  · simp only [if_pos hdot, hd]
  · simp only [if_neg hdot, hn]

theorem escape_ne_u {e c : Nat} (h : escapes.lookup e = some c) : e ≠ unit 'u' := by
  rintro rfl
  exact nomatch (show escapes.lookup (unit 'u') = none by decide).symm.trans h

theorem readString_append {t : Nat} {value : List Nat} (ht : t ≠ unit '\\')
    (h : SpellsChars platform t value text) : ∀ {turns : Nat} {done : List Nat},
      text.length < turns → readString platform t turns done (text ++ t :: rest) =
        .ok (done ++ value, rest) := by
  induction h with
  | nil =>
    intro turns done hturns
    obtain ⟨turns, rfl⟩ := Nat.exists_eq_succ_of_ne_zero (Nat.ne_zero_of_lt hturns)
    simp [readString]
  | @plain c value text hne hctl hslash hchars ih =>
    intro turns done hturns
    obtain ⟨turns, rfl⟩ := Nat.exists_eq_succ_of_ne_zero (Nat.ne_zero_of_lt hturns)
    rw [cons_append, readString, if_neg hne, hctl, if_neg (by decide), if_neg hslash,
      ih (Nat.lt_of_succ_lt_succ hturns), append_assoc, singleton_append]
  | @escape e c value text hesc hchars ih =>
    intro turns done hturns
    obtain ⟨turns, rfl⟩ := Nat.exists_eq_succ_of_ne_zero (Nat.ne_zero_of_lt hturns)
    have hread : readEscape platform (e :: (text ++ t :: rest)) = .ok (c, text ++ t :: rest) := by
      simp only [readEscape, if_neg (escape_ne_u hesc), hesc]
    have hlen : text.length < turns := by
      simp only [length_cons] at hturns
      omega
    rw [cons_append, cons_append, readString, if_neg ht.symm, hread]
    change readString platform t turns (done ++ [c]) _ = _
    rw [ih hlen, append_assoc, singleton_append]
  | @unicode digits c value text hdigits hhex hc hchars ih =>
    intro turns done hturns
    obtain ⟨turns, rfl⟩ := Nat.exists_eq_succ_of_ne_zero (Nat.ne_zero_of_lt hturns)
    have hread : readEscape platform (unit 'u' :: (digits ++ (text ++ t :: rest))) =
        .ok (c, text ++ t :: rest) := by
      have htake :
        (digits ++ (text ++ t :: rest) ++ List.replicate 4 0xffff).take 4 = digits := by
        rw [append_assoc, ← hdigits, take_left]
      have hdrop : (digits ++ (text ++ t :: rest)).drop 4 = text ++ t :: rest := by
        rw [← hdigits, drop_left]
      have hmod : ((c : Int) % 2 ^ 16).toNat = c := by omega
      simp only [readEscape, if_pos, htake, hhex, hdrop, hmod]
    have hlen : text.length < turns := by
      simp only [length_cons, length_append] at hturns
      omega
    rw [cons_append, cons_append, append_assoc, readString, if_neg ht.symm, if_pos rfl, hread]
    change readString platform t turns (done ++ [c]) _ = _
    rw [ih hlen, append_assoc, singleton_append]

end

variable {δ : Type} (platform : Platform δ)

/-- The key path is neither read as a keyword nor at the end of the text as a part of one. -/
def NotKeyword (spelling rest : List Nat) : Prop :=
  ∀ keyword ∈ [nullKeyword, trueKeyword, falseKeyword],
    ¬ keyword <+: spelling ∧ (rest = [] → ¬ spelling <+: keyword)

def MayFollow : Token δ → List Nat → List Nat → Prop
  | .part (.atom (.literal _)), _, rest => EndsWord platform rest
  | .part (.atom (.variable _)), spelling, rest => EndsWord platform rest ∧ NotKeyword spelling rest
  | .part (.binary _), _, rest => rest.head? ≠ some (unit '=')
  | _, _, _ => True

/-- The value of `unary` where a token stands in an expression. -/
def Fits (isUnary : Bool) : Token δ → Prop
  | .part (.atom _) | .part (.unary _) | .beginGroup => isUnary = true
  | .part (.binary _) | .endGroup => isUnary = false

def Reads (isUnary : Bool) (buffer : List Nat) (token : Token δ) (spelling rest : List Nat) :
    Prop :=
  ∃ c tail buffer', spelling = c :: tail ∧ platform.isWhitespace c = false ∧
    buffer'.length = buffer.length ∧
    readToken platform isUnary buffer c (tail ++ rest) = .ok (token, buffer', rest)

section

variable {platform} {rest : List Nat}

theorem keyword_start : ∀ keyword ∈ [nullKeyword, trueKeyword, falseKeyword], ∀ k ∈ keyword,
    platform.isJavaIdentifierStart k = true := by
  have hletters : ∀ keyword ∈ [nullKeyword, trueKeyword, falseKeyword], ∀ k ∈ keyword,
      ∃ d : Char, d.isAlpha = true ∧ d.toNat = k := by
    intro keyword hkeyword k hk
    simp only [mem_cons, not_mem_nil, or_false] at hkeyword
    rcases hkeyword with rfl | rfl | rfl
    all_goals
      rcases mem_map.mp hk with ⟨d, hd, rfl⟩
      exact ⟨d, all_eq_true.mp (by decide) d hd, rfl⟩
  intro keyword hkeyword k hk
  rcases hletters keyword hkeyword k hk with ⟨d, hd, rfl⟩
  exact platform.letter_start d hd

theorem NotKeyword.differs {spelling keyword : List Nat} (h : NotKeyword spelling rest)
    (hrest : EndsWord platform rest)
    (hkeyword : keyword ∈ [nullKeyword, trueKeyword, falseKeyword]) :
    ¬ keyword <+: spelling ++ rest ∧ ¬ spelling ++ rest <+: keyword := by
  rcases h keyword hkeyword with ⟨hnot, hend⟩
  have hpart : ∀ k ∈ keyword, platform.isJavaIdentifierPart k = true :=
    fun k hk => platform.start_part k (keyword_start keyword hkeyword k hk)
  have hhead : ∀ {c : Nat} {tail : List Nat}, rest = c :: tail → c ∉ keyword := by
    rintro c tail rfl hc
    have := hpart c hc
    rw [(hrest c rfl).1] at this
    exact nomatch this
  constructor
  · intro hle
    rcases Nat.le_total keyword.length spelling.length with hlen | hlen
    · exact hnot (prefix_of_prefix_length_le hle (prefix_append _ _) hlen)
    · rcases prefix_of_prefix_length_le (prefix_append _ _) hle hlen with ⟨late, rfl⟩
      rw [prefix_append_right_inj] at hle
      rcases late with _ | ⟨k, late⟩
      · rw [append_nil] at hnot
        exact hnot (prefix_refl _)
      · rcases hle with ⟨tail, rfl⟩
        exact hhead rfl (mem_append_right _ mem_cons_self)
  · intro hle
    rcases rest with _ | ⟨c, tail⟩
    · exact hend rfl (by rwa [append_nil] at hle)
    · exact hhead rfl (hle.subset (mem_append_right _ mem_cons_self))

theorem letter_not_digit {d : Char} (hd : d.isAlpha = true) :
    platform.isDigit d.toNat = false := by
  rw [← Bool.not_eq_true]
  intro hdigit
  have hstart := platform.letter_start d hd
  rw [platform.digit_not_start _ hdigit] at hstart
  exact nomatch hstart

theorem digit_ne_letter {c : Nat} {d : Char} (hc : platform.isDigit c = true)
    (hd : d.isAlpha = true) : c ≠ unit d := by
  rintro rfl
  rw [letter_not_digit hd] at hc
  exact nomatch hc

theorem part_not_quote {c : Nat} (hc : platform.isJavaIdentifierPart c = true) :
    ¬ (c = unit '"' ∨ c = unit '\'') := by
  rintro (h | h)
  · exact part_ne_symbol hc (by decide) h
  · exact part_ne_symbol hc (by decide) h

theorem letter_not_whitespace {d : Char} (hd : d.isAlpha = true) :
    platform.isWhitespace d.toNat = false :=
  platform.part_not_whitespace _ (platform.start_part _ (platform.letter_start d hd))

section

variable {isUnary : Bool} {buffer : List Nat} {c : Nat} {text : List Nat}

theorem readToken_digit {value : Literal δ} (hc : platform.isDigit c = true)
    (hread : readNumber platform (c :: text) = .ok (value, rest)) :
    readToken platform isUnary buffer c text =
      .ok (.part (.atom (.literal value)), buffer, rest) := by
  rw [readToken, if_neg (digit_ne_letter hc (by decide)),
    if_neg (part_not_quote (platform.digit_part c hc)), if_pos hc, hread]
  rfl

theorem readToken_quote {value : List Nat} (hc : c = unit '"' ∨ c = unit '\'')
    (hread : readString platform c (text.length + 1) [] text = .ok (value, rest)) :
    readToken platform isUnary buffer c text =
      .ok (.part (.atom (.literal (.string value))), buffer, rest) := by
  have hn : c ≠ unit 'n' := by
    rcases hc with rfl | rfl <;> decide
  rw [readToken, if_neg hn, if_pos hc, hread]
  rfl

theorem readToken_symbol (hc : c ∈ symbols) (hquote : ¬ (c = unit '"' ∨ c = unit '\'')) :
    readToken platform isUnary buffer c text =
      if isUnary then (readUnary c).map fun token => (token, buffer, text)
      else (readBinary c text).map fun (token, text) => (token, buffer, text) := by
  have hpart : platform.isJavaIdentifierPart c = false := symbol_not_part hc
  have hletter : ∀ {d : Char}, d.isAlpha = true → c ≠ unit d := by
    rintro d hd rfl
    rw [platform.start_part _ (platform.letter_start d hd)] at hpart
    exact nomatch hpart
  have hdigit : ¬ platform.isDigit c = true := by
    intro hdigit
    rw [platform.digit_part c hdigit] at hpart
    exact nomatch hpart
  have hstart : ¬ platform.isJavaIdentifierStart c = true := by
    intro hstart
    rw [platform.start_part c hstart] at hpart
    exact nomatch hpart
  rw [readToken, if_neg (hletter (by decide)), if_neg hquote, if_neg hdigit,
    if_neg (hletter (by decide)), if_neg (hletter (by decide)), if_neg hstart]
  rfl

end

variable {isUnary : Bool} {buffer : List Nat}

theorem readWord_keyword (keyword buffer rest : List Nat) (value : Literal δ) :
    ∃ buffer', buffer'.length = buffer.length ∧
      readWord platform keyword value buffer (keyword ++ rest) =
        .ok (.part (.atom (.literal value)), buffer', rest) := by
  rcases readKeyword_eq keyword 0 buffer with ⟨buffer', hlen, hread⟩
  refine ⟨buffer', hlen, ?_⟩
  rw [readWord, hread]

variable {text : List Nat}

theorem readWord_variable {keyword key : List Nat} {keys : KeyPath} (value : Literal δ)
    (hname : IsName platform key) (hkeys : SpellsKeys platform keys text)
    (hrest : EndsWord platform rest) (hnot : NotKeyword (key ++ text) rest)
    (hkeyword : keyword ∈ [nullKeyword, trueKeyword, falseKeyword])
    (hbuf : keyword.length ≤ buffer.length) :
    ∃ buffer', buffer'.length = buffer.length ∧
      readWord platform keyword value buffer (key ++ text ++ rest) =
        .ok (.part (.atom (.variable (key :: keys))), buffer', rest) := by
  rcases hnot.differs hrest hkeyword with ⟨hdiffers, hdiffers'⟩
  rcases readKeyword_differs keyword 0 buffer (key ++ text ++ rest) (by omega) hdiffers
    hdiffers' with ⟨buffer', hlen, hread⟩
  refine ⟨buffer', hlen, ?_⟩
  rw [readWord, hread]
  change (readKeyPath platform (key ++ text ++ rest) >>= fun _ => _) = _
  rw [readKeyPath_append (.inl ⟨hname, rfl⟩) hkeys hrest]
  rfl

theorem reads_number {value : Literal δ} {c : Nat} (hc : platform.isDigit c = true)
    (hread : readNumber platform (c :: text ++ rest) = .ok (value, rest)) :
    Reads platform isUnary buffer (.part (.atom (.literal value))) (c :: text) rest := by
  refine ⟨c, text, buffer, rfl, platform.part_not_whitespace c (platform.digit_part c hc), rfl, ?_⟩
  exact readToken_digit hc hread

theorem reads_literal {value : Literal δ} (h : SpellsLiteral platform value text)
    (hrest : EndsWord platform rest) :
    Reads platform isUnary buffer (.part (.atom (.literal value))) text rest := by
  cases h with
  | null =>
    rcases readWord_keyword nullKeyword buffer rest .null with ⟨buffer', hlen, hread⟩
    refine ⟨_, _, buffer', rfl, letter_not_whitespace (by decide), hlen, ?_⟩
    rw [readToken, if_pos rfl]
    exact hread
  | isTrue =>
    rcases readWord_keyword trueKeyword buffer rest (.boolean true) with
      ⟨buffer', hlen, hread⟩
    refine ⟨_, _, buffer', rfl, letter_not_whitespace (by decide), hlen, ?_⟩
    rw [readToken, if_neg (by decide), if_neg (by decide), letter_not_digit (by decide),
      if_neg (by decide), if_pos rfl]
    exact hread
  | isFalse =>
    rcases readWord_keyword falseKeyword buffer rest (.boolean false) with
      ⟨buffer', hlen, hread⟩
    refine ⟨_, _, buffer', rfl, letter_not_whitespace (by decide), hlen, ?_⟩
    rw [readToken, if_neg (by decide), if_neg (by decide), letter_not_digit (by decide),
      if_neg (by decide), if_neg (by decide), if_pos rfl]
    exact hread
  | long hne hdigit hval =>
    rcases exists_cons_of_ne_nil hne with ⟨c, text, rfl⟩
    refine reads_number (hdigit c mem_cons_self) (readNumber_append ?_ hrest ?_)
    · intro d hd
      exact decide_eq_true (.inl (hdigit d hd))
    · refine .inr ⟨?_, _, hval, rfl⟩
      intro hdot
      exact part_ne_symbol (platform.digit_part _ (hdigit _ hdot)) (by decide) rfl
  | @double value c text hc hall hdot hval =>
    refine reads_number hc (readNumber_append ?_ hrest ?_)
    · intro d hd
      rcases mem_cons.mp hd with rfl | hd
      · exact decide_eq_true (.inl hc)
      · exact hall d hd
    · exact .inl ⟨mem_cons_of_mem _ hdot, _, hval, rfl⟩
  | @string value text t ht hchars =>
    have hslash : t ≠ unit '\\' := by
      rcases ht with rfl | rfl <;> decide
    have hspace : platform.isWhitespace t = false := by
      rcases ht with rfl | rfl
      · exact (platform.symbol_class _ (by decide)).1
      · exact (platform.symbol_class _ (by decide)).1
    have hread : readString platform t ((text ++ t :: rest).length + 1) [] (text ++ t :: rest) =
        .ok ([] ++ value, rest) := by
      refine readString_append hslash hchars ?_
      rw [length_append]
      omega
    refine ⟨t, text ++ [t], buffer, rfl, hspace, rfl, ?_⟩
    rw [append_assoc]
    exact readToken_quote ht hread

theorem reads_variable {key : List Nat} {keys : KeyPath} (hname : IsName platform key)
    (hkeys : SpellsKeys platform keys text) (hrest : EndsWord platform rest)
    (hnot : NotKeyword (key ++ text) rest) (hbuf : buffer.length = 6) :
    Reads platform isUnary buffer (.part (.atom (.variable (key :: keys)))) (key ++ text) rest := by
  have hword : ∀ (keyword : List Nat) (value : Literal δ),
      keyword ∈ [nullKeyword, trueKeyword, falseKeyword] →
      ∃ buffer', buffer'.length = buffer.length ∧
        readWord platform keyword value buffer (key ++ text ++ rest) =
          .ok (.part (.atom (.variable (key :: keys))), buffer', rest) := by
    intro keyword value hkeyword
    refine readWord_variable value hname hkeys hrest hnot hkeyword ?_
    rw [hbuf]
    revert keyword
    decide
  have hpath := readKeyPath_append (.inl ⟨hname, rfl⟩) hkeys hrest
  rcases hname with ⟨⟨c, key, rfl, hstart⟩, hpart⟩
  have hspace := platform.part_not_whitespace c (platform.start_part c hstart)
  have hdigit : ¬ platform.isDigit c = true := by
    intro hdigit
    rw [platform.digit_not_start c hdigit] at hstart
    exact nomatch hstart
  have hquote := part_not_quote (platform.start_part c hstart)
  simp only [cons_append] at hword hpath
  have hread : ∃ buffer', buffer'.length = buffer.length ∧
      readToken platform isUnary buffer c (key ++ text ++ rest) =
        .ok (.part (.atom (.variable ((c :: key) :: keys))), buffer', rest) := by
    rw [readToken]
    split_ifs with hn ht hf
    · exact hword nullKeyword .null (by decide)
    · exact hword trueKeyword (.boolean true) (by decide)
    · exact hword falseKeyword (.boolean false) (by decide)
    · refine ⟨buffer, rfl, ?_⟩
      rw [hpath]
      rfl
  rcases hread with ⟨buffer', hlen, hread⟩
  exact ⟨c, key ++ text, buffer', rfl, hspace, hlen, hread⟩

theorem reads_symbol {token : Token δ} {c : Nat} {tail : List Nat} (hc : c ∈ symbols)
    (hquote : ¬ (c = unit '"' ∨ c = unit '\''))
    (hread : (isUnary = true ∧ tail = [] ∧ readUnary c = .ok token) ∨
      (isUnary = false ∧ readBinary c (tail ++ rest) = .ok (token, rest))) :
    Reads platform isUnary buffer token (c :: tail) rest := by
  refine ⟨c, tail, buffer, rfl, (platform.symbol_class c hc).1, rfl, ?_⟩
  rw [readToken_symbol hc hquote]
  rcases hread with ⟨rfl, rfl, hread⟩ | ⟨rfl, hread⟩
  · rw [if_pos rfl, hread]
    rfl
  · rw [if_neg (by decide), hread]
    rfl

theorem readBinary_spelling (op : BinaryOperator) (hrest : rest.head? ≠ some (unit '=')) :
    ∃ c tail, op.spelling = c :: tail ∧ c ∈ symbols ∧ ¬ (c = unit '"' ∨ c = unit '\'') ∧
      readBinary (δ := δ) c (tail ++ rest) = .ok (.part (.binary op), rest) := by
  have hoptional : ∀ op op' : BinaryOperator, readOptional (δ := δ) op op' rest =
      (.part (.binary op), rest) := by
    intro op op'
    cases rest with
    | nil => rfl
    | cons c rest =>
      have hne : c ≠ unit '=' := fun h => hrest (congrArg some h)
      rw [readOptional, if_neg hne]
  cases op
  case greaterThan =>
    exact ⟨_, _, rfl, by decide, by decide, congrArg Except.ok (hoptional _ _)⟩
  case lessThan =>
    exact ⟨_, _, rfl, by decide, by decide, congrArg Except.ok (hoptional _ _)⟩
  all_goals exact ⟨_, _, rfl, by decide, by decide, rfl⟩

theorem reads_token {token : Token δ} {spelling : List Nat}
    (h : SpellsToken platform token spelling) (hfits : Fits isUnary token)
    (hfollow : MayFollow platform token spelling rest) (hbuf : buffer.length = 6) :
    Reads platform isUnary buffer token spelling rest := by
  cases h with
  | literal hlit => exact reads_literal hlit hfollow
  | «variable» hname hkeys => exact reads_variable hname hkeys hfollow.1 hfollow.2 hbuf
  | unary op =>
    have hunary : isUnary = true := hfits
    cases op with
    | negate | not => exact reads_symbol (by decide) (by decide) (.inl ⟨hunary, rfl, rfl⟩)
  | binary op =>
    have hbinary : isUnary = false := hfits
    rcases readBinary_spelling op hfollow with ⟨c, tail, hspelling, hc, hquote, hread⟩
    rw [hspelling]
    exact reads_symbol hc hquote (.inr ⟨hbinary, hread⟩)
  | beginGroup =>
    have hunary : isUnary = true := hfits
    exact reads_symbol (by decide) (by decide) (.inl ⟨hunary, rfl, rfl⟩)
  | endGroup =>
    have hbinary : isUnary = false := hfits
    exact reads_symbol (by decide) (by decide) (.inr ⟨hbinary, rfl⟩)

end

end OpenJfx.Fxml
