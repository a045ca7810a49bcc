import OpenJfx.Fxml.ExpressionTokens
import OpenJfx.Fxml.ExpressionPrecedence
import Mathlib

namespace OpenJfx.Fxml

open Data.Postfix List

section

variable {δ : Type} (platform : Platform δ)

structure Piece where
  blank : List Nat
  token : Token δ
  spelling : List Nat
  isBlank : ∀ c ∈ blank, platform.isWhitespace c = true
  isSpelled : SpellsToken platform token spelling

variable {platform}

def textOf (ending : List Nat) : List (Piece platform) → List Nat
  | [] => ending
  | p :: pieces => p.blank ++ (p.spelling ++ textOf ending pieces)

def KeywordFree (ending : List Nat) : List (Piece platform) → Prop
  | [] => True
  | p :: pieces =>
    (∀ path, p.token = .part (.atom (.variable path)) →
      NotKeyword p.spelling (textOf ending pieces)) ∧ KeywordFree ending pieces

def Alternates : Bool → List (Token δ) → Bool → Prop
  | isUnary, [], after => isUnary = after
  | isUnary, t :: tokens, after => Fits isUnary t ∧ Alternates (isUnaryAfter t) tokens after

theorem Alternates.append {isUnary between after : Bool} {tokens tokens' : List (Token δ)}
    (h : Alternates isUnary tokens between) (h' : Alternates between tokens' after) :
    Alternates isUnary (tokens ++ tokens') after := by
  induction tokens generalizing isUnary with
  | nil =>
    obtain rfl : isUnary = between := h
    exact h'
  | cons t tokens ih => exact ⟨h.1, ih h.2⟩

theorem Alternates.group {tokens : List (Token δ)} (h : Alternates true tokens false)
    (inGroup : Bool) : Alternates true (group inGroup tokens) false := by
  cases inGroup with
  | false => exact h
  | true => exact ⟨rfl, h.append ⟨rfl, rfl⟩⟩

theorem alternates_print (e : Expression δ) : Alternates true (print e) false := by
  induction e with
  | atom a => exact ⟨rfl, rfl⟩
  | unary op e ih => exact ⟨rfl, ih.group _⟩
  | binary op l r ihl ihr => exact (ihl.group _).append ⟨rfl, ihr.group _⟩

section

variable {ending : List Nat}

theorem endsWord_blank {blank rest : List Nat}
    (hblank : ∀ c ∈ blank, platform.isWhitespace c = true)
    (hrest : blank = [] → EndsWord platform rest) : EndsWord platform (blank ++ rest) := by
  cases blank with
  | nil => exact hrest rfl
  | cons b blank =>
    intro c hc
    obtain rfl : b = c := Option.some.inj hc
    have hb := hblank b mem_cons_self
    have hne : ∀ d ∈ symbols, b ≠ d := by
      rintro d hd rfl
      rw [(platform.symbol_class b hd).1] at hb
      exact nomatch hb
    refine ⟨?_, hne _ (by decide), hne _ (by decide)⟩
    rw [← Bool.not_eq_true]
    intro hpart
    rw [platform.part_not_whitespace b hpart] at hb
    exact nomatch hb

theorem endsWord_symbol {c : Nat} {rest : List Nat} (hc : c ∈ symbols)
    (hne : c ≠ unit '.' ∧ c ≠ unit '[') : EndsWord platform (c :: rest) := by
  intro d hd
  obtain rfl : c = d := Option.some.inj hd
  exact ⟨symbol_not_part hc, hne⟩

variable {pieces : List (Piece platform)} {after : Bool}

theorem endsWord_textOf (hending : ∀ c ∈ ending, platform.isWhitespace c = true)
    (h : Alternates false (pieces.map Piece.token) after) :
    EndsWord platform (textOf ending pieces) := by
  have hemp : EndsWord platform [] := nofun
  cases pieces with
  | nil =>
    rw [← append_nil ending]
    exact endsWord_blank hending fun _ => hemp
  | cons p pieces =>
    have hfits : Fits false p.token := h.1
    refine endsWord_blank p.isBlank fun _ => ?_
    rcases p with ⟨blank, token, spelling, hblank, hspelled⟩
    cases hspelled with
    | literal hlit | «variable» hname hkeys | unary op | beginGroup => exact nomatch hfits
    | binary op => cases op <;> exact endsWord_symbol (by decide) (by decide)
    | endGroup => exact endsWord_symbol (by decide) (by decide)

theorem SpellsLiteral.head_ne {value : Literal δ} {spelling : List Nat}
    (h : SpellsLiteral platform value spelling) (rest : List Nat) :
    (spelling ++ rest).head? ≠ some (unit '=') := by
  have hdigit : ∀ {c : Nat}, platform.isDigit c = true → some c ≠ some (unit '=') := by
    intro c hc heq
    exact part_ne_symbol (platform.digit_part c hc) (by decide) (Option.some.inj heq)
  cases h with
  | null => exact (by decide : some (unit 'n') ≠ some (unit '='))
  | isTrue => exact (by decide : some (unit 't') ≠ some (unit '='))
  | isFalse => exact (by decide : some (unit 'f') ≠ some (unit '='))
  | long hne hall hval =>
    rcases exists_cons_of_ne_nil hne with ⟨c, text, rfl⟩
    exact hdigit (hall c mem_cons_self)
  | double hc hall hdot hval => exact hdigit hc
  | string t ht hchars =>
    rcases ht with rfl | rfl
    · exact (by decide : some (unit '"') ≠ some (unit '='))
    · exact (by decide : some (unit '\'') ≠ some (unit '='))

theorem head_textOf_ne (hending : ∀ c ∈ ending, platform.isWhitespace c = true)
    (h : Alternates true (pieces.map Piece.token) after) :
    (textOf ending pieces).head? ≠ some (unit '=') := by
  have hspace : ∀ {c : Nat}, platform.isWhitespace c = true → some c ≠ some (unit '=') := by
    intro c hc heq
    rw [Option.some.inj heq, (platform.symbol_class _ (by decide)).1] at hc
    exact nomatch hc
  cases pieces with
  | nil =>
    cases ending with
    | nil => exact nofun
    | cons c ending => exact hspace (hending c mem_cons_self)
  | cons p pieces =>
    have hfits : Fits true p.token := h.1
    rcases p with ⟨blank, token, spelling, hblank, hspelled⟩
    cases blank with
    | cons c blank => exact hspace (hblank c mem_cons_self)
    | nil =>
      cases hspelled with
      | literal hlit => exact hlit.head_ne _
      | «variable» hname hkeys =>
        rcases hname with ⟨⟨c, key, rfl, hstart⟩, -⟩
        intro heq
        exact part_ne_symbol (platform.start_part c hstart) (by decide)
          (Option.some.inj heq)
      | unary op => cases op <;> exact fun heq => absurd (Option.some.inj heq) (by decide)
      | binary op => exact nomatch hfits
      | beginGroup => exact fun heq => absurd (Option.some.inj heq) (by decide)
      | endGroup => exact nomatch hfits

theorem mayFollow_textOf (hending : ∀ c ∈ ending, platform.isWhitespace c = true)
    {p : Piece platform} (h : Alternates (isUnaryAfter p.token) (pieces.map Piece.token) after)
    (hkeyword : ∀ path, p.token = .part (.atom (.variable path)) →
      NotKeyword p.spelling (textOf ending pieces)) :
    MayFollow platform p.token p.spelling (textOf ending pieces) := by
  rcases p with ⟨blank, token, spelling, hblank, hspelled⟩
  cases hspelled with
  | literal hlit => exact endsWord_textOf hending h
  | «variable» hname hkeys => exact ⟨endsWord_textOf hending h, hkeyword _ rfl⟩
  | unary op => trivial
  | binary op => exact head_textOf_ne hending h
  | beginGroup => trivial
  | endGroup => trivial

theorem tokenizeLoop_textOf (hending : ∀ c ∈ ending, platform.isWhitespace c = true)
    (pieces : List (Piece platform)) : ∀ {isUnary after : Bool} {buffer : List Nat} {turns : Nat}
      (y : Yard δ), Alternates isUnary (pieces.map Piece.token) after →
      KeywordFree ending pieces → buffer.length = 6 → pieces.length < turns →
      tokenizeLoop platform turns isUnary buffer y (textOf ending pieces) =
        y.processAll (pieces.map Piece.token) := by
  induction pieces with
  | nil =>
    intro isUnary after buffer turns y _ _ _ hturns
    obtain ⟨turns, rfl⟩ := Nat.exists_eq_succ_of_ne_zero (Nat.ne_zero_of_lt hturns)
    have hdrop : (textOf ending ([] : List (Piece platform))).dropWhile platform.isWhitespace =
        [] := dropWhile_eq_nil_iff.mpr hending
    rw [tokenizeLoop, hdrop]
    rfl
  | cons p pieces ih =>
    intro isUnary after buffer turns y halternates hkeyword hbuf hturns
    obtain ⟨turns, rfl⟩ := Nat.exists_eq_succ_of_ne_zero (Nat.ne_zero_of_lt hturns)
    have hfollow := mayFollow_textOf hending halternates.2 hkeyword.1
    rcases reads_token p.isSpelled halternates.1 hfollow hbuf with
      ⟨c, tail, buffer', hspelling, hspace, hlen, hread⟩
    have hdrop : (textOf ending (p :: pieces)).dropWhile platform.isWhitespace =
        c :: (tail ++ textOf ending pieces) := by
      rw [textOf, hspelling]
      refine (takeWhile_append_rest p.isBlank ?_).2
      intro d hd
      rw [← Option.some.inj hd]
      exact hspace
    rw [tokenizeLoop, hdrop]
    change (readToken platform isUnary buffer c (tail ++ textOf ending pieces) >>= fun _ => _) = _
    rw [hread]
    change (y.process p.token >>= fun _ => _) = y.process p.token >>= fun _ => _
    congr
    funext y'
    exact ih y' halternates.2 hkeyword.2 (hlen.trans hbuf)
      (Nat.lt_of_succ_lt_succ hturns)

theorem SpellsToken.ne_nil {token : Token δ} {spelling : List Nat}
    (h : SpellsToken platform token spelling) : spelling ≠ [] := by
  cases h with
  | literal hlit =>
    cases hlit with
    | long hne hall hval => exact hne
    | _ => exact cons_ne_nil _ _
  | «variable» hname hkeys =>
    rcases hname with ⟨⟨c, key, rfl, -⟩, -⟩
    exact cons_ne_nil _ _
  | unary op | binary op => cases op <;> exact cons_ne_nil _ _
  | beginGroup | endGroup => exact cons_ne_nil _ _

theorem length_le_textOf (ending : List Nat) (pieces : List (Piece platform)) :
    pieces.length ≤ (textOf ending pieces).length := by
  induction pieces with
  | nil => exact Nat.zero_le _
  | cons p pieces ih =>
    have hpos := length_pos_of_ne_nil p.isSpelled.ne_nil
    rw [textOf]
    simp only [length_append, length_cons]
    omega

/-- The text of an expression is parsed to it exactly if no binary operator follows a unary
operator in the same group. -/
theorem valueOf_textOf_iff (e : Expression δ) (pieces : List (Piece platform))
    (hprint : pieces.map Piece.token = print e)
    (hending : ∀ c ∈ ending, platform.isWhitespace c = true)
    (hkeyword : KeywordFree ending pieces) :
    valueOf platform (textOf ending pieces) = .ok e ↔ Separated e := by
  have halternates : Alternates true (pieces.map Piece.token) false := by
    rw [hprint]
    exact alternates_print e
  have hloop : tokenizeLoop platform ((textOf ending pieces).length + 2) true
      (List.replicate 6 0) ⟨[], []⟩ (textOf ending pieces) =
        Yard.processAll ⟨[], []⟩ (print e) := by
    rw [← hprint]
    refine tokenizeLoop_textOf hending pieces _ halternates hkeyword rfl ?_
    have hle := length_le_textOf ending pieces
    omega
  have hvalue : valueOf platform (textOf ending pieces) = parseTokens (print e) := by
    rw [valueOf, tokenize, hloop, parseTokens]
    cases Yard.processAll ⟨[], []⟩ (print e) with
    | error failure => rfl
    | ok y => rfl
  rw [hvalue]
  exact parseTokens_print_iff e

end

end

/-- The characters up to `0x9f`. -/
def ascii : Platform Unit where
  isWhitespace c := 9 ≤ c ∧ c ≤ 13 ∨ 28 ≤ c ∧ c ≤ 32
  isDigit c := 48 ≤ c ∧ c ≤ 57
  isJavaIdentifierStart c := c = 36 ∨ 65 ≤ c ∧ c ≤ 90 ∨ c = 95 ∨ 97 ≤ c ∧ c ≤ 122
  isJavaIdentifierPart c :=
    c ≤ 8 ∨ 14 ≤ c ∧ c ≤ 27 ∨ c = 36 ∨ 48 ≤ c ∧ c ≤ 57 ∨ 65 ≤ c ∧ c ≤ 90 ∨ c = 95 ∨
      97 ≤ c ∧ c ≤ 122 ∨ 127 ≤ c ∧ c ≤ 159
  digit c radix :=
    if 48 ≤ c ∧ c ≤ 57 ∧ c < 48 + radix then some (c - 48)
    else if 65 ≤ c ∧ c ≤ 90 ∧ c < 55 + radix then some (c - 55)
    else if 97 ≤ c ∧ c ≤ 122 ∧ c < 87 + radix then some (c - 87)
    else none
  parseDouble _ := none
  symbol_class := by decide
  start_part c h := by
    simp only [decide_eq_true_eq] at h ⊢
    omega
  digit_part c h := by
    simp only [decide_eq_true_eq] at h ⊢
    omega
  digit_not_start c h := by
    simp only [decide_eq_true_eq, decide_eq_false_iff_not] at h ⊢
    omega
  digit_not_control c h := by
    simp only [isISOControl, decide_eq_true_eq, decide_eq_false_iff_not] at h ⊢
    omega
  part_not_whitespace c h := by
    simp only [decide_eq_true_eq, decide_eq_false_iff_not] at h ⊢
    omega
  letter_start c h := by
    simp only [Char.isAlpha, Char.isUpper, Char.isLower, Bool.or_eq_true, Bool.and_eq_true,
      decide_eq_true_eq, ge_iff_le, UInt32.le_iff_toNat_le] at h ⊢
    change (65 ≤ c.toNat ∧ c.toNat ≤ 90) ∨ (97 ≤ c.toNat ∧ c.toNat ≤ 122) at h
    omega

section

def variableNamed (c : Char) : Expression Unit := .atom (.variable [[unit c]])

theorem isName_letter (c : Char) (hc : c.isAlpha = true) : IsName ascii [unit c] := by
  have hstart := ascii.letter_start c hc
  refine ⟨⟨_, [], rfl, hstart⟩, ?_⟩
  intro d hd
  rw [mem_singleton.mp hd]
  exact ascii.start_part _ hstart

def namePiece (c : Char) (hc : c.isAlpha = true) : Piece ascii where
  blank := []
  token := .part (.atom (.variable [[unit c]]))
  spelling := [unit c]
  isBlank := nofun
  isSpelled := .variable (isName_letter c hc) .nil

def binaryPiece (op : BinaryOperator) : Piece ascii where
  blank := []
  token := .part (.binary op)
  spelling := op.spelling
  isBlank := nofun
  isSpelled := .binary op

def unaryPiece (blanks : Nat) (op : UnaryOperator) : Piece ascii where
  blank := List.replicate blanks (unit ' ')
  token := .part (.unary op)
  spelling := op.spelling
  isBlank := by
    intro c hc
    rw [eq_of_mem_replicate hc]
    rfl
  isSpelled := .unary op

def equalsNegatedPieces : List (Piece ascii) :=
  [namePiece 'a' (by decide), binaryPiece .equalTo, unaryPiece 1 .negate,
    namePiece 'b' (by decide)]

theorem valueOf_equalsNegated :
    textOf [] equalsNegatedPieces = "a== -b".toList.map unit ∧
      valueOf ascii (textOf [] equalsNegatedPieces) =
        .ok (.binary .equalTo (variableNamed 'a') (.unary .negate (variableNamed 'b'))) := by
  refine ⟨by decide, (valueOf_textOf_iff _ equalsNegatedPieces rfl ?_ ?_).mpr ?_⟩
  · exact fun c hc => nomatch hc
  · refine ⟨fun _ _ => ?_, nofun, nofun, fun _ _ => ?_, trivial⟩
    · unfold NotKeyword
      decide
    · unfold NotKeyword
      decide
  · exact ⟨fun _ => rfl, trivial, trivial⟩

def negatedFirstPieces : List (Piece ascii) :=
  [unaryPiece 0 .negate, namePiece 'a' (by decide), binaryPiece .add, namePiece 'b' (by decide)]

/-- In `-a+b` the unary operator takes the sum as its operand. -/
theorem valueOf_negatedFirst :
    negatedFirstPieces.map Piece.token =
        print (.binary .add (.unary .negate (variableNamed 'a')) (variableNamed 'b')) ∧
      textOf [] negatedFirstPieces = "-a+b".toList.map unit ∧
      valueOf ascii (textOf [] negatedFirstPieces) ≠
        .ok (.binary .add (.unary .negate (variableNamed 'a')) (variableNamed 'b')) ∧
      valueOf ascii (textOf [] negatedFirstPieces) =
        .ok (.unary .negate (.binary .add (variableNamed 'a') (variableNamed 'b'))) := by
  decide

end

end OpenJfx.Fxml
