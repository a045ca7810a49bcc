import OpenJfx.Fxml.ExpressionOperands
import OpenJfx.Fxml.ExpressionValueOf

namespace OpenJfx.Fxml

open Data.Postfix List

section

variable {δ : Type} (platform : Platform δ)

def readTokens : Nat → Bool → List Nat → List Nat → List (Token δ) × Option ParseFailure
  | 0, _, _, _ => ([], none)
  | turns + 1, isUnary, pushbackBuffer, text =>
    match text.dropWhile platform.isWhitespace with
    | [] => ([], none)
    | c :: text =>
      match readToken platform isUnary pushbackBuffer c text with
      | .error failure => ([], some failure)
      | .ok (token, pushbackBuffer, text) =>
        let (tokens, failure) := readTokens turns (isUnaryAfter token) pushbackBuffer text
        (token :: tokens, failure)

/-- The tokens of a text end no group that is not open, and if all of it can be read, they leave
no group open and have more operands than binary operators. -/
def Accepted : List (Token δ) × Option ParseFailure → Prop
  | (tokens, some _) => groupsAfter 0 tokens ≠ none
  | (tokens, none) => groupsAfter 0 tokens = some 0 ∧
      (tokens = [] ∨ tokens.countP Token.isBinary < tokens.countP Token.isAtom)

/-- More turns of the loops than the text has characters change nothing. -/
structure LoopsEnd (text : List Nat) : Prop where
  tokens : ∀ turns, text.length + 2 ≤ turns →
    tokenizeLoop platform turns true (List.replicate 6 0) ⟨[], []⟩ text =
      tokenizeLoop platform (text.length + 2) true (List.replicate 6 0) ⟨[], []⟩ text
  strings : ∀ t value turns, text.length < turns →
    readString platform t turns value text = readString platform t (text.length + 1) value text
  brackets : ∀ quoted quote key turns, text.length < turns →
    readBracketed platform turns quoted quote key text =
      readBracketed platform (text.length + 1) quoted quote key text
  keys : ∀ turns, text.length ≤ turns →
    readKeys platform turns text = readKeys platform text.length text

/-- A bound of the turns that are left: a keyword that the end of the text cuts short puts a
character more back than has been read. -/
def potential (text : List Nat) : Nat :=
  text.length + if text.any platform.isJavaIdentifierStart then 1 else 0

/-- What a token that is read from a text of the potential `bound` leaves. -/
def IsRead (isUnary : Bool) (bound : Nat) (r : Token δ × List Nat × List Nat) : Prop :=
  Admits isUnary r.1 ∧ r.2.1.length = 6 ∧ potential platform r.2.2 < bound

section

variable {platform}

theorem EndsIn.mono {α : Type} {kind kind' : α → Prop} {r : Except ParseFailure α}
    (h : EndsIn kind r) (hle : ∀ a, kind a → kind' a) : EndsIn kind' r := by
  cases r with
  | error failure => exact h
  | ok a => exact hle a h

theorem EndsIn.bind {α β : Type} {kind : α → Prop} {kind' : β → Prop}
    {r : Except ParseFailure α} {next : α → Except ParseFailure β} (h : EndsIn kind r)
    (hnext : ∀ a, kind a → EndsIn kind' (next a)) : EndsIn kind' (r >>= next) := by
  cases r with
  | error failure => exact h
  | ok a => exact hnext a h

theorem EndsIn.ite {α : Type} {kind : α → Prop} {p : Prop} [Decidable p]
    {r r' : Except ParseFailure α} (h : EndsIn kind r) (h' : EndsIn kind r') :
    EndsIn kind (if p then r else r') := by
  split_ifs
  · exact h
  · exact h'

theorem closeQuote_suffix (quoted : Bool) (quote : Nat) (text : List Nat) :
    (closeQuote quoted quote text).2 <:+ text := by
  cases text with
  | nil => exact suffix_rfl
  | cons c text =>
    rw [closeQuote]
    split_ifs
    · exact suffix_cons c text
    · exact suffix_rfl

theorem readBracketed_endsIn (turns : Nat) : ∀ (quoted : Bool) (quote : Nat) (key text : List Nat),
    EndsIn (fun r => r.2 <:+ text) (readBracketed platform turns quoted quote key text) := by
  induction turns with
  | zero => exact fun _ _ _ _ => trivial
  | succ turns ih =>
    intro quoted quote key text
    cases text with
    | nil => cases quoted <;> trivial
    | cons c text =>
      rw [readBracketed]
      split_ifs
      · trivial
      · trivial
      · have hclose := closeQuote_suffix quoted quote text
        split
        · rename_i heq
          exact (ih _ quote _ _).mono fun r hr => hr.trans nil_suffix
        · rename_i quoted' c' text' heq
          rw [heq] at hclose
          have htail : text' <:+ c :: text :=
            (suffix_cons c' text').trans (hclose.trans (suffix_cons c text))
          split_ifs
          · trivial
          · exact htail
          · exact (ih _ quote _ _).mono fun r hr => hr.trans (hclose.trans (suffix_cons c text))

theorem readKey_endsIn (c : Nat) (text : List Nat) :
    EndsIn (fun r => r.1 ≠ [] → r.2 <:+ text) (readKey platform (c :: text)) := by
  rw [readKey.eq_def]
  split
  · rename_i text' heq
    obtain ⟨-, rfl⟩ := cons.inj heq
    cases text with
    | nil => trivial
    | cons c' text =>
      dsimp only
      split_ifs
      · exact (readBracketed_endsIn _ _ _ _ _).mono fun r hr _ => hr.trans (suffix_cons c' text)
      · exact (readBracketed_endsIn _ _ _ _ _).mono fun r hr _ => hr
  · intro hne
    rw [dropWhile_cons]
    split_ifs with hpart
    · exact dropWhile_suffix _
    · exact absurd (takeWhile_cons_of_neg hpart) hne

theorem skipDot_endsIn (text : List Nat) : EndsIn (fun rest => rest <:+ text) (skipDot text) := by
  cases text with
  | nil => exact suffix_rfl
  | cons c text =>
    rw [skipDot.eq_def]
    dsimp only
    split_ifs
    · cases text with
      | nil => trivial
      | cons c' text => exact suffix_cons c (c' :: text)
    · exact suffix_rfl

theorem readKeys_endsIn (turns : Nat) : ∀ text : List Nat,
    EndsIn (fun r => r.2 <:+ text ∧ (r.1 ≠ [] → r.2 <:+ text.tail))
      (readKeys platform turns text) := by
  induction turns with
  | zero => exact fun text => ⟨suffix_rfl, fun hne => absurd rfl hne⟩
  | succ turns ih =>
    intro text
    cases text with
    | nil => exact ⟨suffix_rfl, fun hne => absurd rfl hne⟩
    | cons c text =>
      rw [readKeys]
      split_ifs
      · refine (readKey_endsIn c text).bind fun r hkey => ?_
        refine (skipDot_endsIn r.2).bind fun rest hrest => ?_
        split_ifs with hemp
        · trivial
        · refine (ih rest).bind fun r' hkeys => ?_
          have htail : r'.2 <:+ text := hkeys.1.trans (hrest.trans (hkey hemp))
          exact ⟨htail.trans (suffix_cons c text), fun _ => htail⟩
      · exact ⟨suffix_rfl, fun hne => absurd rfl hne⟩

theorem readKeyPath_endsIn (c : Nat) (text : List Nat) :
    EndsIn (fun r => r.2 <:+ text) (readKeyPath platform (c :: text)) := by
  refine (readKeys_endsIn _ (c :: text)).bind fun r hkeys => ?_
  dsimp only
  split_ifs with hemp
  · trivial
  · exact hkeys.2 hemp

theorem readNumber_endsIn {c : Nat} (hc : platform.isDigit c = true) (text : List Nat) :
    EndsIn (fun r => r.2 <:+ text) (readNumber platform (c :: text)) := by
  have hdrop : (c :: text).dropWhile (isNumberPart platform) <:+ text := by
    have hpart : isNumberPart platform c = true := decide_eq_true (.inl hc)
    rw [dropWhile_cons_of_pos hpart]
    exact dropWhile_suffix _
  rw [readNumber]
  split_ifs
  · split
    · exact hdrop
    · trivial
  · split
    · exact hdrop
    · trivial

theorem readEscape_endsIn (text : List Nat) :
    EndsIn (fun r => r.2 <:+ text) (readEscape platform text) := by
  cases text with
  | nil => trivial
  | cons c text =>
    rw [readEscape]
    split_ifs
    · split
      · exact (drop_suffix 4 text).trans (suffix_cons c text)
      · trivial
    · split
      · exact suffix_cons c text
      · trivial

theorem readString_endsIn (t turns : Nat) : ∀ value text : List Nat,
    EndsIn (fun r => r.2 <:+ text) (readString platform t turns value text) := by
  induction turns with
  | zero => exact fun _ _ => trivial
  | succ turns ih =>
    intro value text
    cases text with
    | nil => trivial
    | cons c text =>
      have hrest : ∀ value text', text' <:+ text →
          EndsIn (fun r => r.2 <:+ c :: text) (readString platform t turns value text') :=
        fun value text' h => (ih value text').mono fun r hr =>
          hr.trans (h.trans (suffix_cons c text))
      rw [readString]
      split_ifs
      · exact suffix_cons c text
      · exact hrest value text suffix_rfl
      · exact (readEscape_endsIn text).bind fun r hr => hrest _ r.2 hr
      · exact hrest _ text suffix_rfl

theorem readUnary_endsIn (c : Nat) : EndsIn (Admits (δ := δ) true) (readUnary c) := by
  rw [readUnary]
  split_ifs <;> trivial

theorem readSecond_endsIn (second : Nat) (op : BinaryOperator) (text : List Nat) :
    EndsIn (fun r => Admits false r.1 ∧ r.2 <:+ text) (readSecond (δ := δ) second op text) := by
  cases text with
  | nil => trivial
  | cons c text =>
    rw [readSecond]
    split_ifs
    · exact ⟨rfl, suffix_cons c text⟩
    · trivial

theorem readOptional_spec (op opEqual : BinaryOperator) (text : List Nat) :
    Admits false (readOptional (δ := δ) op opEqual text).1 ∧
      (readOptional (δ := δ) op opEqual text).2 <:+ text := by
  cases text with
  | nil => exact ⟨rfl, suffix_rfl⟩
  | cons c text =>
    rw [readOptional]
    split_ifs
    · exact ⟨rfl, suffix_cons c text⟩
    · exact ⟨rfl, suffix_rfl⟩

theorem readBinary_endsIn (c : Nat) (text : List Nat) :
    EndsIn (fun r => Admits false r.1 ∧ r.2 <:+ text) (readBinary (δ := δ) c text) := by
  repeat' refine EndsIn.ite ?_ ?_
  all_goals first
    | exact ⟨rfl, suffix_rfl⟩
    | exact readSecond_endsIn _ _ _
    | exact readOptional_spec _ _ _
    | trivial

theorem readKeyword_cases (keyword : List Nat) : ∀ (i : Nat) (buffer text : List Nat),
    i + keyword.length ≤ buffer.length → ∃ buffer', buffer'.length = buffer.length ∧
      ((∃ rest, text = keyword ++ rest ∧
          readKeyword keyword i buffer text = (true, buffer', rest)) ∨
        readKeyword keyword i buffer text = (false, buffer', buffer.take i ++ text) ∨
        text <+: keyword ∧ ∃ stale,
          readKeyword keyword i buffer text
            = (false, buffer', buffer.take i ++ text ++ [stale])) := by
  induction keyword with
  | nil => exact fun i buffer text _ => ⟨buffer, rfl, .inl ⟨text, rfl, rfl⟩⟩
  | cons k keyword ih =>
    intro i buffer text hlen
    rw [length_cons] at hlen
    have hi : i < buffer.length := by omega
    cases text with
    | nil =>
      refine ⟨buffer, rfl, .inr (.inr ⟨List.nil_prefix, (buffer)[i], ?_⟩)⟩
      rw [readKeyword, append_nil, take_append_getElem hi]
    | cons c text =>
      have hset := take_set_succ (c := c) hi
      simp only [readKeyword]
      split_ifs with hne
      · refine ⟨buffer.set i c, length_set, .inr (.inl ?_)⟩
        rw [hset, append_assoc, singleton_append]
      · obtain rfl : k = c := not_not.mp hne
        rcases ih (i + 1) (buffer.set i k) text (by rw [length_set]; omega) with
          ⟨buffer', hlen', h⟩
        rw [hset, append_assoc] at h
        refine ⟨buffer', hlen'.trans length_set, ?_⟩
        rcases h with ⟨rest, rfl, hread⟩ | hread | ⟨hpre, stale, hread⟩
        · exact .inl ⟨rest, rfl, hread⟩
        · exact .inr (.inl hread)
        · exact .inr (.inr ⟨cons_prefix_cons.mpr ⟨rfl, hpre⟩, stale, hread⟩)

theorem potential_le {text rest : List Nat} (h : rest <:+ text) :
    potential platform rest ≤ potential platform text := by
  have hlen := h.length_le
  have hany : rest.any platform.isJavaIdentifierStart = true →
      text.any platform.isJavaIdentifierStart = true := by
    intro hrest
    rcases any_eq_true.mp hrest with ⟨d, hd, hstart⟩
    exact any_eq_true.mpr ⟨d, h.subset hd, hstart⟩
  rw [potential, potential]
  split_ifs with hrest htext
  · omega
  · exact absurd (hany hrest) htext
  · omega
  · omega

theorem potential_lt {c : Nat} {text rest : List Nat} (h : rest <:+ text) :
    potential platform rest < potential platform (c :: text) := by
  refine Nat.lt_of_le_of_lt (potential_le h) ?_
  rw [potential, potential, length_cons, any_cons]
  split_ifs with htext hcons
  · omega
  · rw [htext, Bool.or_true] at hcons
    exact absurd rfl hcons
  · omega
  · omega

theorem readKeys_stale {c : Nat} (hc : isKeyPart platform c = false) (turns : Nat) :
    (∃ failure : ParseFailure, failure.IsIllegalArgument ∧ skipDot [c] = .error failure) ∨
      skipDot [c] = .ok [c] ∧
        EndsIn (fun r => potential platform r.2 ≤ 1) (readKeys platform (turns + 1) [c]) := by
  rcases eq_or_ne c (unit '.') with rfl | hdot
  · exact .inl ⟨.illegalArgument _, trivial, rfl⟩
  · refine .inr ⟨if_neg hdot, ?_⟩
    rcases eq_or_ne c (unit '[') with rfl | hbracket
    · have hread : readKeys platform (turns + 1) [unit '['] =
          .error (.illegalArgument "Unterminated bracketed identifier.") := if_pos (.inr rfl)
      rw [hread]
      trivial
    · have hstart : ¬ platform.isJavaIdentifierStart c = true := by
        intro hstart
        have hkey : isKeyPart platform c = true :=
          decide_eq_true ⟨hdot, hbracket, platform.start_part c hstart⟩
        rw [hc] at hkey
        exact nomatch hkey
      have hread : readKeys platform (turns + 1) [c] = .ok ([], [c]) :=
        if_neg fun h => h.elim hstart hbracket
      rw [hread]
      change potential platform [c] ≤ 1
      rw [potential, any_cons, any_nil, Bool.or_false, if_neg hstart]
      exact Nat.le_refl 1

theorem readKeyPath_cut {text : List Nat} (stale : Nat)
    (htext : ∀ c ∈ text, platform.isJavaIdentifierStart c = true) (hne : text ≠ []) :
    EndsIn (fun r => potential platform r.2 < potential platform text)
      (readKeyPath platform (text ++ [stale])) := by
  rcases exists_cons_of_ne_nil hne with ⟨c, text, rfl⟩
  have hpart : ∀ d ∈ c :: text, platform.isJavaIdentifierPart d = true :=
    fun d hd => platform.start_part d (htext d hd)
  have hpotential : potential platform (c :: text) = text.length + 2 := by
    rw [potential, any_cons, htext c mem_cons_self]
    rfl
  have hturns : (c :: text ++ [stale]).length = text.length + 1 + 1 := by
    rw [length_append, length_cons, length_singleton]
  rw [hpotential, readKeyPath, hturns]
  cases hstale : isKeyPart platform stale with
  | true =>
    have hname : IsName platform (c :: text ++ [stale]) := by
      refine ⟨⟨c, text ++ [stale], rfl, htext c mem_cons_self⟩, fun d hd => ?_⟩
      rcases mem_append.mp hd with hd | hd
      · exact hpart d hd
      · rw [mem_singleton.mp hd]
        exact (of_decide_eq_true hstale).2.2
    have hread : readKeys platform (text.length + 1 + 1) (c :: text ++ [stale] ++ []) =
        .ok ([c :: text ++ [stale]], []) := readKeys_succ (.inl ⟨hname, rfl⟩) (by simp) rfl rfl
    rw [append_nil] at hread
    rw [hread]
    exact Nat.succ_pos _
  | false =>
    have hkey := @readKey_name _ platform [stale] _
      ⟨⟨c, text, rfl, htext c mem_cons_self⟩, hpart⟩ (by
        rintro d hd
        obtain rfl := Option.some.inj hd
        exact hstale)
    rw [cons_append] at hkey ⊢
    rw [readKeys, if_pos (.inl (htext c mem_cons_self)), hkey]
    change EndsIn _ ((skipDot [stale] >>= fun rest => _) >>= fun r => _)
    rcases readKeys_stale hstale text.length with ⟨failure, hfailure, hskip⟩ | ⟨hskip, hrest⟩
    · rw [hskip]
      exact hfailure
    · rw [hskip]
      have hkeys : EndsIn (fun r => r.1 ≠ [] ∧ potential platform r.2 ≤ 1)
          (readKeys platform (text.length + 1) [stale] >>= fun r =>
            pure ((c :: text) :: r.1, r.2)) :=
        hrest.bind fun r hr => ⟨cons_ne_nil _ _, hr⟩
      refine EndsIn.bind hkeys fun r hr => ?_
      dsimp only
      rw [if_neg hr.1]
      exact Nat.lt_of_le_of_lt hr.2 (Nat.lt_add_left _ (Nat.lt_succ_self 1))

section

variable {isUnary : Bool} {buffer : List Nat} {c : Nat}

theorem readWord_endsIn {keyword : List Nat} (value : Literal δ) (text : List Nat)
    (hkeyword : keyword ∈ [nullKeyword, trueKeyword, falseKeyword])
    (hbuf : buffer.length = 6) :
    EndsIn (IsRead platform isUnary (potential platform (c :: text)))
      (readWord platform keyword value buffer (c :: text)) := by
  have hshort : 0 < keyword.length ∧ 0 + keyword.length ≤ buffer.length := by
    rw [hbuf]
    revert keyword
    decide
  have hpath : ∀ {source buffer' : List Nat}, buffer'.length = buffer.length →
      EndsIn (fun r => potential platform r.2 < potential platform (c :: text))
        (readKeyPath platform source) →
      EndsIn (IsRead platform isUnary (potential platform (c :: text)))
        (readKeyPath platform source >>= fun r =>
          pure (.part (.atom (.variable r.1)), buffer', r.2)) := by
    intro source buffer' hlen hread
    exact hread.bind fun r hr => ⟨trivial, hlen.trans hbuf, hr⟩
  rcases readKeyword_cases keyword 0 buffer (c :: text) hshort.2 with
    ⟨buffer', hlen, ⟨rest, htext, hread⟩ | hread | ⟨hpre, stale, hread⟩⟩
  · rw [readWord, hread]
    refine ⟨trivial, hlen.trans hbuf, ?_⟩
    rcases keyword with _ | ⟨k, keyword⟩
    · exact absurd hshort.1 (Nat.lt_irrefl 0)
    · obtain ⟨rfl, rfl⟩ := cons.inj htext
      exact potential_lt (suffix_append _ _)
  · rw [readWord, hread]
    exact hpath hlen ((readKeyPath_endsIn c text).mono fun r hr => potential_lt hr)
  · rw [readWord, hread]
    refine hpath hlen (readKeyPath_cut stale ?_ (cons_ne_nil _ _))
    exact fun d hd => keyword_start keyword hkeyword d (hpre.subset hd)

theorem readToken_endsIn (text : List Nat) (hbuf : buffer.length = 6) :
    EndsIn (IsRead platform isUnary (potential platform (c :: text)))
      (readToken platform isUnary buffer c text) := by
  rw [readToken]
  split_ifs with hn hquote hdigit ht hf hstart hunary
  · exact readWord_endsIn .null text (by decide) hbuf
  · exact (readString_endsIn c _ _ text).bind fun r hr => ⟨trivial, hbuf, potential_lt hr⟩
  · exact (readNumber_endsIn hdigit text).bind fun r hr => ⟨trivial, hbuf, potential_lt hr⟩
  · exact readWord_endsIn (.boolean true) text (by decide) hbuf
  · exact readWord_endsIn (.boolean false) text (by decide) hbuf
  · exact (readKeyPath_endsIn c text).bind fun r hr => ⟨trivial, hbuf, potential_lt hr⟩
  · refine (readUnary_endsIn c).bind fun token h => ⟨?_, hbuf, potential_lt suffix_rfl⟩
    rwa [hunary]
  · refine (readBinary_endsIn c text).bind fun r hr => ⟨?_, hbuf, potential_lt hr.2⟩
    rw [Bool.eq_false_iff.mpr hunary]
    exact hr.1

end

theorem readTokens_spec (turns : Nat) : ∀ {isUnary : Bool} {buffer text : List Nat},
    buffer.length = 6 → potential platform text < turns →
      AdmitsAll isUnary (readTokens platform turns isUnary buffer text).1 ∧
      (∀ failure ∈ (readTokens platform turns isUnary buffer text).2,
        failure.IsIllegalArgument) ∧
      ∀ turns', potential platform text < turns' →
        readTokens platform turns' isUnary buffer text =
          readTokens platform turns isUnary buffer text := by
  induction turns with
  | zero => exact fun _ hlt => absurd hlt (Nat.not_lt_zero _)
  | succ turns ih =>
    intro isUnary buffer text hbuf hlt
    have hdrop : potential platform (text.dropWhile platform.isWhitespace) ≤
        potential platform text := potential_le (dropWhile_suffix _)
    have hturns : ∀ {turns' : Nat}, potential platform text < turns' →
        ∃ turns'', turns' = turns'' + 1 :=
      fun h => Nat.exists_eq_succ_of_ne_zero (Nat.ne_zero_of_lt h)
    rw [readTokens]
    cases hrest : text.dropWhile platform.isWhitespace with
    | nil =>
      refine ⟨trivial, nofun, fun turns' hlt' => ?_⟩
      obtain ⟨turns', rfl⟩ := hturns hlt'
      rw [readTokens, hrest]
    | cons c rest =>
      rw [hrest] at hdrop
      have hread : EndsIn (IsRead platform isUnary (potential platform (c :: rest)))
          (readToken platform isUnary buffer c rest) := readToken_endsIn rest hbuf
      dsimp only
      cases hr : readToken platform isUnary buffer c rest with
      | error failure =>
        rw [hr] at hread
        refine ⟨trivial, fun failure' heq => ?_, fun turns' hlt' => ?_⟩
        · obtain rfl := Option.some.inj heq
          exact hread
        · obtain ⟨turns', rfl⟩ := hturns hlt'
          rw [readTokens, hrest]
          dsimp only
          rw [hr]
      | ok r =>
        rw [hr] at hread
        obtain ⟨hadmits, hlen, hpotential⟩ := hread
        obtain ⟨htoks, hfailure, hrun⟩ := @ih (isUnaryAfter r.1) r.2.1 r.2.2 hlen
          (by omega)
        refine ⟨⟨hadmits, htoks⟩, hfailure, fun turns' hlt' => ?_⟩
        obtain ⟨turns', rfl⟩ := hturns hlt'
        rw [readTokens, hrest]
        dsimp only
        rw [hr]
        dsimp only
        rw [hrun turns' (by omega)]

theorem tokenizeLoop_eq (turns : Nat) : ∀ (isUnary : Bool) (buffer text : List Nat) (y : Yard δ),
    tokenizeLoop platform turns isUnary buffer y text =
      y.processAll (readTokens platform turns isUnary buffer text).1 >>= fun y =>
        match (readTokens platform turns isUnary buffer text).2 with
        | none => .ok y
        | some failure => .error failure := by
  induction turns with
  | zero => exact fun _ _ _ _ => rfl
  | succ turns ih =>
    intro isUnary buffer text y
    rw [tokenizeLoop, readTokens]
    cases text.dropWhile platform.isWhitespace with
    | nil => rfl
    | cons c text =>
      dsimp only
      cases readToken platform isUnary buffer c text with
      | error failure => rfl
      | ok r =>
        change (y.process r.1 >>= fun y' => _) = (y.process r.1 >>= fun y' => _) >>= fun y' => _
        cases y.process r.1 with
        | error failure => rfl
        | ok y' => exact ih _ _ _ y'

theorem readString_turns (t turns : Nat) : ∀ {turns' : Nat} (value text : List Nat),
    text.length < turns → text.length < turns' →
      readString platform t turns value text = readString platform t turns' value text := by
  induction turns with
  | zero => exact fun _ _ hlt => absurd hlt (Nat.not_lt_zero _)
  | succ turns ih =>
    intro turns' value text hlt hlt'
    obtain ⟨turns', rfl⟩ := Nat.exists_eq_succ_of_ne_zero (Nat.ne_zero_of_lt hlt')
    cases text with
    | nil => rfl
    | cons c text =>
      have hrest : ∀ value text', text' <:+ text →
          readString platform t turns value text' = readString platform t turns' value text' := by
        intro value text' h
        have hle := h.length_le
        rw [length_cons] at hlt hlt'
        exact ih value text' (by omega) (by omega)
      have hesc : EndsIn (fun r => r.2 <:+ text) (readEscape platform text) :=
        readEscape_endsIn text
      rw [readString, readString, hrest value text suffix_rfl, hrest _ text suffix_rfl]
      cases h : readEscape platform text with
      | error failure => rfl
      | ok r =>
        rw [h] at hesc
        change (if _ then _ else if _ then _ else if _ then
          readString platform t turns (value ++ [r.1]) r.2 else _) = _
        rw [hrest _ r.2 hesc]
        rfl

theorem readBracketed_turns (turns : Nat) : ∀ {turns' : Nat} (quoted : Bool) (quote : Nat)
    (key text : List Nat), text.length < turns → text.length < turns' →
      readBracketed platform turns quoted quote key text =
        readBracketed platform turns' quoted quote key text := by
  induction turns with
  | zero => exact fun _ _ _ _ hlt => absurd hlt (Nat.not_lt_zero _)
  | succ turns ih =>
    intro turns' quoted quote key text hlt hlt'
    obtain ⟨turns', rfl⟩ := Nat.exists_eq_succ_of_ne_zero (Nat.ne_zero_of_lt hlt')
    cases text with
    | nil => rfl
    | cons c text =>
      have hclose := (closeQuote_suffix quoted quote text).length_le
      have hrest : ∀ quoted' key text', text'.length ≤ text.length →
          readBracketed platform turns quoted' quote key text' =
            readBracketed platform turns' quoted' quote key text' := by
        intro quoted' key text' hle
        rw [length_cons] at hlt hlt'
        exact ih quoted' quote key text' (by omega) (by omega)
      rw [readBracketed, readBracketed]
      generalize closeQuote quoted quote text = r at hclose ⊢
      rcases r with ⟨quoted', _ | ⟨c', text'⟩⟩
      · dsimp only
        rw [hrest quoted' _ [] (Nat.zero_le _)]
      · dsimp only
        rw [hrest quoted' _ (c' :: text') hclose]

theorem readKeys_turns (turns : Nat) : ∀ {turns' : Nat} (text : List Nat),
    text.length ≤ turns → text.length ≤ turns' →
      readKeys platform turns text = readKeys platform turns' text := by
  induction turns with
  | zero =>
    intro turns' text hle _
    obtain rfl := length_eq_zero_iff.mp (Nat.le_zero.mp hle)
    cases turns' <;> rfl
  | succ turns ih =>
    intro turns' text hle hle'
    cases text with
    | nil => cases turns' <;> rfl
    | cons c text =>
      obtain ⟨turns', rfl⟩ := Nat.exists_eq_succ_of_ne_zero
        (Nat.ne_zero_of_lt (Nat.lt_of_lt_of_le (Nat.succ_pos _) hle'))
      have hkey : EndsIn (fun r => r.1 ≠ [] → r.2 <:+ text) (readKey platform (c :: text)) :=
        readKey_endsIn c text
      rw [readKeys, readKeys]
      cases hread : readKey platform (c :: text) with
      | error failure => rfl
      | ok r =>
        rw [hread] at hkey
        have hskip := skipDot_endsIn r.2
        change (if _ then (skipDot r.2).bind _ else _) = if _ then (skipDot r.2).bind _ else _
        cases hdot : skipDot r.2 with
        | error failure => rfl
        | ok rest =>
          rw [hdot] at hskip
          rcases eq_or_ne r.1 [] with hemp | hne
          · change (if _ then if r.1 = [] then _ else _ else _) =
              if _ then if r.1 = [] then _ else _ else _
            rw [if_pos hemp, if_pos hemp]
          · have hle := (hskip.trans (hkey hne)).length_le
            rw [length_cons] at *
            have hrest := @ih turns' rest (by omega) (by omega)
            change (if _ then if r.1 = [] then _ else readKeys platform turns rest >>= _ else _) = _
            rw [hrest]
            rfl

theorem valueOf_failsCleanly_iff (text : List Nat) :
    LoopsEnd platform text ∧
      (FailsCleanly (valueOf platform text) ↔
        Accepted (readTokens platform (text.length + 2) true (List.replicate 6 0) text)) := by
  have hpotential : potential platform text < text.length + 2 := by
    rw [potential]
    split_ifs <;> omega
  obtain ⟨hadmits, hfailure, hturns⟩ :=
    @readTokens_spec _ platform (text.length + 2) true (List.replicate 6 0) text rfl hpotential
  refine ⟨⟨?_, ?_, ?_, ?_⟩, ?_⟩
  · intro turns hle
    rw [tokenizeLoop_eq, tokenizeLoop_eq, hturns turns (by omega)]
  · exact fun t value turns hlt => readString_turns t turns value text hlt (Nat.lt_succ_self _)
  · exact fun quoted quote key turns hlt =>
      readBracketed_turns turns quoted quote key text hlt (Nat.lt_succ_self _)
  · exact fun turns hle => readKeys_turns turns text hle (Nat.le_refl _)
  · rw [valueOf, tokenize, tokenizeLoop_eq]
    generalize readTokens platform (text.length + 2) true (List.replicate 6 0) text = r at *
    rcases r with ⟨tokens, failure⟩
    rcases ready_empty.processAll tokens hadmits with ⟨hrun, hgroups⟩ |
      ⟨y, isUnary, hrun, hready, hgroups⟩
    · have hnot : ¬ Accepted (tokens, failure) := by
        cases failure with
        | none =>
          intro h
          cases hgroups.symm.trans h.1
        | some failure => exact fun h => h hgroups
      refine iff_of_false ?_ hnot
      rw [hrun]
      exact not_false
    · rw [hrun]
      cases failure with
      | some failure =>
        refine iff_of_true (hfailure failure rfl) fun h => ?_
        cases hgroups.symm.trans h
      | none =>
        have hgroups₀ : groupsAfter 0 tokens = _ := hgroups
        rw [Accepted, hgroups₀, Option.some.injEq]
        exact hready.parse_iff

/-- In `1+` the operator has one operand, `1)` ends no group and `(1` leaves one open. -/
theorem valueOf_fails_otherwise :
    valueOf ascii ("1+".toList.map unit) = .error .noSuchElement ∧
      valueOf ascii ("1)".toList.map unit) = .error .noSuchElement ∧
      valueOf ascii ("(1".toList.map unit) = .error .unsupportedOperation ∧
      ¬ FailsCleanly (valueOf ascii ("(1".toList.map unit)) := by
  have hopen : valueOf ascii ("(1".toList.map unit) = .error .unsupportedOperation := by decide
  refine ⟨by decide, by decide, hopen, ?_⟩
  rw [hopen]
  exact not_false

end

end

end OpenJfx.Fxml
