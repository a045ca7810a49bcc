import OpenJfx.Fxml.ExpressionParser
import Mathlib.Data.List.TakeWhile

namespace OpenJfx.Fxml

open Data.Postfix List

section

variable {δ : Type}

/-- An `IllegalArgumentException` or one of its subclasses. -/
def ParseFailure.IsIllegalArgument : ParseFailure → Prop
  | .numberFormat | .illegalArgument _ => True
  | .noSuchElement | .unsupportedOperation => False

/-- A value of the kind, or an `IllegalArgumentException`. -/
def EndsIn {α : Type} (kind : α → Prop) : Except ParseFailure α → Prop
  | .ok value => kind value
  | .error failure => failure.IsIllegalArgument

def FailsCleanly {α : Type} : Except ParseFailure α → Prop := EndsIn fun _ => True

def Token.isAtom : Token δ → Bool
  | .part (.atom _) => true
  | _ => false

def Token.isBinary : Token δ → Bool
  | .part (.binary _) => true
  | _ => false

def groupsAfter : Nat → List (Token δ) → Option Nat
  | groups, [] => some groups
  | groups, .beginGroup :: tokens => groupsAfter (groups + 1) tokens
  | 0, .endGroup :: _ => none
  | groups + 1, .endGroup :: tokens => groupsAfter groups tokens
  | groups, .part _ :: tokens => groupsAfter groups tokens

/-- The tokens that the tokenizer finds where `unary` has the value. -/
def Admits (isUnary : Bool) : Token δ → Prop
  | .part (.atom _) => True
  | .part (.unary _) | .beginGroup => isUnary = true
  | .part (.binary _) | .endGroup => isUnary = false

def AdmitsAll : Bool → List (Token δ) → Prop
  | _, [] => True
  | isUnary, t :: tokens => Admits isUnary t ∧ AdmitsAll (isUnaryAfter t) tokens

section

variable {stack stack' : List (Expression δ)} {tokens : List (Token δ)}

theorem foldlM_cons_ok {t : Token δ} :
    (t :: tokens).foldlM applyToken stack = .ok stack' ↔
      ∃ next, applyToken stack t = .ok next ∧ tokens.foldlM applyToken next = .ok stack' := by
  rw [foldlM_cons]
  cases applyToken stack t with
  | error failure => exact ⟨nofun, fun ⟨_, h, _⟩ => nomatch h⟩
  | ok next => exact ⟨fun h => ⟨next, rfl, h⟩, fun ⟨_, h, hrest⟩ => by cases h; exact hrest⟩

theorem foldlM_append_ok {tokens' : List (Token δ)}
    (h : tokens.foldlM applyToken stack = .ok stack') :
    (tokens ++ tokens').foldlM applyToken stack = tokens'.foldlM applyToken stack' := by
  rw [foldlM_append, h]
  rfl

theorem applyToken_length {t : Token δ} (h : applyToken stack t = .ok stack') :
    stack' ≠ [] ∧
      stack'.length + (if t.isBinary then 1 else 0) = stack.length +
        (if t.isAtom then 1 else 0) := by
  cases t with
  | beginGroup => exact nomatch h
  | endGroup => exact nomatch h
  | part p =>
    cases p with
    | atom a =>
      cases h
      exact ⟨cons_ne_nil _ _, rfl⟩
    | unary op =>
      rcases stack with _ | ⟨e, stack⟩
      · exact nomatch h
      · cases h
        exact ⟨cons_ne_nil _ _, rfl⟩
    | binary op =>
      rcases stack with _ | ⟨r, _ | ⟨l, stack⟩⟩
      · exact nomatch h
      · exact nomatch h
      · cases h
        exact ⟨cons_ne_nil _ _, rfl⟩

theorem foldlM_length (tokens : List (Token δ)) : ∀ {stack stack' : List (Expression δ)},
    tokens.foldlM applyToken stack = .ok stack' →
      (tokens ≠ [] → stack' ≠ []) ∧ stack'.length + tokens.countP Token.isBinary =
        stack.length + tokens.countP Token.isAtom := by
  induction tokens with
  | nil =>
    intro stack stack' h
    cases h
    exact ⟨fun hne => absurd rfl hne, rfl⟩
  | cons t tokens ih =>
    intro stack stack' h
    rcases foldlM_cons_ok.mp h with ⟨next, ht, hrest⟩
    have hnext := applyToken_length ht
    have htoks := ih hrest
    rw [countP_cons, countP_cons]
    refine ⟨fun _ => ?_, by omega⟩
    rcases eq_or_ne tokens [] with rfl | hne
    · cases hrest
      exact hnext.1
    · exact htoks.1 hne

/-- Operators find their operands if and only if they are fewer than the operands. -/
theorem foldlM_operators_iff (tokens : List (Token δ)) : ∀ {stack : List (Expression δ)},
    (∀ t ∈ tokens, t.isAtom = false) →
      ((∃ stack', tokens.foldlM applyToken stack = .ok stack') ↔
        Token.beginGroup ∉ tokens ∧ Token.endGroup ∉ tokens ∧
          (tokens = [] ∨ tokens.countP Token.isBinary < stack.length)) := by
  induction tokens with
  | nil => exact fun _ => iff_of_true ⟨_, rfl⟩ ⟨not_mem_nil, not_mem_nil, .inl rfl⟩
  | cons t tokens ih =>
    intro stack hatom
    have hrest : ∀ {stack : List (Expression δ)}, _ :=
      fun {stack} => @ih stack fun t ht => hatom t (mem_cons_of_mem _ ht)
    have hcnt : ∀ n : Nat, tokens = [] → tokens.countP Token.isBinary < n + 1 := by
      rintro n rfl
      exact Nat.succ_pos n
    simp only [foldlM_cons_ok, mem_cons, not_or, countP_cons, cons_ne_nil, false_or]
    cases t with
    | beginGroup => exact iff_of_false (fun ⟨_, _, h, _⟩ => nomatch h) (fun h => h.1.1 rfl)
    | endGroup => exact iff_of_false (fun ⟨_, _, h, _⟩ => nomatch h) (fun h => h.2.1.1 rfl)
    | part p =>
      have hgroups : ¬ (Token.beginGroup : Token δ) = .part p ∧
          ¬ (Token.endGroup : Token δ) = .part p := ⟨nofun, nofun⟩
      have happly : ∀ next, applyToken stack (.part p) = .ok next →
          ((∃ stack', ∃ next, applyToken stack (.part p) = .ok next ∧
            tokens.foldlM applyToken next = .ok stack') ↔
              ∃ stack', tokens.foldlM applyToken next = .ok stack') := by
        intro next hnext
        simp only [hnext, Except.ok.injEq, exists_eq_left']
      simp only [hgroups]
      cases p with
      | atom a => exact absurd (hatom _ mem_cons_self) nofun
      | unary op =>
        rcases stack with _ | ⟨e, stack⟩
        · exact iff_of_false (fun ⟨_, _, h, _⟩ => nomatch h)
            (fun h => absurd h.2.2 (Nat.not_lt_zero _))
        · rw [happly _ rfl, hrest]
          simp only [not_false_eq_true, true_and]
          exact and_congr_right fun _ => and_congr_right fun _ => or_iff_right_of_imp (hcnt _)
      | binary op =>
        rcases stack with _ | ⟨r, _ | ⟨l, stack⟩⟩
        · exact iff_of_false (fun ⟨_, _, h, _⟩ => nomatch h)
            (fun h => absurd h.2.2 (Nat.not_lt_zero _))
        · refine iff_of_false (fun ⟨_, _, h, _⟩ => nomatch h) fun h => ?_
          have hlt := h.2.2
          simp [Token.isBinary] at hlt
        · rw [happly _ rfl, hrest]
          simp only [length_cons, Token.isBinary, if_true, not_false_eq_true, true_and,
            Nat.add_lt_add_iff_right]
          exact and_congr_right fun _ => and_congr_right fun _ => or_iff_right_of_imp (hcnt _)

theorem foldlM_fails {failure : ParseFailure}
    (h : tokens.foldlM applyToken stack = .error failure) : ¬ failure.IsIllegalArgument := by
  induction tokens generalizing stack with
  | nil => exact nomatch h
  | cons t tokens ih =>
    rw [foldlM_cons] at h
    cases ht : applyToken stack t with
    | ok next =>
      rw [ht] at h
      exact ih h
    | error failure' =>
      rw [ht] at h
      cases h
      unfold applyToken at ht
      split at ht
      · split at ht
        · exact nomatch ht
        · cases ht
          exact not_false
      · cases ht
        exact not_false

theorem parse_failsCleanly_iff :
    FailsCleanly (parse tokens) ↔ ∃ stack, tokens.foldlM applyToken [] = .ok stack := by
  rw [parse]
  cases h : tokens.foldlM applyToken ([] : List (Expression δ)) with
  | error failure => exact iff_of_false (foldlM_fails h) nofun
  | ok stack =>
    refine iff_of_true ?_ ⟨stack, rfl⟩
    split
    · trivial
    · trivial
    · rename_i hstack
      exact nomatch hstack

end

def Token.isBeginGroup : Token δ → Bool
  | .beginGroup => true
  | _ => false

/-- What the two lists of the tokenizer hold after the tokens `done`. -/
structure Ready (isUnary : Bool) (done : List (Token δ)) (y : Yard δ) : Prop where
  stack : ∃ stack, y.tokens.foldlM applyToken [] = .ok stack ∧
    stack.length + done.countP Token.isBinary =
      done.countP Token.isAtom + y.stack.countP Token.isBinary
  enough : done.countP Token.isBinary + (if isUnary then 0 else 1) ≤ done.countP Token.isAtom
  notAtom : ∀ t ∈ y.stack, t.isAtom = false
  notEnd : Token.endGroup ∉ y.stack
  empty_iff : y.finish = [] ↔ done = []

section

variable {isUnary : Bool} {done moved rest : List (Token δ)} {y : Yard δ} {t : Token δ}

theorem beginGroup_mem : Token.beginGroup ∈ moved ↔ 0 < moved.countP Token.isBeginGroup := by
  rw [countP_pos_iff]
  constructor
  · exact fun h => ⟨_, h, rfl⟩
  · rintro ⟨t, ht, hgroup⟩
    cases t with
    | beginGroup => exact ht
    | _ => exact nomatch hgroup

theorem Ready.move (h : Ready false done y) (hstack : y.stack = moved ++ rest)
    (hmoved : Token.beginGroup ∉ moved) : ∃ stack,
      (y.tokens ++ moved).foldlM applyToken [] = .ok stack ∧
        stack.length + done.countP Token.isBinary =
          done.countP Token.isAtom + rest.countP Token.isBinary := by
  rcases h.stack with ⟨stack, htoks, hlen⟩
  have henough : done.countP Token.isBinary + 1 ≤ done.countP Token.isAtom := h.enough
  rw [hstack, countP_append] at hlen
  have hatom : ∀ t ∈ moved, t.isAtom = false := by
    intro t ht
    refine h.notAtom t ?_
    rw [hstack]
    exact mem_append_left _ ht
  have hend : Token.endGroup ∉ moved := by
    intro hmem
    refine h.notEnd ?_
    rw [hstack]
    exact mem_append_left _ hmem
  obtain ⟨stack', hrun⟩ := (foldlM_operators_iff moved hatom).mpr
    ⟨hmoved, hend, .inr (show moved.countP Token.isBinary < stack.length by omega)⟩
  have hcnt := (foldlM_length moved hrun).2
  have hnone : moved.countP Token.isAtom = 0 := by
    rw [countP_eq_zero]
    intro t ht
    rw [hatom t ht]
    exact Bool.false_ne_true
  refine ⟨stack', (foldlM_append_ok htoks).trans hrun, by omega⟩

theorem closeGroup_cases (stack : List (Token δ)) : ∀ tokens,
    (Token.beginGroup ∉ stack ∧ Yard.closeGroup tokens stack = .error .noSuchElement) ∨
      ∃ moved rest, stack = moved ++ .beginGroup :: rest ∧ Token.beginGroup ∉ moved ∧
        Yard.closeGroup tokens stack = .ok ⟨tokens ++ moved, rest⟩ := by
  induction stack with
  | nil => exact fun _ => .inl ⟨not_mem_nil, rfl⟩
  | cons t stack ih =>
    intro tokens
    have hother : t ≠ .beginGroup →
        Yard.closeGroup tokens (t :: stack) = Yard.closeGroup (tokens ++ [t]) stack := by
      intro hne
      cases t with
      | beginGroup => exact absurd rfl hne
      | _ => rfl
    have hcases : t = .beginGroup ∨ t ≠ .beginGroup := by
      cases t with
      | beginGroup => exact .inl rfl
      | _ => exact .inr nofun
    rcases hcases with rfl | hne
    · refine .inr ⟨[], stack, rfl, not_mem_nil, ?_⟩
      rw [append_nil]
      rfl
    · rw [hother hne]
      rcases ih (tokens ++ [t]) with ⟨hnone, hrun⟩ | ⟨moved, rest, rfl, hnone, hrun⟩
      · exact .inl ⟨not_mem_cons_of_ne_of_not_mem hne.symm hnone, hrun⟩
      · refine .inr ⟨t :: moved, rest, rfl, not_mem_cons_of_ne_of_not_mem hne.symm hnone, ?_⟩
        rw [hrun, append_assoc, singleton_append]

theorem isMoved_unary (op : UnaryOperator) (t : Token δ) :
    isMoved (priority (.unary op : Part δ)) t = false := by
  cases op <;> rcases t with (a | op' | op') | _ | _
  all_goals first | rfl | cases op' <;> rfl

theorem pushOperator_split (y : Yard δ) (op : Part δ) : ∃ moved rest, y.stack = moved ++ rest ∧
    Token.beginGroup ∉ moved ∧ (∀ u : UnaryOperator, op = .unary u → moved = []) ∧
    y.pushOperator op = ⟨y.tokens ++ moved, .part op :: rest⟩ := by
  refine ⟨_, _, takeWhile_append_dropWhile.symm, ?_, ?_, rfl⟩
  · exact fun hmem => absurd (mem_takeWhile_imp hmem) Bool.false_ne_true
  · rintro u rfl
    cases hstack : y.stack with
    | nil => rfl
    | cons t stack => exact takeWhile_cons_of_neg (by rw [isMoved_unary]; exact nofun)

theorem Ready.pushOperator (h : Ready isUnary done y) {op : Part δ}
    (ht : Admits isUnary (.part op)) (hatom : (Token.part op).isAtom = false) :
    Ready true (done ++ [.part op]) (y.pushOperator op) ∧
      (y.pushOperator op).stack.countP Token.isBeginGroup =
        y.stack.countP Token.isBeginGroup := by
  rcases pushOperator_split y op with ⟨moved, rest, hstack, hmoved, hunary, hpush⟩
  have henough := h.enough
  have hmem : ∀ t ∈ rest, t ∈ y.stack := by
    intro t hin
    rw [hstack]
    exact mem_append_right _ hin
  have hrun : ∃ stack, (y.tokens ++ moved).foldlM applyToken [] = .ok stack ∧
      stack.length + done.countP Token.isBinary =
        done.countP Token.isAtom + rest.countP Token.isBinary := by
    cases op with
    | atom a => exact nomatch hatom
    | unary u =>
      obtain rfl := hunary u rfl
      have hready := h.stack
      rwa [hstack, ← append_nil y.tokens] at hready
    | binary op =>
      obtain rfl : isUnary = false := ht
      exact h.move hstack hmoved
  rw [hpush]
  refine ⟨⟨?_, ?_, ?_, ?_, ?_⟩, ?_⟩
  · rcases hrun with ⟨stack, hrun, hlen⟩
    refine ⟨stack, hrun, ?_⟩
    simp only [countP_append, countP_cons, countP_nil, hatom, Bool.false_eq_true, if_false]
    omega
  · simp only [countP_append, countP_cons, countP_nil, hatom, Bool.false_eq_true, if_false,
      if_true]
    cases op with
    | atom a => exact nomatch hatom
    | unary op =>
      simp only [Token.isBinary, Bool.false_eq_true, if_false]
      omega
    | binary op =>
      obtain rfl : isUnary = false := ht
      exact henough
  · intro t hin
    rcases mem_cons.mp hin with rfl | hin
    · exact hatom
    · exact h.notAtom t (hmem t hin)
  · intro hin
    rcases mem_cons.mp hin with heq | hin
    · exact nomatch heq
    · exact h.notEnd (hmem _ hin)
  · exact iff_of_false (append_ne_nil_of_right_ne_nil _ (cons_ne_nil _ _)) (concat_ne_nil _ _)
  · have hnone : moved.countP Token.isBeginGroup = 0 :=
      Nat.eq_zero_of_not_pos fun hpos => hmoved (beginGroup_mem.mpr hpos)
    rw [hstack, countP_append, hnone, Nat.zero_add]
    rfl

theorem Ready.beginGroup (h : Ready true done y) :
    Ready true (done ++ [.beginGroup]) ⟨y.tokens, .beginGroup :: y.stack⟩ := by
  refine ⟨?_, ?_, ?_, ?_, ?_⟩
  · rw [countP_append, countP_append]
    exact h.stack
  · rw [countP_append, countP_append]
    exact h.enough
  · intro t hin
    rcases mem_cons.mp hin with rfl | hin
    · rfl
    · exact h.notAtom t hin
  · intro hin
    rcases mem_cons.mp hin with heq | hin
    · exact nomatch heq
    · exact h.notEnd hin
  · exact iff_of_false (append_ne_nil_of_right_ne_nil _ (cons_ne_nil _ _)) (concat_ne_nil _ _)

theorem Ready.endGroup (h : Ready false done y) (hstack : y.stack = moved ++ .beginGroup :: rest)
    (hmoved : Token.beginGroup ∉ moved) :
    Ready false (done ++ [.endGroup]) ⟨y.tokens ++ moved, rest⟩ := by
  have hmem : ∀ t ∈ rest, t ∈ y.stack := by
    intro t hin
    rw [hstack]
    exact mem_append_right _ (mem_cons_of_mem _ hin)
  have henough : done.countP Token.isBinary + 1 ≤ done.countP Token.isAtom := h.enough
  obtain ⟨stack, hrun, hlen⟩ := h.move hstack hmoved
  refine ⟨?_, ?_, fun t hin => h.notAtom t (hmem t hin), fun hin => h.notEnd (hmem _ hin),
    iff_of_false (fun hemp => ?_) (concat_ne_nil _ _)⟩
  · rw [countP_append, countP_append]
    exact ⟨stack, hrun, hlen⟩
  · rw [countP_append, countP_append]
    exact henough
  · have htoks : y.tokens ++ moved = [] := (append_eq_nil_iff.mp hemp).1
    rw [htoks] at hrun
    cases hrun
    rw [length_nil] at hlen
    omega

theorem Ready.atom (h : Ready isUnary done y) (a : Operand δ) :
    Ready false (done ++ [.part (.atom a)]) ⟨y.tokens ++ [.part (.atom a)], y.stack⟩ := by
  have henough := h.enough
  rcases h.stack with ⟨stack, hrun, hlen⟩
  have hatom : (Token.part (.atom a)).isAtom = true := rfl
  have hbinary : (Token.part (.atom a)).isBinary = false := rfl
  refine ⟨⟨.atom a :: stack, foldlM_append_ok hrun, ?_⟩, ?_, h.notAtom, h.notEnd, ?_⟩
  · simp only [countP_append, countP_cons, countP_nil, length_cons, hatom, hbinary, if_true,
      Bool.false_eq_true, if_false]
    omega
  · simp only [countP_append, countP_cons, countP_nil, hatom, hbinary, if_true,
      Bool.false_eq_true, if_false]
    omega
  · refine iff_of_false (append_ne_nil_of_left_ne_nil ?_ _) (concat_ne_nil _ _)
    exact concat_ne_nil _ _

theorem Ready.process (h : Ready isUnary done y) (ht : Admits isUnary t) :
    (y.process t = .error .noSuchElement ∧
      ∀ tokens, groupsAfter (y.stack.countP Token.isBeginGroup) (t :: tokens) = none) ∨
    ∃ y', y.process t = .ok y' ∧ Ready (isUnaryAfter t) (done ++ [t]) y' ∧
      ∀ tokens, groupsAfter (y.stack.countP Token.isBeginGroup) (t :: tokens) =
        groupsAfter (y'.stack.countP Token.isBeginGroup) tokens := by
  cases t with
  | beginGroup =>
    obtain rfl : isUnary = true := ht
    refine .inr ⟨_, rfl, h.beginGroup, fun tokens => ?_⟩
    rw [countP_cons_of_pos (by rfl)]
    rfl
  | endGroup =>
    obtain rfl : isUnary = false := ht
    rcases closeGroup_cases y.stack y.tokens with ⟨hnone, hrun⟩ |
      ⟨moved, rest, hstack, hmoved, hrun⟩
    · refine .inl ⟨hrun, fun tokens => ?_⟩
      rw [Nat.eq_zero_of_not_pos fun hpos => hnone (beginGroup_mem.mpr hpos)]
      rfl
    · refine .inr ⟨_, hrun, h.endGroup hstack hmoved, fun tokens => ?_⟩
      have hnone : moved.countP Token.isBeginGroup = 0 :=
        Nat.eq_zero_of_not_pos fun hpos => hmoved (beginGroup_mem.mpr hpos)
      rw [hstack, countP_append, hnone, Nat.zero_add, countP_cons_of_pos (by rfl)]
      rfl
  | part p =>
    cases p with
    | atom a => exact .inr ⟨_, rfl, h.atom a, fun _ => rfl⟩
    | unary op | binary op =>
      obtain ⟨hready, hgroups⟩ := h.pushOperator ht rfl
      refine .inr ⟨_, rfl, hready, fun tokens => ?_⟩
      rw [hgroups]
      rfl

theorem Ready.processAll (tokens : List (Token δ)) :
    ∀ {isUnary : Bool} {done : List (Token δ)} {y : Yard δ}, Ready isUnary done y →
      AdmitsAll isUnary tokens →
      (y.processAll tokens = .error .noSuchElement ∧
        groupsAfter (y.stack.countP Token.isBeginGroup) tokens = none) ∨
      ∃ y' isUnary', y.processAll tokens = .ok y' ∧ Ready isUnary' (done ++ tokens) y' ∧
        groupsAfter (y.stack.countP Token.isBeginGroup) tokens =
          some (y'.stack.countP Token.isBeginGroup) := by
  induction tokens with
  | nil =>
    intro isUnary done y h _
    refine .inr ⟨y, isUnary, rfl, ?_, rfl⟩
    rwa [append_nil]
  | cons t tokens ih =>
    intro isUnary done y h hadmits
    rcases h.process hadmits.1 with ⟨hrun, hnone⟩ | ⟨y', hrun, hready, hgroups⟩
    · refine .inl ⟨?_, hnone tokens⟩
      rw [Yard.processAll, foldlM_cons, hrun]
      rfl
    · rw [hgroups, Yard.processAll, foldlM_cons, hrun]
      have hrest := ih hready hadmits.2
      rwa [append_assoc] at hrest

theorem ready_empty : Ready true [] (⟨[], []⟩ : Yard δ) :=
  ⟨⟨[], rfl, rfl⟩, Nat.le_refl 0, nofun, nofun, iff_of_true rfl rfl⟩

theorem Ready.parse_iff (h : Ready isUnary done y) : FailsCleanly (parse y.finish) ↔
    y.stack.countP Token.isBeginGroup = 0 ∧
      (done = [] ∨ done.countP Token.isBinary < done.countP Token.isAtom) := by
  rcases h.stack with ⟨stack, hrun, hlen⟩
  rw [parse_failsCleanly_iff, Yard.finish, foldlM_append_ok hrun,
    foldlM_operators_iff _ h.notAtom, beginGroup_mem, Nat.pos_iff_ne_zero, not_not]
  refine and_congr_right fun _ => ?_
  rw [and_iff_right h.notEnd]
  constructor
  · rintro (hstack | hlt)
    · rcases eq_or_ne y.tokens [] with htoks | htoks
      · refine .inl (h.empty_iff.mp ?_)
        rw [Yard.finish, htoks, hstack, append_nil]
      · have hpos := length_pos_of_ne_nil ((foldlM_length _ hrun).1 htoks)
        rw [hstack, countP_nil] at hlen
        exact .inr (by omega)
    · exact .inr (by omega)
  · rintro (hdone | hlt)
    · exact .inl (append_eq_nil_iff.mp (h.empty_iff.mpr hdone)).2
    · exact .inr (by omega)

end

end

end OpenJfx.Fxml
