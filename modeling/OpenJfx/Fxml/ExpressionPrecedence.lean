import OpenJfx.Fxml.ExpressionParser
import Mathlib.Data.List.Count
import Mathlib.Data.List.TakeWhile

namespace OpenJfx.Fxml

open Data.Postfix List

variable {δ : Type}

/-- The priority of the operation at the root; operands bind tightest. -/
def rootPriority : Expression δ → Nat
  | .atom _ => maxPriority + 1
  | .unary op _ => op.getPriority
  | .binary op _ _ => op.getPriority

def group (inGroup : Bool) (tokens : List (Token δ)) : List (Token δ) :=
  if inGroup then .beginGroup :: (tokens ++ [.endGroup]) else tokens

/-- The tokens of an expression with the parentheses that the priorities require. -/
def print : Expression δ → List (Token δ)
  | .atom a => [.part (.atom a)]
  | .unary op e => .part (.unary op) :: group (rootPriority e < op.getPriority) (print e)
  | .binary op l r =>
    group (rootPriority l < op.getPriority) (print l) ++
      .part (.binary op) :: group (rootPriority r ≤ op.getPriority) (print r)

/-- A unary operator is printed outside of all parentheses. -/
def hasUnary : Expression δ → Bool
  | .atom _ => false
  | .unary _ _ => true
  | .binary op l r =>
    (op.getPriority ≤ rootPriority l && hasUnary l) ||
      (op.getPriority < rootPriority r && hasUnary r)

/-- No binary operator follows a unary operator in the same group. -/
def Separated : Expression δ → Prop
  | .atom _ => True
  | .unary _ e => Separated e
  | .binary op l r =>
    (op.getPriority ≤ rootPriority l → hasUnary l = false) ∧ Separated l ∧ Separated r

/-- What has been moved to the tokens after an expression has been read, and the operators
that are on the stack. -/
structure Moved (δ : Type) where
  done : List (Part δ)
  pending : List (Part δ)

def Moved.items (m : Moved δ) : List (Part δ) := m.done ++ m.pending

def Moved.group (inGroup : Bool) (m : Moved δ) : Moved δ :=
  if inGroup then ⟨m.items, []⟩ else m

/-- `isMoved` for the parts. -/
def isBelow (limit : Nat) (p : Part δ) : Bool := limit ≤ priority p ∧ priority p ≠ maxPriority

def moved : Expression δ → Moved δ
  | .atom a => ⟨[.atom a], []⟩
  | .unary op e =>
    let m := (moved e).group (rootPriority e < op.getPriority)
    ⟨m.done, m.pending ++ [.unary op]⟩
  | .binary op l r =>
    let left := (moved l).group (rootPriority l < op.getPriority)
    let right := (moved r).group (rootPriority r ≤ op.getPriority)
    ⟨left.done ++ left.pending.takeWhile (isBelow op.getPriority) ++ right.done,
      right.pending ++ .binary op :: left.pending.dropWhile (isBelow op.getPriority)⟩

theorem unaryPriority_eq (op : UnaryOperator) : op.getPriority = maxPriority := by
  cases op <;> rfl

theorem binaryPriority_lt (op : BinaryOperator) : op.getPriority < maxPriority := by
  cases op <;> decide

theorem priority_le (p : Part δ) : priority p ≤ maxPriority := by
  cases p with
  | atom a => exact Nat.zero_le _
  | unary op => exact Nat.le_of_eq (unaryPriority_eq op)
  | binary op => exact Nat.le_of_lt (binaryPriority_lt op)

theorem isMoved_mono {limit limit' : Nat} (hle : limit ≤ limit') {t : Token δ}
    (h : isMoved limit' t = true) : isMoved limit t = true := by
  cases t with
  | part p =>
    simp only [isMoved, decide_eq_true_eq] at h ⊢
    exact ⟨Nat.le_trans hle h.1, h.2⟩
  | beginGroup => exact nomatch h
  | endGroup => exact nomatch h

def Stops (stack : List (Token δ)) (limit : Nat) : Prop :=
  ∀ t ∈ stack.head?, isMoved limit t = false

variable {stack : List (Token δ)}

theorem Stops.mono {limit limit' : Nat} (h : Stops stack limit) (hle : limit ≤ limit') :
    Stops stack limit' := by
  intro t ht
  rw [← Bool.not_eq_true]
  intro hmoved
  have := h t ht
  rw [isMoved_mono hle hmoved] at this
  exact nomatch this

theorem stops_cons {t : Token δ} {limit : Nat} (h : isMoved limit t = false) :
    Stops (t :: stack) limit := by
  intro t' ht'
  cases ht'
  exact h

theorem takeWhile_stops {limit : Nat} (h : Stops stack limit) :
    stack.takeWhile (isMoved limit) = [] ∧ stack.dropWhile (isMoved limit) = stack := by
  cases stack with
  | nil => exact ⟨rfl, rfl⟩
  | cons t stack =>
    have ht := h t rfl
    simp [ht]

section

variable {stack : List (Token δ)} {limit : Nat}

theorem takeWhile_pending (h : Stops stack limit) (pending : List (Part δ)) :
    (pending.map Token.part ++ stack).takeWhile (isMoved limit) =
      (pending.takeWhile (isBelow limit)).map Token.part ∧
    (pending.map Token.part ++ stack).dropWhile (isMoved limit) =
      (pending.dropWhile (isBelow limit)).map Token.part ++ stack := by
  induction pending with
  | nil => exact takeWhile_stops h
  | cons p pending ih =>
    have hpart : isMoved limit (.part p) = isBelow limit p := rfl
    cases hbelow : isBelow limit p with
    | false => simp [hpart, hbelow]
    | true =>
      simp only [map_cons, cons_append, takeWhile_cons, dropWhile_cons,
        hpart, hbelow, if_true, ih, and_self]

end

namespace Yard

theorem processAll_append (y : Yard δ) (tokens tokens' : List (Token δ)) :
    y.processAll (tokens ++ tokens') = (y.processAll tokens).bind fun y => y.processAll tokens' :=
  foldlM_append

theorem closeGroup_pending (stack : List (Token δ)) (pending : List (Part δ)) :
    ∀ tokens, closeGroup tokens (pending.map Token.part ++ .beginGroup :: stack) =
      .ok ⟨tokens ++ pending.map Token.part, stack⟩ := by
  induction pending with
  | nil =>
    simp [closeGroup]
  | cons p pending ih =>
    intro tokens
    rw [map_cons, cons_append, closeGroup, ih]
    · simp
    · exact nofun

def Processes (tokens : List (Token δ)) (m : Moved δ) (limit : Nat) : Prop :=
  ∀ y : Yard δ, Stops y.stack limit →
    y.processAll tokens =
      .ok ⟨y.tokens ++ m.done.map Token.part, m.pending.map Token.part ++ y.stack⟩

theorem Processes.group {tokens : List (Token δ)} {m : Moved δ} {limit : Nat}
    (h : Processes tokens m limit) (y : Yard δ) :
    y.processAll (Fxml.group true tokens) = .ok ⟨y.tokens ++ m.items.map Token.part, y.stack⟩ := by
  have hstops : Stops ((.beginGroup : Token δ) :: y.stack) limit := stops_cons rfl
  change ((⟨y.tokens, .beginGroup :: y.stack⟩ : Yard δ).processAll (tokens ++ [.endGroup])) = _
  rw [processAll_append, h _ hstops]
  change (closeGroup _ _).bind pure = _
  rw [closeGroup_pending y.stack]
  simp [Moved.items, Except.bind, pure, Except.pure]

theorem Processes.operand {tokens : List (Token δ)} {m : Moved δ} {limit : Nat}
    (h : Processes tokens m limit) (inGroup : Bool) (y : Yard δ)
    (hstops : inGroup = false → Stops y.stack limit) :
    y.processAll (Fxml.group inGroup tokens) =
      .ok ⟨y.tokens ++ (m.group inGroup).done.map Token.part,
        (m.group inGroup).pending.map Token.part ++ y.stack⟩ := by
  cases inGroup with
  | true => exact h.group y
  | false => exact h y (hstops rfl)

theorem processes_print (e : Expression δ) : Processes (print e) (moved e) (rootPriority e) := by
  induction e with
  | atom a =>
    intro y _
    rfl
  | unary op e ih =>
    intro y _
    have hstops : Stops y.stack (priority (.unary op : Part δ)) := by
      intro t ht
      cases t with
      | part p =>
        refine decide_eq_false ?_
        rintro ⟨hge, hne⟩
        have hle := priority_le p
        change op.getPriority ≤ priority p at hge
        rw [unaryPriority_eq] at hge
        exact hne (Nat.le_antisymm hle hge)
      | beginGroup => rfl
      | endGroup => rfl
    have hpush : y.pushOperator (.unary op) = ⟨y.tokens, .part (.unary op) :: y.stack⟩ := by
      rw [pushOperator, (takeWhile_stops hstops).1, (takeWhile_stops hstops).2, append_nil]
    change (y.pushOperator (.unary op)).processAll _ = _
    rw [hpush, ih.operand]
    · simp [moved]
    · intro _
      refine stops_cons ?_
      simp [isMoved, priority, unaryPriority_eq]
  | binary op l r ihl ihr =>
    intro y hstops
    have hleft : decide (rootPriority l < op.getPriority) = false →
        Stops y.stack (rootPriority l) := by
      intro hge
      exact hstops.mono (Nat.not_lt.mp (of_decide_eq_false hge))
    rw [print, processAll_append, ihl.operand _ y hleft]
    generalize hm : (moved l).group (decide (rootPriority l < op.getPriority)) = left
    change (pushOperator _ _).processAll _ = _
    have htake := takeWhile_pending (show Stops y.stack op.getPriority from hstops) left.pending
    have hpush : pushOperator (⟨y.tokens ++ left.done.map Token.part,
        left.pending.map Token.part ++ y.stack⟩ : Yard δ) (.binary op) =
        ⟨y.tokens ++ left.done.map Token.part ++
          (left.pending.takeWhile (isBelow op.getPriority)).map Token.part,
          .part (.binary op) :: ((left.pending.dropWhile
            (isBelow op.getPriority)).map Token.part ++ y.stack)⟩ := by
      exact congrArg₂ Yard.mk (congrArg _ htake.1) (congrArg _ htake.2)
    rw [hpush, ihr.operand]
    · simp [moved, hm]
    · intro hgt
      refine stops_cons ?_
      have hlt := Nat.not_le.mp (of_decide_eq_false hgt)
      refine decide_eq_false ?_
      rintro ⟨hge, -⟩
      change rootPriority r ≤ op.getPriority at hge
      omega

end Yard

def operands (parts : List (Part δ)) : Nat :=
  parts.countP fun p => p matches .atom _

theorem operands_append (parts parts' : List (Part δ)) :
    operands (parts ++ parts') = operands parts + operands parts' :=
  countP_append

theorem items_group (inGroup : Bool) (m : Moved δ) : (m.group inGroup).items = m.items := by
  cases inGroup with
  | false => rfl
  | true => exact append_nil _

section

variable (op : BinaryOperator) (l r : Expression δ)

theorem items_binary :
    (moved (.binary op l r)).items =
      ((moved l).group (rootPriority l < op.getPriority)).done ++
        ((moved l).group (rootPriority l < op.getPriority)).pending.takeWhile
          (isBelow op.getPriority) ++
        ((moved r).items ++ .binary op ::
          ((moved l).group (rootPriority l < op.getPriority)).pending.dropWhile
            (isBelow op.getPriority)) := by
  rw [← items_group (rootPriority r ≤ op.getPriority) (moved r)]
  simp only [moved, Moved.items, append_assoc]

end

theorem items_unary (op : UnaryOperator) (e : Expression δ) :
    (moved (.unary op e)).items = (moved e).items ++ [.unary op] := by
  rw [← items_group (rootPriority e < op.getPriority) (moved e)]
  simp only [moved, Moved.items, append_assoc]

theorem mem_pending_group {inGroup : Bool} {m : Moved δ} {p : Part δ}
    (h : p ∈ (m.group inGroup).pending) : inGroup = false ∧ p ∈ m.pending := by
  cases inGroup with
  | false => exact ⟨rfl, h⟩
  | true => exact nomatch h

theorem mem_pending (e : Expression δ) : ∀ p ∈ (moved e).pending,
    rootPriority e ≤ priority p ∧ operands [p] = 0 := by
  induction e with
  | atom a => exact nofun
  | unary op e ih =>
    intro p hp
    rcases mem_append.mp hp with hp | hp
    · rcases mem_pending_group hp with ⟨hgroup, hp⟩
      have hle := Nat.not_lt.mp (of_decide_eq_false hgroup)
      exact ⟨Nat.le_trans hle (ih p hp).1, (ih p hp).2⟩
    · rw [mem_singleton.mp hp]
      exact ⟨Nat.le_refl _, rfl⟩
  | binary op l r ihl ihr =>
    intro p hp
    rcases mem_append.mp hp with hp | hp
    · rcases mem_pending_group hp with ⟨hgroup, hp⟩
      have hlt := Nat.not_le.mp (of_decide_eq_false hgroup)
      exact ⟨Nat.le_trans (Nat.le_of_lt hlt) (ihr p hp).1, (ihr p hp).2⟩
    · rcases mem_cons.mp hp with rfl | hp
      · exact ⟨Nat.le_refl _, rfl⟩
      · rcases mem_pending_group (dropWhile_subset _ hp) with ⟨hgroup, hp⟩
        have hle := Nat.not_lt.mp (of_decide_eq_false hgroup)
        exact ⟨Nat.le_trans hle (ihl p hp).1, (ihl p hp).2⟩

theorem unary_mem_pending (e : Expression δ) (h : hasUnary e = true) :
    ∃ op, .unary op ∈ (moved e).pending := by
  induction e with
  | atom a => exact nomatch h
  | unary op e ih => exact ⟨op, mem_append_right _ (mem_singleton_self _)⟩
  | binary op l r ihl ihr =>
    simp only [hasUnary, Bool.or_eq_true, Bool.and_eq_true] at h
    rcases h with ⟨hle, hl⟩ | ⟨hlt, hr⟩
    · rcases ihl hl with ⟨u, hu⟩
      refine ⟨u, mem_append_right _ (mem_cons_of_mem _ ?_)⟩
      rw [Moved.group, if_neg (by simpa using hle)]
      rw [← takeWhile_append_dropWhile (p := isBelow op.getPriority)
        (l := (moved l).pending)] at hu
      rcases mem_append.mp hu with hu | hu
      · have hbelow := mem_takeWhile_imp hu
        simp [isBelow, priority, unaryPriority_eq] at hbelow
      · exact hu
    · rcases ihr hr with ⟨u, hu⟩
      refine ⟨u, mem_append_left _ ?_⟩
      rw [Moved.group, if_neg (by simpa using hlt)]
      exact hu

theorem pending_of_not_hasUnary (e : Expression δ) (h : hasUnary e = false) :
    ∀ p ∈ (moved e).pending, priority p ≠ maxPriority := by
  induction e with
  | atom a => exact nofun
  | unary op e ih => exact nomatch h
  | binary op l r ihl ihr =>
    simp only [hasUnary, Bool.or_eq_false_iff, Bool.and_eq_false_iff] at h
    intro p hp
    rcases mem_append.mp hp with hp | hp
    · rcases mem_pending_group hp with ⟨hgroup, hp⟩
      have hlt := Nat.not_le.mp (of_decide_eq_false hgroup)
      exact ihr (h.2.resolve_left (by simpa using hlt)) p hp
    · rcases mem_cons.mp hp with rfl | hp
      · exact Nat.ne_of_lt (binaryPriority_lt op)
      · rcases mem_pending_group (dropWhile_subset _ hp) with ⟨hgroup, hp⟩
        have hle := Nat.not_lt.mp (of_decide_eq_false hgroup)
        exact ihl (h.1.resolve_left (by simpa using hle)) p hp

theorem dropWhile_pending_eq_nil (op : BinaryOperator) (l : Expression δ) :
    ((moved l).group (rootPriority l < op.getPriority)).pending.dropWhile
        (isBelow op.getPriority) = [] ↔
      (op.getPriority ≤ rootPriority l → hasUnary l = false) := by
  rw [dropWhile_eq_nil_iff]
  constructor
  · intro hbelow hle
    rw [← Bool.not_eq_true]
    intro hunary
    rcases unary_mem_pending l hunary with ⟨u, hu⟩
    rw [Moved.group, if_neg (by simpa using hle)] at hbelow
    have := hbelow _ hu
    simp [isBelow, priority, unaryPriority_eq] at this
  · intro hunary p hp
    rcases mem_pending_group hp with ⟨hgroup, hp⟩
    have hle := Nat.not_lt.mp (of_decide_eq_false hgroup)
    refine decide_eq_true ⟨Nat.le_trans hle (mem_pending l p hp).1, ?_⟩
    exact pending_of_not_hasUnary l (hunary hle) p hp

theorem operands_eq_zero {parts : List (Part δ)} (h : ∀ p ∈ parts, operands [p] = 0) :
    operands parts = 0 := by
  rw [operands, countP_eq_zero]
  intro p hp
  have hzero := h p hp
  cases p <;> simp_all [operands]

theorem done_eq_cons (e : Expression δ) : ∃ a rest, (moved e).done = .atom a :: rest := by
  have hgroup : ∀ (inGroup : Bool) {m : Moved δ}, (∃ a rest, m.done = .atom a :: rest) →
      ∃ a rest, (m.group inGroup).done = .atom a :: rest := by
    rintro inGroup m ⟨a, rest, hm⟩
    cases inGroup with
    | false => exact ⟨a, rest, hm⟩
    | true =>
      refine ⟨a, rest ++ m.pending, ?_⟩
      change m.done ++ m.pending = _
      rw [hm, cons_append]
  induction e with
  | atom a => exact ⟨a, [], rfl⟩
  | unary op e ih => exact hgroup _ ih
  | binary op l r ihl ihr =>
    rcases hgroup (rootPriority l < op.getPriority) ihl with ⟨a, rest, hl⟩
    refine ⟨a, (moved (.binary op l r)).done.tail, ?_⟩
    simp only [moved]
    rw [hl, cons_append, cons_append, tail_cons]

section

variable (op : BinaryOperator) (l r : Expression δ)

/-- The left operand without the operators that come last. -/
def leftPart : List (Part δ) :=
  ((moved l).group (rootPriority l < op.getPriority)).done ++
    ((moved l).group (rootPriority l < op.getPriority)).pending.takeWhile (isBelow op.getPriority)

/-- The operators of the left operand that come last. -/
def latePart : List (Part δ) :=
  ((moved l).group (rootPriority l < op.getPriority)).pending.dropWhile (isBelow op.getPriority)

theorem leftPart_append_latePart : leftPart op l ++ latePart op l = (moved l).items := by
  rw [leftPart, latePart, append_assoc, takeWhile_append_dropWhile]
  exact items_group _ _

theorem operands_latePart : operands (latePart op l) = 0 := by
  refine operands_eq_zero ?_
  intro p hp
  exact (mem_pending l p (mem_pending_group (dropWhile_subset _ hp)).2).2

end

theorem items_perm (e : Expression δ) : (moved e).items.Perm e.postorder := by
  induction e with
  | atom a => exact .refl _
  | unary op e ih =>
    rw [items_unary]
    exact ih.append_right _
  | binary op l r ihl ihr =>
    have hlate : ((moved r).items ++ .binary op :: latePart op l).Perm
        (latePart op l ++ ((moved r).items ++ [.binary op])) := by
      rw [append_cons]
      exact perm_append_comm
    rw [items_binary]
    refine (hlate.append_left (leftPart op l)).trans ?_
    rw [← append_assoc, leftPart_append_latePart]
    exact ihl.append (ihr.append_right _)

theorem items_binary_eq_iff (op : BinaryOperator) (l r : Expression δ) :
    (moved (.binary op l r)).items = (Tree.binary op l r).postorder ↔
      latePart op l = [] ∧ (moved l).items = l.postorder ∧ (moved r).items = r.postorder := by
  rw [items_binary]
  change leftPart op l ++ ((moved r).items ++ .binary op :: latePart op l) =
    l.postorder ++ (r.postorder ++ [.binary op]) ↔ _
  have hitems := leftPart_append_latePart op l
  constructor
  · intro heq
    have hlate : latePart op l = [] := by
      by_contra hne
      -- the left operand would go on with the first operand of the right one
      rcases exists_cons_of_ne_nil hne with ⟨p, late, hlate⟩
      rcases done_eq_cons r with ⟨a, rest, hr⟩
      have hlen := (items_perm l).length_eq
      have hcnt : operands (moved l).items = operands l.postorder := (items_perm l).countP_eq _
      rw [← hitems, length_append, hlate] at hlen
      rw [← hitems, operands_append, operands_latePart] at hcnt
      have htake := congrArg (List.take l.postorder.length) heq
      rw [take_left, ← hlen, take_append, take_of_length_le (by omega), Moved.items, hr] at htake
      rw [← htake] at hcnt
      simp [operands] at hcnt
    rw [hlate, append_nil] at hitems
    have hlen : (leftPart op l).length = l.postorder.length := by
      rw [hitems]
      exact (items_perm l).length_eq
    rcases append_inj heq hlen with ⟨hl, hr⟩
    refine ⟨hlate, hitems ▸ hl, ?_⟩
    rw [hlate] at hr
    exact append_cancel_right hr
  · rintro ⟨hlate, hl, hr⟩
    rw [hlate, append_nil, hl] at hitems
    rw [hlate, hitems, hr]

theorem items_eq_postorder_iff (e : Expression δ) :
    (moved e).items = e.postorder ↔ Separated e := by
  induction e with
  | atom a => exact ⟨fun _ => trivial, fun _ => rfl⟩
  | unary op e ih =>
    rw [items_unary, Tree.postorder, append_left_inj]
    exact ih
  | binary op l r ihl ihr =>
    rw [items_binary_eq_iff, ihl, ihr, latePart, dropWhile_pending_eq_nil]
    rfl

theorem foldlM_applyToken (parts : List (Part δ)) :
    ∀ stack, (parts.map Token.part).foldlM applyToken stack =
      match build parts stack with
      | some stack => .ok stack
      | none => .error .noSuchElement := by
  induction parts with
  | nil => exact fun stack => rfl
  | cons p parts ih =>
    intro stack
    rw [map_cons, foldlM_cons, build, foldlM_cons, applyToken]
    cases p.apply stack with
    | none => rfl
    | some stack => exact ih stack

theorem parse_parts (parts : List (Part δ)) (e : Expression δ) :
    parse (parts.map Token.part) = .ok e ↔ build parts [] = some [e] := by
  rw [parse, foldlM_applyToken]
  rcases build parts [] with _ | (_ | ⟨e', _ | ⟨e'', stack⟩⟩) <;> simp

def parseTokens (tokens : List (Token δ)) : Except ParseFailure (Expression δ) :=
  (Yard.processAll ⟨[], []⟩ tokens).bind fun y => parse y.finish

/-- A printed expression is parsed to itself exactly if no binary operator follows a unary
operator in the same group. -/
theorem parseTokens_print_iff (e : Expression δ) :
    parseTokens (print e) = .ok e ↔ Separated e := by
  have hstops : Stops ([] : List (Token δ)) (rootPriority e) := nofun
  have hfinish : Yard.finish ⟨[] ++ (moved e).done.map Token.part,
      (moved e).pending.map Token.part ++ []⟩ = (moved e).items.map Token.part := by
    simp [Yard.finish, Moved.items]
  rw [parseTokens, Yard.processes_print e ⟨[], []⟩ hstops, ← items_eq_postorder_iff,
    ← build_eq_iff, ← parse_parts, ← hfinish]
  rfl

end OpenJfx.Fxml
