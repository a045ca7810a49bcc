import OpenJfx.Data.Postfix
import Mathlib.Algebra.Order.Ring.Int

namespace OpenJfx.Fxml

open Data.Postfix

inductive ParseFailure where
  | noSuchElement
  | unsupportedOperation
  | numberFormat
  | illegalArgument (message : String)
  deriving DecidableEq

inductive UnaryOperator where
  | negate
  | not
  deriving DecidableEq

/-- The operators of `Operator` with two operands. -/
inductive BinaryOperator where
  | multiply
  | divide
  | modulo
  | add
  | subtract
  | greaterThan
  | greaterThanOrEqualTo
  | lessThan
  | lessThanOrEqualTo
  | equalTo
  | notEqualTo
  | and
  | or
  deriving DecidableEq

def maxPriority : Nat := 6

def UnaryOperator.getPriority : UnaryOperator → Nat
  | .negate => 6
  | .not => 6

def BinaryOperator.getPriority : BinaryOperator → Nat
  | .multiply | .divide | .modulo => 5
  | .add | .subtract => 4
  | .greaterThan | .greaterThanOrEqualTo | .lessThan | .lessThanOrEqualTo => 3
  | .equalTo | .notEqualTo => 2
  | .and => 1
  | .or => 0

/-- The value of a literal; strings are sequences of UTF-16 code units, and the values of type
`double` are not looked into. -/
inductive Literal (δ : Type) where
  | null
  | boolean (value : Bool)
  | long (value : Nat)
  | double (value : δ)
  | string (value : List Nat)
  deriving DecidableEq

abbrev KeyPath := List (List Nat)

inductive Operand (δ : Type) where
  | literal (value : Literal δ)
  | variable (path : KeyPath)
  deriving DecidableEq

abbrev Expression (δ : Type) := Tree (Operand δ) UnaryOperator BinaryOperator

abbrev Part (δ : Type) := Item (Operand δ) UnaryOperator BinaryOperator

inductive Token (δ : Type) where
  | part (p : Part δ)
  | beginGroup
  | endGroup
  deriving DecidableEq

section

variable {δ : Type}

def priority : Part δ → Nat
  | .unary op => op.getPriority
  | .binary op => op.getPriority
  | .atom _ => 0

/-- The condition of the loop that moves operators from the stack to the tokens. -/
def isMoved (limit : Nat) : Token δ → Bool
  | .part p => limit ≤ priority p ∧ priority p ≠ maxPriority
  | _ => false

structure Yard (δ : Type) where
  tokens : List (Token δ)
  stack : List (Token δ)

namespace Yard

def pushOperator (y : Yard δ) (op : Part δ) : Yard δ where
  tokens := y.tokens ++ y.stack.takeWhile (isMoved (priority op))
  stack := .part op :: y.stack.dropWhile (isMoved (priority op))

/-- The loop for the end of a group. -/
def closeGroup : List (Token δ) → List (Token δ) → Except ParseFailure (Yard δ)
  | _, [] => .error .noSuchElement
  | tokens, .beginGroup :: stack => .ok ⟨tokens, stack⟩
  | tokens, t :: stack => closeGroup (tokens ++ [t]) stack

/-- The part of `tokenize` that processes a token. -/
def process (y : Yard δ) : Token δ → Except ParseFailure (Yard δ)
  | .part (.atom a) => .ok { y with tokens := y.tokens ++ [.part (.atom a)] }
  | .part op => .ok (y.pushOperator op)
  | .beginGroup => .ok { y with stack := .beginGroup :: y.stack }
  | .endGroup => closeGroup y.tokens y.stack

def processAll (y : Yard δ) (tokens : List (Token δ)) : Except ParseFailure (Yard δ) :=
  tokens.foldlM process y

def finish (y : Yard δ) : List (Token δ) := y.tokens ++ y.stack

end Yard

/-- A turn of the loop of `parse`. -/
def applyToken (stack : List (Expression δ)) : Token δ → Except ParseFailure (List (Expression δ))
  | .part p =>
    match p.apply stack with
    | some stack => .ok stack
    | none => .error .noSuchElement
  | _ => .error .unsupportedOperation

/-- `parse`, for the tokens in postfix form. -/
def parse (tokens : List (Token δ)) : Except ParseFailure (Expression δ) :=
  match tokens.foldlM applyToken [] with
  | .ok [e] => .ok e
  | .ok _ => .error (.illegalArgument "Invalid expression.")
  | .error e => .error e

end

end OpenJfx.Fxml

namespace OpenJfx.Fxml

abbrev unit (c : Char) : Nat := c.toNat

/-- Characters that are not part of names, numbers and blanks. -/
def symbols : List Nat :=
  ['"', '\'', '(', ')', '+', '-', '*', '/', '%', '=', '!', '>', '<', '&', '|', '.', '[', ']',
    '\\'].map unit

def isISOControl (c : Nat) : Bool := c ≤ 0x1f ∨ 0x7f ≤ c ∧ c ≤ 0x9f

/-- The methods of `Character` and `Double` that are used, and what is known of them. -/
structure Platform (δ : Type) where
  isWhitespace : Nat → Bool
  isDigit : Nat → Bool
  isJavaIdentifierStart : Nat → Bool
  isJavaIdentifierPart : Nat → Bool
  digit : Nat → Nat → Option Nat
  parseDouble : List Nat → Option δ
  symbol_class : ∀ c ∈ symbols, isWhitespace c = false ∧ isJavaIdentifierPart c = false
  start_part : ∀ c, isJavaIdentifierStart c = true → isJavaIdentifierPart c = true
  digit_part : ∀ c, isDigit c = true → isJavaIdentifierPart c = true
  digit_not_start : ∀ c, isDigit c = true → isJavaIdentifierStart c = false
  digit_not_control : ∀ c, isDigit c = true → isISOControl c = false
  part_not_whitespace : ∀ c, isJavaIdentifierPart c = true → isWhitespace c = false
  letter_start : ∀ c : Char, c.isAlpha = true → isJavaIdentifierStart c.toNat = true

def nullKeyword : List Nat := ['n', 'u', 'l', 'l'].map unit

def trueKeyword : List Nat := ['t', 'r', 'u', 'e'].map unit

def falseKeyword : List Nat := ['f', 'a', 'l', 's', 'e'].map unit

/-- The loop of `readKeyword` for what is left of the keyword, and its end. When the text ends
before the keyword does, the character after the ones that agree is one that has been left in
the buffer. -/
def readKeyword : List Nat → Nat → List Nat → List Nat → Bool × List Nat × List Nat
  | [], _, pushbackBuffer, text => (true, pushbackBuffer, text)
  | _ :: _, i, pushbackBuffer, [] => (false, pushbackBuffer, pushbackBuffer.take (i + 1))
  | k :: keyword, i, pushbackBuffer, c :: text =>
    let pushbackBuffer := pushbackBuffer.set i c
    if k ≠ c then (false, pushbackBuffer, pushbackBuffer.take (i + 1) ++ text)
    else readKeyword keyword (i + 1) pushbackBuffer text

section

variable {δ : Type} (platform : Platform δ)

def closeQuote (quoted : Bool) (quote : Nat) : List Nat → Bool × List Nat
  | [] => (quoted, [])
  | c :: text => if quoted ∧ c = quote then (false, text) else (quoted, c :: text)

def readBracketed : Nat → Bool → Nat → List Nat → List Nat →
    Except ParseFailure (List Nat × List Nat)
  | 0, _, _, _, _ => .error (.illegalArgument "Unterminated bracketed identifier.")
  | _ + 1, quoted, _, _, [] =>
    if quoted then .error (.illegalArgument "Unterminated quoted identifier.")
    else .error (.illegalArgument "Unterminated bracketed identifier.")
  | turns + 1, quoted, quote, key, c :: text =>
    if isISOControl c then .error (.illegalArgument "Illegal identifier character.")
    else if ¬ quoted ∧ ¬ platform.isDigit c then
      .error (.illegalArgument "Illegal character in index value.")
    else
      match closeQuote quoted quote text with
      | (quoted, []) => readBracketed turns quoted quote (key ++ [c]) []
      | (quoted, c' :: text) =>
        if c' = unit ']' then
          if quoted then .error (.illegalArgument "Unterminated quoted identifier.")
          else .ok (key ++ [c], text)
        else readBracketed turns quoted quote (key ++ [c]) (c' :: text)

def isKeyPart (c : Nat) : Bool :=
  c ≠ unit '.' ∧ c ≠ unit '[' ∧ platform.isJavaIdentifierPart c

def readKey (text : List Nat) : Except ParseFailure (List Nat × List Nat) :=
  match text with
  | 91 :: text =>
    match text with
    | [] => .error (.illegalArgument "Unterminated bracketed identifier.")
    | c :: rest =>
      if c = unit '"' ∨ c = unit '\'' then
        readBracketed platform (rest.length + 1) true c [] rest
      else readBracketed platform (text.length + 1) false 0 [] text
  | text => .ok (text.takeWhile (isKeyPart platform), text.dropWhile (isKeyPart platform))

def skipDot : List Nat → Except ParseFailure (List Nat)
  | [] => .ok []
  | c :: text =>
    if c = unit '.' then
      match text with
      | [] => .error (.illegalArgument "Illegal terminator character.")
      | text => .ok text
    else .ok (c :: text)

def readKeys : Nat → List Nat → Except ParseFailure (KeyPath × List Nat)
  | 0, text => .ok ([], text)
  | turns + 1, text =>
    match text with
    | [] => .ok ([], [])
    | c :: rest =>
      if platform.isJavaIdentifierStart c ∨ c = unit '[' then do
        let (key, text) ← readKey platform (c :: rest)
        let text ← skipDot text
        if key = [] then .error (.illegalArgument "Missing identifier.")
        else do
          let (keys, text) ← readKeys turns text
          pure (key :: keys, text)
      else .ok ([], c :: rest)

def readKeyPath (text : List Nat) : Except ParseFailure (KeyPath × List Nat) := do
  let (keys, text) ← readKeys platform text.length text
  if keys = [] then .error (.illegalArgument "Invalid path.") else pure (keys, text)

def parseLong (number : List Nat) : Option Nat := do
  let value ← number.foldlM (fun value c => (platform.digit c 10).map (value * 10 + ·)) 0
  if value < 2 ^ 63 then some value else none

def isNumberPart (c : Nat) : Bool :=
  platform.isDigit c ∨ c = unit '.' ∨ c = unit 'e' ∨ c = unit 'E'

def readNumber (text : List Nat) : Except ParseFailure (Literal δ × List Nat) :=
  let number := text.takeWhile (isNumberPart platform)
  let text := text.dropWhile (isNumberPart platform)
  if unit '.' ∈ number then
    match platform.parseDouble number with
    | some value => .ok (.double value, text)
    | none => .error .numberFormat
  else
    match parseLong platform number with
    | some value => .ok (.long value, text)
    | none => .error .numberFormat

/-- `Integer.parseInt` with radix 16 for four characters, the first of which may be a sign. -/
def parseHex (digits : List Nat) : Option Int :=
  match digits with
  | [] => none
  | c :: rest =>
    let value := fun digits : List Nat =>
      digits.foldlM (fun value c => (platform.digit c 16).map (value * 16 + ·)) 0
    if c = unit '+' then (value rest).map Int.ofNat
    else if c = unit '-' then (value rest).map fun n => -Int.ofNat n
    else (value digits).map Int.ofNat

/-- The characters that may follow a backslash, apart from `u`, with what they stand for. -/
def escapes : List (Nat × Nat) :=
  [(unit 'b', 8), (unit 'f', 12), (unit 'n', 10), (unit 'r', 13), (unit 't', 9),
    (unit '\\', unit '\\'), (unit '/', unit '/'), (unit '"', unit '"'), (unit '\'', unit '\'')]

def readEscape (text : List Nat) : Except ParseFailure (Nat × List Nat) :=
  match text with
  | [] => .error (.illegalArgument "Unsupported escape sequence.")
  | c :: text =>
    if c = unit 'u' then
      match parseHex platform ((text ++ List.replicate 4 0xffff).take 4) with
      | some value => .ok ((value % 2 ^ 16).toNat, text.drop 4)
      | none => .error .numberFormat
    else
      match escapes.lookup c with
      | some value => .ok (value, text)
      | none => .error (.illegalArgument "Unsupported escape sequence.")

/-- The loop for a string with the delimiter `t`; every turn takes a character. -/
def readString (t : Nat) : Nat → List Nat → List Nat → Except ParseFailure (List Nat × List Nat)
  | 0, _, _ => .error (.illegalArgument "Unterminated string.")
  | _ + 1, _, [] => .error (.illegalArgument "Unterminated string.")
  | turns + 1, value, c :: text =>
    if c = t then .ok (value, text)
    else if isISOControl c then readString t turns value text
    else if c = unit '\\' then do
      let (c, text) ← readEscape platform text
      readString t turns (value ++ [c]) text
    else readString t turns (value ++ [c]) text

def readUnary (c : Nat) : Except ParseFailure (Token δ) :=
  if c = unit '-' then .ok (.part (.unary .negate))
  else if c = unit '!' then .ok (.part (.unary .not))
  else if c = unit '(' then .ok .beginGroup
  else .error (.illegalArgument "Unexpected character in expression.")

def readSecond (second : Nat) (op : BinaryOperator) (text : List Nat) :
    Except ParseFailure (Token δ × List Nat) :=
  match text with
  | c :: text =>
    if c = second then .ok (.part (.binary op), text)
    else .error (.illegalArgument "Unexpected character in expression.")
  | [] => .error (.illegalArgument "Unexpected character in expression.")

/-- Operators that may be followed by `=`. -/
def readOptional (op opEqual : BinaryOperator) (text : List Nat) : Token δ × List Nat :=
  match text with
  | c :: rest =>
    if c = unit '=' then (.part (.binary opEqual), rest) else (.part (.binary op), text)
  | [] => (.part (.binary op), [])

def readBinary (c : Nat) (text : List Nat) : Except ParseFailure (Token δ × List Nat) :=
  if c = unit '+' then .ok (.part (.binary .add), text)
  else if c = unit '-' then .ok (.part (.binary .subtract), text)
  else if c = unit '*' then .ok (.part (.binary .multiply), text)
  else if c = unit '/' then .ok (.part (.binary .divide), text)
  else if c = unit '%' then .ok (.part (.binary .modulo), text)
  else if c = unit '=' then readSecond (unit '=') .equalTo text
  else if c = unit '!' then readSecond (unit '=') .notEqualTo text
  else if c = unit '>' then .ok (readOptional .greaterThan .greaterThanOrEqualTo text)
  else if c = unit '<' then .ok (readOptional .lessThan .lessThanOrEqualTo text)
  else if c = unit '&' then readSecond (unit '&') .and text
  else if c = unit '|' then readSecond (unit '|') .or text
  else if c = unit ')' then .ok (.endGroup, text)
  else .error (.illegalArgument "Unexpected character in expression.")

def readWord (keyword : List Nat) (value : Literal δ) (pushbackBuffer text : List Nat) :
    Except ParseFailure (Token δ × List Nat × List Nat) :=
  match readKeyword keyword 0 pushbackBuffer text with
  | (true, pushbackBuffer, text) => .ok (.part (.atom (.literal value)), pushbackBuffer, text)
  | (false, pushbackBuffer, text) => do
    let (path, text) ← readKeyPath platform text
    pure (.part (.atom (.variable path)), pushbackBuffer, text)

def readToken (isUnary : Bool) (pushbackBuffer : List Nat) (c : Nat) (text : List Nat) :
    Except ParseFailure (Token δ × List Nat × List Nat) :=
  if c = unit 'n' then readWord platform nullKeyword .null pushbackBuffer (c :: text)
  else if c = unit '"' ∨ c = unit '\'' then do
    let (value, text) ← readString platform c (text.length + 1) [] text
    pure (.part (.atom (.literal (.string value))), pushbackBuffer, text)
  else if platform.isDigit c then do
    let (value, text) ← readNumber platform (c :: text)
    pure (.part (.atom (.literal value)), pushbackBuffer, text)
  else if c = unit 't' then
    readWord platform trueKeyword (.boolean true) pushbackBuffer (c :: text)
  else if c = unit 'f' then
    readWord platform falseKeyword (.boolean false) pushbackBuffer (c :: text)
  else if platform.isJavaIdentifierStart c then do
    let (path, text) ← readKeyPath platform (c :: text)
    pure (.part (.atom (.variable path)), pushbackBuffer, text)
  else if isUnary then do
    let token ← readUnary c
    pure (token, pushbackBuffer, text)
  else do
    let (token, text) ← readBinary c text
    pure (token, pushbackBuffer, text)

def isUnaryAfter : Token δ → Bool
  | .part (.atom _) => false
  | .endGroup => false
  | _ => true

def tokenizeLoop : Nat → Bool → List Nat → Yard δ → List Nat → Except ParseFailure (Yard δ)
  | 0, _, _, y, _ => .ok y
  | turns + 1, isUnary, pushbackBuffer, y, text =>
    match text.dropWhile platform.isWhitespace with
    | [] => .ok y
    | c :: text => do
      let (token, pushbackBuffer, text) ← readToken platform isUnary pushbackBuffer c text
      let y ← y.process token
      tokenizeLoop turns (isUnaryAfter token) pushbackBuffer y text

def tokenize (text : List Nat) : Except ParseFailure (List (Token δ)) :=
  (tokenizeLoop platform (text.length + 2) true (List.replicate 6 0) ⟨[], []⟩ text).map Yard.finish

def valueOf (text : List Nat) : Except ParseFailure (Expression δ) := do
  parse (← tokenize platform text)

end

end OpenJfx.Fxml
