import Mathlib.Data.Nat.Log
import Mathlib.Data.List.Basic
import Mathlib.Algebra.Order.Ring.Int

/-!
What the codes of the Lempel-Ziv-Welch compression mean, in the variant with a
code that clears the dictionary, a code that ends the data, and codes that get
wider as the dictionary grows. When the dictionary is full, it stays as it is
until it is cleared.
-/

namespace OpenJfx.Data.Lzw

variable {α : Type}

/-- The symbols are the first codes, followed by the two special codes. -/
structure Scheme (α : Type) where
  size : Nat
  symbol : Nat → α
  maxWidth : Nat

/-- The strings that have been added, and the string of the code before. -/
structure Dict (α : Type) where
  added : List (List α)
  previous : Option (List α)

def Dict.cleared : Dict α := ⟨[], none⟩

namespace Scheme

variable (S : Scheme α)

def clearCode : Nat := S.size

def eofCode : Nat := S.size + 1

def nextCode (d : Dict α) : Nat := S.size + 2 + d.added.length

def Full (d : Dict α) : Prop := 2 ^ S.maxWidth ≤ S.nextCode d

instance (d : Dict α) : Decidable (S.Full d) := inferInstanceAs (Decidable (_ ≤ _))

/-- Codes are as wide as the code that is added next. -/
def width (d : Dict α) : Nat := min S.maxWidth (Nat.log 2 (S.nextCode d) + 1)

def lookup (d : Dict α) (code : Nat) : Option (List α) :=
  if code < S.size then some [S.symbol code]
  else if code < S.size + 2 then none
  else d.added[code - (S.size + 2)]?

/-- The string of a code. It may be the one that is added now, which then starts and ends with
the same symbol. -/
def string (d : Dict α) (code : Nat) : Option (List α) :=
  match S.lookup d code with
  | some s => some s
  | none =>
    if code = S.nextCode d ∧ ¬ S.Full d then d.previous.map fun p => p ++ p.take 1 else none

def extend (d : Dict α) (s : List α) : Dict α where
  added :=
    match d.previous with
    | some p => if S.Full d then d.added else d.added ++ [p ++ s.take 1]
    | none => d.added
  previous := some s

section

variable {S} {d : Dict α} {code : Nat} {s : List α}

theorem string_cases (h : S.string d code = some s) :
    (code < S.size ∧ s = [S.symbol code]) ∨
      (∃ k, code = S.size + 2 + k ∧ d.added[k]? = some s) ∨
      (code = S.nextCode d ∧ ¬ S.Full d ∧ ∃ p, d.previous = some p ∧ s = p ++ p.take 1) := by
  unfold string at h
  split at h
  · rename_i s' hlookup
    cases h
    unfold lookup at hlookup
    split_ifs at hlookup with hsymbol hspecial
    · exact .inl ⟨hsymbol, (Option.some.inj hlookup).symm⟩
    · exact .inr (.inl ⟨code - (S.size + 2), by omega, hlookup⟩)
  · split_ifs at h with hnext
    rcases Option.map_eq_some_iff.mp h with ⟨p, hp, rfl⟩
    exact .inr (.inr ⟨hnext.1, hnext.2, p, hp, rfl⟩)

theorem string_le (h : S.string d code = some s) : code ≤ S.nextCode d := by
  rw [nextCode]
  rcases string_cases h with ⟨hlt, -⟩ | ⟨k, rfl, hk⟩ | ⟨rfl, -, -⟩
  · omega
  · rcases List.getElem?_eq_some_iff.mp hk with ⟨hlt, -⟩
    omega
  · rfl

theorem string_ne (h : S.string d code = some s) : code ≠ S.clearCode ∧ code ≠ S.eofCode := by
  rw [clearCode, eofCode]
  rcases string_cases h with ⟨hlt, -⟩ | ⟨k, rfl, -⟩ | ⟨rfl, -, -⟩
  · omega
  · omega
  · rw [nextCode]
    omega

theorem string_lt_of_full (h : S.string d code = some s) (hfull : S.Full d) :
    code < S.nextCode d := by
  rw [nextCode]
  rcases string_cases h with ⟨hlt, -⟩ | ⟨k, rfl, hk⟩ | ⟨-, hroom, -⟩
  · omega
  · rcases List.getElem?_eq_some_iff.mp hk with ⟨hlt, -⟩
    omega
  · exact absurd hfull hroom

theorem string_nextCode (h : S.string d (S.nextCode d) = some s) :
    ∃ p, d.previous = some p ∧ s = p ++ s.take 1 := by
  rw [nextCode] at h
  rcases string_cases h with ⟨hlt, -⟩ | ⟨k, hk, hget⟩ | ⟨-, -, p, hp, rfl⟩
  · omega
  · rcases List.getElem?_eq_some_iff.mp hget with ⟨hlt, -⟩
    omega
  · refine ⟨p, hp, ?_⟩
    rcases p with _ | ⟨a, p⟩ <;> simp

end

/-- The codes, with their widths, encode the symbols when they are read with the given
dictionary. -/
inductive Encodes : Dict α → List (Nat × Nat) → List α → Prop
  | eof (d : Dict α) : Encodes d [(S.width d, S.eofCode)] []
  | clear (d : Dict α) {codes : List (Nat × Nat)} {out : List α} :
      Encodes Dict.cleared codes out → Encodes d ((S.width d, S.clearCode) :: codes) out
  | data (d : Dict α) {code : Nat} {s : List α} {codes : List (Nat × Nat)} {out : List α} :
      S.string d code = some s → Encodes (S.extend d s) codes out →
      Encodes d ((S.width d, code) :: codes) (s ++ out)

end Scheme

end OpenJfx.Data.Lzw
