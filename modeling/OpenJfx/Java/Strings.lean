import Mathlib.Data.List.DropRight
import OpenJfx.Data.Lines
import OpenJfx.Java.Arrays

/-!
The operations of `java.lang.StringBuilder` that the controls use, on lists of
UTF-16 code units.
-/

namespace OpenJfx.Java

/-- The contents of a string, as the values of type `char` that it consists of. -/
abbrev Text := List UInt16

inductive RuntimeException where
  | indexOutOfBounds
  | illegalArgument
  | negativeArraySize

namespace StringBuilder

def charAt (builder : Text) (index : Int) : Except RuntimeException UInt16 :=
  if index < 0 then .error .indexOutOfBounds
  else
    match builder[index.toNat]? with
    | some c => .ok c
    | none => .error .indexOutOfBounds

def insert (builder : Text) (offset : Int) (text : Text) : Except RuntimeException Text :=
  if offset < 0 ∨ offset > builder.length then .error .indexOutOfBounds
  else .ok (builder.take offset.toNat ++ text ++ builder.drop offset.toNat)

def delete (builder : Text) (start stop : Int) : Except RuntimeException Text :=
  let stop := if stop > builder.length then (builder.length : Int) else stop
  if start < 0 ∨ start > stop then .error .indexOutOfBounds
  else .ok (builder.take start.toNat ++ builder.drop stop.toNat)

def subSequence (builder : Text) (start stop : Int) : Except RuntimeException Text :=
  if start < 0 ∨ start > stop ∨ stop > builder.length then .error .indexOutOfBounds
  else .ok ((builder.take stop.toNat).drop start.toNat)

theorem charAt_natCast {builder : Text} {index : Nat} {c : UInt16}
    (hc : builder[index]? = some c) : charAt builder index = .ok c := by
  rw [charAt, if_neg (by omega)]
  simp only [Int.toNat_natCast, hc]

theorem insert_natCast (builder : Text) {offset : Nat} (h : offset ≤ builder.length)
    (text : Text) :
    insert builder offset text = .ok (builder.take offset ++ text ++ builder.drop offset) := by
  rw [insert, if_neg (by omega), Int.toNat_natCast]

theorem delete_natCast (builder : Text) {start stop : Nat} (h : start ≤ stop)
    (hstop : stop ≤ builder.length) :
    delete builder start stop = .ok (builder.take start ++ builder.drop stop) := by
  have hle : ¬ ((stop : Int) > builder.length) := by omega
  simp only [delete, if_neg hle]
  rw [if_neg (by omega), Int.toNat_natCast, Int.toNat_natCast]

theorem subSequence_natCast (builder : Text) {start stop : Nat} (h : start ≤ stop)
    (hstop : stop ≤ builder.length) :
    subSequence builder start stop = .ok ((builder.take stop).drop start) := by
  rw [subSequence, if_neg (by omega), Int.toNat_natCast, Int.toNat_natCast]

end StringBuilder

end OpenJfx.Java

namespace OpenJfx.Java.Strings

open Data Java.Arrays List

def substring (s : List Char) (beginIndex endIndex : Int) : Outcome (List Char) :=
  if 0 ≤ beginIndex ∧ beginIndex ≤ endIndex ∧ endIndex ≤ s.length then
    .ok ((s.take endIndex.toNat).drop beginIndex.toNat)
  else .error .indexOutOfBounds

/-- `s.trim()`: without the characters up to the space at both ends. -/
def trim (s : List Char) : List Char :=
  (s.dropWhile (· ≤ ' ')).rdropWhile (· ≤ ' ')

/-- `s.split(sep)` for a single character: empty strings at the end are left out, unless the
character does not occur. -/
def split (sep : Char) (s : List Char) : List (List Char) :=
  if sep ∈ s then (s.splitOn sep).rdropWhile List.isEmpty else [s]

theorem substring_append (front part back : List Char) :
    substring (front ++ (part ++ back)) front.length (front.length + part.length : Nat) =
      .ok part := by
  rw [substring, if_pos]
  · rw [Int.toNat_natCast, Int.toNat_natCast, ← length_append, ← append_assoc,
      take_left, drop_left]
  · rw [length_append, length_append]
    omega

theorem substring_of_append (front back : List Char) :
    substring (front ++ back) front.length (front ++ back).length = .ok back := by
  have hall := substring_append front back []
  rw [append_nil, ← length_append] at hall
  exact hall

/-- No character of the text is cut off by `trim`. -/
def Visible (s : List Char) : Prop := ∀ c ∈ s, ' ' < c

theorem trim_append_spaces {s : List Char} (h : Visible s) (n : Nat) :
    trim (s ++ List.replicate n ' ') = s := by
  have hspaces : ∀ c ∈ List.replicate n ' ', decide (c ≤ ' ') = true := by
    intro c hc
    rw [eq_of_mem_replicate hc]
    decide
  have hlast : s.rdropWhile (· ≤ ' ') = s := by
    rw [rdropWhile_eq_self_iff]
    intro hne
    have hlt := h _ (getLast_mem hne)
    simpa using hlt
  cases s with
  | nil =>
    rw [nil_append, trim, dropWhile_eq_nil_iff.mpr hspaces]
    rfl
  | cons c s =>
    have hfst : (c :: (s ++ List.replicate n ' ')).dropWhile (· ≤ ' ') =
        c :: (s ++ List.replicate n ' ') := by
      apply dropWhile_cons_of_neg
      have hlt := h c mem_cons_self
      simpa using hlt
    rw [trim, cons_append, hfst, ← cons_append, List.rdropWhile,
      reverse_append, dropWhile_append_of_pos]
    · exact hlast
    · intro c hc
      exact hspaces c (mem_reverse.mp hc)

theorem trim_visible {s : List Char} (h : Visible s) : trim s = s := by
  have hnone := trim_append_spaces h 0
  rwa [replicate_zero, append_nil] at hnone

/-- A text is split into what comes before the first separator and the pieces that follow
the separators. -/
theorem split_append_opened {sep : Char} {head : List Char} {pieces : List (List Char)}
    (hhead : sep ∉ head) (hpieces : ∀ piece ∈ pieces, sep ∉ piece)
    (hne : ∀ piece ∈ pieces, piece ≠ []) :
    split sep (head ++ Lines.opened sep pieces) = head :: pieces := by
  rw [split]
  rcases eq_nil_or_concat pieces with rfl | ⟨front, last, rfl⟩
  · rw [Lines.opened_nil, append_nil, if_neg hhead]
  · rw [if_pos, ← Lines.intercalate_cons, splitOn_intercalate]
    · rw [concat_eq_append, ← cons_append, rdropWhile_concat_neg]
      rw [List.isEmpty_iff]
      exact hne last (by simp)
    · rintro piece (_ | ⟨_, hmem⟩)
      · exact hhead
      · exact hpieces piece hmem
    · exact cons_ne_nil _ _
    · simp

end OpenJfx.Java.Strings
