import Mathlib.Data.List.Nodup
import Mathlib.Data.List.Perm.Basic
import Mathlib.Order.Nat

namespace OpenJfx.Java.BitSets

open List

/-- The increasing list of the bits, and how many words are reserved for them. -/
structure BitSet where
  bits : List Nat
  words : Nat
  sorted : bits.Pairwise (· < ·)
  fits : ∀ i ∈ bits, i < 64 * words

namespace BitSet

def new : BitSet := ⟨[], 1, .nil, fun _ h => absurd h not_mem_nil⟩

def get (s : BitSet) (i : Nat) : Bool := decide (i ∈ s.bits)

def cardinality (s : BitSet) : Nat := s.bits.length

def size (s : BitSet) : Nat := 64 * s.words

/-- The words that are reserved once `wordsRequired` of them are needed. -/
def ensureCapacity (words wordsRequired : Nat) : Nat :=
  if words < wordsRequired then max (2 * words) wordsRequired else words

theorem le_ensureCapacity (words wordsRequired : Nat) :
    words ≤ ensureCapacity words wordsRequired := by
  rw [ensureCapacity]
  split <;> omega

theorem required_le_ensureCapacity (words wordsRequired : Nat) :
    wordsRequired ≤ ensureCapacity words wordsRequired := by
  rw [ensureCapacity]
  split <;> omega

theorem sorted_between {bits middle : List Nat} {low high : Nat} (hbits : bits.Pairwise (· < ·))
    (hmiddle : middle.Pairwise (· < ·)) (hrange : ∀ i ∈ middle, low ≤ i ∧ i < high)
    (hle : low ≤ high) :
    (bits.filter (· < low) ++ (middle ++ bits.filter (high ≤ ·))).Pairwise (· < ·) := by
  have hbelow : ∀ i ∈ bits.filter (· < low), i < low := by
    simp
  have habove : ∀ i ∈ bits.filter (high ≤ ·), high ≤ i := by
    simp
  rw [pairwise_append, pairwise_append]
  refine ⟨hbits.filter _, ⟨hmiddle, hbits.filter _, ?_⟩, ?_⟩
  · intro i hi j hj
    exact lt_of_lt_of_le (hrange i hi).2 (habove j hj)
  · intro i hi j hj
    rcases mem_append.mp hj with hj | hj
    · exact lt_of_lt_of_le (hbelow i hi) (hrange j hj).1
    · exact lt_of_lt_of_le (hbelow i hi) (hle.trans (habove j hj))

def setRange (s : BitSet) (fromIndex span : Nat) : BitSet where
  bits := s.bits.filter (· < fromIndex) ++
    (List.range' fromIndex span ++ s.bits.filter (fromIndex + span ≤ ·))
  words := if span = 0 then s.words
    else ensureCapacity s.words ((fromIndex + span - 1) / 64 + 1)
  sorted := by
    refine sorted_between s.sorted pairwise_lt_range' ?_ (Nat.le_add_right _ _)
    intro i hi
    exact mem_range'_1.mp hi
  fits := by
    intro i hi
    have hwords := le_ensureCapacity s.words ((fromIndex + span - 1) / 64 + 1)
    have hrequired := required_le_ensureCapacity s.words ((fromIndex + span - 1) / 64 + 1)
    rw [mem_append, mem_append, mem_range'_1] at hi
    rcases hi with hi | hi | hi
    · have hfits := s.fits i (mem_of_mem_filter hi)
      split <;> omega
    · rw [if_neg (by omega)]
      omega
    · have hfits := s.fits i (mem_of_mem_filter hi)
      split <;> omega

def set (s : BitSet) (i : Nat) : BitSet := s.setRange i 1

def clear (s : BitSet) (i : Nat) : BitSet where
  bits := s.bits.filter (· ≠ i)
  words := s.words
  sorted := s.sorted.filter _
  fits := fun j hj => s.fits j (mem_of_mem_filter hj)

def clearAll (s : BitSet) : BitSet :=
  ⟨[], s.words, .nil, fun _ h => absurd h not_mem_nil⟩

def wordsInUse (bits : List Nat) : Nat :=
  match bits.getLast? with
  | some last => last / 64 + 1
  | none => 0

theorem lt_wordsInUse {bits : List Nat} (hbits : bits.Pairwise (· < ·)) {i : Nat} (hi : i ∈ bits) :
    i < 64 * wordsInUse bits := by
  rcases hlast : bits.getLast? with - | last
  · rw [getLast?_eq_none_iff] at hlast
    rw [hlast] at hi
    exact absurd hi not_mem_nil
  · have hle : i ≤ last := by
      rcases getLast?_eq_some_iff.mp hlast with ⟨front, rfl⟩
      rcases mem_append.mp hi with hi | hi
      · exact Nat.le_of_lt ((pairwise_append.mp hbits).2.2 i hi last mem_cons_self)
      · exact Nat.le_of_eq (mem_singleton.mp hi)
    rw [wordsInUse, hlast]
    dsimp only
    omega

theorem wordsInUse_le {bits : List Nat} {words : Nat} (h : ∀ i ∈ bits, i < 64 * words) :
    wordsInUse bits ≤ words := by
  rw [wordsInUse]
  split
  case h_1 last hlast =>
    have hlt := h last (mem_of_getLast? hlast)
    omega
  case h_2 => exact Nat.zero_le words

/-- What `clone()` does to a bit set that was not made with a given size. -/
def trimToSize (s : BitSet) : BitSet :=
  ⟨s.bits, wordsInUse s.bits, s.sorted, fun _ => lt_wordsInUse s.sorted⟩

variable {s t : BitSet} {i j : Nat}

theorem eq_of_bits (hbits : s.bits = t.bits) (hwords : s.words = t.words) : s = t := by
  cases s
  cases hbits
  cases hwords
  rfl

theorem ensureCapacity_of_le {words required : Nat} (h : required ≤ words) :
    ensureCapacity words required = words := by
  rw [ensureCapacity, if_neg (by omega)]

theorem mem_setRange {fromIndex span : Nat} :
    j ∈ (s.setRange fromIndex span).bits ↔ j ∈ s.bits ∨ fromIndex ≤ j ∧ j < fromIndex + span := by
  simp only [setRange, mem_append, mem_filter, mem_range'_1, decide_eq_true_eq]
  constructor
  · rintro (⟨hj, -⟩ | hj | ⟨hj, -⟩)
    · exact .inl hj
    · exact .inr hj
    · exact .inl hj
  · rintro (hj | hj)
    · rcases Nat.lt_or_ge j fromIndex with hlt | hge
      · exact .inl ⟨hj, hlt⟩
      · rcases Nat.lt_or_ge j (fromIndex + span) with hlt' | hge'
        · exact .inr (.inl ⟨hge, hlt'⟩)
        · exact .inr (.inr ⟨hj, hge'⟩)
    · exact .inr (.inl hj)

theorem mem_set : j ∈ (s.set i).bits ↔ j ∈ s.bits ∨ j = i := by
  rw [set, mem_setRange]
  have hiff : i ≤ j ∧ j < i + 1 ↔ j = i := by omega
  rw [hiff]

theorem mem_clear : j ∈ (s.clear i).bits ↔ j ∈ s.bits ∧ j ≠ i := by
  simp [clear]

theorem bits_eq_of_mem_iff {l l' : List Nat} (hl : l.Pairwise (· < ·)) (hl' : l'.Pairwise (· < ·))
    (h : ∀ j, j ∈ l ↔ j ∈ l') : l = l' := by
  have hnd : l.Nodup := hl.imp fun hlt => Nat.ne_of_lt hlt
  have hnd' : l'.Nodup := hl'.imp fun hlt => Nat.ne_of_lt hlt
  exact ((perm_ext_iff_of_nodup hnd hnd').mpr h).eq_of_pairwise
    (fun a b _ _ hab hba => absurd (hab.trans hba) (lt_irrefl a)) hl hl'

end BitSet

end OpenJfx.Java.BitSets
