import Mathlib.Tactic.Positivity
import Mathlib.Tactic.Ring

namespace OpenJfx.Data.BitPacking

def ofBytes : List UInt8 → Nat
  | [] => 0
  | b :: bytes => b.toNat + 2 ^ 8 * ofBytes bytes

/-- Fields of different widths as one number, the first of them lowest. -/
def ofFields : List (Nat × Nat) → Nat
  | [] => 0
  | f :: fields => f.2 + 2 ^ f.1 * ofFields fields

def totalWidth : List (Nat × Nat) → Nat
  | [] => 0
  | f :: fields => f.1 + totalWidth fields

def Holds (fields : List (Nat × Nat)) (bits length : Nat) : Prop :=
  totalWidth fields ≤ length ∧ bits % 2 ^ totalWidth fields = ofFields fields

instance (fields : List (Nat × Nat)) (bits length : Nat) : Decidable (Holds fields bits length) :=
  inferInstanceAs (Decidable (_ ∧ _))

section

variable {width value bits length : Nat} {fields : List (Nat × Nat)}

theorem Holds.le_length (h : Holds ((width, value) :: fields) bits length) : width ≤ length :=
  (Nat.le_add_right width _).trans h.1

theorem Holds.mod_eq (h : Holds ((width, value) :: fields) bits length)
    (hlt : value < 2 ^ width) : bits % 2 ^ width = value := by
  have hbits := congrArg (· % 2 ^ width) h.2
  simp only [totalWidth, ofFields, pow_add, Nat.mod_mul_right_mod, Nat.add_mul_mod_self_left,
    Nat.mod_eq_of_lt hlt] at hbits
  exact hbits

theorem Holds.div (h : Holds ((width, value) :: fields) bits length) (hlt : value < 2 ^ width) :
    Holds fields (bits / 2 ^ width) (length - width) := by
  rcases h with ⟨hle, hbits⟩
  rw [totalWidth] at hle
  refine ⟨by omega, ?_⟩
  rw [← Nat.mod_mul_right_div_self, ← pow_add]
  rw [totalWidth, ofFields] at hbits
  rw [hbits, Nat.add_comm, Nat.mul_add_div (by positivity), Nat.div_eq_of_lt hlt, Nat.add_zero]

end

section

variable {low count width rest : Nat}

theorem mod_of_le (hle : width ≤ count) :
    (low + 2 ^ count * rest) % 2 ^ width = low % 2 ^ width := by
  have hpow : 2 ^ count * rest = 2 ^ width * (2 ^ (count - width) * rest) := by
    rw [← Nat.mul_assoc, ← pow_add, Nat.add_sub_cancel' hle]
  rw [hpow, Nat.add_mul_mod_self_left]

theorem div_of_le (hle : width ≤ count) :
    (low + 2 ^ count * rest) / 2 ^ width = low / 2 ^ width + 2 ^ (count - width) * rest := by
  have hpow : 2 ^ count * rest = 2 ^ width * (2 ^ (count - width) * rest) := by
    rw [← Nat.mul_assoc, ← pow_add, Nat.add_sub_cancel' hle]
  rw [hpow, Nat.add_mul_div_left _ _ (by positivity)]

theorem div_lt_of_le (hle : width ≤ count) (hlow : low < 2 ^ count) :
    low / 2 ^ width < 2 ^ (count - width) := by
  rw [Nat.div_lt_iff_lt_mul (by positivity), ← pow_add, Nat.sub_add_cancel hle]
  exact hlow

end

theorem or_shiftLeft {low count : Nat} (hlow : low < 2 ^ count) (b : Nat) :
    low ||| b <<< count = low + 2 ^ count * b := by
  rw [Nat.shiftLeft_eq, Nat.mul_comm b, Nat.or_comm, ← Nat.two_pow_add_eq_or_of_lt hlow]
  exact Nat.add_comm _ _

theorem add_byte_lt {low count : Nat} (hlow : low < 2 ^ count) (b : UInt8) :
    low + 2 ^ count * b.toNat < 2 ^ (count + 8) := by
  have hb : b.toNat + 1 ≤ 2 ^ 8 := b.toNat_lt
  calc
    low + 2 ^ count * b.toNat < 2 ^ count + 2 ^ count * b.toNat := by omega
    _ = 2 ^ count * (b.toNat + 1) := by ring
    _ ≤ 2 ^ count * 2 ^ 8 := Nat.mul_le_mul_left _ hb
    _ = 2 ^ (count + 8) := (pow_add 2 count 8).symm

end OpenJfx.Data.BitPacking
