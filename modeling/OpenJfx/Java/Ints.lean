import Mathlib.Algebra.Order.Ring.Int

namespace OpenJfx.Java.Ints

/-- A result that does not fit wraps around. -/
def int32 (n : Int) : Int := n.bmod (2 ^ 32)

theorem int32_eq {n : Int} (hlow : -2 ^ 31 ≤ n) (hhigh : n < 2 ^ 31) : int32 n = n :=
  Int.bmod_eq_of_le (by omega) (by omega)

theorem int32_natCast {n : Nat} (h : n < 2 ^ 31) : int32 (n : Int) = n :=
  int32_eq (by omega) (by omega)

theorem int32_lt (n : Int) : int32 n < 2 ^ 31 := by
  rw [int32, Int.bmod_def]
  split_ifs <;> omega

theorem le_int32 (n : Int) : -2 ^ 31 ≤ int32 n := by
  rw [int32, Int.bmod_def]
  split_ifs <;> omega

theorem int32_le_sub {n : Int} (hlarge : 2 ^ 31 ≤ n) : int32 n ≤ n - 2 ^ 32 := by
  rw [int32, Int.bmod_def]
  split_ifs <;> omega

theorem int32_int32_add (a b : Int) : int32 (int32 a + b) = int32 (a + b) := Int.bmod_add_bmod

theorem int32_add_int32 (a b : Int) : int32 (a + int32 b) = int32 (a + b) := Int.add_bmod_bmod

theorem int32_int32_mul (a b : Int) : int32 (int32 a * b) = int32 (a * b) := Int.bmod_mul_bmod

theorem int32_mul_int32 (a b : Int) : int32 (a * int32 b) = int32 (a * b) := Int.mul_bmod_bmod

theorem int32_int32_sub (a b : Int) : int32 (int32 a - b) = int32 (a - b) := Int.bmod_sub_bmod

theorem int32_sub_int32 (a b : Int) : int32 (a - int32 b) = int32 (a - b) := Int.sub_bmod_bmod

def int64 (n : Int) : Int := n.bmod (2 ^ 64)

theorem int64_eq {n : Int} (hlow : -2 ^ 63 ≤ n) (hhigh : n < 2 ^ 63) : int64 n = n :=
  Int.bmod_eq_of_le (by omega) (by omega)

theorem int64_lt (n : Int) : int64 n < 2 ^ 63 := by
  rw [int64, Int.bmod_def]
  split_ifs <;> omega

theorem toNat_tdiv (n : Int) (k : Nat) : (n.tdiv k).toNat = n.toNat / k := by
  cases n with
  | ofNat n => rfl
  | negSucc n =>
    change (-((n.succ / k : Nat) : Int)).toNat = 0 / k
    rw [Nat.zero_div]
    generalize n.succ / k = q
    omega

end OpenJfx.Java.Ints
