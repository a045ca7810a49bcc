import Mathlib.Data.Nat.ModEq
import Mathlib.Tactic.LinearCombination

/-!
A walk around a circle of `n` places in steps of `d` places. It comes back to its start after
`n / gcd n d` steps and visits the places that are as far from the start as a multiple of the gcd.
-/

namespace OpenJfx.Data.CyclicWalk

def place (n d c t : Nat) : Nat := (c + t * d) % n

variable {n d c t t' : Nat}

theorem place_lt (hn : 0 < n) : place n d c t < n := Nat.mod_lt _ hn

theorem place_zero (hc : c < n) : place n d c 0 = c := by
  rw [place, Nat.zero_mul, Nat.add_zero, Nat.mod_eq_of_lt hc]

theorem place_succ : place n d c (t + 1) = (place n d c t + d) % n := by
  rw [place, place, Nat.mod_add_mod, Nat.add_mul, Nat.one_mul, Nat.add_assoc]

theorem place_back (hd : d ≤ n) (hn : 0 < n) :
    (place n d c (t + 1) + (n - d)) % n = place n d c t := by
  rw [place_succ, Nat.mod_add_mod, Nat.add_assoc, Nat.add_sub_cancel' hd, Nat.add_mod_right,
    Nat.mod_eq_of_lt (place_lt hn)]

theorem dvd_round_mul : n ∣ n / n.gcd d * d := by
  rw [Nat.div_mul_right_comm (Nat.gcd_dvd_left n d), Nat.mul_div_assoc n (Nat.gcd_dvd_right n d)]
  exact Nat.dvd_mul_right _ _

theorem place_eq_iff (hn : 0 < n) :
    place n d c t = place n d c t' ↔ t ≡ t' [MOD n / n.gcd d] := by
  constructor
  · intro h
    exact Nat.ModEq.cancel_right_div_gcd hn (Nat.ModEq.add_left_cancel' c h)
  · intro h
    have hmul : t * d ≡ t' * d [MOD n / n.gcd d * d] := h.mul_right' d
    exact (hmul.of_dvd dvd_round_mul).add_left c

theorem place_ne (hn : 0 < n) (hlt : t < t') (hround : t' < t + n / n.gcd d) :
    place n d c t ≠ place n d c t' := by
  intro h
  have hdvd := (Nat.modEq_iff_dvd' (Nat.le_of_lt hlt)).mp ((place_eq_iff hn).mp h)
  have := Nat.le_of_dvd (by omega) hdvd
  omega

theorem place_round (hc : c < n) : place n d c (n / n.gcd d) = c := by
  have hstart : place n d c (n / n.gcd d) = place n d c 0 :=
    (place_eq_iff (Nat.zero_lt_of_lt hc)).mpr (Nat.modEq_zero_iff_dvd.mpr (Nat.dvd_refl _))
  rw [hstart, place_zero hc]

theorem exists_place_iff (hn : 0 < n) (hc : c < n.gcd d) {j : Nat} (hj : j < n) :
    (∃ t, t < n / n.gcd d ∧ place n d c t = j) ↔ j % n.gcd d = c := by
  have hround : 0 < n / n.gcd d := Nat.div_pos (Nat.gcd_le_left d hn) (Nat.gcd_pos_of_pos_left d hn)
  constructor
  · rintro ⟨t, -, rfl⟩
    obtain ⟨k, hk⟩ := Dvd.dvd.mul_left (Nat.gcd_dvd_right n d) t
    rw [place, Nat.mod_mod_of_dvd _ (Nat.gcd_dvd_left n d), hk, Nat.add_mul_mod_self_left,
      Nat.mod_eq_of_lt hc]
  · intro hmod
    -- the distance from the start is a combination of `n` and `d`
    obtain ⟨q, hq⟩ : ((n.gcd d : Nat) : Int) ∣ (j : Int) - c := by
      rw [← hmod]
      exact Int.dvd_self_sub_emod
    have hround₀ : ((n / n.gcd d : Nat) : Int) ≠ 0 := Int.natCast_ne_zero.mpr hround.ne'
    obtain ⟨t, ht⟩ := Int.eq_ofNat_of_zero_le (Int.emod_nonneg (n.gcdB d * q) hround₀)
    have hlt := Int.emod_lt_of_pos (n.gcdB d * q) (Int.natCast_pos.mpr hround)
    refine ⟨t, by omega, ?_⟩
    have hsplit := Int.mul_ediv_add_emod (n.gcdB d * q) (n / n.gcd d : Nat)
    rw [ht] at hsplit
    have hcast : (n : Int) ∣ ((n / n.gcd d : Nat) : Int) * d := by
      exact_mod_cast dvd_round_mul (n := n) (d := d)
    have hmodEq : c + t * d ≡ j [MOD n] := by
      rw [Nat.modEq_iff_dvd]
      have hdiff : (j : Int) - (c + t * d : Nat) = n * (n.gcdA d * q) +
          ((n / n.gcd d : Nat) : Int) * d * (n.gcdB d * q / (n / n.gcd d : Nat)) := by
        have hgcd := Nat.gcd_eq_gcd_ab n d
        rw [hgcd] at hq
        push_cast at hq hsplit ⊢
        linear_combination hq - d * hsplit
      rw [hdiff]
      exact Int.dvd_add (Dvd.intro _ rfl) (hcast.mul_right _)
    rw [place, hmodEq, Nat.mod_eq_of_lt hj]

theorem exists_place_succ_iff (hn : 0 < n) (hc : c < n.gcd d) {j : Nat} (hj : j < n) :
    (∃ t, t < n / n.gcd d ∧ place n d c (t + 1) = j) ↔ j % n.gcd d = c := by
  have hcn : c < n := Nat.lt_of_lt_of_le hc (Nat.gcd_le_left d hn)
  have hround : 0 < n / n.gcd d := Nat.div_pos (Nat.gcd_le_left d hn) (Nat.gcd_pos_of_pos_left d hn)
  rw [← exists_place_iff hn hc hj]
  constructor
  · rintro ⟨t, ht, rfl⟩
    rcases Nat.lt_or_eq_of_le ht with hlt | heq
    · exact ⟨t + 1, hlt, rfl⟩
    · refine ⟨0, hround, ?_⟩
      rw [← Nat.succ_eq_add_one, heq, place_zero hcn, place_round hcn]
  · rintro ⟨t, ht, rfl⟩
    cases t with
    | zero =>
      refine ⟨n / n.gcd d - 1, by omega, ?_⟩
      rw [Nat.sub_add_cancel hround, place_zero hcn, place_round hcn]
    | succ t => exact ⟨t, by omega, rfl⟩

end OpenJfx.Data.CyclicWalk
