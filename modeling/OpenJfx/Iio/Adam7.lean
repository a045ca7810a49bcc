import OpenJfx.Data.Stores
import OpenJfx.Java.Ints
import Mathlib.Data.Finset.Sigma

/-!
The passes of `com.sun.javafx.iio.png.PNGImageLoader2`: the tables of the
seven passes of an interlaced image, with an eighth entry for an image that is
not interlaced, and the pixels that belong to a pass.
-/

namespace OpenJfx.Iio.Png

open Java.Ints List

def startingY : List Nat := [0, 0, 4, 0, 2, 0, 1, 0]

def startingX : List Nat := [0, 4, 0, 2, 0, 1, 0, 0]

def incrementY : List Nat := [8, 8, 8, 4, 4, 2, 2, 1]

def incrementX : List Nat := [8, 8, 4, 4, 2, 2, 1, 1]

def entry (table : List Nat) (mip : Nat) : Nat := table.getD mip 0

def mipSize (size : Int) (mip : Nat) (start increment : List Nat) : Int :=
  (int32 (size - entry start mip + entry increment mip - 1)).tdiv (entry increment mip)

def mipPos (pos : Nat) (mip : Nat) (start increment : List Nat) : Nat :=
  entry start mip + pos * entry increment mip

def passSize (size mip : Nat) (start increment : List Nat) : Nat :=
  (size - entry start mip + entry increment mip - 1) / entry increment mip

variable {mip : Nat}

theorem entry_increment_pos (h : mip < 8) :
    0 < entry incrementX mip ∧ entry incrementX mip ≤ 8 ∧
      0 < entry incrementY mip ∧ entry incrementY mip ≤ 8 := by
  decide +revert

variable {increment : List Nat}

variable {start : List Nat}

theorem mipSize_eq {size : Nat} (hsize : size + 7 < 2 ^ 31) (hstart : entry start mip < size)
    (hpos : 0 < entry increment mip) (hle : entry increment mip ≤ 8) :
    mipSize size mip start increment = (passSize size mip start increment : Nat) := by
  have harg : (size : Int) - entry start mip + entry increment mip - 1 =
      ((size - entry start mip + entry increment mip - 1 : Nat) : Int) := by omega
  rw [mipSize, harg, int32_eq (by omega) (by omega)]
  rfl

theorem mipPos_lt {size : Nat} (hpos : 0 < entry increment mip) {i : Nat} :
    mipPos i mip start increment < size ↔ i < passSize size mip start increment := by
  have hdiv : i + 1 ≤ passSize size mip start increment ↔ (i + 1) * entry increment mip ≤
      size - entry start mip + entry increment mip - 1 := Nat.le_div_iff_mul_le hpos
  rw [Nat.lt_iff_add_one_le (n := passSize size mip start increment), hdiv, mipPos, Nat.succ_mul]
  omega

theorem passSize_le {size : Nat} (hpos : 0 < entry increment mip) :
    passSize size mip start increment ≤ size := by
  by_contra hlt
  have hlast : mipPos size mip start increment < size := (mipPos_lt hpos).mpr (Nat.not_le.mp hlt)
  rw [mipPos] at hlast
  have := Nat.le_mul_of_pos_right size hpos
  omega

/-- The pixels of a pass, as columns and rows, in the order in which they are stored. -/
def passPixels (width height mip : Nat) : List (Nat × Nat) :=
  (List.range (passSize height mip startingY incrementY)).flatMap fun y =>
    (List.range (passSize width mip startingX incrementX)).map fun x =>
      (mipPos x mip startingX incrementX, mipPos y mip startingY incrementY)

def pixels (width height : Nat) : List (Nat × Nat) :=
  (List.range height).flatMap fun y => (List.range width).map fun x => (x, y)

theorem passPixels_seven (width height : Nat) :
    passPixels width height 7 = pixels width height := by
  have hsize : ∀ size, passSize size 7 startingX incrementX = size ∧
      passSize size 7 startingY incrementY = size := by
    simp [passSize, entry, startingX, startingY, incrementX, incrementY]
  have hpos : ∀ i, mipPos i 7 startingX incrementX = i ∧ mipPos i 7 startingY incrementY = i := by
    simp [mipPos, entry, startingX, startingY, incrementX, incrementY]
  simp only [passPixels, pixels, hsize, hpos]

def InPass (mip x y : Nat) : Prop :=
  x % entry incrementX mip = entry startingX mip ∧ y % entry incrementY mip = entry startingY mip

instance (mip x y : Nat) : Decidable (InPass mip x y) := inferInstanceAs (Decidable (_ ∧ _))

theorem exists_pass_residue : ∀ a < 8, ∀ b < 8, ∃ mip < 7, InPass mip a b ∧
    ∀ mip' < 7, InPass mip' a b → mip' = mip := by
  decide

theorem inPass_mod (h : mip < 8) (x y : Nat) :
    InPass mip (x % 8) (y % 8) ↔ InPass mip x y := by
  have hdvd : ∀ mip < 8, entry incrementX mip ∣ 8 ∧ entry incrementY mip ∣ 8 := by decide
  rw [InPass, InPass, Nat.mod_mod_of_dvd x (hdvd mip h).1, Nat.mod_mod_of_dvd y (hdvd mip h).2]

theorem exists_pass (x y : Nat) :
    ∃ mip < 7, InPass mip x y ∧ ∀ mip' < 7, InPass mip' x y → mip' = mip := by
  rcases exists_pass_residue (x % 8) (Nat.mod_lt x (by omega)) (y % 8) (Nat.mod_lt y (by omega))
    with ⟨mip, hmip, hin, hunique⟩
  refine ⟨mip, hmip, (inPass_mod (by omega) x y).mp hin, ?_⟩
  intro mip' hmip' hin'
  exact hunique mip' hmip' ((inPass_mod (by omega) x y).mpr hin')

theorem exists_mipPos_iff (size x : Nat) (hpos : 0 < entry increment mip)
    (hstart : entry start mip < entry increment mip) :
    (∃ i, i < passSize size mip start increment ∧ mipPos i mip start increment = x) ↔
      x < size ∧ x % entry increment mip = entry start mip := by
  constructor
  · rintro ⟨i, hi, rfl⟩
    refine ⟨(mipPos_lt hpos).mpr hi, ?_⟩
    rw [mipPos, Nat.add_mul_mod_self_right, Nat.mod_eq_of_lt hstart]
  · rintro ⟨hx, hmod⟩
    have heq : mipPos (x / entry increment mip) mip start increment = x := by
      rw [mipPos, ← hmod, Nat.mul_comm]
      exact Nat.mod_add_div x _
    exact ⟨_, (mipPos_lt hpos).mp (by rwa [heq]), heq⟩

theorem start_lt_increment (h : mip < 8) :
    entry startingX mip < entry incrementX mip ∧ entry startingY mip < entry incrementY mip := by
  decide +revert

theorem mem_passPixels {width height x y : Nat} (h : mip < 8) :
    (x, y) ∈ passPixels width height mip ↔ x < width ∧ y < height ∧ InPass mip x y := by
  rcases entry_increment_pos h with ⟨hx, -, hy, -⟩
  rcases start_lt_increment h with ⟨hsx, hsy⟩
  have hcol := exists_mipPos_iff width x hx hsx
  have hrow := exists_mipPos_iff height y hy hsy
  simp only [passPixels, mem_flatMap, mem_map, mem_range, Prod.mk.injEq]
  constructor
  · rintro ⟨j, hj, i, hi, hix, hjy⟩
    rcases hcol.mp ⟨i, hi, hix⟩ with ⟨hxlt, hxmod⟩
    rcases hrow.mp ⟨j, hj, hjy⟩ with ⟨hylt, hymod⟩
    exact ⟨hxlt, hylt, hxmod, hymod⟩
  · rintro ⟨hxlt, hylt, hxmod, hymod⟩
    rcases hcol.mpr ⟨hxlt, hxmod⟩ with ⟨i, hi, hix⟩
    rcases hrow.mpr ⟨hylt, hymod⟩ with ⟨j, hj, hjy⟩
    exact ⟨j, hj, i, hi, hix, hjy⟩

theorem nodup_passPixels {width height : Nat} (h : mip < 8) :
    (passPixels width height mip).Nodup := by
  rcases entry_increment_pos h with ⟨hx, -, hy, -⟩
  have hinj : ∀ {increment : List Nat} (start : List Nat), 0 < entry increment mip →
      Function.Injective fun i => mipPos i mip start increment := by
    intro increment start hpos i j hij
    simp only [mipPos, Nat.add_left_cancel_iff] at hij
    exact Nat.eq_of_mul_eq_mul_right hpos hij
  rw [passPixels, nodup_flatMap]
  constructor
  · intro y _
    refine nodup_range.map ?_
    intro i j hij
    exact hinj startingX hx (Prod.mk.inj hij).1
  · refine nodup_range.imp ?_
    intro y y' hne p hp hp'
    rcases mem_map.mp hp with ⟨x, -, rfl⟩
    rcases mem_map.mp hp' with ⟨x', -, heq⟩
    exact hne (hinj startingY hy (Prod.mk.inj heq).2).symm

def passes (width height : Nat) : List Nat :=
  (List.range 7).filter fun mip => entry startingX mip < width ∧ entry startingY mip < height

theorem passes_perm (width height : Nat) :
    ((passes width height).flatMap (passPixels width height)).Perm (pixels width height) := by
  have hlt : ∀ {mip}, mip ∈ passes width height → mip < 7 := by
    intro mip hmip
    exact mem_range.mp (mem_of_mem_filter hmip)
  have hnd : ((passes width height).flatMap (passPixels width height)).Nodup := by
    rw [nodup_flatMap]
    constructor
    · intro mip hmip
      exact nodup_passPixels (by have := hlt hmip; omega)
    · refine (nodup_range.filter _).imp_of_mem ?_
      intro mip mip' hmip hmip' hne
      rintro ⟨x, y⟩ hp hp'
      have hlt₁ := hlt hmip
      have hlt₂ := hlt hmip'
      rw [mem_passPixels (by omega)] at hp hp'
      rcases exists_pass x y with ⟨pass, -, -, hunique⟩
      exact hne ((hunique mip hlt₁ hp.2.2).trans (hunique mip' hlt₂ hp'.2.2).symm)
  rw [← passPixels_seven, perm_ext_iff_of_nodup hnd (nodup_passPixels (by omega))]
  rintro ⟨x, y⟩
  rw [mem_passPixels (by omega), mem_flatMap]
  constructor
  · rintro ⟨mip, hmip, hp⟩
    have := hlt hmip
    rw [mem_passPixels (by omega)] at hp
    exact ⟨hp.1, hp.2.1, Nat.mod_one x, Nat.mod_one y⟩
  · rintro ⟨hx, hy, -⟩
    rcases exists_pass x y with ⟨mip, hmip, hin, -⟩
    refine ⟨mip, ?_, (mem_passPixels (by omega)).mpr ⟨hx, hy, hin⟩⟩
    rw [passes, mem_filter]
    refine ⟨mem_range.mpr hmip, ?_⟩
    have hsx := Nat.mod_le x (entry incrementX mip)
    have hsy := Nat.mod_le y (entry incrementY mip)
    rw [hin.1] at hsx
    rw [hin.2] at hsy
    rw [decide_eq_true_eq]
    omega

end OpenJfx.Iio.Png
