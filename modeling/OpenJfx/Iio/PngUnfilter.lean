import OpenJfx.Iio.PngScanLine
import OpenJfx.Java.Arrays

namespace OpenJfx.Iio.Png.Unfilter

open Header (toByte)
open Java.Arrays

/-- The value of a `byte`. -/
def value (b : UInt8) : Int := b.toInt8.toInt

/-- `b & 0xFF`. -/
def unsigned (b : UInt8) : Int := b.toNat

/-- `for (; i != stop; ++i) line[i] = (byte) (line[i] + ...)`. Every turn accesses the byte `i`,
so that a counter that misses `stop` ends with an exception. -/
def addFrom (summand : List UInt8 → Nat → Outcome Int) (stop i : Nat) (line : List UInt8) :
    Outcome (List UInt8) :=
  if i = stop then .ok line
  else if _h : i < line.length then
    match summand line i with
    | .ok n => addFrom summand stop (i + 1) (line.set i (toByte (value (line)[i] + n)))
    | .error e => .error e
  else .error .indexOutOfBounds
termination_by line.length - i
decreasing_by
  rw [List.length_set]
  omega

def doSubFilter (line : List UInt8) (bpp : Nat) : Outcome (List UInt8) :=
  addFrom (fun line i => do
    let left ← load line (i - bpp)
    pure (value left)) line.length bpp line

def doUpFilter (line pline : List UInt8) : Outcome (List UInt8) :=
  addFrom (fun _ i => do
    let above ← load pline i
    pure (value above)) line.length 0 line

def doAvrgFilter (line pline : List UInt8) (bpp : Nat) : Outcome (List UInt8) := do
  let line ← addFrom (fun _ i => do
    let above ← load pline i
    pure ((unsigned above).tdiv 2)) bpp 0 line
  addFrom (fun line i => do
    let left ← load line (i - bpp)
    let above ← load pline i
    pure ((unsigned left + unsigned above).tdiv 2)) line.length bpp line

def doPaethFilter (line pline : List UInt8) (bpp : Nat) : Outcome (List UInt8) := do
  let line ← addFrom (fun _ i => do
    let above ← load pline i
    pure (value above)) bpp 0 line
  addFrom (fun line i => do
    let left ← load line (i - bpp)
    let above ← load pline i
    let corner ← load pline (i - bpp)
    pure (paethPr (unsigned left) (unsigned above) (unsigned corner))) line.length bpp line

def doFilter (line pline : List UInt8) (fType bpp : Nat) : Outcome (List UInt8) :=
  match fType with
  | 1 => doSubFilter line bpp
  | 2 => doUpFilter line pline
  | 3 => doAvrgFilter line pline bpp
  | 4 => doPaethFilter line pline bpp
  | _ => .ok line

section Specification

/-- The predictor of the specification: the neighbour that is nearest to `a + b - c`, the left
one before the upper one before the corner. -/
def paethPredictor (a b c : Int) : Int :=
  let p := a + b - c
  let pa := (p - a).natAbs
  let pb := (p - b).natAbs
  let pc := (p - c).natAbs
  if pa ≤ pb ∧ pa ≤ pc then a else if pb ≤ pc then b else c

def predictor (line pline : List UInt8) (fType bpp i : Nat) : Int :=
  let a := if i < bpp then 0 else unsigned (byteAt line (i - bpp))
  let b := unsigned (byteAt pline i)
  let c := if i < bpp then 0 else unsigned (byteAt pline (i - bpp))
  match fType with
  | 1 => a
  | 2 => b
  | 3 => (a + b) / 2
  | 4 => paethPredictor a b c
  | _ => 0

def filter (line pline : List UInt8) (fType bpp : Nat) : List UInt8 :=
  (List.range line.length).map fun i =>
    toByte (unsigned (byteAt line i) - predictor line pline fType bpp i)

end Specification

section Bytes

theorem toByte_eq_ofInt (n : Int) : toByte n = UInt8.ofInt n := rfl

theorem toByte_natCast (n : Nat) : toByte n = UInt8.ofNat n := by
  rw [toByte, ← UInt8.toNat_inj, UInt8.toNat_ofNat', UInt8.toNat_ofNat']
  omega

@[simp] theorem toByte_unsigned (b : UInt8) : toByte (unsigned b) = b := by
  rw [unsigned, toByte_natCast, UInt8.ofNat_toNat]

@[simp] theorem toByte_value (b : UInt8) : toByte (value b) = b := by
  have hval : value b = (b.toNat : Int).bmod (2 ^ 8) := b.toBitVec.toInt_eq_toNat_bmod
  have hmod : (b.toNat : Int).bmod (2 ^ 8) % 256 = b.toNat % 256 := Int.bmod_emod
  rw [hval, toByte, hmod]
  exact toByte_unsigned b

theorem toByte_add (m n : Int) : toByte (m + n) = toByte m + toByte n := UInt8.ofInt_add m n

theorem toByte_sub (m n : Int) : toByte (m - n) = toByte m - toByte n := by
  rw [Int.sub_eq_add_neg, toByte_add, toByte_eq_ofInt (-n), UInt8.ofInt_neg, UInt8.sub_eq_add_neg]
  rfl

end Bytes

theorem paethPr_eq_paethPredictor (a b c : Int) : paethPr a b c = paethPredictor a b c := by
  have ha : a + b - c - a = b - c := by omega
  have hb : a + b - c - b = a - c := by omega
  have hc : a + b - c - c = b - c + a - c := by omega
  simp only [paethPr, paethPredictor, ha, hb, hc]

section Loops

variable {line pline : List UInt8} {fType bpp : Nat}

variable {summand : List UInt8 → Nat → Outcome Int} {stop : Nat}

theorem addFrom_eq_addLoop {predict : List UInt8 → Nat → UInt8} {length : Nat}
    (hstop : stop ≤ length) (left : Nat) :
    ∀ (i : Nat) (line : List UInt8), line.length = length → i + left = stop →
      (∀ l : List UInt8, l.length = length → ∀ j, i ≤ j → j < stop →
        ∃ n, summand l j = .ok n ∧ toByte n = predict l j) →
      addFrom summand stop i line = .ok (addLoop predict left i line) := by
  induction left with
  | zero =>
    intro i line _ hi _
    rw [addFrom, if_pos (by omega), addLoop]
  | succ left ih =>
    intro i line hlen hi hsummand
    have hlt : i < line.length := by omega
    obtain ⟨n, hn, hpredict⟩ := hsummand line hlen i le_rfl (by omega)
    have hset : line.set i (toByte (value (line)[i] + n)) =
        line.set i (byteAt line i + predict line i) := by
      rw [toByte_add, toByte_value, hpredict, byteAt, List.getD_eq_getElem _ _ hlt]
    rw [addFrom, if_neg (by omega), dif_pos hlt, hn, addLoop, ← hset]
    apply ih
    · rw [List.length_set, hlen]
    · omega
    · intro l hl j hij hj
      exact hsummand l hl j (by omega) hj

theorem addFrom_throws {i : Nat} (hi : i ≠ stop) (hlen : line.length ≤ i) :
    addFrom summand stop i line = .error .indexOutOfBounds := by
  rw [addFrom, if_neg hi, dif_neg (by omega)]

theorem load_byteAt {i : Nat} (hi : i < line.length) :
    load line i = .ok (byteAt line i) := by
  rw [load_natCast line i hi, byteAt, List.getD_eq_getElem _ _ hi]

theorem load_left {i : Nat} (hi : i < line.length) (hbpp : bpp ≤ i) :
    load line ((i : Int) - bpp) = .ok (byteAt line (i - bpp)) := by
  rw [← Int.ofNat_sub hbpp, load_byteAt (by omega)]

theorem toByte_tdiv_two (n : Nat) : toByte ((n : Int).tdiv 2) = .ofNat (n / 2) :=
  toByte_natCast (n / 2)

theorem paethPr_natCast (a b c : Nat) : 0 ≤ paethPr a b c := by
  simp only [paethPr]
  split_ifs
  · exact Int.natCast_nonneg a
  · exact Int.natCast_nonneg b
  · exact Int.natCast_nonneg c

theorem toByte_paethPr (a b c : Nat) : toByte (paethPr a b c) = .ofNat (paethPr a b c).toNat := by
  rw [← toByte_natCast, Int.toNat_of_nonneg (paethPr_natCast a b c)]

theorem doFilter_eq_ok (hpline : pline.length = line.length) (hbpp : bpp ≤ line.length) :
    doFilter line pline fType bpp = .ok (Png.doFilter line pline fType bpp) := by
  unfold doFilter Png.doFilter
  rcases fType with _ | _ | _ | _ | _ | fType
  · rfl
  · apply addFrom_eq_addLoop le_rfl _ _ _ rfl (by omega)
    intro l hl j hj hlt
    exact ⟨_, by rw [load_left (by omega) hj]; rfl, toByte_value _⟩
  · apply addFrom_eq_addLoop le_rfl _ _ _ rfl (Nat.zero_add _)
    intro l hl j _ hlt
    exact ⟨_, by rw [load_byteAt (by omega)]; rfl, toByte_value _⟩
  · have hfst : addFrom (fun _ i => do
        let above ← load pline i
        pure ((unsigned above).tdiv 2)) bpp 0 line =
        .ok (addLoop (fun _ i => .ofNat ((byteAt pline i).toNat / 2)) bpp 0 line) := by
      apply addFrom_eq_addLoop hbpp _ _ _ rfl (Nat.zero_add _)
      intro l hl j _ hlt
      exact ⟨_, by rw [load_byteAt (by omega)]; rfl, toByte_tdiv_two _⟩
    rw [doAvrgFilter, hfst]
    apply addFrom_eq_addLoop le_rfl _ _ _ rfl (by rw [length_addLoop]; omega)
    intro l hl j hj hlt
    rw [length_addLoop] at hl hlt
    refine ⟨_, by rw [load_left (by omega) hj, ok_bind, load_byteAt (by omega)]; rfl, ?_⟩
    exact toByte_tdiv_two ((byteAt l (j - bpp)).toNat + (byteAt pline j).toNat)
  · have hfst : addFrom (fun _ i => do
        let above ← load pline i
        pure (value above)) bpp 0 line =
        .ok (addLoop (fun _ i => byteAt pline i) bpp 0 line) := by
      apply addFrom_eq_addLoop hbpp _ _ _ rfl (Nat.zero_add _)
      intro l hl j _ hlt
      exact ⟨_, by rw [load_byteAt (by omega)]; rfl, toByte_value _⟩
    rw [doPaethFilter, hfst]
    apply addFrom_eq_addLoop le_rfl _ _ _ rfl (by rw [length_addLoop]; omega)
    intro l hl j hj hlt
    rw [length_addLoop] at hl hlt
    refine ⟨_, by rw [load_left (by omega) hj, ok_bind, load_byteAt (by omega), ok_bind,
      load_left (by omega) hj]; rfl, ?_⟩
    exact toByte_paethPr _ _ _
  · rfl

/-- Types without a filter of their own leave the line as it is, and so does the filter that adds
the line above to an empty line. The others access the first byte. -/
theorem doFilter_empty (pline : List UInt8) (fType : Nat) (hbpp : 0 < bpp) :
    doFilter [] pline fType bpp =
      if fType = 1 ∨ fType = 3 ∨ fType = 4 then .error .indexOutOfBounds else .ok [] := by
  have hthrows : ∀ summand, addFrom summand 0 bpp [] = .error .indexOutOfBounds := fun _ =>
    addFrom_throws (by omega) (Nat.zero_le _)
  have hthrows' : ∀ summand, addFrom summand bpp 0 [] = .error .indexOutOfBounds := fun _ =>
    addFrom_throws (by omega) le_rfl
  unfold doFilter
  split
  · exact hthrows _
  · rw [doUpFilter, addFrom]
    rfl
  · rw [doAvrgFilter, hthrows']
    rfl
  · rw [doPaethFilter, hthrows']
    rfl
  · rw [if_neg]
    rintro (rfl | rfl | rfl) <;> contradiction

/-- Zero bytes are a number of whole pixels, too. -/
theorem doFilter_filter_no_pixels :
    1 ∣ ([] : List UInt8).length ∧
      doFilter (filter [] [] 1 1) [] 1 1 = .error .indexOutOfBounds :=
  ⟨by decide, doFilter_empty [] 1 (by decide)⟩

theorem toByte_predictor (i : Nat) :
    toByte (predictor line pline fType bpp i) = prediction line pline fType bpp i := by
  have hleft : ∀ l : List UInt8, (if i < bpp then 0 else unsigned (byteAt l (i - bpp))) =
      unsigned (if i < bpp then 0 else byteAt l (i - bpp)) := by
    intro l
    split_ifs
    · rfl
    · rfl
  simp only [predictor, hleft, prediction]
  rcases fType with _ | _ | _ | _ | _ | fType
  · rfl
  · exact toByte_unsigned _
  · exact toByte_unsigned _
  · exact toByte_natCast _
  · rw [← paethPr_eq_paethPredictor]
    exact toByte_paethPr _ _ _
  · rfl

theorem filter_eq_filterLine : filter line pline fType bpp = filterLine line pline fType bpp := by
  apply List.map_congr_left
  intro i _
  rw [toByte_sub, toByte_unsigned, toByte_predictor]

/-- The filters of the loader undo those of the specification on every line of whole pixels. The
empty line is an exception to which the filters that treat the first pixel in its own way are
never applied. -/
theorem doFilter_filter (line pline : List UInt8) (fType bpp : Nat) (hbpp : 0 < bpp)
    (hpixels : bpp ∣ line.length) (hpline : pline.length = line.length) :
    doFilter (filter line pline fType bpp) pline fType bpp =
      if line = [] ∧ (fType = 1 ∨ fType = 3 ∨ fType = 4) then .error .indexOutOfBounds
      else .ok line := by
  rcases eq_or_ne line [] with rfl | hne
  · have hempty : filter [] pline fType bpp = [] := rfl
    rw [hempty, doFilter_empty pline fType hbpp]
    simp only [true_and]
  · have hle : bpp ≤ line.length := Nat.le_of_dvd (List.length_pos_of_ne_nil hne) hpixels
    have hlength : (filterLine line pline fType bpp).length = line.length := length_filterLine ..
    rw [if_neg fun h => hne h.1, filter_eq_filterLine,
      doFilter_eq_ok (hpline.trans hlength.symm) (hlength ▸ hle),
      doFilter_filterLine line pline fType hbpp hle]

/-- Two pixels of two bytes, with the Paeth predictor. -/
theorem doFilter_filter_two_pixels :
    2 ∣ [10, 200, 30, 250].length ∧
      doFilter (filter [10, 200, 30, 250] [1, 255, 3, 7] 4 2) [1, 255, 3, 7] 4 2 =
        .ok [10, 200, 30, 250] :=
  ⟨by decide, doFilter_filter [10, 200, 30, 250] [1, 255, 3, 7] 4 2 (by decide) (by decide) rfl⟩

end Loops

end OpenJfx.Iio.Png.Unfilter
