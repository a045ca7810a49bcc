import OpenJfx.Iio.PngScanLine
import Mathlib.Tactic.Positivity
import Mathlib.Tactic.Ring

namespace OpenJfx.Iio.Png

open Data.Stores Java List

namespace Header

variable (h : Header)

/-- The sample of a band of the pixel `i` of a line. Small samples are packed into bytes from
the left. -/
def sample (line : List UInt8) (i band : Nat) : Nat :=
  if h.bitDepth = 16 then
    (byteAt line ((i * h.numBands + band) * 2)).toNat * 256 +
      (byteAt line ((i * h.numBands + band) * 2 + 1)).toNat
  else if h.bitDepth = 8 then (byteAt line (i * h.numBands + band)).toNat
  else
    let samplesInByte := 8 / h.bitDepth
    (byteAt line (i / samplesInByte)).toNat /
      2 ^ ((samplesInByte - 1 - i % samplesInByte) * h.bitDepth) % 2 ^ h.bitDepth

def level (v : Nat) : UInt8 :=
  if h.bitDepth = 16 then .ofNat (v / 256)
  else if h.bitDepth = 8 ∨ h.colorType = .palette then .ofNat v
  else h.stretch v

def sampleEq (t : Int) (v : Nat) : Bool :=
  if h.bitDepth = 16 then DataStream.signed 2 v = t
  else if h.bitDepth = 8 then UInt8.ofNat v = toByte t
  else (v : Int) = t

def isTransparent (s : Nat → Nat) : Bool :=
  if h.colorType = .gray then h.sampleEq h.trnsG (s 0)
  else h.sampleEq h.trnsR (s 0) ∧ h.sampleEq h.trnsG (s 1) ∧ h.sampleEq h.trnsB (s 2)

def pixelBytes (s : Nat → Nat) : List UInt8 :=
  (List.range h.numBands).map (fun band => h.level (s band)) ++
    if h.tRNSGrayRgb then [alpha (h.isTransparent s)] else []

def lineStores (pos w step : Nat) (s : Nat → Nat → Nat) : List Store :=
  (List.range w).flatMap fun i => storesAt (pos + i * step * h.bpp) (h.pixelBytes (s i))

def lineLength (w : Nat) : Nat := (w * h.bitDepth * h.numBands + 7) / 8

theorem length_pixelBytes (s : Nat → Nat) : (h.pixelBytes s).length = h.bpp := by
  rw [pixelBytes, bpp]
  split_ifs <;> simp

section

variable {h} {line : List UInt8} {w : Nat}

theorem lineStores_congr {pos step n : Nat} {s : Nat → Nat → Nat} {f : Nat → List Store}
    (hn : n = w) (hf : ∀ i < w, f i = storesAt (pos + i * step * h.bpp) (h.pixelBytes (s i))) :
    (List.range n).flatMap f = h.lineStores pos w step s := by
  subst hn
  refine flatMap_congr ?_
  intro i hi
  exact hf i (mem_range.mp hi)

theorem depth_cases : h.bitDepth = 16 ∨ h.bitDepth = 8 ∨ h.bitDepth = 1 ∨ h.bitDepth = 2 ∨
    h.bitDepth = 4 := by
  have := h.depth_legal
  simp only [mem_cons, not_mem_nil, or_false] at this
  omega

theorem pixelBytes_plain (htrns : h.tRNSGrayRgb = false) (s : Nat → Nat) :
    h.pixelBytes s = (List.range h.bpp).map fun band => h.level (s band) := by
  simp [pixelBytes, bpp, htrns]

theorem pixelBytes_gray (htrns : h.tRNSGrayRgb = true) (hcolor : h.colorType = .gray)
    (s : Nat → Nat) :
    h.pixelBytes s = [h.level (s 0), alpha (h.sampleEq h.trnsG (s 0))] := by
  simp [pixelBytes, htrns, numBands, hcolor, ColorType.numBands, isTransparent]

theorem pixelBytes_rgb (htrns : h.tRNSGrayRgb = true) (hcolor : h.colorType = .rgb)
    (s : Nat → Nat) :
    h.pixelBytes s = [h.level (s 0), h.level (s 1), h.level (s 2),
      alpha (h.sampleEq h.trnsR (s 0) ∧ h.sampleEq h.trnsG (s 1) ∧ h.sampleEq h.trnsB (s 2))] := by
  simp [pixelBytes, htrns, numBands, hcolor, ColorType.numBands, isTransparent, range_succ]

theorem bpp_eq (htrns : h.tRNSGrayRgb = true) : h.bpp = h.numBands + 1 := by
  rw [bpp, if_pos htrns]

theorem numBands_pos : 0 < h.numBands := by
  rw [numBands]
  cases h.colorType <;> decide

theorem level_sample_sixteen (hdepth : h.bitDepth = 16) (i band : Nat) :
    h.level (h.sample line i band) = byteAt line ((i * h.numBands + band) * 2) := by
  have hlow := (byteAt line ((i * h.numBands + band) * 2 + 1)).toNat_lt
  simp only [level, sample, hdepth, if_true]
  rw [Nat.mul_comm, Nat.mul_add_div (by omega), Nat.div_eq_of_lt hlow]
  exact UInt8.ofNat_toNat

theorem sampleEq_sixteen (hdepth : h.bitDepth = 16) (t : Int) (i band : Nat) :
    h.sampleEq t (h.sample line i band) =
      decide (signedShort (byteAt line ((i * h.numBands + band) * 2))
        (byteAt line ((i * h.numBands + band) * 2 + 1)) = t) := by
  simp only [sampleEq, sample, hdepth]
  rfl

theorem downsample_eq (hdepth : h.bitDepth = 16) (hlength : line.length = h.lineLength w)
    (pos step : Nat) :
    h.downsample16to8 line pos step h.bpp = h.lineStores pos w step (h.sample line) := by
  have hlen : line.length = 2 * (w * h.numBands) := by
    rw [hlength, lineLength, hdepth]
    rw [show w * 16 * h.numBands = 8 * (2 * (w * h.numBands)) by ring]
    omega
  rw [downsample16to8]
  cases htrns : h.tRNSGrayRgb with
  | false =>
    have hbpp : h.bpp = h.numBands := by rw [bpp, htrns]; rfl
    refine lineStores_congr ?_ ?_
    · rw [hlen, hbpp, Nat.mul_div_cancel_left _ (by omega)]
      exact Nat.mul_div_cancel _ numBands_pos
    · intro i _
      rw [pixelBytes_plain htrns, Nat.mul_assoc]
      congr 1
      refine map_congr_left ?_
      intro band _
      rw [level_sample_sixteen hdepth, hbpp]
  | true =>
    rcases h.trns_legal htrns with hcolor | hcolor
    · simp only [not_true_eq_false, if_false, hcolor, if_true, downsample16to8trnsGray]
      have hbands : h.numBands = 1 := by rw [numBands, hcolor]; rfl
      refine lineStores_congr (by rw [hlen, hbands]; omega) ?_
      intro i _
      rw [pixelBytes_gray htrns hcolor, level_sample_sixteen hdepth, sampleEq_sixteen hdepth,
        bpp_eq htrns, hbands]
      simp [Nat.mul_assoc]
    · simp only [not_true_eq_false, if_false, hcolor, if_true, downsample16to8trnsRgb]
      have hbands : h.numBands = 3 := by rw [numBands, hcolor]; rfl
      refine lineStores_congr (by rw [hlen, hbands]; omega) ?_
      intro i _
      rw [pixelBytes_rgb htrns hcolor]
      have hpos : ∀ band, (i * 3 + band) * 2 = i * 6 + 2 * band := by
        omega
      simp only [level_sample_sixteen hdepth, sampleEq_sixteen hdepth, bpp_eq htrns, hbands, hpos,
        Nat.mul_assoc, decide_eq_true_eq]
      rfl

theorem storesAt_range (pos n : Nat) (f : Nat → UInt8) :
    storesAt pos ((List.range n).map f) = (List.range n).map fun i => (pos + i, f i) := by
  refine ext_getElem (by simp [storesAt]) ?_
  simp [storesAt]

theorem map_byteAt (line : List UInt8) :
    (List.range line.length).map (byteAt line) = line := by
  refine ext_getElem (by simp) ?_
  intro i _ hi
  simp [byteAt, hi]

theorem storesAt_line {n : Nat} (hlen : line.length = w * n) (pos : Nat) :
    storesAt pos line = (List.range w).flatMap fun i =>
      storesAt (pos + i * n) ((List.range n).map fun band => byteAt line (i * n + band)) := by
  rw [← map_byteAt line, storesAt_range, map_byteAt, hlen, ← flatMap_rows, map_flatMap]
  refine flatMap_congr ?_
  intro i _
  rw [storesAt_range, map_map]
  refine map_congr_left ?_
  simp [Nat.add_assoc]

theorem level_sample_eight (hdepth : h.bitDepth = 8) (i band : Nat) :
    h.level (h.sample line i band) = byteAt line (i * h.numBands + band) := by
  simp only [level, sample, hdepth]
  exact UInt8.ofNat_toNat

theorem sampleEq_eight (hdepth : h.bitDepth = 8) (t : Int) (i band : Nat) :
    h.sampleEq t (h.sample line i band) =
      decide (byteAt line (i * h.numBands + band) = toByte t) := by
  simp only [sampleEq, sample, hdepth, if_true]
  rw [if_neg (by decide), if_neg (by decide), UInt8.ofNat_toNat]

theorem copy_eq (hdepth : h.bitDepth = 8) (hlength : line.length = h.lineLength w)
    (pos step : Nat) :
    h.copy line pos step h.bpp = h.lineStores pos w step (h.sample line) := by
  have hlen : line.length = w * h.numBands := by
    rw [hlength, lineLength, hdepth, show w * 8 * h.numBands = 8 * (w * h.numBands) by ring]
    omega
  rw [copy]
  cases htrns : h.tRNSGrayRgb with
  | false =>
    simp only [Bool.false_eq_true, not_false_eq_true, if_true]
    have hbpp : h.bpp = h.numBands := by rw [bpp, htrns]; rfl
    have hbytes : ∀ i, h.pixelBytes (h.sample line i) =
        (List.range h.bpp).map fun band => byteAt line (i * h.bpp + band) := by
      intro i
      rw [pixelBytes_plain htrns]
      refine map_congr_left ?_
      intro band _
      rw [level_sample_eight hdepth, hbpp]
    split_ifs with hstep
    · rw [storesAt_line (hbpp ▸ hlen : line.length = w * h.bpp), hstep]
      refine lineStores_congr rfl ?_
      intro i _
      rw [hbytes, Nat.mul_one]
    · refine lineStores_congr ?_ ?_
      · rw [hlen, hbpp]
        exact Nat.mul_div_cancel _ numBands_pos
      · intro i _
        rw [hbytes, Nat.mul_assoc]
  | true =>
    rcases h.trns_legal htrns with hcolor | hcolor
    · simp only [not_true_eq_false, if_false, hcolor, if_true, copyTrnsGray]
      have hbands : h.numBands = 1 := by rw [numBands, hcolor]; rfl
      refine lineStores_congr (by rw [hlen, hbands]; omega) ?_
      intro i _
      rw [pixelBytes_gray htrns hcolor, level_sample_eight hdepth, sampleEq_eight hdepth,
        bpp_eq htrns, hbands]
      simp [Nat.mul_assoc, Nat.mul_comm 2 step]
    · simp only [not_true_eq_false, if_false, hcolor, if_true, copyTrnsRgb]
      have hbands : h.numBands = 3 := by rw [numBands, hcolor]; rfl
      refine lineStores_congr (by rw [hlen, hbands]; omega) ?_
      intro i _
      rw [pixelBytes_rgb htrns hcolor]
      simp only [level_sample_eight hdepth, sampleEq_eight hdepth, bpp_eq htrns, hbands,
        Nat.mul_assoc, decide_eq_true_eq]
      rfl

theorem unpack_perm (d : Nat) (emit : Nat → Int → List Store) (p : Nat) :
    ∀ input : Int, (unpack d emit p input).Perm
      ((List.range p).flatMap fun pp => emit pp (input / 2 ^ ((p - 1 - pp) * d) % 2 ^ d)) := by
  induction p with
  | zero => exact fun input => .nil
  | succ p ih =>
    intro input
    rw [range_succ, flatMap_append]
    refine perm_append_comm.trans (List.Perm.append ((ih _).trans ?_) ?_)
    · refine List.Perm.of_eq (flatMap_congr ?_)
      intro pp hpp
      have hlt := mem_range.mp hpp
      rw [Int.ediv_ediv_of_nonneg (by positivity), ← pow_add,
        show d + (p - 1 - pp) * d = (p + 1 - 1 - pp) * d by
          rw [show p + 1 - 1 - pp = p - 1 - pp + 1 by omega, Nat.succ_mul, Nat.add_comm]]
    · simp

theorem signedByte_bits {s d : Nat} (hbits : s + d ≤ 8) (b : UInt8) :
    signedByte b / 2 ^ s % 2 ^ d = ((b.toNat / 2 ^ s % 2 ^ d : Nat) : Int) := by
  have hsplit : (256 : Int) = 2 ^ (8 - s - d) * 2 ^ d * 2 ^ s := by
    rw [← pow_add, ← pow_add, show 8 - s - d + d + s = 8 by omega]
    rfl
  have hcases : signedByte b = b.toNat ∨ signedByte b = b.toNat - 256 := by
    simp only [signedByte, DataStream.signed]
    split <;> simp
  have hnat : ((b.toNat / 2 ^ s % 2 ^ d : Nat) : Int) = (b.toNat : Int) / 2 ^ s % 2 ^ d := by
    rfl
  rcases hcases with hsign | hsign
  · rw [hsign, hnat]
  · rw [hsign, hnat, hsplit, sub_eq_add_neg, ← neg_mul,
      Int.add_mul_ediv_right _ _ (by positivity), ← neg_mul, Int.add_mul_emod_self_right]

theorem upsample_perm {d spb : Nat} (hd : 0 < d) (hspb : spb * d = 8)
    (emit : Nat → Int → List Store) (line : List UInt8) (w : Nat) :
    (upsample d emit line w).Perm ((List.range w).flatMap fun i =>
      emit i ((byteAt line (i / spb)).toNat / 2 ^ ((spb - 1 - i % spb) * d) % 2 ^ d : Nat)) := by
  have hdiv : 8 / d = spb := by rw [← hspb, Nat.mul_div_cancel _ hd]
  have hspb0 : 0 < spb := Nat.pos_of_ne_zero fun h0 => by rw [h0] at hspb; omega
  have hrows : w ≤ (w + spb - 1) / spb * spb := by
    have := Nat.div_add_mod (w + spb - 1) spb
    have := Nat.mod_lt (w + spb - 1) hspb0
    rw [Nat.mul_comm]
    omega
  rw [show List.range w = List.range (min ((w + spb - 1) / spb * spb) w) by
      rw [Nat.min_eq_right hrows], ← flatMap_chunks, flatMap_assoc]
  simp only [upsample, hdiv]
  refine List.Perm.flatMap_left _ ?_
  intro k _
  have hp : (if w - k * spb < spb then w - k * spb else spb) = min spb (w - k * spb) := by
    split <;> omega
  rw [hp, flatMap_map]
  refine (unpack_perm d _ _ _).trans (List.Perm.of_eq (flatMap_congr ?_))
  intro pp hpp
  have hlt := mem_range.mp hpp
  have hppspb : pp < spb := by omega
  rw [Int.ediv_ediv_of_nonneg (by positivity), ← pow_add, ← Nat.add_mul,
    show spb - min spb (w - k * spb) + (min spb (w - k * spb) - 1 - pp) = spb - 1 - pp by omega]
  have hbits : (spb - 1 - pp) * d + d ≤ 8 := by
    rw [← Nat.succ_mul, ← hspb]
    exact Nat.mul_le_mul_right d (by omega)
  rw [signedByte_bits hbits, Nat.mul_comm k spb, Nat.mul_add_div hspb0, Nat.div_eq_of_lt hppspb,
    Nat.add_zero, Nat.mul_add_mod, Nat.mod_eq_of_lt hppspb]

theorem toByte_natCast (v : Nat) : toByte v = .ofNat v := by
  exact UInt8.ofNat_mod_size.symm ▸ rfl

theorem upsample_stores (hdepth : h.bitDepth < 8) {pos step : Nat} {emit : Nat → Int → List Store}
    (hemit : ∀ i (v : Nat), emit i v =
      storesAt (pos + i * step * h.bpp) (h.pixelBytes fun _ => v)) :
    (upsample h.bitDepth emit line w).Perm (h.lineStores pos w step (h.sample line)) := by
  have hd : h.bitDepth = 1 ∨ h.bitDepth = 2 ∨ h.bitDepth = 4 := by
    have := h.depth_cases
    omega
  have hspb : 8 / h.bitDepth * h.bitDepth = 8 := by
    rcases hd with hd | hd | hd <;> rw [hd]
  refine (upsample_perm (by omega) hspb emit line w).trans (List.Perm.of_eq ?_)
  refine lineStores_congr rfl ?_
  intro i _
  have hsample : ∀ band, h.sample line i band = (byteAt line (i / (8 / h.bitDepth))).toNat /
      2 ^ ((8 / h.bitDepth - 1 - i % (8 / h.bitDepth)) * h.bitDepth) % 2 ^ h.bitDepth := by
    intro band
    rw [sample, if_neg (by omega), if_neg (by omega)]
  rw [hemit]
  congr 2
  funext band
  exact (hsample band).symm

theorem upsampleTo8_perm (hdepth : h.bitDepth < 8) (pos step : Nat) :
    (h.upsampleTo8 line pos w step h.bpp).Perm (h.lineStores pos w step (h.sample line)) := by
  have hlevel : ∀ v, h.level v = if h.colorType = .palette then .ofNat v else h.stretch v := by
    intro v
    have hne : h.bitDepth ≠ 8 := by omega
    rw [level, if_neg (by omega)]
    simp only [hne, false_or]
  have hcolor := h.low_depth hdepth
  have hbands : h.numBands = 1 := by
    rcases hcolor with hcolor | hcolor <;> rw [numBands, hcolor] <;> rfl
  rw [upsampleTo8]
  split_ifs with hpal hone htwo
  · have htrns : h.tRNSGrayRgb = false := by
      rw [← Bool.not_eq_true]
      intro htrns
      have := h.trns_legal htrns
      simp [hpal] at this
    refine upsample_stores hdepth ?_
    simp [pixelBytes, htrns, hbands, hlevel, hpal, bpp, storesAt, toByte_natCast]
  · have htrns : h.tRNSGrayRgb = false := by
      rw [← Bool.not_eq_true]
      intro htrns
      rw [bpp_eq htrns] at hone
      omega
    refine upsample_stores hdepth ?_
    simp [pixelBytes, htrns, hbands, hlevel, hpal, bpp, storesAt]
  · refine upsample_stores hdepth ?_
    intro i v
    have hgray : h.colorType = .gray := hcolor.resolve_right hpal
    have heq : h.sampleEq h.trnsG v = decide ((v : Int) = h.trnsG) := by
      rw [sampleEq, if_neg (by omega), if_neg (by omega)]
    rw [pixelBytes_gray htwo.1 hgray, heq, hlevel, if_neg hpal, htwo.2]
    rfl
  · rw [bpp, hbands] at hone htwo
    cases htrns : h.tRNSGrayRgb <;> simp [htrns] at hone htwo

theorem convertLine_perm (hlen : line.length = h.lineLength w) (pos step : Nat) :
    (h.convertLine line pos w step).Perm (h.lineStores pos w step (h.sample line)) := by
  rw [convertLine]
  split_ifs with hsixteen hsmall
  · rw [downsample_eq hsixteen hlen]
  · exact upsampleTo8_perm hsmall pos step
  · have height : h.bitDepth = 8 := by
      have := h.depth_cases
      omega
    rw [copy_eq height hlen]

end

end Header

end OpenJfx.Iio.Png
