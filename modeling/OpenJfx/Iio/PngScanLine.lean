import Mathlib.Data.List.GetD
import OpenJfx.Data.Stores
import OpenJfx.Java.DataStream

namespace OpenJfx.Iio.Png

def byteAt (line : List UInt8) (i : Nat) : UInt8 := line.getD i 0

section

variable (predict : List UInt8 → Nat → UInt8)

def addLoop : Nat → Nat → List UInt8 → List UInt8
  | 0, _, line => line
  | left + 1, i, line => addLoop left (i + 1) (line.set i (byteAt line i + predict line i))

theorem length_addLoop (left : Nat) :
    ∀ (i : Nat) (line : List UInt8), (addLoop predict left i line).length = line.length := by
  induction left with
  | zero => exact fun i line => rfl
  | succ left ih =>
    intro i line
    rw [addLoop, ih, List.length_set]

end

def paethPr (a b c : Int) : Int :=
  let pa := (b - c).natAbs
  let pb := (a - c).natAbs
  let pc := (b - c + a - c).natAbs
  if pa ≤ pb ∧ pa ≤ pc then a else if pb ≤ pc then b else c

def doSubFilter (line : List UInt8) (bpp : Nat) : List UInt8 :=
  addLoop (fun line i => byteAt line (i - bpp)) (line.length - bpp) bpp line

def doUpFilter (line pline : List UInt8) : List UInt8 :=
  addLoop (fun _ i => byteAt pline i) line.length 0 line

def doAvrgFilter (line pline : List UInt8) (bpp : Nat) : List UInt8 :=
  let line := addLoop (fun _ i => .ofNat ((byteAt pline i).toNat / 2)) bpp 0 line
  addLoop (fun line i => .ofNat (((byteAt line (i - bpp)).toNat + (byteAt pline i).toNat) / 2))
    (line.length - bpp) bpp line

def doPaethFilter (line pline : List UInt8) (bpp : Nat) : List UInt8 :=
  let line := addLoop (fun _ i => byteAt pline i) bpp 0 line
  addLoop (fun line i => .ofNat (paethPr (byteAt line (i - bpp)).toNat (byteAt pline i).toNat
    (byteAt pline (i - bpp)).toNat).toNat) (line.length - bpp) bpp line

def doFilter (line pline : List UInt8) (fType : Nat) (bpp : Nat) : List UInt8 :=
  match fType with
  | 1 => doSubFilter line bpp
  | 2 => doUpFilter line pline
  | 3 => doAvrgFilter line pline bpp
  | 4 => doPaethFilter line pline bpp
  | _ => line

def prediction (line pline : List UInt8) (fType bpp i : Nat) : UInt8 :=
  let left := if i < bpp then 0 else byteAt line (i - bpp)
  let above := byteAt pline i
  let corner := if i < bpp then 0 else byteAt pline (i - bpp)
  match fType with
  | 1 => left
  | 2 => above
  | 3 => .ofNat ((left.toNat + above.toNat) / 2)
  | 4 => .ofNat (paethPr left.toNat above.toNat corner.toNat).toNat
  | _ => 0

def filterLine (line pline : List UInt8) (fType bpp : Nat) : List UInt8 :=
  (List.range line.length).map fun i => byteAt line i - prediction line pline fType bpp i

theorem byteAt_set (line : List UInt8) {i : Nat} (hi : i < line.length) (b : UInt8) (j : Nat) :
    byteAt (line.set i b) j = if i = j then b else byteAt line j := by
  simp only [byteAt, List.getD_eq_getElem?_getD, List.getElem?_set]
  split_ifs with hij
  · rfl
  · rfl

theorem ext_byteAt {line line' : List UInt8} (hlen : line.length = line'.length)
    (h : ∀ i < line'.length, byteAt line i = byteAt line' i) : line = line' := by
  refine List.ext_getElem hlen ?_
  intro i hi hi'
  have := h i hi'
  rwa [byteAt, byteAt, List.getD_eq_getElem _ _ hi, List.getD_eq_getElem _ _ hi'] at this

theorem addLoop_restores (predict : List UInt8 → Nat → UInt8) (target : List UInt8) (stop : Nat)
    (left : Nat) :
    ∀ (i : Nat) (line : List UInt8), i + left = stop → line.length = target.length →
      stop ≤ target.length → (∀ j < i, byteAt line j = byteAt target j) →
      (∀ j, i ≤ j → j < stop → ∀ l : List UInt8, (∀ k < j, byteAt l k = byteAt target k) →
        byteAt line j + predict l j = byteAt target j) →
      (addLoop predict left i line).length = target.length ∧
        (∀ j < stop, byteAt (addLoop predict left i line) j = byteAt target j) ∧
        ∀ j, stop ≤ j → byteAt (addLoop predict left i line) j = byteAt line j := by
  induction left with
  | zero =>
    intro i line hstop hlen hle hdone hrest
    exact ⟨hlen, fun j hj => hdone j (by omega), fun j _ => rfl⟩
  | succ left ih =>
    intro i line hstop hlen hle hdone hrest
    have hset := byteAt_set line (i := i) (by omega) (byteAt line i + predict line i)
    rw [addLoop]
    rcases ih (i + 1) (line.set i (byteAt line i + predict line i)) (by omega)
      (by rw [List.length_set, hlen]) hle
      (fun j hj => by
        rw [hset]
        split_ifs with hij
        · subst hij
          exact hrest i le_rfl (by omega) line hdone
        · exact hdone j (by omega))
      (fun j hij hj l hl => by
        rw [hset, if_neg (by omega)]
        exact hrest j (by omega) hj l hl) with ⟨hlen', hdone', hkept⟩
    refine ⟨hlen', hdone', ?_⟩
    intro j hj
    rw [hkept j hj, hset, if_neg (by omega)]

theorem addLoop_eq {predict : List UInt8 → Nat → UInt8} {target line : List UInt8} {i : Nat}
    (hi : i ≤ target.length) (hlen : line.length = target.length)
    (hdone : ∀ j < i, byteAt line j = byteAt target j)
    (hrest : ∀ j, i ≤ j → j < target.length → ∀ l : List UInt8,
      (∀ k < j, byteAt l k = byteAt target k) → byteAt line j + predict l j = byteAt target j) :
    addLoop predict (line.length - i) i line = target := by
  rcases addLoop_restores predict target target.length (line.length - i) i line (by omega) hlen
    le_rfl hdone hrest with ⟨hlen', hdone', -⟩
  exact ext_byteAt hlen' hdone'

theorem byteAt_filterLine {line pline : List UInt8} {fType bpp i : Nat} (hi : i < line.length) :
    byteAt (filterLine line pline fType bpp) i =
      byteAt line i - prediction line pline fType bpp i := by
  have hlen : i < (filterLine line pline fType bpp).length := by simpa [filterLine] using hi
  rw [byteAt, List.getD_eq_getElem _ _ hlen]
  simp [filterLine]

theorem length_filterLine (line pline : List UInt8) (fType bpp : Nat) :
    (filterLine line pline fType bpp).length = line.length := by
  simp [filterLine]

section

variable {line pline : List UInt8} {fType bpp : Nat}

theorem byteAt_filterLine_add {i : Nat} (hi : i < line.length) {b : UInt8}
    (hb : b = prediction line pline fType bpp i) :
    byteAt (filterLine line pline fType bpp) i + b = byteAt line i := by
  rw [byteAt_filterLine hi, hb, UInt8.sub_add_cancel]

theorem two_loops {first second : List UInt8 → Nat → UInt8} (hbpp : bpp ≤ line.length)
    (hfst : ∀ l i, i < bpp → first l i = prediction line pline fType bpp i)
    (hsnd : ∀ l : List UInt8, ∀ i, bpp ≤ i → (∀ k < i, byteAt l k = byteAt line k) →
      second l i = prediction line pline fType bpp i) :
    addLoop second ((addLoop first bpp 0 (filterLine line pline fType bpp)).length - bpp) bpp
      (addLoop first bpp 0 (filterLine line pline fType bpp)) = line := by
  rcases addLoop_restores first line bpp bpp 0
    (filterLine line pline fType bpp) (by omega) (length_filterLine ..) hbpp
    (fun j hj => by omega)
    (fun j _ hj l _ => byteAt_filterLine_add (by omega) (hfst l j hj)) with
    ⟨hlen, hdone, hkept⟩
  refine addLoop_eq hbpp hlen hdone ?_
  intro j hij hj l hl
  rw [hkept j hij]
  exact byteAt_filterLine_add hj (hsnd l j hij hl)

theorem paethPr_left (b : Nat) : paethPr 0 b 0 = b := by
  simp only [paethPr]
  split_ifs <;> omega

theorem doFilter_filterLine (line pline : List UInt8) (fType : Nat) (hpos : 0 < bpp)
    (hbpp : bpp ≤ line.length) :
    doFilter (filterLine line pline fType bpp) pline fType bpp = line := by
  have hlen := length_filterLine line pline fType bpp
  unfold doFilter
  split
  · refine addLoop_eq hbpp hlen ?_ ?_
    · intro j hj
      rw [byteAt_filterLine (by omega)]
      simp [prediction, hj]
    · intro j hij hj l hl
      refine byteAt_filterLine_add hj ?_
      simp only [prediction, if_neg (Nat.not_lt.mpr hij)]
      exact hl (j - bpp) (by omega)
  · refine addLoop_eq (Nat.zero_le _) hlen (fun j hj => by omega) ?_
    intro j _ hj l _
    exact byteAt_filterLine_add hj rfl
  · refine two_loops hbpp ?_ ?_
    · intro l i hi
      simp [prediction, hi]
    · intro l i hi hl
      simp only [prediction, if_neg (Nat.not_lt.mpr hi)]
      rw [hl (i - bpp) (by omega)]
  · refine two_loops hbpp ?_ ?_
    · intro l i hi
      simp [prediction, hi, paethPr_left]
    · intro l i hi hl
      simp only [prediction, if_neg (Nat.not_lt.mpr hi)]
      rw [hl (i - bpp) (by omega)]
  · refine ext_byteAt hlen ?_
    intro i hi
    rw [byteAt_filterLine hi, prediction, UInt8.sub_zero]
    all_goals assumption

end

end OpenJfx.Iio.Png

namespace OpenJfx.Iio.Png

open Data.Stores Java

inductive ColorType where
  | gray
  | rgb
  | palette
  | grayAlpha
  | rgbAlpha
  deriving DecidableEq

def ColorType.numBands : ColorType → Nat
  | .gray => 1
  | .rgb => 3
  | .palette => 1
  | .grayAlpha => 2
  | .rgbAlpha => 4

/-- What has been read before the image data; `readHeader` and `parseTransparencyChunk` let
only such values pass. -/
structure Header where
  width : Nat
  height : Nat
  bitDepth : Nat
  colorType : ColorType
  tRNSGrayRgb : Bool
  trnsR : Int
  trnsG : Int
  trnsB : Int
  width_pos : 0 < width
  width_lt : width < 2 ^ 31
  height_pos : 0 < height
  height_lt : height < 2 ^ 31
  depth_legal : bitDepth ∈ [1, 2, 4, 8, 16]
  low_depth : bitDepth < 8 → colorType = .gray ∨ colorType = .palette
  palette_depth : colorType = .palette → bitDepth ≠ 16
  trns_legal : tRNSGrayRgb = true → colorType = .gray ∨ colorType = .rgb

abbrev Store := Nat × UInt8

namespace Header

variable (h : Header)

def numBands : Nat := h.colorType.numBands

def bpp : Nat := h.numBands + (if h.tRNSGrayRgb then 1 else 0)

def bytesPerColor : Nat := if h.bitDepth = 16 then 2 else 1

def srcBpp : Nat := h.numBands * h.bytesPerColor

def signedByte (b : UInt8) : Int := DataStream.signed 1 b.toNat

def signedShort (high low : UInt8) : Int := DataStream.signed 2 (high.toNat * 256 + low.toNat)

def alpha (transparent : Bool) : UInt8 := if transparent then 0 else 255

def storesAt (pos : Nat) (bytes : List UInt8) : List Store :=
  bytes.zipIdx.map fun p => (pos + p.2, p.1)

def downsample16to8trnsGray (line : List UInt8) (pos step : Nat) : List Store :=
  (List.range (line.length / 2)).flatMap fun i =>
    let gray16 := signedShort (byteAt line (i * 2)) (byteAt line (i * 2 + 1))
    storesAt (pos + i * (step * 2)) [byteAt line (i * 2), alpha (gray16 = h.trnsG)]

def downsample16to8trnsRgb (line : List UInt8) (pos step : Nat) : List Store :=
  (List.range (line.length / 2 / 3)).flatMap fun i =>
    let iPos := i * 6
    let r16 := signedShort (byteAt line iPos) (byteAt line (iPos + 1))
    let g16 := signedShort (byteAt line (iPos + 2)) (byteAt line (iPos + 3))
    let b16 := signedShort (byteAt line (iPos + 4)) (byteAt line (iPos + 5))
    storesAt (pos + i * (step * 4))
      [byteAt line iPos, byteAt line (iPos + 2), byteAt line (iPos + 4),
        alpha (r16 = h.trnsR ∧ g16 = h.trnsG ∧ b16 = h.trnsB)]

def downsample16to8plain (line : List UInt8) (pos step bpp : Nat) : List Store :=
  (List.range (line.length / 2 / bpp)).flatMap fun i =>
    storesAt (pos + i * (step * bpp))
      ((List.range bpp).map fun b => byteAt line ((i * bpp + b) * 2))

def downsample16to8 (line : List UInt8) (pos step bpp : Nat) : List Store :=
  if ¬ h.tRNSGrayRgb then downsample16to8plain line pos step bpp
  else if h.colorType = .gray then h.downsample16to8trnsGray line pos step
  else if h.colorType = .rgb then h.downsample16to8trnsRgb line pos step
  else []

def toByte (n : Int) : UInt8 := .ofNat (n % 256).toNat

def copyTrnsGray (line : List UInt8) (pos step : Nat) : List Store :=
  (List.range line.length).flatMap fun i =>
    let gray := byteAt line i
    storesAt (pos + i * (2 * step)) [gray, alpha (gray = toByte h.trnsG)]

def copyTrnsRgb (line : List UInt8) (pos step : Nat) : List Store :=
  (List.range (line.length / 3)).flatMap fun i =>
    let r := byteAt line (i * 3)
    let g := byteAt line (i * 3 + 1)
    let b := byteAt line (i * 3 + 2)
    storesAt (pos + i * (step * 4))
      [r, g, b, alpha (r = toByte h.trnsR ∧ g = toByte h.trnsG ∧ b = toByte h.trnsB)]

def copyPlain (line : List UInt8) (pos step bpp : Nat) : List Store :=
  (List.range (line.length / bpp)).flatMap fun i =>
    storesAt (pos + i * (step * bpp)) ((List.range bpp).map fun b => byteAt line (i * bpp + b))

def copy (line : List UInt8) (pos step resultBpp : Nat) : List Store :=
  if ¬ h.tRNSGrayRgb then
    if step = 1 then storesAt pos line else copyPlain line pos step resultBpp
  else if h.colorType = .gray then h.copyTrnsGray line pos step
  else if h.colorType = .rgb then h.copyTrnsRgb line pos step
  else []

section

variable (bitDepth : Nat) (emit : Nat → Int → List Store)

/-- The inner loop of the methods for small samples, which takes the samples of a byte from
the last one to the first. The operator `&` with the greatest sample is a remainder. -/
def unpack : Nat → Int → List Store
  | 0, _ => []
  | pp + 1, input => emit pp (input % 2 ^ bitDepth) ++ unpack pp (input / 2 ^ bitDepth)

/-- The outer loop, over the bytes of the line. -/
def upsample (line : List UInt8) (w : Nat) : List Store :=
  let samplesInByte := 8 / bitDepth
  (List.range ((w + samplesInByte - 1) / samplesInByte)).flatMap fun k =>
    let i := k * samplesInByte
    let p := if w - i < samplesInByte then w - i else samplesInByte
    unpack bitDepth (fun pp value => emit (i + pp) value) p
      (signedByte (byteAt line k) / 2 ^ ((samplesInByte - p) * bitDepth))

end

def stretch (value : Int) : UInt8 :=
  let maxV : Int := 2 ^ h.bitDepth - 1
  toByte ((value * 255 + maxV / 2) / maxV)

def upsampleTo8Palette (line : List UInt8) (pos w step : Nat) : List Store :=
  upsample h.bitDepth (fun i value => [(pos + i * step, toByte value)]) line w

def upsampleTo8Gray (line : List UInt8) (pos w step : Nat) : List Store :=
  upsample h.bitDepth (fun i value => [(pos + i * step, h.stretch value)]) line w

def upsampleTo8GrayTrns (line : List UInt8) (pos w step : Nat) : List Store :=
  upsample h.bitDepth (fun i value =>
    let idx := pos + i * step * 2
    [(idx, h.stretch value), (idx + 1, alpha (value = h.trnsG))]) line w

def upsampleTo8 (line : List UInt8) (pos w step bpp : Nat) : List Store :=
  if h.colorType = .palette then h.upsampleTo8Palette line pos w step
  else if bpp = 1 then h.upsampleTo8Gray line pos w step
  else if h.tRNSGrayRgb ∧ bpp = 2 then h.upsampleTo8GrayTrns line pos w step
  else []

/-- No loop of `doFilter` and of the methods above leaves a line of the given length. -/
def inBounds (fType length w step : Nat) : Bool :=
  (fType = 1 ∨ fType = 3 ∨ fType = 4 → h.srcBpp ≤ length) ∧
    (h.bitDepth < 8 → (w + 8 / h.bitDepth - 1) / (8 / h.bitDepth) ≤ length) ∧
    (h.bitDepth = 8 ∧ ¬ h.tRNSGrayRgb ∧ step ≠ 1 → length % h.bpp = 0)

/-- The part of `loadMip` that converts a line of `w` pixels. -/
def convertLine (line : List UInt8) (pos w step : Nat) : List Store :=
  if h.bitDepth = 16 then h.downsample16to8 line pos step h.bpp
  else if h.bitDepth < 8 then h.upsampleTo8 line pos w step h.bpp
  else h.copy line pos step h.bpp

end Header

end OpenJfx.Iio.Png
