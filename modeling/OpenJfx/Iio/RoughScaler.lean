import OpenJfx.Data.Loop
import OpenJfx.Data.RowMajor
import OpenJfx.Java.Arrays
import OpenJfx.Java.Ints
import Mathlib.Algebra.Order.Floor.Semifield
import Mathlib.Data.Rat.Floor

namespace OpenJfx.Iio.Scale

open Data Java.Arrays Java.Ints

inductive ScalerFailure where
  | illegalArgument
  | negativeArraySize
  | indexOutOfBounds

/-- The scale factors are rational numbers. The lines of an image are pushed one after the other. -/
structure RoughScaler where
  numBands : Nat
  destWidth : Nat
  destHeight : Nat
  scaleY : ℚ
  destBuf : List UInt8
  colPositions : List Int
  sourceLine : Nat
  nextSourceLine : Nat
  destLine : Nat

/-- `(int) ((i + 0.5) * scale)`, where a value that is too large becomes the largest `int`. -/
def nearest (scale : ℚ) (i : Nat) : Nat := min ⌊((i : ℚ) + 1 / 2) * scale⌋₊ (2 ^ 31 - 1)

def RoughScaler.new (sourceWidth sourceHeight numBands destWidth destHeight : Int) :
    Except ScalerFailure RoughScaler :=
  if sourceWidth ≤ 0 ∨ sourceHeight ≤ 0 ∨ numBands ≤ 0 ∨ destWidth ≤ 0 ∨ destHeight ≤ 0 then
    .error .illegalArgument
  else
    let size := int32 (destHeight * destWidth * numBands)
    if size < 0 then .error .negativeArraySize
    else
      let scaleX : ℚ := sourceWidth / destWidth
      let scaleY : ℚ := sourceHeight / destHeight
      .ok
        { numBands := numBands.toNat
          destWidth := destWidth.toNat
          destHeight := destHeight.toNat
          scaleY := scaleY
          destBuf := List.replicate size.toNat 0
          colPositions := (List.range destWidth.toNat).map fun i =>
            int32 (nearest scaleX i * numBands)
          sourceLine := 0
          nextSourceLine := nearest scaleY 0
          destLine := 0 }

namespace RoughScaler

/-- The body of the loop over the bands of a pixel. -/
def copyByte (scanline : List UInt8) (sourceOffset : Int) (s : List UInt8 × Int) (j : Nat) :
    Outcome (List UInt8 × Int) := do
  let b ← load scanline (sourceOffset + j)
  let dest ← store s.1 s.2 b
  pure (dest, s.2 + 1)

/-- The body of the loop over the pixels of a line. -/
def copyPixel (c : RoughScaler) (scanline : List UInt8) (off : Int) (s : List UInt8 × Int)
    (i : Nat) : Outcome (List UInt8 × Int) := do
  let colPosition ← load c.colPositions i
  (List.range c.numBands).foldlM (copyByte scanline (int32 (off + colPosition))) s

/-- The loop that repeats the line; it returns the destination and `destLine`. The rows below the
image do not belong to a line of the source, so that there are at most `destHeight` turns. -/
def repeatLine (c : RoughScaler) (destOffset : Int) :
    Nat → Nat → List UInt8 × Int → Outcome (List UInt8 × Nat)
  | 0, destLine, s => .ok (s.1, destLine)
  | turns + 1, destLine, s =>
    if nearest c.scaleY (destLine + 1) = c.sourceLine then do
      let length := c.destWidth * c.numBands
      let dest ← arraycopy s.1 destOffset s.1 s.2 length
      repeatLine c destOffset turns (destLine + 1) (dest, s.2 + length)
    else .ok (s.1, destLine + 1)

/-- The rows of the destination that are taken from the line. -/
def putLine (c : RoughScaler) (scanline : List UInt8) (off : Int) : Outcome RoughScaler := do
  let destOffset := int32 (c.destLine * c.destWidth * c.numBands)
  let s ← (List.range c.destWidth).foldlM (c.copyPixel scanline off) (c.destBuf, destOffset)
  let (dest, destLine) ← c.repeatLine destOffset c.destHeight c.destLine s
  pure { c with
    destBuf := dest
    destLine := destLine
    nextSourceLine := nearest c.scaleY destLine }

def putSourceScanline (c : RoughScaler) (scanline : List UInt8) (off : Int) :
    Except ScalerFailure (Bool × RoughScaler) :=
  if off < 0 then .error .illegalArgument
  else if c.destLine < c.destHeight then
    if c.sourceLine = c.nextSourceLine then
      match c.putLine scanline off with
      | .error _ => .error .indexOutOfBounds
      | .ok c => .ok (c.destLine = c.destHeight, { c with sourceLine := c.sourceLine + 1 })
    else .ok (c.destLine = c.destHeight, { c with sourceLine := c.sourceLine + 1 })
  else .ok (c.destLine = c.destHeight, c)

/-- The lines of an image, each in an array and from an offset on. What the calls have returned is
given back, too. -/
def putAll : List (List UInt8 × Int) → RoughScaler →
    Except ScalerFailure (List Bool × RoughScaler)
  | [], c => .ok ([], c)
  | line :: lines, c => do
    let (complete, c) ← c.putSourceScanline line.1 line.2
    let (completes, c) ← putAll lines c
    pure (complete :: completes, c)

end RoughScaler

open Data List

def sourceIndex (s d i : Nat) : Nat := ⌊((i : ℚ) + 1 / 2) * s / d⌋₊

section Indices

variable {s d : Nat}

theorem sourceIndex_eq (hd : 0 < d) (i : Nat) : sourceIndex s d i = (2 * i + 1) * s / (2 * d) := by
  have hquot : ((i : ℚ) + 1 / 2) * s / d = (((2 * i + 1) * s : Nat) : ℚ) / ((2 * d : Nat) : ℚ) := by
    push_cast
    field_simp
  rw [sourceIndex, hquot, Nat.floor_div_eq_div]

theorem sourceIndex_lt (hs : 0 < s) {i : Nat} (hi : i < d) : sourceIndex s d i < s := by
  rw [sourceIndex_eq (by omega)]
  apply Nat.div_lt_of_lt_mul
  exact Nat.mul_lt_mul_of_pos_right (by omega) hs

theorem sourceIndex_mono (hd : 0 < d) {i j : Nat} (hij : i ≤ j) :
    sourceIndex s d i ≤ sourceIndex s d j := by
  rw [sourceIndex_eq hd, sourceIndex_eq hd]
  exact Nat.div_le_div_right (Nat.mul_le_mul_right s (by omega))

theorem le_sourceIndex (hd : 0 < d) {i : Nat} (hi : d ≤ i) : s ≤ sourceIndex s d i := by
  rw [sourceIndex_eq hd, Nat.le_div_iff_mul_le (by omega), Nat.mul_comm s]
  exact Nat.mul_le_mul_right s (by omega)

theorem nearest_eq (i : Nat) :
    nearest ((s : ℚ) / d) i = min (sourceIndex s d i) (2 ^ 31 - 1) := by
  rw [nearest, sourceIndex, mul_div_assoc]

theorem nearest_eq_iff {i k : Nat} (hk : k < 2 ^ 31 - 1) :
    nearest ((s : ℚ) / d) i = k ↔ sourceIndex s d i = k := by
  rw [nearest_eq]
  omega

theorem nearest_of_lt (hs : 0 < s) (hs' : s < 2 ^ 31) {i : Nat} (hi : i < d) :
    nearest ((s : ℚ) / d) i = sourceIndex s d i := by
  have := sourceIndex_lt hs hi
  rw [nearest_eq]
  omega

end Indices

section Copies

structure Copied (dest₀ : List UInt8) (start n : Nat) (f : Nat → Option UInt8)
    (dest : List UInt8) : Prop where
  length_eq : dest.length = dest₀.length
  get_eq : ∀ q, dest[q]? = if start ≤ q ∧ q < start + n then f (q - start) else dest₀[q]?

variable {dest₀ dest : List UInt8} {start n : Nat} {f : Nat → Option UInt8}

theorem Copied.refl (dest₀ : List UInt8) (start : Nat) (f : Nat → Option UInt8) :
    Copied dest₀ start 0 f dest₀ where
  length_eq := rfl
  get_eq q := by rw [if_neg (by omega)]

theorem Copied.store (h : Copied dest₀ start n f dest) {b : UInt8} (hb : f n = some b)
    (hroom : start + n < dest₀.length) :
    ∃ dest', store dest ((start + n : Nat) : Int) b = .ok dest' ∧
      Copied dest₀ start (n + 1) f dest' := by
  have hlt : start + n < dest.length := by rwa [h.length_eq]
  refine ⟨_, store_eq_set b hlt, by rw [length_set, h.length_eq], ?_⟩
  intro q
  rw [getElem?_set]
  split_ifs with hq hin hin
  · rw [← hq, Nat.add_sub_cancel_left, hb]
  · omega
  · rw [h.get_eq, if_pos (by omega)]
  · rw [h.get_eq, if_neg (by omega)]

end Copies

section Lines

def rowByte (sourceWidth destWidth numBands : Nat) (scanline : List UInt8) (off p : Nat) :
    Option UInt8 :=
  scanline[off + sourceIndex sourceWidth destWidth (p / numBands) * numBands + p % numBands]?

variable {sourceWidth destWidth numBands off start : Nat} {scanline dest₀ : List UInt8}
  {c : RoughScaler}

theorem getElem?_range {n k i : Nat} (h : (List.range n)[k]? = some i) : k < n ∧ i = k := by
  obtain ⟨hk, heq⟩ := List.getElem?_eq_some_iff.mp h
  rw [getElem_range] at heq
  exact ⟨by rwa [length_range] at hk, heq.symm⟩

theorem pixel_lt (hsrc : 0 < sourceWidth) {i j : Nat} (hi : i < destWidth)
    (hj : j < numBands) :
    sourceIndex sourceWidth destWidth i * numBands + j < sourceWidth * numBands := by
  have hmul := Nat.mul_le_mul_right numBands (Nat.succ_le_of_lt (sourceIndex_lt hsrc hi))
  rw [Nat.succ_mul] at hmul
  omega

theorem copyPixel_spec (hsource : 0 < sourceWidth) (hbands : c.numBands = numBands)
    (hcol : c.colPositions = (List.range destWidth).map fun i =>
      ((sourceIndex sourceWidth destWidth i * numBands : Nat) : Int))
    (hline : off + sourceWidth * numBands ≤ scanline.length) (hint : scanline.length < 2 ^ 31)
    (hroom : start + destWidth * numBands ≤ dest₀.length) {i : Nat} (hi : i < destWidth)
    {dest : List UInt8}
    (hdest : Copied dest₀ start (i * numBands)
      (rowByte sourceWidth destWidth numBands scanline off) dest) :
    ∃ dest', c.copyPixel scanline off (dest, ((start + i * numBands : Nat) : Int)) i =
        .ok (dest', ((start + (i + 1) * numBands : Nat) : Int)) ∧
      Copied dest₀ start ((i + 1) * numBands)
        (rowByte sourceWidth destWidth numBands scanline off) dest' := by
  have hload : load c.colPositions i =
      .ok ((sourceIndex sourceWidth destWidth i * numBands : Nat) : Int) := by
    apply load_eq_ok
    rw [hcol, getElem?_map, List.getElem?_range hi]
    rfl
  have hmul := Nat.mul_le_mul_right numBands (Nat.succ_le_of_lt (sourceIndex_lt hsource hi))
  have hmul' := Nat.mul_le_mul_right numBands (Nat.succ_le_of_lt hi)
  rw [Nat.succ_mul] at hmul hmul'
  have hoff :
    int32 ((off : Int) + ((sourceIndex sourceWidth destWidth i * numBands : Nat) : Int)) =
      ((off + sourceIndex sourceWidth destWidth i * numBands : Nat) : Int) := by
    apply int32_eq <;> omega
  have hbyte : ∀ j < numBands, rowByte sourceWidth destWidth numBands scanline off
      (i * numBands + j) =
        scanline[off + sourceIndex sourceWidth destWidth i * numBands + j]? := by
    intro j hj
    have hdiv : (i * numBands + j) / numBands = i := by
      rw [Nat.add_comm, Nat.add_mul_div_right _ _ (by omega), Nat.div_eq_of_lt hj, Nat.zero_add]
    have hmod : (i * numBands + j) % numBands = j := by
      rw [Nat.add_comm, Nat.add_mul_mod_self_right, Nat.mod_eq_of_lt hj]
    rw [rowByte, hdiv, hmod]
  obtain ⟨⟨dest', pos⟩, hloop, hpos, hcopied⟩ := foldlM_ok
    (P := fun j (s : List UInt8 × Int) => s.2 = ((start + (i * numBands + j) : Nat) : Int) ∧
      Copied dest₀ start (i * numBands + j)
        (rowByte sourceWidth destWidth numBands scanline off) s.1)
    (f := RoughScaler.copyByte scanline
      ((off + sourceIndex sourceWidth destWidth i * numBands : Nat) : Int))
    (l := List.range numBands) (s := (dest, ((start + i * numBands : Nat) : Int)))
    ⟨rfl, hdest⟩ (by
      rintro j j' hj' ⟨dest, pos⟩ ⟨rfl, hcopied⟩
      obtain ⟨hj, rfl⟩ := getElem?_range hj'
      have hsrc : off + sourceIndex sourceWidth destWidth i * numBands + j' < scanline.length := by
        rw [Nat.add_assoc]
        exact (Nat.add_lt_add_left (pixel_lt hsource hi hj) off).trans_le hline
      obtain ⟨dest', hstore, hcopied'⟩ := hcopied.store
        ((hbyte j' hj).trans (getElem?_eq_getElem hsrc)) (by omega)
      refine ⟨(dest', _), ?_, rfl, hcopied'⟩
      rw [RoughScaler.copyByte, ← Int.natCast_add, load_natCast _ _ hsrc, ok_bind, hstore]
      rfl)
  rw [length_range] at hpos hcopied
  have hend : i * numBands + numBands = (i + 1) * numBands := (Nat.succ_mul ..).symm
  rw [hend] at hpos hcopied
  refine ⟨dest', ?_, hcopied⟩
  rw [RoughScaler.copyPixel, hload, ok_bind, hoff, hbands, hloop, ← hpos]

theorem copyLine_spec (hsrc : 0 < sourceWidth) (hbands : c.numBands = numBands)
    (hcol : c.colPositions = (List.range destWidth).map fun i =>
      ((sourceIndex sourceWidth destWidth i * numBands : Nat) : Int))
    (hline : off + sourceWidth * numBands ≤ scanline.length) (hint : scanline.length < 2 ^ 31)
    (hroom : start + destWidth * numBands ≤ dest₀.length) :
    ∃ dest, (List.range destWidth).foldlM (c.copyPixel scanline off) (dest₀, (start : Int)) =
        .ok (dest, ((start + destWidth * numBands : Nat) : Int)) ∧
      Copied dest₀ start (destWidth * numBands)
        (rowByte sourceWidth destWidth numBands scanline off) dest := by
  obtain ⟨⟨dest, pos⟩, hloop, hpos, hcopied⟩ := foldlM_ok
    (P := fun i (s : List UInt8 × Int) => s.2 = ((start + i * numBands : Nat) : Int) ∧
      Copied dest₀ start (i * numBands)
        (rowByte sourceWidth destWidth numBands scanline off) s.1)
    (f := c.copyPixel scanline off) (l := List.range destWidth) (s := (dest₀, (start : Int)))
    ⟨by rw [Nat.zero_mul, Nat.add_zero], by rw [Nat.zero_mul]; exact .refl ..⟩ (by
      rintro i i' hi' ⟨dest, pos⟩ ⟨rfl, hcopied⟩
      obtain ⟨hi, rfl⟩ := getElem?_range hi'
      obtain ⟨dest', hdest', hcopied'⟩ :=
        copyPixel_spec hsrc hbands hcol hline hint hroom hi hcopied
      exact ⟨_, hdest', rfl, hcopied'⟩)
  rw [length_range] at hpos hcopied
  exact ⟨dest, by rw [hloop, ← hpos], hcopied⟩

end Lines

section Rows

def RowIs (length : Nat) (f : Nat → Option UInt8) (dest : List UInt8) (d : Nat) : Prop :=
  ∀ p < length, dest[d * length + p]? = f p

variable {sourceHeight destHeight length : Nat} {c : RoughScaler} {dest dest₀ dest' : List UInt8}
  {f g : Nat → Option UInt8}

theorem Copied.rowIs {d : Nat} (h : Copied dest₀ (d * length) length f dest) :
    RowIs length f dest d := by
  intro p hp
  rw [h.get_eq, if_pos (by omega), Nat.add_sub_cancel_left]

theorem Copied.rowIs_of_lt {d d' : Nat} (h : Copied dest₀ (d * length) length f dest)
    (hd : d' < d) (hrow : RowIs length g dest₀ d') : RowIs length g dest d' := by
  intro p hp
  have := RowMajor.mul_add_lt_mul hd hp
  rw [h.get_eq, if_neg (by omega)]
  exact hrow p hp

theorem copied_of_arraycopy {first d : Nat} (hfst : first < d) (hd : d < destHeight)
    (hlen : dest.length = destHeight * length) (hrow : RowIs length f dest first) :
    ∃ dest', arraycopy dest ((first * length : Nat) : Int) dest ((d * length : Nat) : Int)
        (length : Int) = .ok dest' ∧ Copied dest (d * length) length f dest' := by
  have hmul := Nat.mul_le_mul_right length (Nat.succ_le_of_lt hd)
  have hmul' := Nat.mul_le_mul_right length (Nat.succ_le_of_lt (hfst.trans hd))
  rw [Nat.succ_mul] at hmul hmul'
  have hsrc : first * length + length ≤ dest.length := by omega
  have hroom : d * length + length ≤ dest.length := by omega
  obtain ⟨dest', hcopy, hlen', hget⟩ := arraycopy_spec hsrc hroom
  refine ⟨dest', hcopy, hlen', ?_⟩
  intro q
  rw [hget]
  split_ifs with hq
  · exact hrow (q - d * length) (by omega)
  · rfl

theorem repeatLine_spec (hht : sourceHeight < 2 ^ 31) (hdest : 0 < destHeight)
    (hscale : c.scaleY = (sourceHeight : ℚ) / destHeight) (hline : c.sourceLine < sourceHeight)
    (hlen : length = c.destWidth * c.numBands) {first : Nat} (turns : Nat) :
    ∀ (d : Nat) (dest : List UInt8), first ≤ d → d < destHeight → destHeight ≤ d + turns →
      dest.length = destHeight * length → (∀ d', first ≤ d' → d' ≤ d → RowIs length f dest d') →
      ∃ dest' e, c.repeatLine ((first * length : Nat) : Int) turns d
            (dest, (((d + 1) * length : Nat) : Int)) = .ok (dest', e) ∧
        d < e ∧ e ≤ destHeight ∧ dest'.length = dest.length ∧
        (∀ d', first ≤ d' → d' < e → RowIs length f dest' d') ∧
        (∀ d' < first, ∀ g, RowIs length g dest d' → RowIs length g dest' d') ∧
        (∀ d', d < d' → d' < e → sourceIndex sourceHeight destHeight d' = c.sourceLine) ∧
        (e < destHeight → sourceIndex sourceHeight destHeight e ≠ c.sourceLine) := by
  have hiff : ∀ d, nearest c.scaleY d = c.sourceLine ↔
      sourceIndex sourceHeight destHeight d = c.sourceLine := by
    intro d
    rw [hscale]
    exact nearest_eq_iff (by omega)
  induction turns with
  | zero =>
    omega
  | succ turns ih =>
    intro d dest hfst hd hturns hdestLength hrows
    rw [RoughScaler.repeatLine]
    simp only [hiff]
    split_ifs with hnext
    · have hd' : d + 1 < destHeight := by
        by_contra hge
        have := le_sourceIndex (s := sourceHeight) hdest (Nat.not_lt.mp hge)
        omega
      obtain ⟨dest₁, hcopy, hcopied⟩ := copied_of_arraycopy (Nat.lt_succ_of_le hfst) hd'
        hdestLength (hrows first le_rfl hfst)
      obtain ⟨dest', e, hrepeat, he, heHeight, hlen', hrows', hkept, hidx, hend⟩ :=
        ih (d + 1) dest₁ (by omega) hd' (by omega) (hcopied.length_eq.trans hdestLength) (by
          intro d' hd₁ hd₂
          rcases Nat.lt_or_eq_of_le hd₂ with hlt | rfl
          · exact hcopied.rowIs_of_lt hlt (hrows d' hd₁ (by omega))
          · exact hcopied.rowIs)
      refine ⟨dest', e, ?_, by omega, heHeight, hlen'.trans hcopied.length_eq, hrows', ?_, ?_,
        hend⟩
      · rw [← hlen, hcopy, ok_bind, ← Int.natCast_add, ← Nat.succ_mul]
        exact hrepeat
      · intro d' hd' g hg
        exact hkept d' hd' g (hcopied.rowIs_of_lt (by omega) hg)
      · intro d' hd₁ hd₂
        rcases Nat.lt_or_eq_of_le (Nat.succ_le_of_lt hd₁) with hlt | rfl
        · exact hidx d' hlt hd₂
        · exact hnext
    · refine ⟨dest, d + 1, rfl, by omega, hd, rfl, ?_, fun _ _ _ hg => hg, ?_, fun _ => hnext⟩
      · intro d' hd₁ hd₂
        exact hrows d' hd₁ (by omega)
      · intro d' hd₁ hd₂
        omega

end Rows

section Images

/-- The sizes of an image and of what it is scaled to. -/
structure Sizes where
  sourceWidth : Nat
  sourceHeight : Nat
  numBands : Nat
  destWidth : Nat
  destHeight : Nat

namespace Sizes

variable (z : Sizes)

def rowLength : Nat := z.destWidth * z.numBands

/-- The sizes are positive, and the arrays that hold the images exist. -/
structure Valid : Prop where
  sourceWidth_pos : 0 < z.sourceWidth
  sourceHeight_pos : 0 < z.sourceHeight
  numBands_pos : 0 < z.numBands
  destWidth_pos : 0 < z.destWidth
  destHeight_pos : 0 < z.destHeight
  sourceHeight_lt : z.sourceHeight < 2 ^ 31
  dest_lt : z.destHeight * z.destWidth * z.numBands < 2 ^ 31

/-- The lines of the source are inside their arrays. -/
structure IsSource (lines : List (List UInt8 × Nat)) : Prop where
  length_eq : lines.length = z.sourceHeight
  line_le : ∀ line ∈ lines, line.2 + z.sourceWidth * z.numBands ≤ line.1.length
  line_lt : ∀ line ∈ lines, line.1.length < 2 ^ 31

def destByte (lines : List (List UInt8 × Nat)) (d p : Nat) : Option UInt8 :=
  match lines[sourceIndex z.sourceHeight z.destHeight d]? with
  | some line => rowByte z.sourceWidth z.destWidth z.numBands line.1 line.2 p
  | none => none

structure Scaled (lines : List (List UInt8 × Nat)) (k : Nat) (c : RoughScaler) : Prop where
  numBands_eq : c.numBands = z.numBands
  destWidth_eq : c.destWidth = z.destWidth
  destHeight_eq : c.destHeight = z.destHeight
  scaleY_eq : c.scaleY = (z.sourceHeight : ℚ) / z.destHeight
  colPositions_eq : c.colPositions = (List.range z.destWidth).map fun i =>
    ((sourceIndex z.sourceWidth z.destWidth i * z.numBands : Nat) : Int)
  length_eq : c.destBuf.length = z.destHeight * z.rowLength
  destLine_le : c.destLine ≤ z.destHeight
  before : ∀ d < c.destLine, sourceIndex z.sourceHeight z.destHeight d < k
  behind : c.destLine < z.destHeight → k ≤ sourceIndex z.sourceHeight z.destHeight c.destLine
  sourceLine_eq : c.destLine < z.destHeight → c.sourceLine = k
  nextSourceLine_eq : c.destLine < z.destHeight →
    c.nextSourceLine = sourceIndex z.sourceHeight z.destHeight c.destLine
  rows : ∀ d < c.destLine, RowIs z.rowLength (z.destByte lines d) c.destBuf d

variable {z} {lines : List (List UInt8 × Nat)} {k : Nat} {c : RoughScaler}

variable {line : List UInt8 × Nat}

theorem destByte_eq (hline : lines[k]? = some line) {d : Nat}
    (hd : sourceIndex z.sourceHeight z.destHeight d = k) (p : Nat) :
    z.destByte lines d p =
      rowByte z.sourceWidth z.destWidth z.numBands line.1 line.2 p := by
  rw [destByte, hd, hline]

theorem Scaled.putLine (hz : z.Valid) (hsrc : z.IsSource lines) (hc : z.Scaled lines k c)
    (hline : lines[k]? = some line) (hlt : c.destLine < z.destHeight)
    (hnext : c.sourceLine = c.nextSourceLine) :
    ∃ c', c.putLine line.1 line.2 = .ok c' ∧
      z.Scaled lines (k + 1) { c' with sourceLine := c'.sourceLine + 1 } := by
  have hsourceLine := hc.sourceLine_eq hlt
  have hidx : sourceIndex z.sourceHeight z.destHeight c.destLine = k := by
    rw [← hc.nextSourceLine_eq hlt, ← hnext, hsourceLine]
  have hk : k < z.sourceHeight := by
    rw [← hsrc.length_eq]
    exact (List.getElem?_eq_some_iff.mp hline).1
  have hmem := mem_of_getElem? hline
  have hlen : z.rowLength = c.destWidth * c.numBands := by
    rw [rowLength, hc.destWidth_eq, hc.numBands_eq]
  have hmul := Nat.mul_le_mul_right z.rowLength (Nat.succ_le_of_lt hlt)
  rw [Nat.succ_mul] at hmul
  have hbound : z.destHeight * z.rowLength < 2 ^ 31 := by
    rw [rowLength, ← Nat.mul_assoc]
    exact hz.dest_lt
  have hoff : int32 (c.destLine * c.destWidth * c.numBands) =
      ((c.destLine * z.rowLength : Nat) : Int) := by
    have hcast : (c.destLine * c.destWidth * c.numBands : Int) =
        ((c.destLine * z.rowLength : Nat) : Int) := by
      rw [hlen, ← Nat.mul_assoc, Int.natCast_mul, Int.natCast_mul]
    rw [hcast]
    apply int32_eq <;> omega
  have hroom : c.destLine * z.rowLength + z.destWidth * z.numBands ≤ c.destBuf.length := by
    rw [hc.length_eq]
    exact hmul
  obtain ⟨dest₁, hcopy, hcopied⟩ := copyLine_spec hz.sourceWidth_pos hc.numBands_eq
    hc.colPositions_eq (hsrc.line_le line hmem) (hsrc.line_lt line hmem) hroom
  obtain ⟨dest', e, hrepeat, he, heHeight, hlen', hrows, hkept, hidxs, hend⟩ :=
    repeatLine_spec hz.sourceHeight_lt hz.destHeight_pos hc.scaleY_eq (by omega) hlen
      z.destHeight c.destLine dest₁ (le_refl c.destLine) hlt (by omega)
      (hcopied.length_eq.trans hc.length_eq) (by
        intro d' hd₁ hd₂
        obtain rfl : d' = c.destLine := by omega
        exact hcopied.rowIs)
  have hbef : ∀ d < e, sourceIndex z.sourceHeight z.destHeight d < k + 1 := by
    intro d hd
    rcases Nat.lt_trichotomy d c.destLine with hd' | rfl | hd'
    · exact (hc.before d hd').trans (Nat.lt_succ_self k)
    · omega
    · have := hidxs d hd' hd
      omega
  have hbehind : e < z.destHeight → k + 1 ≤ sourceIndex z.sourceHeight z.destHeight e := by
    have hmono := sourceIndex_mono (s := z.sourceHeight) hz.destHeight_pos he.le
    omega
  refine ⟨{ c with
    destBuf := dest'
    destLine := e
    nextSourceLine := nearest c.scaleY e }, ?_, ?_⟩
  · rw [Nat.succ_mul, ← hc.destHeight_eq] at hrepeat
    change _ = Except.ok (dest₁, ((c.destLine * z.rowLength + z.rowLength : Nat) : Int)) at hcopy
    rw [← hc.destWidth_eq] at hcopy
    rw [RoughScaler.putLine, hoff, hcopy, ok_bind, hrepeat]
    rfl
  · exact
      { numBands_eq := hc.numBands_eq
        destWidth_eq := hc.destWidth_eq
        destHeight_eq := hc.destHeight_eq
        scaleY_eq := hc.scaleY_eq
        colPositions_eq := hc.colPositions_eq
        length_eq := hlen'.trans (hcopied.length_eq.trans hc.length_eq)
        destLine_le := heHeight
        before := hbef
        behind := hbehind
        sourceLine_eq := fun _ => by rw [hsourceLine]
        nextSourceLine_eq := by
          intro he'
          rw [hc.scaleY_eq]
          exact nearest_of_lt hz.sourceHeight_pos hz.sourceHeight_lt he'
        rows := by
          intro d hd
          rcases Nat.lt_or_ge d c.destLine with hd' | hd'
          · exact hkept d hd' _ (hcopied.rowIs_of_lt hd' (hc.rows d hd'))
          · have hd'' : sourceIndex z.sourceHeight z.destHeight d = k := by
              rcases Nat.lt_or_eq_of_le hd' with hgt | rfl
              · rw [hidxs d hgt hd, hsourceLine]
              · exact hidx
            intro p hp
            rw [destByte_eq hline hd'']
            exact hrows d hd' hd p hp }

theorem Scaled.putSourceScanline (hz : z.Valid) (hsrc : z.IsSource lines)
    (hc : z.Scaled lines k c) (hline : lines[k]? = some line) :
    ∃ c', c.putSourceScanline line.1 line.2 = .ok (decide (c'.destLine = c'.destHeight), c') ∧
      z.Scaled lines (k + 1) c' := by
  have hht := hc.destHeight_eq
  rw [RoughScaler.putSourceScanline, if_neg (by omega)]
  split_ifs with hlt hnext
  · rw [hht] at hlt
    obtain ⟨c', hput, hscaled⟩ := hc.putLine hz hsrc hline hlt hnext
    exact ⟨{ c' with sourceLine := c'.sourceLine + 1 }, by rw [hput], hscaled⟩
  · rw [hht] at hlt
    have hbehind := hc.behind hlt
    rw [hc.sourceLine_eq hlt, hc.nextSourceLine_eq hlt] at hnext
    exact ⟨{ c with sourceLine := c.sourceLine + 1 }, rfl,
      { hc with
        before := fun d hd => (hc.before d hd).trans (Nat.lt_succ_self k)
        behind := fun _ => by dsimp only; omega
        sourceLine_eq := fun _ => by dsimp only; rw [hc.sourceLine_eq hlt] }⟩
  · have hcomplete : ¬ c.destLine < z.destHeight := by rwa [hht] at hlt
    exact ⟨c, rfl,
      { hc with
        before := fun d hd => (hc.before d hd).trans (Nat.lt_succ_self k)
        behind := fun h => absurd h hcomplete
        sourceLine_eq := fun h => absurd h hcomplete }⟩

theorem IsSource.row_lt (hz : z.Valid) (hsrc : z.IsSource lines) :
    z.sourceWidth * z.numBands < 2 ^ 31 := by
  have hpos : 0 < lines.length := by
    rw [hsrc.length_eq]
    exact hz.sourceHeight_pos
  have hmem := getElem_mem hpos
  have hle := hsrc.line_le _ hmem
  have hlt := hsrc.line_lt _ hmem
  omega

theorem scaled_new (hz : z.Valid) (hsrc : z.IsSource lines) :
    ∃ c, RoughScaler.new z.sourceWidth z.sourceHeight z.numBands z.destWidth z.destHeight = .ok c ∧
      z.Scaled lines 0 c := by
  have hrow := hsrc.row_lt hz
  obtain ⟨hsw, hsh, hb, hdw, hdh, hlt, hsize⟩ := hz
  have hsw_lt : z.sourceWidth < 2 ^ 31 :=
    Nat.lt_of_le_of_lt (Nat.le_mul_of_pos_right _ hb) hrow
  have hint : int32 ((z.destHeight : Int) * z.destWidth * z.numBands) =
      ((z.destHeight * z.destWidth * z.numBands : Nat) : Int) := by
    rw [← Int.natCast_mul]
    apply int32_eq <;> omega
  have hcol : ∀ i < z.destWidth,
      int32 (nearest ((z.sourceWidth : ℚ) / z.destWidth) i * (z.numBands : Int)) =
        ((sourceIndex z.sourceWidth z.destWidth i * z.numBands : Nat) : Int) := by
    intro i hi
    have hmul := Nat.mul_le_mul_right z.numBands (sourceIndex_lt hsw hi).le
    rw [nearest_of_lt hsw hsw_lt hi]
    apply int32_eq <;> omega
  rw [RoughScaler.new, if_neg (by omega), hint]
  refine ⟨_, rfl, ?_⟩
  exact
    { numBands_eq := rfl
      destWidth_eq := rfl
      destHeight_eq := rfl
      scaleY_eq := rfl
      colPositions_eq := map_congr_left fun i hi => hcol i (mem_range.mp hi)
      length_eq := by
        rw [rowLength, ← Nat.mul_assoc]
        exact length_replicate
      destLine_le := Nat.zero_le _
      before := fun d hd => absurd hd (Nat.not_lt_zero d)
      behind := fun _ => Nat.zero_le _
      sourceLine_eq := fun _ => rfl
      nextSourceLine_eq := fun _ => nearest_of_lt hsh hlt hdh
      rows := fun d hd => absurd hd (Nat.not_lt_zero d) }

theorem Scaled.complete_iff (hz : z.Valid) (hc : z.Scaled lines (k + 1) c) :
    c.destLine = c.destHeight ↔
      sourceIndex z.sourceHeight z.destHeight (z.destHeight - 1) ≤ k := by
  have hpos := hz.destHeight_pos
  have hle := hc.destLine_le
  rw [hc.destHeight_eq]
  constructor
  · intro heq
    have := hc.before (z.destHeight - 1) (by omega)
    omega
  · intro hlast
    by_contra hne
    have hlt : c.destLine < z.destHeight := by omega
    have hbehind := hc.behind hlt
    have hmono := sourceIndex_mono (s := z.sourceHeight) hpos (Nat.le_sub_one_of_lt hlt)
    omega

theorem Scaled.putAll (hz : z.Valid) (hsrc : z.IsSource lines)
    (rest : List (List UInt8 × Nat)) :
    ∀ (k : Nat) (c : RoughScaler), lines.drop k = rest → k + rest.length = z.sourceHeight →
      z.Scaled lines k c →
      ∃ c', RoughScaler.putAll (rest.map fun line => (line.1, (line.2 : Int))) c =
          .ok ((List.range' k rest.length).map fun k =>
            decide (sourceIndex z.sourceHeight z.destHeight (z.destHeight - 1) ≤ k), c') ∧
        z.Scaled lines z.sourceHeight c' := by
  induction rest with
  | nil =>
    intro k c _ hk hc
    exact ⟨c, rfl, hk ▸ hc⟩
  | cons line rest ih =>
    intro k c hdrop hk hc
    have hline : lines[k]? = some line := by
      rw [← Nat.add_zero k, ← getElem?_drop, hdrop]
      rfl
    have hdrop' : lines.drop (k + 1) = rest := by
      rw [← drop_drop, hdrop]
      rfl
    obtain ⟨c₁, hput, hc₁⟩ := hc.putSourceScanline hz hsrc hline
    rw [length_cons] at hk
    obtain ⟨c', hputAll, hc'⟩ := ih (k + 1) c₁ hdrop' (by omega) hc₁
    refine ⟨c', ?_, hc'⟩
    rw [map_cons, RoughScaler.putAll, hput]
    change (RoughScaler.putAll _ c₁ >>= fun s =>
      Except.ok (decide (c₁.destLine = c₁.destHeight) :: s.1, s.2)) = _
    rw [hputAll]
    simp only [hc₁.complete_iff hz]
    rfl

/-- The scaler takes the nearest pixels of the source, and all accesses are inside the arrays. -/
theorem putAll_scales (z : Sizes) (hz : z.Valid) (lines : List (List UInt8 × Nat))
    (hsource : z.IsSource lines) :
    ∃ c c', RoughScaler.new z.sourceWidth z.sourceHeight z.numBands z.destWidth z.destHeight =
        .ok c ∧
      RoughScaler.putAll (lines.map fun line => (line.1, (line.2 : Int))) c =
        .ok ((List.range z.sourceHeight).map fun k =>
          decide (sourceIndex z.sourceHeight z.destHeight (z.destHeight - 1) ≤ k), c') ∧
      c'.destBuf.length = z.destHeight * z.destWidth * z.numBands ∧
      ∀ dy < z.destHeight, ∀ dx < z.destWidth, ∀ band < z.numBands, ∃ line b,
        lines[sourceIndex z.sourceHeight z.destHeight dy]? = some line ∧
        line.1[line.2 + sourceIndex z.sourceWidth z.destWidth dx * z.numBands + band]? = some b ∧
        c'.destBuf[(dy * z.destWidth + dx) * z.numBands + band]? = some b := by
  obtain ⟨c, hnew, hc⟩ := scaled_new hz hsource
  obtain ⟨c', hput, hc'⟩ := hc.putAll hz hsource lines 0 c rfl
    (by rw [Nat.zero_add, hsource.length_eq])
  rw [hsource.length_eq, ← range_eq_range'] at hput
  refine ⟨c, c', hnew, hput, ?_, ?_⟩
  · rw [hc'.length_eq, rowLength, Nat.mul_assoc]
  · intro dy hdy dx hdx band hband
    have hcomplete : dy < c'.destLine := by
      by_contra hge
      have hlt : c'.destLine < z.destHeight := by omega
      have hbehind := hc'.behind hlt
      have := sourceIndex_lt hz.sourceHeight_pos hlt
      omega
    have hdiv : (dx * z.numBands + band) / z.numBands = dx := by
      rw [Nat.add_comm, Nat.add_mul_div_right _ _ (by omega), Nat.div_eq_of_lt hband, Nat.zero_add]
    have hmod : (dx * z.numBands + band) % z.numBands = band := by
      rw [Nat.add_comm, Nat.add_mul_mod_self_right, Nat.mod_eq_of_lt hband]
    have hin : dx * z.numBands + band < z.rowLength := RowMajor.mul_add_lt_mul hdx hband
    have hbyte := hc'.rows dy hcomplete _ hin
    have hline : sourceIndex z.sourceHeight z.destHeight dy < lines.length := by
      rw [hsource.length_eq]
      exact sourceIndex_lt hz.sourceHeight_pos hdy
    have hlookup := getElem?_eq_getElem hline
    generalize lines[sourceIndex z.sourceHeight z.destHeight dy] = line at hlookup
    have hpixel : line.2 + sourceIndex z.sourceWidth z.destWidth dx * z.numBands + band <
        line.1.length := by
      rw [Nat.add_assoc]
      exact (Nat.add_lt_add_left (pixel_lt hz.sourceWidth_pos hdx hband) line.2).trans_le
        (hsource.line_le line (mem_of_getElem? hlookup))
    refine ⟨line, _, hlookup, getElem?_eq_getElem hpixel, ?_⟩
    rw [destByte_eq hlookup rfl, rowByte, hdiv, hmod, getElem?_eq_getElem hpixel] at hbyte
    rw [← hbyte, rowLength, Nat.add_mul, Nat.mul_assoc, Nat.add_assoc]

/-- Three lines become one, which is complete after the second of them; and the array for a
destination that is too large does not exist. -/
theorem complete_before_the_last_line :
    (∃ c c', RoughScaler.new 1 3 1 1 1 = .ok c ∧
      RoughScaler.putAll [([10], 0), ([20], 0), ([30], 0)] c = .ok ([false, true, true], c')) ∧
    RoughScaler.new 1 1 2 1 (2 ^ 30) = .error .negativeArraySize := by
  constructor
  · have hz : Valid ⟨1, 3, 1, 1, 1⟩ := by constructor <;> decide
    have hsource : IsSource ⟨1, 3, 1, 1, 1⟩ [([10], 0), ([20], 0), ([30], 0)] := by
      constructor <;> decide
    obtain ⟨c, hnew, hc⟩ := scaled_new hz hsource
    obtain ⟨c', hput, -⟩ := hc.putAll hz hsource _ 0 c rfl rfl
    refine ⟨c, c', hnew, ?_⟩
    simp only [sourceIndex_eq Nat.one_pos] at hput
    exact hput
  · rfl

theorem putAll_scales_three_rows :
    ∃ c c', RoughScaler.new 2 2 1 3 3 = .ok c ∧
      RoughScaler.putAll [([10, 20], 0), ([0, 30, 40], 1)] c = .ok ([false, true], c') ∧
      c'.destBuf.length = 9 := by
  have hz : Valid ⟨2, 2, 1, 3, 3⟩ := by constructor <;> decide
  have hsource : IsSource ⟨2, 2, 1, 3, 3⟩ [([10, 20], 0), ([0, 30, 40], 1)] := by
    constructor <;> decide
  obtain ⟨c, c', hnew, hput, hlength, -⟩ := putAll_scales _ hz _ hsource
  refine ⟨c, c', hnew, ?_, hlength⟩
  simp only [sourceIndex_eq (by decide : 0 < 3)] at hput
  exact hput

end Sizes

end Images

end OpenJfx.Iio.Scale
