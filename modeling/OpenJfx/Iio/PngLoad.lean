import OpenJfx.Iio.Adam7
import OpenJfx.Iio.PngPixels

namespace OpenJfx.Iio.Png

open Data.Stores Java.Ints

inductive LoadError where
  | eof
  | negativeArraySize
  | indexOutOfBounds
  | illegalArgument

/-- The image while it is loaded, and the places that have been written, in that order. -/
structure Progress where
  image : List UInt8
  written : List Nat

def Progress.storeAll (p : Progress) (stores : List Store) : Except LoadError Progress :=
  match Data.Stores.storeAll p.image stores with
  | some image => .ok ⟨image, p.written ++ stores.map Prod.fst⟩
  | none => .error .indexOutOfBounds

namespace Header

variable (h : Header)

section

variable (mip mipWidth scanLineSize : Nat)

/-- A turn of the loop of `loadMip`; the line is returned as it is the previous one in the
next turn. -/
def loadLine (y : Nat) (pline data : List UInt8) (p : Progress) :
    Except LoadError (List UInt8 × List UInt8 × Progress) :=
  match data with
  | [] => .error .eof
  | filterByte :: data =>
    let step := entry incrementX mip
    let pos := int32 ((mipPos y mip startingY incrementY * h.width + entry startingX mip) * h.bpp)
    if data.length < scanLineSize then .error .eof
    else if ¬ h.inBounds filterByte.toNat scanLineSize mipWidth step ∨ pos < 0 then
      .error .indexOutOfBounds
    else
      let line := doFilter (data.take scanLineSize) pline filterByte.toNat h.srcBpp
      match p.storeAll (h.convertLine line pos.toNat mipWidth step) with
      | .ok p => .ok (line, data.drop scanLineSize, p)
      | .error e => .error e

/-- The loop of `loadMip`; the first argument is the number of turns that are left. -/
def loadLines : Nat → Nat → List UInt8 → List UInt8 → Progress →
    Except LoadError (List UInt8 × Progress)
  | 0, _, _, data, p => .ok (data, p)
  | left + 1, y, pline, data, p =>
    match h.loadLine mip mipWidth scanLineSize y pline data p with
    | .ok (line, data, p) => loadLines left (y + 1) line data p
    | .error e => .error e

end

def scanLineSize (mipWidth : Int) : Int :=
  (int32 (mipWidth * h.bitDepth * h.numBands + 7)).tdiv 8

/-- The loop runs until the counter, which wraps around, has the value `mipHeight`. -/
def loadMip (mip : Nat) (data : List UInt8) (p : Progress) :
    Except LoadError (List UInt8 × Progress) :=
  let mipWidth := mipSize h.width mip startingX incrementX
  let mipHeight := mipSize h.height mip startingY incrementY
  let scanLineSize := h.scanLineSize mipWidth
  if scanLineSize < 0 then .error .negativeArraySize
  else
    h.loadLines mip mipWidth.toNat scanLineSize.toNat (mipHeight % 2 ^ 32).toNat 0
      (List.replicate scanLineSize.toNat 0) data p

def loadMips (mips : List Nat) (data : List UInt8) (p : Progress) :
    Except LoadError (List UInt8 × Progress) :=
  mips.foldlM (fun s mip => h.loadMip mip s.1 s.2) (data, p)

def load (isInterlaced : Bool) (data : List UInt8) : Except LoadError Progress :=
  let size := int32 (h.bpp * h.width * h.height)
  if size < 0 then .error .illegalArgument
  else
    (h.loadMips (if isInterlaced then passes h.width h.height else [7]) data
      ⟨List.replicate size.toNat 0, []⟩).map Prod.snd

section

variable (px : Nat → Nat → Nat → Nat)

def encodeLines (bpp : Nat) : List UInt8 → List (UInt8 × List UInt8) → List UInt8
  | _, [] => []
  | pline, (fType, line) :: lines =>
    fType :: (filterLine line pline fType.toNat bpp ++ encodeLines bpp line lines)

/-- The lines hold the samples of the pixels of a pass; the bits behind the last pixel of a
line may be any. -/
structure Encodes (mip : Nat) (lines : List (UInt8 × List UInt8)) : Prop where
  length_eq : lines.length = passSize h.height mip startingY incrementY
  line_length : ∀ line ∈ lines,
    line.2.length = h.lineLength (passSize h.width mip startingX incrementX)
  sample_eq : ∀ y line, lines[y]? = some line →
    ∀ i < passSize h.width mip startingX incrementX, ∀ band < h.numBands,
      h.sample line.2 i band =
        px (mipPos i mip startingX incrementX) (mipPos y mip startingY incrementY) band

def encodeMip (mip : Nat) (lines : List (UInt8 × List UInt8)) : List UInt8 :=
  encodeLines h.srcBpp
    (List.replicate (h.lineLength (passSize h.width mip startingX incrementX)) 0) lines

def encodeInterlaced (lines : Nat → List (UInt8 × List UInt8)) : List UInt8 :=
  (passes h.width h.height).flatMap fun mip => h.encodeMip mip (lines mip)

def pixelStores (p : Nat × Nat) : List Store :=
  storesAt ((p.2 * h.width + p.1) * h.bpp) (h.pixelBytes (px p.1 p.2))

end

/-- Interlaced data is decoded like data that is not interlaced: the same image is loaded, of
which every byte is written once. -/
def InterlacedAsPlain : Prop :=
  ∀ px plain lines, h.Encodes px 7 plain →
    (∀ mip ∈ passes h.width h.height, h.Encodes px mip (lines mip)) →
    ∃ image written written',
      image.length = h.bpp * h.width * h.height ∧
      written.Perm (List.range (h.bpp * h.width * h.height)) ∧
      h.load true (h.encodeInterlaced lines) = .ok ⟨image, written⟩ ∧
      h.load false (h.encodeMip 7 plain) = .ok ⟨image, written'⟩

end Header

open List

theorem Progress.storeAll_append (p : Progress) (stores stores' : List Store) :
    p.storeAll (stores ++ stores') = (p.storeAll stores).bind fun p => p.storeAll stores' := by
  simp only [Progress.storeAll, Data.Stores.storeAll_append]
  cases Data.Stores.storeAll p.image stores with
  | none => rfl
  | some image =>
    simp only [Option.bind_some, Except.bind, map_append, append_assoc]

namespace Header

variable {h : Header}

theorem srcBpp_pos : 0 < h.srcBpp := by
  refine Nat.mul_pos numBands_pos ?_
  rw [bytesPerColor]
  split_ifs <;> decide

theorem small_bands (hdepth : h.bitDepth < 8) : h.numBands = 1 := by
  rw [numBands]
  rcases h.low_depth hdepth with hcolor | hcolor <;> rw [hcolor] <;> rfl

theorem lineLength_large (hdepth : 8 ≤ h.bitDepth) (w : Nat) :
    h.lineLength w = w * h.srcBpp := by
  have hcases := h.depth_cases
  rw [lineLength, srcBpp, bytesPerColor]
  split_ifs with hsixteen
  · rw [hsixteen, show w * 16 * h.numBands = 8 * (w * (h.numBands * 2)) by ring]
    omega
  · rw [show h.bitDepth = 8 by omega, show w * 8 * h.numBands = 8 * (w * (h.numBands * 1)) by ring]
    omega

theorem lineLength_small (hdepth : h.bitDepth < 8) (w : Nat) :
    h.lineLength w = (w + 8 / h.bitDepth - 1) / (8 / h.bitDepth) := by
  rw [lineLength, small_bands hdepth]
  rcases h.depth_cases with hd | hd | hd | hd | hd <;> rw [hd] <;> omega

variable {w : Nat}

theorem srcBpp_le_lineLength (hw : 0 < w) : h.srcBpp ≤ h.lineLength w := by
  rcases Nat.lt_or_ge h.bitDepth 8 with hdepth | hdepth
  · rw [srcBpp, small_bands hdepth, bytesPerColor, if_neg (by omega), lineLength,
      small_bands hdepth]
    have : 0 < w * h.bitDepth := Nat.mul_pos hw (by have := h.depth_cases; omega)
    omega
  · rw [lineLength_large hdepth]
    exact Nat.le_mul_of_pos_left _ hw

theorem inBounds_lineLength (hw : 0 < w) (fType step : Nat) :
    h.inBounds fType (h.lineLength w) w step = true := by
  rw [inBounds, decide_eq_true_eq]
  refine ⟨fun _ => srcBpp_le_lineLength hw, fun hdepth => (lineLength_small hdepth w).ge, ?_⟩
  rintro ⟨hdepth, htrns, -⟩
  rw [lineLength_large (by omega), srcBpp, bytesPerColor, if_neg (by omega), bpp, if_neg htrns]
  rw [Nat.mul_one, Nat.add_zero, Nat.mul_mod_left]

def linePos (h : Header) (mip y : Nat) : Nat :=
  (mipPos y mip startingY incrementY * h.width + entry startingX mip) * h.bpp

def linesStores (h : Header) (mip w y : Nat) (lines : List (UInt8 × List UInt8)) : List Store :=
  (lines.zipIdx y).flatMap fun line =>
    h.convertLine line.1.2 (h.linePos mip line.2) w (entry incrementX mip)

variable {mip y : Nat}

theorem loadLine_encode (hw : 0 < w) (hpos : h.linePos mip y < 2 ^ 31) (fType : UInt8)
    {line : List UInt8} (hline : line.length = h.lineLength w) (pline rest : List UInt8)
    (p : Progress) :
    h.loadLine mip w (h.lineLength w) y pline
        (fType :: (filterLine line pline fType.toNat h.srcBpp ++ rest)) p =
      (p.storeAll (h.convertLine line (h.linePos mip y) w (entry incrementX mip))).map
        fun p => (line, rest, p) := by
  have hlen := length_filterLine line pline fType.toNat h.srcBpp
  have hint : int32 ((mipPos y mip startingY incrementY * h.width + entry startingX mip : Int) *
      h.bpp) = h.linePos mip y := by
    rw [show ((mipPos y mip startingY incrementY * h.width + entry startingX mip : Int) * h.bpp) =
      (h.linePos mip y : Nat) by rw [linePos]; push_cast; rfl]
    exact int32_eq (by omega) (by omega)
  have hfilter : doFilter (filterLine line pline fType.toNat h.srcBpp) pline fType.toNat
      h.srcBpp = line :=
    doFilter_filterLine line pline _ srcBpp_pos (hline ▸ srcBpp_le_lineLength hw)
  simp only [loadLine, hint, inBounds_lineLength hw]
  rw [if_neg (by simp [hlen, hline]), ← hline, ← hlen, take_left', drop_left', hfilter,
    Int.toNat_natCast]
  · cases p.storeAll _ <;> rfl
  · rfl
  · rfl

theorem loadLines_encode (hw : 0 < w) (rest : List UInt8) (lines : List (UInt8 × List UInt8)) :
    ∀ (y : Nat) (pline : List UInt8) (p : Progress),
      (∀ line ∈ lines, line.2.length = h.lineLength w) →
      (∀ i < lines.length, h.linePos mip (y + i) < 2 ^ 31) →
      h.loadLines mip w (h.lineLength w) lines.length y pline
          (encodeLines h.srcBpp pline lines ++ rest) p =
        (p.storeAll (h.linesStores mip w y lines)).map fun p => (rest, p) := by
  induction lines with
  | nil =>
    intro y pline p _ _
    simp [linesStores, Progress.storeAll]
    rfl
  | cons line lines ih =>
    intro y pline p hlen hpos
    rcases line with ⟨fType, line⟩
    have hline : line.length = h.lineLength w := hlen (fType, line) (by simp)
    rw [length_cons, loadLines, encodeLines, cons_append, append_assoc,
      loadLine_encode hw (show h.linePos mip y < 2 ^ 31 from hpos 0 (by simp)) fType hline]
    rw [linesStores, zipIdx_cons, flatMap_cons, Progress.storeAll_append]
    cases p.storeAll (h.convertLine line (h.linePos mip y) w (entry incrementX mip)) with
    | error e => rfl
    | ok p =>
      refine ih (y + 1) line p (fun l hl => hlen l (by simp [hl])) ?_
      intro i hi
      have := hpos (i + 1) (by simpa using hi)
      rwa [Nat.add_assoc, Nat.add_comm 1 i]

theorem pixelBytes_congr {s s' : Nat → Nat} (heq : ∀ band < h.numBands, s band = s' band) :
    h.pixelBytes s = h.pixelBytes s' := by
  have hlevels : (List.range h.numBands).map (fun band => h.level (s band)) =
      (List.range h.numBands).map fun band => h.level (s' band) := by
    refine map_congr_left ?_
    intro band hband
    rw [heq band (mem_range.mp hband)]
  rw [pixelBytes, pixelBytes, hlevels]
  split_ifs with htrns
  · have htransp : h.isTransparent s = h.isTransparent s' := by
      rw [isTransparent, isTransparent]
      rcases h.trns_legal htrns with hcolor | hcolor <;>
        simp only [numBands, hcolor, ColorType.numBands] at heq
      · simp only [hcolor, if_true, heq 0 (by omega)]
      · rw [heq 0 (by omega), heq 1 (by omega), heq 2 (by omega)]
    rw [htransp]
  · rfl

theorem linesStores_perm {px : Nat → Nat → Nat → Nat} {lines : List (UInt8 × List UInt8)}
    (hlines : h.Encodes px mip lines) :
    (h.linesStores mip (passSize h.width mip startingX incrementX) 0 lines).Perm
      ((passPixels h.width h.height mip).flatMap (h.pixelStores px)) := by
  have hline : ∀ line ∈ lines.zipIdx 0,
      (h.convertLine line.1.2 (h.linePos mip line.2)
        (passSize h.width mip startingX incrementX) (entry incrementX mip)).Perm
      (h.lineStores (h.linePos mip line.2) (passSize h.width mip startingX incrementX)
        (entry incrementX mip) fun i => px (mipPos i mip startingX incrementX)
          (mipPos line.2 mip startingY incrementY)) := by
    intro line hmem
    have hget := mk_mem_zipIdx_iff_getElem?.mp hmem
    refine (convertLine_perm (hlines.line_length line.1 (mem_of_getElem? hget)) _ _).trans ?_
    refine List.Perm.of_eq (flatMap_congr ?_)
    intro i hi
    rw [pixelBytes_congr (hlines.sample_eq line.2 line.1 hget i (mem_range.mp hi))]
  refine (List.Perm.flatMap_left _ hline).trans (List.Perm.of_eq ?_)
  rw [← flatMap_map Prod.snd fun y => h.lineStores (h.linePos mip y)
      (passSize h.width mip startingX incrementX) (entry incrementX mip) fun i =>
        px (mipPos i mip startingX incrementX) (mipPos y mip startingY incrementY),
    zipIdx_map_snd, hlines.length_eq, ← range_eq_range', passPixels, flatMap_assoc]
  refine flatMap_congr ?_
  intro y _
  rw [flatMap_map]
  refine flatMap_congr ?_
  intro i _
  rw [linePos]
  congr 1
  simp only [mipPos]
  ring

/-- None of the sizes that are computed overflows. -/
structure Fits (h : Header) : Prop where
  image_lt : h.bpp * h.width * h.height < 2 ^ 31
  line_lt : h.width * h.bitDepth * h.numBands + 7 < 2 ^ 31
  height_lt : h.height + 7 < 2 ^ 31

theorem bitDepth_pos : 0 < h.bitDepth := by
  have := h.depth_cases
  omega

theorem le_lineBits (w : Nat) : w ≤ w * h.bitDepth * h.numBands := by
  rw [Nat.mul_assoc]
  exact Nat.le_mul_of_pos_right w (Nat.mul_pos bitDepth_pos numBands_pos)

theorem lineBits_mono {w w' : Nat} (hle : w ≤ w') :
    w * h.bitDepth * h.numBands ≤ w' * h.bitDepth * h.numBands :=
  Nat.mul_le_mul_right _ (Nat.mul_le_mul_right _ hle)

theorem scanLineSize_eq (hlt : w * h.bitDepth * h.numBands + 7 < 2 ^ 31) :
    h.scanLineSize w = h.lineLength w := by
  rw [scanLineSize, show (w : Int) * h.bitDepth * h.numBands + 7 =
    ((w * h.bitDepth * h.numBands + 7 : Nat) : Int) by push_cast; rfl,
    int32_eq (by omega) (by omega)]
  rfl

def HasPass (h : Header) (mip : Nat) : Prop :=
  mip < 8 ∧ entry startingX mip < h.width ∧ entry startingY mip < h.height

theorem HasPass.of_mem (hmem : mip ∈ passes h.width h.height) : h.HasPass mip := by
  rw [passes, mem_filter, decide_eq_true_eq] at hmem
  have hlt := mem_range.mp hmem.1
  exact ⟨by omega, hmem.2⟩

theorem HasPass.seven : h.HasPass 7 := ⟨by decide, h.width_pos, h.height_pos⟩

theorem HasPass.passSize_pos (hpass : h.HasPass mip) :
    0 < passSize h.width mip startingX incrementX := by
  rw [← mipPos_lt (entry_increment_pos hpass.1).1, mipPos, Nat.zero_mul]
  exact hpass.2.1

theorem linePos_lt (hpass : h.HasPass mip) (hy : y < passSize h.height mip startingY incrementY) :
    h.linePos mip y < h.bpp * h.width * h.height := by
  have hrow := (mipPos_lt (entry_increment_pos hpass.1).2.2.1).mpr hy
  have hcol := hpass.2.1
  have hbpp : 0 < h.bpp := by
    have := numBands_pos (h := h)
    rw [bpp]
    omega
  rw [show h.bpp * h.width * h.height = h.height * h.width * h.bpp by ring]
  refine Nat.mul_lt_mul_of_pos_right ?_ hbpp
  have := Nat.mul_le_mul_right h.width (show mipPos y mip startingY incrementY + 1 ≤ h.height from
    hrow)
  rw [Nat.succ_mul] at this
  omega

/-- The sizes of a pass are computed without an overflow. -/
structure PassFits (h : Header) (mip : Nat) : Prop where
  hasPass : h.HasPass mip
  width_eq : mipSize h.width mip startingX incrementX =
    (passSize h.width mip startingX incrementX : Nat)
  line_eq : h.scanLineSize (passSize h.width mip startingX incrementX : Nat) =
    (h.lineLength (passSize h.width mip startingX incrementX) : Nat)

theorem Fits.passFits (hfits : h.Fits) (hpass : h.HasPass mip) : h.PassFits mip := by
  have hline := hfits.line_lt
  have hinc := entry_increment_pos hpass.1
  have hcols : passSize h.width mip startingX incrementX ≤ h.width := passSize_le hinc.1
  have hle := h.lineBits_mono hcols
  refine ⟨hpass, mipSize_eq ?_ hpass.2.1 hinc.1 hinc.2.1, scanLineSize_eq ?_⟩
  · have := h.le_lineBits h.width
    omega
  · omega

theorem turns_eq (hheight : h.height + 7 < 2 ^ 31) (hpass : h.HasPass mip) :
    (mipSize h.height mip startingY incrementY % 2 ^ 32).toNat =
      passSize h.height mip startingY incrementY := by
  have hinc := entry_increment_pos hpass.1
  have hrows : passSize h.height mip startingY incrementY ≤ h.height := passSize_le hinc.2.2.1
  rw [mipSize_eq hheight hpass.2.2 hinc.2.2.1 hinc.2.2.2]
  omega

section

variable (himage : h.bpp * h.width * h.height < 2 ^ 31) (hheight : h.height + 7 < 2 ^ 31)

include himage hheight

theorem loadMip_encode {mip : Nat} (hpass : h.PassFits mip)
    {px : Nat → Nat → Nat → Nat} {lines : List (UInt8 × List UInt8)}
    (hlines : h.Encodes px mip lines) (rest : List UInt8) (p : Progress) :
    h.loadMip mip (h.encodeMip mip lines ++ rest) p =
      (p.storeAll (h.linesStores mip (passSize h.width mip startingX incrementX) 0 lines)).map
        fun p => (rest, p) := by
  simp only [loadMip]
  rw [hpass.width_eq, hpass.line_eq, turns_eq hheight hpass.hasPass, ← hlines.length_eq]
  refine loadLines_encode hpass.hasPass.passSize_pos rest lines 0 _ p hlines.line_length ?_
  intro i hi
  have := linePos_lt hpass.hasPass (y := 0 + i) (by rw [← hlines.length_eq]; omega)
  omega

theorem loadMips_encode {px : Nat → Nat → Nat → Nat}
    (lines : Nat → List (UInt8 × List UInt8)) (rest : List UInt8) (mips : List Nat) :
    ∀ p : Progress, (∀ mip ∈ mips, h.PassFits mip ∧ h.Encodes px mip (lines mip)) →
      h.loadMips mips ((mips.flatMap fun mip => h.encodeMip mip (lines mip)) ++ rest) p =
        (p.storeAll (mips.flatMap fun mip =>
          h.linesStores mip (passSize h.width mip startingX incrementX) 0 (lines mip))).map
          fun p => (rest, p) := by
  induction mips with
  | nil =>
    simp [loadMips, Progress.storeAll, Data.Stores.storeAll, Except.map, pure, Except.pure]
  | cons mip mips ih =>
    intro p hmips
    rcases hmips mip (by simp) with ⟨hpass, hlines⟩
    rw [loadMips, foldlM_cons, flatMap_cons, append_assoc,
      loadMip_encode himage hheight hpass hlines, flatMap_cons, Progress.storeAll_append]
    cases p.storeAll
      (h.linesStores mip (passSize h.width mip startingX incrementX) 0 (lines mip)) with
    | error e => rfl
    | ok p => exact ih p fun mip' hmem => hmips mip' (by simp [hmem])

end

theorem places_pixels (px : Nat → Nat → Nat → Nat) :
    ((pixels h.width h.height).flatMap (h.pixelStores px)).map Prod.fst =
      List.range (h.bpp * h.width * h.height) := by
  have hplaces : ∀ p, (h.pixelStores px p).map Prod.fst =
      (List.range h.bpp).map ((p.2 * h.width + p.1) * h.bpp + ·) := by
    intro p
    rw [pixelStores, storesAt, ← length_pixelBytes h (px p.1 p.2)]
    refine ext_getElem (by simp) ?_
    simp
  rw [map_flatMap]
  simp only [hplaces]
  rw [show h.bpp * h.width * h.height = h.height * h.width * h.bpp by ring, ← flatMap_rows,
    ← flatMap_rows h.height h.width, pixels, flatMap_assoc, flatMap_assoc]
  refine flatMap_congr ?_
  intro y _
  rw [flatMap_map, flatMap_map]

def imageOf (h : Header) (px : Nat → Nat → Nat → Nat) : List UInt8 :=
  ((pixels h.width h.height).flatMap (h.pixelStores px)).foldl
    (fun image s => image.set s.1 s.2) (List.replicate (h.bpp * h.width * h.height) 0)

theorem place_lt {px : Nat → Nat → Nat → Nat} {s : Store}
    (hs : s ∈ (pixels h.width h.height).flatMap (h.pixelStores px)) :
    s.1 < (List.replicate (h.bpp * h.width * h.height) (0 : UInt8)).length := by
  rw [length_replicate, ← mem_range, ← places_pixels px]
  exact mem_map_of_mem hs

theorem storeAll_pixels (px : Nat → Nat → Nat → Nat) :
    Data.Stores.storeAll (List.replicate (h.bpp * h.width * h.height) (0 : UInt8))
      ((pixels h.width h.height).flatMap (h.pixelStores px)) = some (h.imageOf px) :=
  storeAll_eq _ _ fun _ => place_lt

theorem length_imageOf (px : Nat → Nat → Nat → Nat) :
    (h.imageOf px).length = h.bpp * h.width * h.height := by
  rw [length_storeAll _ (storeAll_pixels px), length_replicate]

section

variable (himage : h.bpp * h.width * h.height < 2 ^ 31)

include himage

theorem loadMips_image (hheight : h.height + 7 < 2 ^ 31) {px : Nat → Nat → Nat → Nat}
    {lines : Nat → List (UInt8 × List UInt8)} {mips : List Nat}
    (hmips : ∀ mip ∈ mips, h.PassFits mip ∧ h.Encodes px mip (lines mip))
    (hperm : (mips.flatMap (passPixels h.width h.height)).Perm (pixels h.width h.height)) :
    ∃ written, written.Perm (List.range (h.bpp * h.width * h.height)) ∧
      h.loadMips mips (mips.flatMap fun mip => h.encodeMip mip (lines mip))
          ⟨List.replicate (h.bpp * h.width * h.height) 0, []⟩ =
        .ok ([], ⟨h.imageOf px, written⟩) := by
  have hstores : (mips.flatMap fun mip =>
      h.linesStores mip (passSize h.width mip startingX incrementX) 0 (lines mip)).Perm
      ((pixels h.width h.height).flatMap (h.pixelStores px)) := by
    refine (List.Perm.flatMap_left _ fun mip hmem => linesStores_perm (hmips mip hmem).2).trans ?_
    rw [← flatMap_assoc]
    exact hperm.flatMap_right _
  have hplaces := hstores.map Prod.fst
  rw [places_pixels] at hplaces
  refine ⟨_, hplaces, ?_⟩
  rw [← append_nil (mips.flatMap fun mip => h.encodeMip mip (lines mip)),
    loadMips_encode himage hheight lines [] mips _ hmips, Progress.storeAll,
    storeAll_perm hstores (hplaces.nodup_iff.mpr nodup_range)
      (fun s hs => place_lt (hstores.mem_iff.mp hs)), storeAll_pixels]
  rfl

theorem load_eq (isInterlaced : Bool) (data : List UInt8) :
    h.load isInterlaced data =
      (h.loadMips (if isInterlaced then passes h.width h.height else [7]) data
        ⟨List.replicate (h.bpp * h.width * h.height) 0, []⟩).map Prod.snd := by
  have hsize : int32 ((h.bpp : Int) * h.width * h.height) =
      ((h.bpp * h.width * h.height : Nat) : Int) := by
    rw [← Nat.cast_mul]
    exact int32_eq (by omega) (by omega)
  simp only [load, hsize]
  rw [if_neg (by omega), Int.toNat_natCast]

end

theorem interlacedAsPlain_of_fits (hfits : h.Fits) : h.InterlacedAsPlain := by
  intro px plain lines hplain hlines
  have hseven : ∀ mip ∈ [7], h.PassFits mip ∧ h.Encodes px mip plain := by
    simpa using And.intro (hfits.passFits HasPass.seven) hplain
  rcases loadMips_image hfits.image_lt hfits.height_lt
    (fun mip hmem => ⟨hfits.passFits (HasPass.of_mem hmem), hlines mip hmem⟩)
    (passes_perm h.width h.height) with ⟨written, hperm, hload⟩
  rcases loadMips_image hfits.image_lt hfits.height_lt hseven (by simp [passPixels_seven]) with
    ⟨written', -, hload'⟩
  refine ⟨h.imageOf px, written, written', length_imageOf px, hperm, ?_, ?_⟩
  · rw [load_eq hfits.image_lt, if_pos rfl, encodeInterlaced, hload]
    rfl
  · rw [flatMap_singleton] at hload'
    rw [load_eq hfits.image_lt, if_neg (by decide), hload']
    rfl

end Header

end OpenJfx.Iio.Png
