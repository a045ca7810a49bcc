import OpenJfx.Iio.PngLoad

namespace OpenJfx.Iio.Png

open Data.Stores Java.Ints List

theorem length_doFilter (line pline : List UInt8) (fType bpp : Nat) :
    (doFilter line pline fType bpp).length = line.length := by
  unfold doFilter
  split <;> simp [doSubFilter, doUpFilter, doAvrgFilter, doPaethFilter, length_addLoop]

theorem Progress.storeAll_ok {p p' : Progress} {stores : List Store}
    (hok : p.storeAll stores = .ok p') :
    Data.Stores.storeAll p.image stores = some p'.image ∧
      p'.written = p.written ++ stores.map Prod.fst := by
  rw [Progress.storeAll] at hok
  split at hok
  · rename_i image himg
    rw [← Except.ok.inj hok]
    exact ⟨himg, rfl⟩
  · cases hok

namespace Header

variable {h : Header}

theorem length_lineStores (pos w step : Nat) (s : Nat → Nat → Nat) :
    (h.lineStores pos w step s).length = h.bpp * w := by
  simp [lineStores, storesAt, length_pixelBytes, Nat.mul_comm]

theorem length_convertLine_small (hdepth : h.bitDepth < 8) (line : List UInt8) (pos w step : Nat) :
    (h.convertLine line pos w step).length = h.bpp * w := by
  rw [convertLine, if_neg (by omega), if_pos hdepth, (upsampleTo8_perm hdepth pos step).length_eq,
    length_lineStores]

theorem div_mul_lt {length m n : Nat} (hlt : length < n * m) : length / m * m < n * m :=
  lt_of_le_of_lt (Nat.div_mul_le_self length m) hlt

theorem length_convertLine_lt (hdepth : 8 ≤ h.bitDepth) {line : List UInt8} {n : Nat}
    (hshort : line.length < h.lineLength n) (pos w step : Nat) :
    (h.convertLine line pos w step).length < h.bpp * n := by
  rw [lineLength_large hdepth, srcBpp, bytesPerColor] at hshort
  have hgray : h.colorType = .gray → h.numBands = 1 := by
    intro hcolor
    rw [numBands, hcolor]
    rfl
  have hrgb : h.colorType = .rgb → h.numBands = 3 := by
    intro hcolor
    rw [numBands, hcolor]
    rfl
  have hplain : h.tRNSGrayRgb = false → h.bpp = h.numBands := by
    intro htrns
    rw [bpp, htrns]
    rfl
  rw [convertLine]
  split_ifs with hsixteen hsmall
  · rw [if_pos hsixteen] at hshort
    rw [downsample16to8]
    cases htrns : h.tRNSGrayRgb with
    | false =>
      simp only [Bool.false_eq_true, not_false_eq_true, if_true, downsample16to8plain,
        storesAt, length_flatMap, length_map, length_zipIdx, length_range,
        map_const', sum_replicate_nat]
      rw [Nat.mul_comm h.bpp n, hplain htrns]
      refine div_mul_lt (Nat.div_lt_of_lt_mul ?_)
      rwa [← Nat.mul_assoc, Nat.mul_comm _ 2] at hshort
    | true =>
      rcases h.trns_legal htrns with hcolor | hcolor
      · simp [hcolor, downsample16to8trnsGray, storesAt, bpp, htrns, hgray hcolor] at hshort ⊢
        omega
      · simp [hcolor, downsample16to8trnsRgb, storesAt, bpp, htrns, hrgb hcolor] at hshort ⊢
        omega
  · omega
  · rw [if_neg hsixteen, Nat.mul_one] at hshort
    rw [copy]
    cases htrns : h.tRNSGrayRgb with
    | false =>
      rw [Nat.mul_comm h.bpp n, hplain htrns]
      simp only [Bool.false_eq_true, not_false_eq_true, if_true]
      split_ifs with hstep
      · simpa [storesAt] using hshort
      · simp only [copyPlain, storesAt, length_flatMap, length_map,
          length_zipIdx, length_range, map_const', sum_replicate_nat]
        exact div_mul_lt hshort
    | true =>
      rcases h.trns_legal htrns with hcolor | hcolor
      · simp [hcolor, copyTrnsGray, storesAt, bpp, htrns, hgray hcolor] at hshort ⊢
        omega
      · simp [hcolor, copyTrnsRgb, storesAt, bpp, htrns, hrgb hcolor] at hshort ⊢
        omega

variable {data data' : List UInt8} {p p' : Progress}

theorem loadLine_ok {mip w s y : Nat} {pline line : List UInt8}
    (hok : h.loadLine mip w s y pline data p = .ok (line, data', p')) :
    ∃ fType pos, h.inBounds fType s w (entry incrementX mip) = true ∧ line.length = s ∧
      p.storeAll (h.convertLine line pos w (entry incrementX mip)) = .ok p' := by
  unfold loadLine at hok
  split at hok
  · exact nomatch hok
  · simp only at hok
    split_ifs at hok with hshort hbounds
    split at hok
    · rename_i p₁ hstore
      cases hok
      refine ⟨_, _, by simpa using (not_or.mp hbounds).1, ?_, hstore⟩
      rw [length_doFilter, length_take]
      omega
    · exact nomatch hok

def Writes (p p' : Progress) (low high : Nat) : Prop :=
  ∃ stores, Data.Stores.storeAll p.image stores = some p'.image ∧
    p'.written = p.written ++ stores.map Prod.fst ∧ low ≤ stores.length ∧ stores.length ≤ high

theorem Writes.refl (p : Progress) : Writes p p 0 0 :=
  ⟨[], rfl, (append_nil _).symm, le_rfl, le_rfl⟩

theorem Writes.trans {p'' : Progress} {low low' high high' : Nat} (hfst : Writes p p' low high)
    (hsnd : Writes p' p'' low' high') :
    Writes p p'' (low + low') (high + high') := by
  rcases hfst with ⟨stores, himg, hwritten, hlow, hhigh⟩
  rcases hsnd with ⟨stores', himg', hwritten', hlow', hhigh'⟩
  refine ⟨stores ++ stores', ?_, ?_, ?_, ?_⟩
  · rw [storeAll_append, himg, Option.bind_some, himg']
  · rw [hwritten', hwritten, map_append, append_assoc]
  · rw [length_append]
    exact Nat.add_le_add hlow hlow'
  · rw [length_append]
    exact Nat.add_le_add hhigh hhigh'

theorem Writes.length_image {low high : Nat} (hwrites : Writes p p' low high) :
    p'.image.length = p.image.length := by
  rcases hwrites with ⟨stores, himg, -, -, -⟩
  exact length_storeAll stores himg

theorem Writes.length_written {low high : Nat} (hwrites : Writes p p' low high) :
    p.written.length + low ≤ p'.written.length ∧
      p'.written.length ≤ p.written.length + high := by
  rcases hwrites with ⟨stores, -, hwritten, hlow, hhigh⟩
  rw [hwritten, length_append, length_map]
  omega

section

variable {mip w s low high : Nat}
  (hcount : ∀ fType pos line, h.inBounds fType s w (entry incrementX mip) = true →
    line.length = s →
    low ≤ (h.convertLine line pos w (entry incrementX mip)).length ∧
      (h.convertLine line pos w (entry incrementX mip)).length ≤ high)

include hcount

theorem loadLine_writes {y : Nat} {pline data line data' : List UInt8} {p p' : Progress}
    (hok : h.loadLine mip w s y pline data p = .ok (line, data', p')) : Writes p p' low high := by
  rcases loadLine_ok hok with ⟨fType, pos, hbounds, hline, hstore⟩
  rcases Progress.storeAll_ok hstore with ⟨himg, hwritten⟩
  rcases hcount fType pos line hbounds hline with ⟨hlow, hhigh⟩
  exact ⟨_, himg, hwritten, hlow, hhigh⟩

theorem loadLines_writes (turns : Nat) :
    ∀ {y : Nat} {pline data data' : List UInt8} {p p' : Progress},
      h.loadLines mip w s turns y pline data p = .ok (data', p') →
        Writes p p' (turns * low) (turns * high) := by
  induction turns with
  | zero =>
    intro y pline data data' p p' hok
    cases hok
    rw [Nat.zero_mul, Nat.zero_mul]
    exact Writes.refl p
  | succ turns ih =>
    intro y pline data data' p p' hok
    rw [loadLines] at hok
    split at hok
    · rename_i line data₁ p₁ hline
      rw [Nat.succ_mul, Nat.succ_mul, Nat.add_comm _ low, Nat.add_comm _ high]
      exact (loadLine_writes hcount hline).trans (ih hok)
    · cases hok

end

theorem loadMip_writes {mip : Nat} (low high : Nat) (hok : h.loadMip mip data p = .ok (data', p'))
    (hcount : ∀ fType pos line,
      0 ≤ h.scanLineSize (mipSize h.width mip startingX incrementX) →
      h.inBounds fType (h.scanLineSize (mipSize h.width mip startingX incrementX)).toNat
        (mipSize h.width mip startingX incrementX).toNat (entry incrementX mip) = true →
      line.length = (h.scanLineSize (mipSize h.width mip startingX incrementX)).toNat →
      low ≤ (h.convertLine line pos (mipSize h.width mip startingX incrementX).toNat
        (entry incrementX mip)).length ∧
      (h.convertLine line pos (mipSize h.width mip startingX incrementX).toNat
        (entry incrementX mip)).length ≤ high) :
    Writes p p' ((mipSize h.height mip startingY incrementY % 2 ^ 32).toNat * low)
      ((mipSize h.height mip startingY incrementY % 2 ^ 32).toNat * high) := by
  simp only [loadMip] at hok
  split_ifs at hok with hneg
  exact loadLines_writes (fun fType pos line => hcount fType pos line (by omega)) _ hok

theorem toNat_scanLineSize (mipWidth : Int) : (h.scanLineSize mipWidth).toNat =
    (int32 (mipWidth * h.bitDepth * h.numBands + 7)).toNat / 8 :=
  toNat_tdiv _ 8

theorem scanLineSize_lt {w : Nat} (hover : 2 ^ 31 ≤ w * h.bitDepth * h.numBands + 7) :
    (h.scanLineSize w).toNat < h.lineLength w := by
  have hcast : (w : Int) * h.bitDepth * h.numBands + 7 =
      ((w * h.bitDepth * h.numBands + 7 : Nat) : Int) := by
    rfl
  rw [toNat_scanLineSize, lineLength, hcast]
  generalize w * h.bitDepth * h.numBands + 7 = bits at hover ⊢
  have hwrap : int32 (bits : Int) ≤ bits - 2 ^ 32 := int32_le_sub (by omega)
  omega

theorem passFits_or_short {mip : Nat} (hpass : h.HasPass mip) :
    h.PassFits mip ∨ ∀ fType pos line,
      0 ≤ h.scanLineSize (mipSize h.width mip startingX incrementX) →
      h.inBounds fType (h.scanLineSize (mipSize h.width mip startingX incrementX)).toNat
        (mipSize h.width mip startingX incrementX).toNat (entry incrementX mip) = true →
      line.length = (h.scanLineSize (mipSize h.width mip startingX incrementX)).toNat →
      (h.convertLine line pos (mipSize h.width mip startingX incrementX).toNat
        (entry incrementX mip)).length < h.bpp * passSize h.width mip startingX incrementX := by
  have hbpp : 0 < h.bpp := by
    have := numBands_pos (h := h)
    rw [bpp]
    omega
  rcases entry_increment_pos hpass.1 with ⟨hpos, hle, -, -⟩
  have hstart := hpass.2.1
  have hwd := h.width_lt
  have harg : (h.width : Int) - entry startingX mip + entry incrementX mip - 1 =
      ((h.width - entry startingX mip + entry incrementX mip - 1 : Nat) : Int) := by omega
  rcases Nat.lt_or_ge (h.width - entry startingX mip + entry incrementX mip - 1) (2 ^ 31) with
    hsmall | hlarge
  · have hmip : mipSize h.width mip startingX incrementX =
        (passSize h.width mip startingX incrementX : Nat) := by
      rw [mipSize, harg, int32_eq (by omega) (by omega)]
      rfl
    rw [hmip]
    rcases Nat.lt_or_ge (passSize h.width mip startingX incrementX * h.bitDepth * h.numBands + 7)
      (2 ^ 31) with hfit | hover
    · exact .inl ⟨hpass, hmip, scanLineSize_eq hfit⟩
    · refine .inr ?_
      intro fType pos line hnn hbounds hline
      have hlt := scanLineSize_lt hover
      rcases Nat.lt_or_ge h.bitDepth 8 with hdepth | hdepth
      · rw [inBounds, decide_eq_true_eq, ← lineLength_small hdepth] at hbounds
        exact absurd (hbounds.2.1 hdepth) (Nat.not_le.mpr hlt)
      · exact length_convertLine_lt hdepth (hline ▸ hlt) _ _ _
  · refine .inr ?_
    intro fType pos line hnn hbounds hline
    have hpassSize : 2 ^ 28 ≤ passSize h.width mip startingX incrementX := by
      rw [passSize, Nat.le_div_iff_mul_le hpos]
      omega
    rcases Nat.lt_or_ge h.bitDepth 8 with hdepth | hdepth
    · have hzero : (mipSize h.width mip startingX incrementX).toNat = 0 := by
        have hneg : int32 ((h.width - entry startingX mip + entry incrementX mip - 1 : Nat) : Int)
            ≤ 0 := (int32_le_sub (by omega)).trans (by omega)
        rw [mipSize, harg, toNat_tdiv, Int.toNat_of_nonpos hneg, Nat.zero_div]
      rw [length_convertLine_small hdepth]
      exact Nat.mul_lt_mul_of_pos_left (by omega) hbpp
    · refine length_convertLine_lt hdepth ?_ _ _ _
      rw [hline, lineLength_large hdepth, toNat_scanLineSize]
      have hlt := int32_lt (mipSize h.width mip startingX incrementX * h.bitDepth * h.numBands + 7)
      have hmul := Nat.le_mul_of_pos_right (passSize h.width mip startingX incrementX)
        (srcBpp_pos (h := h))
      omega

theorem length_passPixels (width height mip : Nat) :
    (passPixels width height mip).length =
      passSize height mip startingY incrementY * passSize width mip startingX incrementX := by
  simp [passPixels]

theorem loadMip_count (hht : h.height + 7 < 2 ^ 31) {mip : Nat} (hpass : h.HasPass mip)
    (hok : h.loadMip mip data p = .ok (data', p')) :
    ∃ count ≤ h.bpp * (passPixels h.width h.height mip).length,
      Writes p p' 0 count ∧
      (count = h.bpp * (passPixels h.width h.height mip).length → h.PassFits mip) := by
  have hturns := turns_eq hht hpass
  rw [length_passPixels, Nat.mul_left_comm]
  rcases passFits_or_short hpass with hfits | hshort
  · refine ⟨_, le_rfl, ?_, fun _ => hfits⟩
    have hwrites := loadMip_writes 0 (h.bpp * passSize h.width mip startingX incrementX) hok ?_
    · rwa [hturns, Nat.mul_zero] at hwrites
    · intro fType pos line _ _ hline
      rw [hfits.width_eq, hfits.line_eq] at hline
      refine ⟨Nat.zero_le _, ?_⟩
      rw [hfits.width_eq, Int.toNat_natCast, (convertLine_perm hline pos _).length_eq,
        length_lineStores]
  · have hrows : 0 < passSize h.height mip startingY incrementY := by
      rw [← mipPos_lt (entry_increment_pos hpass.1).2.2.1, mipPos, Nat.zero_mul]
      exact hpass.2.2
    have hwrites := loadMip_writes 0 (h.bpp * passSize h.width mip startingX incrementX - 1) hok
      (fun fType pos line hnn hbounds hline =>
        ⟨Nat.zero_le _, Nat.le_sub_one_of_lt (hshort fType pos line hnn hbounds hline)⟩)
    rw [hturns] at hwrites
    refine ⟨_, Nat.mul_le_mul_left _ (Nat.sub_le _ _), hwrites, ?_⟩
    intro heq
    have := Nat.eq_of_mul_eq_mul_left hrows heq
    have hpos : 0 < h.bpp * passSize h.width mip startingX incrementX := by
      refine Nat.mul_pos ?_ hpass.passSize_pos
      have := numBands_pos (h := h)
      rw [bpp]
      omega
    omega

theorem loadMips_writes (mips : List Nat) :
    ∀ {data data' : List UInt8} {p p' : Progress},
      h.loadMips mips data p = .ok (data', p') → ∃ high, Writes p p' 0 high := by
  induction mips with
  | nil =>
    intro data data' p p' hok
    cases hok
    exact ⟨0, Writes.refl p⟩
  | cons mip mips ih =>
    intro data data' p p' hok
    rw [loadMips, foldlM_cons] at hok
    cases hmip : h.loadMip mip data p with
    | error e =>
      rw [hmip] at hok
      cases hok
    | ok q =>
      rw [hmip] at hok
      rcases ih hok with ⟨high, hrest⟩
      have hfst := loadMip_writes 0 (h.bpp *
        ((h.scanLineSize (mipSize h.width mip startingX incrementX)).toNat + 1 +
          (mipSize h.width mip startingX incrementX).toNat)) hmip ?_
      · exact ⟨_, hfst.trans hrest⟩
      · intro fType pos line _ _ hline
        refine ⟨Nat.zero_le _, ?_⟩
        rcases Nat.lt_or_ge h.bitDepth 8 with hdepth | hdepth
        · rw [length_convertLine_small hdepth]
          exact Nat.mul_le_mul_left _ (by omega)
        · refine (length_convertLine_lt hdepth ?_ _ _ _).le
          rw [lineLength_large hdepth]
          have := Nat.le_mul_of_pos_right
            ((h.scanLineSize (mipSize h.width mip startingX incrementX)).toNat + 1 +
              (mipSize h.width mip startingX incrementX).toNat) (srcBpp_pos (h := h))
          omega

/-- Passes write their pixels at most, and fewer if a size overflows. -/
theorem loadMips_count (hht : h.height + 7 < 2 ^ 31) (mips : List Nat) :
    ∀ {data data' : List UInt8} {p p' : Progress}, (∀ mip ∈ mips, h.HasPass mip) →
      h.loadMips mips data p = .ok (data', p') →
      ∃ count ≤ h.bpp * (mips.flatMap (passPixels h.width h.height)).length,
        Writes p p' 0 count ∧
        (count = h.bpp * (mips.flatMap (passPixels h.width h.height)).length →
          ∀ mip ∈ mips, h.PassFits mip) := by
  induction mips with
  | nil =>
    intro data data' p p' _ hok
    cases hok
    exact ⟨0, Nat.zero_le _, Writes.refl p, by simp⟩
  | cons mip mips ih =>
    intro data data' p p' hpass hok
    rw [loadMips, foldlM_cons] at hok
    cases hmip : h.loadMip mip data p with
    | error e =>
      rw [hmip] at hok
      cases hok
    | ok q =>
      rw [hmip] at hok
      rcases loadMip_count hht (hpass mip (by simp)) hmip with ⟨m, hm, hfst, hfits⟩
      rcases ih (fun mip' hmem => hpass mip' (by simp [hmem])) hok with ⟨n, hn, hrest, hfits'⟩
      rw [flatMap_cons, length_append, Nat.mul_add]
      refine ⟨m + n, Nat.add_le_add hm hn, hfst.trans hrest, ?_⟩
      intro heq mip' hmem
      rcases mem_cons.mp hmem with rfl | hmem
      · exact hfits (by omega)
      · exact hfits' (by omega) mip' hmem

theorem image_lt_of_load {isInterlaced : Bool} (hok : h.load isInterlaced data = .ok p) :
    p.image.length < 2 ^ 31 := by
  simp only [load] at hok
  split_ifs at hok with hneg
  all_goals
    have hlt := int32_lt (h.bpp * h.width * h.height)
    generalize int32 (h.bpp * h.width * h.height) = size at hok hneg hlt
    revert hok
    generalize hmips : h.loadMips _ data _ = result
    intro hok
    cases result with
    | error e => cases hok
    | ok q =>
      rcases loadMips_writes _ hmips with ⟨high, hwrites⟩
      have hlen := hwrites.length_image
      rw [Except.ok.inj hok, length_replicate] at hlen
      omega

theorem passes_cons (h : Header) : ∃ mips, passes h.width h.height = 0 :: mips := by
  rw [passes, show List.range 7 = 0 :: [1, 2, 3, 4, 5, 6] from rfl, filter_cons_of_pos]
  · exact ⟨_, rfl⟩
  · exact decide_eq_true ⟨h.width_pos, h.height_pos⟩

theorem one_of_height (himg : h.bpp * h.width * h.height < 2 ^ 31)
    (hover : 2 ^ 31 ≤ h.height + 7) : h.bpp = 1 ∧ h.width = 1 := by
  have hbpp : 0 < h.bpp := by
    have := numBands_pos (h := h)
    rw [bpp]
    omega
  have hwd := h.width_pos
  have hlt : h.bpp * h.width < 2 := by
    by_contra hge
    have := Nat.mul_le_mul_right h.height (Nat.not_lt.mp hge)
    omega
  have hle := Nat.le_mul_of_pos_right h.bpp hwd
  have hle' := Nat.le_mul_of_pos_left h.width hbpp
  omega

/-- The number of turns for a height that overflows is far too large. -/
theorem turns_ge (hover : 2 ^ 31 ≤ h.height + 7) :
    2 ^ 31 ≤ (mipSize h.height 0 startingY incrementY % 2 ^ 32).toNat := by
  have hlt := h.height_lt
  have hsize : mipSize h.height 0 startingY incrementY =
      -((((2 ^ 32 - (h.height + 7)) / 8 : Nat)) : Int) := by
    have hwrap : int32 ((h.height : Int) - entry startingY 0 + entry incrementY 0 - 1) =
        -((2 ^ 32 - (h.height + 7) : Nat) : Int) := by
      rw [int32, Int.bmod_def]
      simp only [entry, startingY, incrementY, getD_cons_zero]
      split_ifs <;> omega
    rw [mipSize, hwrap, Int.neg_tdiv]
    rfl
  omega

theorem height_lt_of_load (himg : h.bpp * h.width * h.height < 2 ^ 31)
    (hok : h.load true data = .ok p) (hwritten : p.written.length = h.bpp * h.width * h.height) :
    h.height + 7 < 2 ^ 31 := by
  by_contra hover
  have hover : 2 ^ 31 ≤ h.height + 7 := Nat.not_lt.mp hover
  rcases one_of_height himg hover with ⟨hbpp, hwd⟩
  have hbands : h.numBands = 1 := by
    have := numBands_pos (h := h)
    rw [bpp] at hbpp
    omega
  rcases passes_cons h with ⟨mips, hmips⟩
  rw [load_eq himg, if_pos rfl, hmips, loadMips, foldlM_cons] at hok
  cases hmip : h.loadMip 0 data ⟨List.replicate (h.bpp * h.width * h.height) 0, []⟩ with
  | error e =>
    rw [hmip] at hok
    cases hok
  | ok q =>
    rcases q with ⟨data₁, p₁⟩
    rw [hmip] at hok
    revert hok
    change Except.map Prod.snd (h.loadMips mips data₁ p₁) = .ok p → False
    cases hrest : h.loadMips mips data₁ p₁ with
    | error e =>
      intro hok
      cases hok
    | ok q =>
      intro hok
      rcases loadMips_writes mips hrest with ⟨high, hrest⟩
      have hone : mipSize h.width 0 startingX incrementX = (1 : Nat) := by
        rw [hwd]
        rfl
      have hline : h.scanLineSize (1 : Nat) = (h.lineLength 1 : Nat) := by
        refine scanLineSize_eq ?_
        have := h.depth_cases
        rw [hbands]
        omega
      have hfst := loadMip_writes 1 1 hmip ?_
      · have hlow := hfst.length_written.1
        have hlow' := hrest.length_written.1
        rw [Except.ok.inj hok] at hlow'
        have := turns_ge hover
        omega
      · intro fType pos line _ _ hlen
        rw [hone, hline] at hlen
        rw [hone, Int.toNat_natCast, (convertLine_perm hlen pos _).length_eq,
          length_lineStores, hbpp]
        exact ⟨le_rfl, le_rfl⟩

def constLines (h : Header) (v : UInt8) (mip : Nat) : List (UInt8 × List UInt8) :=
  List.replicate (passSize h.height mip startingY incrementY)
    (0, List.replicate (h.lineLength (passSize h.width mip startingX incrementX)) v)

/-- The samples of such lines, where those of less than eight bits are zero. -/
def constSample (h : Header) (v : UInt8) : Nat :=
  if h.bitDepth = 16 then v.toNat * 256 + v.toNat else if h.bitDepth = 8 then v.toNat else 0

theorem byteAt_replicate {n i : Nat} (hi : i < n) (v : UInt8) :
    byteAt (List.replicate n v) i = v := by
  rw [byteAt, getD_eq_getElem _ _ (by simpa using hi), getElem_replicate]

theorem byteAt_replicate_zero (n i : Nat) : byteAt (List.replicate n 0) i = 0 := by
  simp only [byteAt, getD_eq_getElem?_getD, getElem?_replicate]
  split <;> rfl

theorem encodes_constLines {v : UInt8} (hv : h.bitDepth < 8 → v = 0) (mip : Nat) :
    h.Encodes (fun _ _ _ => h.constSample v) mip (h.constLines v mip) := by
  refine ⟨length_replicate, ?_, ?_⟩
  · intro line hmem
    rw [(mem_replicate.mp hmem).2, length_replicate]
  · intro y line hget i hi band hband
    have hline := (mem_replicate.mp (mem_of_getElem? hget)).2
    have hplace : i * h.numBands + band <
        passSize h.width mip startingX incrementX * h.numBands := by
      have := Nat.mul_le_mul_right h.numBands (show i + 1 ≤ _ from hi)
      rw [Nat.succ_mul] at this
      omega
    rw [hline, sample, constSample]
    split_ifs with hsixteen height
    · have hlen := lineLength_large (h := h) (by omega)
        (passSize h.width mip startingX incrementX)
      rw [srcBpp, bytesPerColor, if_pos hsixteen, ← Nat.mul_assoc] at hlen
      rw [byteAt_replicate (by omega), byteAt_replicate (by omega)]
    · have hlen := lineLength_large (h := h) (by omega)
        (passSize h.width mip startingX incrementX)
      rw [srcBpp, bytesPerColor, if_neg hsixteen, Nat.mul_one] at hlen
      rw [byteAt_replicate (by omega)]
    · have hdepth : h.bitDepth < 8 := by
        have := h.depth_cases
        omega
      simp [hv hdepth, byteAt_replicate_zero]

section

variable (hdepth : 8 ≤ h.bitDepth)

include hdepth

theorem large_depth : h.bitDepth = 16 ∨ h.bitDepth = 8 := by
  have := h.depth_cases
  omega

theorem level_constSample (v : UInt8) : h.level (h.constSample v) = v := by
  rcases large_depth hdepth with hd | hd
  · have hv := v.toNat_lt
    rw [level, constSample, if_pos hd, if_pos hd, show (v.toNat * 256 + v.toNat) / 256 = v.toNat by
      omega]
    exact UInt8.ofNat_toNat
  · rw [level, constSample, if_neg (by omega), if_pos (.inl hd), if_neg (by omega), if_pos hd]
    exact UInt8.ofNat_toNat

theorem exists_visible : ∃ v : UInt8, ∀ b ∈ h.pixelBytes (fun _ => h.constSample v), b ≠ 0 := by
  have hgreen : ∀ {v}, h.isTransparent (fun _ => h.constSample v) = true →
      h.sampleEq h.trnsG (h.constSample v) = true := by
    intro v htransp
    rw [isTransparent] at htransp
    split_ifs at htransp
    · exact htransp
    · rw [decide_eq_true_eq] at htransp
      exact htransp.2.1
  have hmem : ∀ {v b : UInt8}, v ≠ 0 → h.isTransparent (fun _ => h.constSample v) = false →
      b ∈ h.pixelBytes (fun _ => h.constSample v) → b ≠ 0 := by
    intro v b hv hopaque hb
    rw [pixelBytes, hopaque, mem_append, mem_map] at hb
    rcases hb with ⟨band, -, rfl⟩ | hb
    · rwa [level_constSample hdepth]
    · split_ifs at hb
      · rw [mem_singleton.mp hb]
        decide
      · cases hb
  cases hone : h.isTransparent (fun _ => h.constSample 1) with
  | false => exact ⟨1, fun b => hmem (by decide) hone⟩
  | true =>
    refine ⟨255, fun b => hmem (by decide) ?_⟩
    rw [← Bool.not_eq_true]
    intro hmax
    have hone := hgreen hone
    have hmax := hgreen hmax
    rcases large_depth hdepth with hd | hd
    · rw [sampleEq, if_pos hd, constSample, if_pos hd, decide_eq_true_eq] at hone hmax
      exact absurd (hone.trans hmax.symm) (by decide)
    · rw [sampleEq, if_neg (by omega), if_pos hd, constSample, if_neg (by omega), if_pos hd,
        decide_eq_true_eq] at hone hmax
      exact absurd (hone.trans hmax.symm) (by decide)

end

theorem imageOf_ne_zero {px : Nat → Nat → Nat → Nat}
    (hvisible : ∀ x y, ∀ b ∈ h.pixelBytes (px x y), b ≠ 0) {i : Nat}
    (hi : i < h.bpp * h.width * h.height) : (h.imageOf px)[i]? ≠ some 0 := by
  rcases getElem?_storeAll _ i (storeAll_pixels px) with ⟨v, hmem, hv⟩ | ⟨hnot, -⟩
  · rw [hv]
    rcases mem_flatMap.mp hmem with ⟨p, -, hstore⟩
    rcases mem_map.mp hstore with ⟨q, hq, heq⟩
    have hbyte := hvisible p.1 p.2 q.1 (fst_mem_of_mem_zipIdx hq)
    rw [(Prod.mk.inj heq).2] at hbyte
    simpa using hbyte
  · rw [places_pixels, mem_range] at hnot
    exact absurd hi hnot

theorem Writes.exists_zero {n low high : Nat} (hwrites : Writes ⟨List.replicate n 0, []⟩ p low high)
    (hlt : high < n) :
    ∃ i < n, p.image[i]? = some 0 := by
  rcases hwrites with ⟨stores, himg, -, -, hhigh⟩
  have hleft : ∃ i < n, i ∉ stores.map Prod.fst := by
    by_contra hall
    push Not at hall
    have hsub : List.range n ⊆ stores.map Prod.fst := fun i hi => hall i (mem_range.mp hi)
    have := (nodup_range.subperm hsub).length_le
    rw [length_range, length_map] at this
    omega
  rcases hleft with ⟨i, hi, hnot⟩
  refine ⟨i, hi, ?_⟩
  rcases getElem?_storeAll stores i himg with ⟨v, hmem, -⟩ | ⟨-, heq⟩
  · exact absurd (mem_map_of_mem hmem) hnot
  · rw [heq, getElem?_replicate_of_lt hi]

theorem length_pixels : h.bpp * (pixels h.width h.height).length =
    h.bpp * h.width * h.height := by
  simp [pixels]
  ring

theorem load_ok (himg : h.bpp * h.width * h.height < 2 ^ 31) {isInterlaced : Bool}
    (hok : h.load isInterlaced data = .ok p) :
    ∃ data', h.loadMips (if isInterlaced then passes h.width h.height else [7]) data
      ⟨List.replicate (h.bpp * h.width * h.height) 0, []⟩ = .ok (data', p) := by
  rw [load_eq himg] at hok
  revert hok
  generalize h.loadMips _ data _ = result
  intro hok
  cases result with
  | error e => exact nomatch hok
  | ok q =>
    cases hok
    exact ⟨_, rfl⟩

theorem passSize_seven (size : Nat) : passSize size 7 startingX incrementX = size := by
  simp [passSize, entry, startingX, incrementX]

theorem not_passFits_seven (hover : 2 ^ 31 ≤ h.width * h.bitDepth * h.numBands + 7) :
    ¬ h.PassFits 7 := by
  intro hfits
  have hline := hfits.line_eq
  rw [passSize_seven] at hline
  have hlt := scanLineSize_lt hover
  rw [hline] at hlt
  exact lt_irrefl _ hlt

theorem loadMip_seven_small (hht : h.height + 7 < 2 ^ 31) (hdepth : h.bitDepth < 8)
    (hover : 2 ^ 31 ≤ h.width * h.bitDepth * h.numBands + 7) :
    h.loadMip 7 data p ≠ .ok (data', p') := by
  intro hok
  rcases passFits_or_short HasPass.seven with hfits | hshort
  · exact not_passFits_seven hover hfits
  · have hwd : mipSize h.width 7 startingX incrementX = (h.width : Nat) := by
      have := h.width_lt
      rw [mipSize, show (h.width : Int) - entry startingX 7 + entry incrementX 7 - 1 = h.width by
        simp [entry, startingX, incrementX], int32_eq (by omega) (by omega)]
      exact Int.tdiv_one _
    have hwrites := loadMip_writes 1 0 hok ?_
    · have := hwrites.length_written
      have hrows := h.height_pos
      rw [turns_eq hht HasPass.seven,
        show passSize h.height 7 startingY incrementY = h.height by
        simp [passSize, entry, startingY, incrementY]] at this
      omega
    · intro fType pos line hnn hbounds hline
      have hlt := hshort fType pos line hnn hbounds hline
      rw [length_convertLine_small hdepth, hwd, passSize_seven] at hlt
      exact absurd hlt (lt_irrefl _)

theorem fits_of_interlacedAsPlain (hplain : h.InterlacedAsPlain) : h.Fits := by
  have hchoice : ∃ v : UInt8, (h.bitDepth < 8 → v = 0) ∧
      (8 ≤ h.bitDepth → ∀ b ∈ h.pixelBytes (fun _ => h.constSample v), b ≠ 0) := by
    rcases Nat.lt_or_ge h.bitDepth 8 with hdepth | hdepth
    · exact ⟨0, fun _ => rfl, fun hge => by omega⟩
    · rcases exists_visible hdepth with ⟨v, hv⟩
      exact ⟨v, fun hlt => by omega, fun _ => hv⟩
  rcases hchoice with ⟨v, hzero, hvisible⟩
  rcases hplain (fun _ _ _ => h.constSample v) (h.constLines v 7) (h.constLines v)
    (encodes_constLines hzero 7) (fun mip _ => encodes_constLines hzero mip) with
    ⟨image, written, written', hlen, hperm, hload, hload'⟩
  have himg : h.bpp * h.width * h.height < 2 ^ 31 := hlen ▸ image_lt_of_load hload
  have hwritten : written.length = h.bpp * h.width * h.height := by
    rw [hperm.length_eq, length_range]
  have hht : h.height + 7 < 2 ^ 31 := height_lt_of_load himg hload hwritten
  refine ⟨himg, ?_, hht⟩
  by_contra hover
  have hover := Nat.not_lt.mp hover
  rcases load_ok himg hload with ⟨data, hmips⟩
  rcases load_ok himg hload' with ⟨data', hseven⟩
  rw [if_pos rfl] at hmips
  rw [if_neg (by decide)] at hseven
  -- no pass of the interlaced image overflows, otherwise pixels are missing
  have hfits : ∀ mip ∈ passes h.width h.height, h.PassFits mip := by
    rcases loadMips_count hht _ (fun mip => HasPass.of_mem) hmips with
      ⟨count, hcount, hwrites, hfits⟩
    refine hfits (le_antisymm hcount ?_)
    rw [(passes_perm h.width h.height).length_eq, length_pixels, ← hwritten]
    simpa using hwrites.length_written.2
  have himageOf : image = h.imageOf fun _ _ _ => h.constSample v := by
    rcases loadMips_image himg hht
      (fun mip hmem => ⟨hfits mip hmem, encodes_constLines hzero mip⟩)
      (passes_perm h.width h.height) with ⟨places, -, heq⟩
    rw [encodeInterlaced, heq] at hmips
    cases hmips
    rfl
  rcases Nat.lt_or_ge h.bitDepth 8 with hdepth | hdepth
  · cases hmip : h.loadMip 7 (h.encodeMip 7 (h.constLines v 7))
      ⟨List.replicate (h.bpp * h.width * h.height) 0, []⟩ with
    | error e =>
      rw [loadMips, foldlM_cons, hmip] at hseven
      cases hseven
    | ok q => exact loadMip_seven_small hht hdepth hover hmip
  · rcases loadMips_count hht [7] (by simp [HasPass.seven]) hseven with
      ⟨count, hcount, hwrites, hfits⟩
    rw [flatMap_singleton, passPixels_seven, length_pixels] at hcount hfits
    have hne : count ≠ h.bpp * h.width * h.height :=
      fun heq => not_passFits_seven hover (hfits heq 7 (by simp))
    rcases hwrites.exists_zero (by omega) with ⟨i, hi, hleft⟩
    rw [himageOf] at hleft
    exact imageOf_ne_zero (fun _ _ => hvisible hdepth) hi hleft

/-- Interlaced data is decoded like data that is not interlaced exactly if no size overflows. -/
theorem interlacedAsPlain_iff (h : Header) :
    h.InterlacedAsPlain ↔
      h.bpp * h.width * h.height < 2 ^ 31 ∧ h.width * h.bitDepth * h.numBands + 7 < 2 ^ 31 ∧
        h.height + 7 < 2 ^ 31 := by
  constructor
  · intro hplain
    rcases fits_of_interlacedAsPlain hplain with ⟨himage, hline, hheight⟩
    exact ⟨himage, hline, hheight⟩
  · rintro ⟨himage, hline, hheight⟩
    exact interlacedAsPlain_of_fits ⟨himage, hline, hheight⟩

/-- One line of RGBA pixels with samples of sixteen bits. -/
def wideHeader : Header where
  width := 2 ^ 25
  height := 1
  bitDepth := 16
  colorType := .rgbAlpha
  tRNSGrayRgb := false
  trnsR := 0
  trnsG := 0
  trnsB := 0
  width_pos := by decide
  width_lt := by decide
  height_pos := by decide
  height_lt := by decide
  depth_legal := by decide
  low_depth := by decide
  palette_depth := by decide
  trns_legal := by decide

/-- The image has 2^27 bytes, but the length of its line is negative. -/
theorem wideHeader_throws : ¬ wideHeader.InterlacedAsPlain := by
  intro hplain
  have hzero : wideHeader.bitDepth < 8 → (0 : UInt8) = 0 := fun _ => rfl
  rcases hplain _ _ _ (encodes_constLines hzero 7)
    (fun mip _ => encodes_constLines hzero mip) with
    ⟨image, written, written', -, -, -, hload⟩
  rcases load_ok (by decide) hload with ⟨data, hmips⟩
  exact nomatch hmips

end Header

end OpenJfx.Iio.Png
