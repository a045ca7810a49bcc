import OpenJfx.Iio.GifLoader

namespace OpenJfx.Iio.Gif

open Data Data.TurnLoop Java.Arrays Java.Ints List

/-- The failure is an `IOException`. -/
def GifFailure.IsIO : GifFailure → Prop
  | .eof => True
  | .invalid _ => True
  | .negativeArraySize => False
  | .runtime _ => False

theorem isIO_toGif {e : LzwFailure} (h : e.IsIO) : e.toGif.IsIO := by
  cases e with
  | eof => exact trivial
  | outOfSequence => exact trivial
  | indexOutOfBounds => exact absurd rfl h

/-- The method fails with an `IOException` only, takes so many bytes and gives what has a
property. -/
def Reads {α : Type} (k : Nat) (P : α → Prop) (x : Reader α) : Prop :=
  ∀ s, Yields GifFailure.IsIO (fun r => r.2.bytes.length + k ≤ s.bytes.length ∧ P r.1) (x.run s)

namespace Reads

variable {α β : Type} {j k : Nat} {P P' : α → Prop} {Q : β → Prop}

theorem pure {a : α} (h : P a) : Reads 0 P (pure a) := fun _ => .ok ⟨le_rfl, h⟩

theorem throw {e : GifFailure} (h : e.IsIO) : Reads k P (throw e) := fun _ => .error h

theorem throw_bind {e : GifFailure} (h : e.IsIO) (f : β → Reader α) :
    Reads k P (MonadExcept.throw e >>= f) := fun _ => .error h

theorem weaken {x : Reader α} (h : Reads k P x) (hj : j ≤ k) : Reads j P x :=
  fun s => (h s).imp fun _ ⟨hle, ha⟩ => ⟨by omega, ha⟩

theorem bind {x : Reader α} {f : α → Reader β} (hx : Reads k P x)
    (hf : ∀ a, P a → Reads 0 Q (f a)) : Reads k Q (x >>= f) := by
  intro s
  apply (hx s).bind
  rintro ⟨a, t⟩ ⟨hle, ha⟩
  apply (hf a ha t).imp
  rintro r ⟨hle', hr⟩
  dsimp only at hle
  exact ⟨by omega, hr⟩

theorem map {x : Reader α} {f : α → β} (hx : Reads k P x) (hf : ∀ a, P a → Q (f a)) :
    Reads k Q (f <$> x) := by
  exact hx.bind fun a ha => Reads.pure (hf a ha)

theorem ofOutcome {x : Outcome α} {a : α} (hx : x = .ok a) (ha : P a) :
    Reads 0 P (Reader.ofOutcome x) := by
  subst hx
  exact fun _ => .ok ⟨le_rfl, ha⟩

end Reads

section Reading

open Reader

theorem readByte_reads : Reads 1 (· < 256) readByte := by
  intro s
  apply ((LzwInput.readByte_yields s).mapError fun _ => isIO_toGif).map
  rintro ⟨b, s'⟩ hs'
  exact ⟨hs'.le, b.toNat_lt⟩

theorem readShort_reads : Reads 1 (· < 2 ^ 16) readShort := by
  apply readByte_reads.bind
  intro lsb hlsb
  apply (readByte_reads.weaken (Nat.zero_le 1)).bind
  intro msb hmsb
  apply Reads.pure
  omega

theorem readBytes_reads (size : Nat) : Reads size (·.length = size) (readBytes size) := by
  intro s
  apply ((LzwInput.readBytes_yields size size s le_rfl).mapError fun _ => isIO_toGif).imp
  rintro ⟨bytes, s'⟩ ⟨hlen, hsum⟩
  exact ⟨by omega, hlen⟩

theorem consumeBlocks_yields (turns : Nat) : ∀ s : ByteSource,
    Yields LzwFailure.IsIO (fun s' => s'.bytes.length ≤ s.bytes.length)
      (consumeBlocks turns s) := by
  induction turns with
  | zero => exact fun _ => .error isIO_eof
  | succ turns ih =>
    intro s
    apply (LzwInput.readByte_yields s).bind
    rintro ⟨blSize, t⟩ ht
    dsimp only at ht ⊢
    split_ifs
    · exact .ok (by omega)
    · rcases Nat.lt_or_ge t.bytes.length blSize.toNat with hshort | hlong
      · rw [ByteSource.skipFully, ByteSource.skipLoop_eof _ t _ le_rfl hshort]
        exact .error isIO_eof
      · obtain ⟨t', ht', hbytes⟩ := t.skipFully_ok hlong
        rw [ht']
        apply (ih t').imp
        intro u hu
        rw [hbytes, length_drop] at hu
        omega

theorem consumeAnExtension_reads : Reads 0 (fun _ => True) Reader.consumeAnExtension := by
  intro s
  apply ((consumeBlocks_yields _ s).mapError fun _ => isIO_toGif).map
  intro s' hs'
  exact ⟨hs', trivial⟩

theorem read_reads : Reads 0 (fun _ => True) Reader.read := by
  intro s
  change Yields _ _ (Reader.read s)
  rw [Reader.read, ByteSource.read]
  cases hbytes : s.bytes with
  | nil =>
    apply Yields.ok
    rw [hbytes]
    exact ⟨le_rfl, trivial⟩
  | cons b bytes =>
    apply Yields.ok
    refine ⟨?_, trivial⟩
    dsimp only [ByteSource.advance]
    rw [hbytes, drop_succ_cons, drop_zero, length_cons]
    omega

structure Palette.Full (palette : Palette) : Prop where
  g_eq : palette.g.length = palette.r.length
  b_eq : palette.b.length = palette.r.length
  a_eq : palette.a.length = palette.r.length

theorem palettePlane_ok {paletteData : List UInt8} {size k : Nat}
    (hlen : paletteData.length = size * 3) (hk : k < 3) :
    ∃ plane, palettePlane paletteData size k = .ok plane ∧ plane.length = size := by
  have hload : ∀ i ∈ List.range size, ∃ b, load paletteData (i * 3 + k : Nat) = .ok b := by
    intro i hi
    rw [mem_range] at hi
    exact ⟨_, load_natCast paletteData (i * 3 + k) (by omega)⟩
  obtain ⟨plane, hplane, hsize⟩ := mapM_ok hload
  exact ⟨plane, hplane, hsize.trans length_range⟩

theorem readPalete_reads (size : Nat) (trnsIndex : Int) :
    Reads 0 Palette.Full (readPalete size trnsIndex) := by
  apply ((readBytes_reads (size * 3)).weaken (Nat.zero_le _)).bind
  intro paletteData hlen
  obtain ⟨r, hr, hrsize⟩ := palettePlane_ok hlen (k := 0) (by decide)
  obtain ⟨g, hg, hgsize⟩ := palettePlane_ok hlen (k := 1) (by decide)
  obtain ⟨b, hb, hbsize⟩ := palettePlane_ok hlen (k := 2) (by decide)
  apply (Reads.ofOutcome hr rfl).bind
  rintro _ rfl
  apply (Reads.ofOutcome hg rfl).bind
  rintro _ rfl
  apply (Reads.ofOutcome hb rfl).bind
  rintro _ rfl
  apply Reads.pure
  constructor
  · exact hgsize.trans hrsize.symm
  · exact hbsize.trans hrsize.symm
  · rw [length_map, length_range, hrsize]

def Screen.Full (screen : Screen) : Prop := ∀ palette ∈ screen.globalPalette, palette.Full

theorem readGlobalHeader_reads : Reads 1 Screen.Full readGlobalHeader := by
  apply ((readBytes_reads 6).weaken (by decide)).bind
  intro signature _
  split_ifs
  · apply Reads.throw_bind
    trivial
  have hshort := readShort_reads.weaken (Nat.zero_le 1)
  have hbyte := readByte_reads.weaken (Nat.zero_le 1)
  apply hshort.bind
  intro screenW _
  apply hshort.bind
  intro screenH _
  apply hbyte.bind
  intro cInfo _
  apply hbyte.bind
  intro bgColor _
  apply hbyte.bind
  intro aspectR _
  split_ifs
  · apply (readPalete_reads _ _).bind
    intro globalPalette hfull
    apply Reads.pure
    rintro _ ⟨⟩
    exact hfull
  · apply Reads.pure
    nofun

theorem readSubBlocks_reads (turns : Nat) :
    ∀ loopCount, Reads 0 (fun _ => True) (readSubBlocks turns loopCount) := by
  induction turns with
  | zero => exact fun _ => Reads.throw trivial
  | succ turns ih =>
    intro loopCount
    apply (readByte_reads.weaken (Nat.zero_le 1)).bind
    intro subBlockSize _
    split_ifs with hzero
    · exact Reads.pure trivial
    apply ((readBytes_reads subBlockSize).weaken (Nat.zero_le _)).bind
    intro subBlock hlen
    have hload : ∀ i : Nat, i < subBlock.length → ∃ b, load subBlock i = .ok b :=
      fun i hi => ⟨_, load_natCast subBlock i hi⟩
    obtain ⟨b, hb⟩ := hload 0 (by omega)
    apply (Reads.ofOutcome hb rfl).bind
    rintro _ rfl
    split_ifs with hloop
    · obtain ⟨low, hlow⟩ := hload 1 (by omega)
      obtain ⟨high, hhigh⟩ := hload 2 (by omega)
      apply (Reads.ofOutcome hlow rfl).bind
      rintro _ rfl
      apply (Reads.ofOutcome hhigh rfl).bind
      rintro _ rfl
      apply ih
    · apply ih

theorem readAppExtension_reads (loopCount : Nat) :
    Reads 0 (fun _ => True) (readAppExtension loopCount) := by
  apply (readByte_reads.weaken (Nat.zero_le 1)).bind
  intro size _
  apply ((readBytes_reads size).weaken (Nat.zero_le _)).bind
  intro buf _
  split_ifs
  · exact fun s => readSubBlocks_reads _ loopCount s
  · apply consumeAnExtension_reads.bind
    intro _ _
    exact Reads.pure trivial

theorem readControlCode_reads : Reads 0 (fun _ => True) readControlCode := by
  have hbyte := readByte_reads.weaken (Nat.zero_le 1)
  apply hbyte.bind
  intro size _
  apply hbyte.bind
  intro pField _
  apply (readShort_reads.weaken (Nat.zero_le 1)).bind
  intro frameDelay _
  apply hbyte.bind
  intro trnsIndex _
  split_ifs
  · apply Reads.throw_bind
    trivial
  apply hbyte.bind
  intro terminator _
  split_ifs
  · apply Reads.throw_bind
    trivial
  · exact Reads.pure trivial

theorem waitLoop_reads (turns : Nat) : ∀ controlData loopCount,
    Reads 0 (fun _ => True) (waitLoop turns controlData loopCount) := by
  induction turns with
  | zero => exact fun _ _ => Reads.throw trivial
  | succ turns ih =>
    intro controlData loopCount
    apply read_reads.bind
    intro ch _
    cases ch with
    | none => exact Reads.pure trivial
    | some ch =>
      dsimp only
      split_ifs
      · exact Reads.pure trivial
      · apply (readByte_reads.weaken (Nat.zero_le 1)).bind
        intro label _
        split_ifs
        · apply readControlCode_reads.bind
          intro controlData _
          apply ih
        · apply (readAppExtension_reads loopCount).bind
          intro loopCount _
          apply ih
        · apply consumeAnExtension_reads.bind
          intro _ _
          apply ih
      · exact Reads.pure trivial
      · exact Reads.throw trivial

structure Frame.Fits (frame : Frame) (screen : Screen) : Prop where
  left_le : frame.left + frame.w ≤ screen.screenW
  top_le : frame.top + frame.h ≤ screen.screenH
  h_lt : frame.h < 2 ^ 16
  full : ∀ palette ∈ frame.palette, palette.Full

theorem readPalette_reads {screen : Screen} (hfull : screen.Full) (imgCtrl : Nat)
    (trnsIndex : Int) : Reads 0 (fun palette => ∀ p ∈ palette, p.Full)
      (screen.readPalette imgCtrl trnsIndex) := by
  rw [Screen.readPalette]
  split_ifs
  · apply (readPalete_reads _ trnsIndex).map
    rintro palette hpal _ ⟨⟩
    exact hpal
  · exact Reads.pure hfull

theorem readFrame_reads {screen : Screen} (hfull : screen.Full) (imageControlCode : Nat) :
    Reads 1 (fun frame => frame.Fits screen) (screen.readFrame imageControlCode) := by
  have hshort := readShort_reads.weaken (Nat.zero_le 1)
  apply readShort_reads.bind
  intro left _
  apply hshort.bind
  intro top _
  apply hshort.bind
  intro w _
  apply hshort.bind
  intro h hh
  split_ifs with hoff
  · apply Reads.throw_bind
    trivial
  apply (readByte_reads.weaken (Nat.zero_le 1)).bind
  intro imgCtrl _
  apply (readPalette_reads hfull imgCtrl _).bind
  intro palette hpal
  apply Reads.pure
  rw [not_or, Nat.not_lt, Nat.not_lt] at hoff
  exact ⟨hoff.1, hoff.2, hh, hpal⟩

theorem beginLoad_yields {loader : GIFImageLoader2} (hfull : loader.Full) (s : ByteSource) :
    Yields GifFailure.IsIO (fun r => r.2.bytes.length ≤ s.bytes.length ∧
      ∀ frame ∈ r.1.1, frame.Fits loader.toScreen ∧ r.2.bytes.length < s.bytes.length)
      (loader.beginLoad.run s) := by
  apply (waitLoop_reads _ 0 loader.loopCount s).bind
  rintro ⟨⟨imageControlCode, loopCount⟩, t⟩ ⟨hle, -⟩
  dsimp only at hle
  cases imageControlCode with
  | none => exact .ok ⟨hle, nofun⟩
  | some imageControlCode =>
    apply (readFrame_reads hfull imageControlCode t).bind
    rintro ⟨frame, u⟩ ⟨hlt, hfits⟩
    dsimp only at hlt
    apply Yields.ok
    dsimp only
    refine ⟨by omega, ?_⟩
    rintro _ ⟨⟩
    exact ⟨hfits, by omega⟩

end Reading

section Decoding

/-- The locals of `decodeImage` between two turns. A frame that has rows has the place of the next
pixel in one of them. -/
structure Ready (w h : Nat) (interlace : Option (List Nat))
    (st : StringReader.Locals LzwDecoder) : Prop where
  interlace_eq : interlace = none ∨ interlace = some (interlacedRows h)
  consistent : st.dec.Consistent
  string_le : st.string.length ≤ tableSize
  pos_le : st.pos ≤ st.string.length
  image_eq : st.image.length = w * h
  y_le : st.y ≤ h
  row : 0 < h → st.y < h ∧ ∃ row < h, st.iPos + st.xr = row * w + w

variable {w h : Nat} {interlace : Option (List Nat)} {st : StringReader.Locals LzwDecoder}

theorem rowAt_eq_some (hintl : interlace = none ∨ interlace = some (interlacedRows h))
    {y : Nat} (hy : y < h) :
    ∃ row < h, StringReader.rowAt interlace y = some row := by
  rcases hintl with rfl | rfl
  · exact ⟨y, hy, rfl⟩
  · have hy' : y < (interlacedRows h).length := by rwa [length_interlacedRows]
    exact ⟨_, (mem_interlacedRows _).mp (getElem_mem hy'), getElem?_eq_getElem hy'⟩

def workLeft (h : Nat) (st : StringReader.Locals LzwDecoder) : Nat :=
  (st.string.length - st.pos) + (h - st.y)

theorem copyPart_ready (hready : Ready w h interlace st) (hpos : st.pos < st.string.length)
    (hh : 0 < h) :
    (∃ image, lzwReader.copyPart w h interlace st =
        .ends (image, lzwReader.waitForTerminator st.dec) ∧ image.length = w * h) ∨
      ∃ st', lzwReader.copyPart w h interlace st = .goesOn st' ∧ st'.dec = st.dec ∧
        workLeft h st' < workLeft h st ∧ Ready w h interlace st' := by
  obtain ⟨hy, row, hrow, hplace⟩ := hready.row hh
  have himg := hready.image_eq
  have hmul := RowMajor.mul_add_le_mul hrow (le_refl w)
  rw [Nat.mul_comm h] at hmul
  generalize hax : (if st.xr < st.string.length - st.pos then st.xr
    else st.string.length - st.pos) = ax
  have hax_xr : ax ≤ st.xr := by
    rw [← hax]
    split_ifs <;> omega
  have hax_zero : ax = 0 → st.xr = 0 := by
    rw [← hax]
    split_ifs <;> omega
  have hax_pos : st.pos + ax ≤ st.string.length := by
    rw [← hax]
    split_ifs <;> omega
  obtain ⟨image, hcopy, hlen, -⟩ := arraycopy_spec hax_pos
    (show st.iPos + ax ≤ st.image.length by omega)
  simp only [StringReader.copyPart, hax, hcopy]
  split_ifs with hzero hend
  · exact .inl ⟨image, rfl, hlen.trans himg⟩
  · obtain ⟨row', hrow', hrowAt⟩ := rowAt_eq_some hready.interlace_eq
      (show st.y + 1 < h by omega)
    rw [hrowAt]
    refine .inr ⟨_, rfl, rfl, ?_, ?_⟩
    · rw [workLeft, workLeft]
      dsimp only
      omega
    · exact
        { interlace_eq := hready.interlace_eq
          consistent := hready.consistent
          string_le := hready.string_le
          pos_le := hax_pos
          image_eq := hlen.trans himg
          y_le := Nat.succ_le_of_lt hy
          row := fun _ => ⟨by dsimp only; omega, row', hrow', rfl⟩ }
  · refine .inr ⟨_, rfl, rfl, ?_, ?_⟩
    · rw [workLeft, workLeft]
      dsimp only
      omega
    · exact
        { interlace_eq := hready.interlace_eq
          consistent := hready.consistent
          string_le := hready.string_le
          pos_le := hax_pos
          image_eq := hlen.trans himg
          y_le := hready.y_le
          row := fun _ => ⟨hy, row, hrow, by dsimp only; omega⟩ }

theorem waitForTerminator_yields (dec : LzwDecoder) :
    Yields LzwFailure.IsIO (fun dec' => dec'.input.source.bytes.length ≤
      dec.input.source.bytes.length) (lzwReader.waitForTerminator dec) := by
  apply (consumeBlocks_yields _ dec.input.source).bind
  intro source hsrc
  exact .ok hsrc

/-- What is left after a turn of `decodeImage` that ends it. -/
def Decoded (w h : Nat) (st : StringReader.Locals LzwDecoder)
    (decoded : StringReader.Decoded LzwDecoder) : Prop :=
  decoded.1.length = w * h ∧ Yields LzwFailure.IsIO (fun dec =>
    8 * dec.input.source.bytes.length ≤ st.dec.input.bitsLeft) decoded.2

theorem source_le_bitsLeft (input : LzwInput) :
    8 * input.source.bytes.length ≤ input.bitsLeft := by
  rw [LzwInput.bitsLeft]
  omega

theorem readNext_ready (hready : Ready w h interlace st) (hroom : st.dec.hasRoom = true) :
    (∃ decoded, lzwReader.readNext st = .ends decoded ∧ Decoded w h st decoded) ∨
      ∃ st', lzwReader.readNext st = .goesOn st' ∧
        st'.dec.input.bitsLeft < st.dec.input.bitsLeft ∧ Ready w h interlace st' := by
  have hread := LzwDecoder.readString_yields hready.consistent hroom
  rw [StringReader.readNext]
  cases hstr : st.dec.readString with
  | error e =>
    have hstr' : lzwReader.readString st.dec = .error e := hstr
    rw [hstr']
    exact .inl ⟨_, rfl, hready.image_eq, .error (hread.of_error hstr)⟩
  | ok r =>
    have hstr' : lzwReader.readString st.dec = .ok r := hstr
    obtain ⟨hconsistent, hbits, hlen⟩ := hread.of_ok hstr
    rw [hstr']
    rcases r with ⟨_ | string, dec⟩
    · refine .inl ⟨_, rfl, hready.image_eq, ?_⟩
      apply (waitForTerminator_yields dec).imp
      have hsrc := source_le_bitsLeft dec.input
      dsimp only at hbits
      omega
    · obtain ⟨-, hle⟩ := hlen string rfl
      refine .inr ⟨_, rfl, hbits, ?_⟩
      exact
        { interlace_eq := hready.interlace_eq
          consistent := hconsistent
          string_le := hle
          pos_le := Nat.zero_le _
          image_eq := hready.image_eq
          y_le := hready.y_le
          row := hready.row }

theorem turn_ready (hready : Ready w h interlace st) (hh : h < 65536)
    (hmeets : if st.pos = st.string.length then st.dec.hasRoom = true else 0 < h) :
    (∃ decoded, lzwReader.turn w h interlace st = .ends decoded ∧ Decoded w h st decoded) ∨
      ∃ st', lzwReader.turn w h interlace st = .goesOn st' ∧ Ready w h interlace st' ∧
        100000 * st'.dec.input.bitsLeft + workLeft h st' <
          100000 * st.dec.input.bitsLeft + workLeft h st := by
  rcases eq_or_ne st.pos st.string.length with hpos | hpos
  · rw [if_pos hpos] at hmeets
    rw [StringReader.turn, if_pos hpos]
    rcases readNext_ready hready hmeets with hends | ⟨st', hread, hbits, hready'⟩
    · exact .inl hends
    · refine .inr ⟨st', hread, hready', ?_⟩
      have hstr := hready'.string_le
      have htable : tableSize = 4096 := rfl
      have hwork : workLeft h st' ≤ st'.string.length + h := by
        rw [workLeft]
        omega
      omega
  · rw [if_neg hpos] at hmeets
    rw [StringReader.turn, if_neg hpos]
    have hlt := Nat.lt_of_le_of_ne hready.pos_le hpos
    rcases copyPart_ready hready hlt hmeets with ⟨image, hcopy, hlen⟩ |
      ⟨st', hcopy, hdec, hwork, hready'⟩
    · refine .inl ⟨_, hcopy, hlen, ?_⟩
      apply (waitForTerminator_yields st.dec).imp
      have hsrc := source_le_bitsLeft st.dec.input
      omega
    · refine .inr ⟨st', hcopy, hready', ?_⟩
      rw [hdec]
      omega

theorem newDecoder_yields {source : ByteSource}
    (hsize : ∀ b ∈ source.bytes.head?, shiftLeft 1 b.toNat ≤ tableSize) :
    Yields LzwFailure.IsIO (fun d => d.Consistent ∧
      d.input.bitsLeft < 8 * source.bytes.length) (LzwDecoder.new source) := by
  rw [LzwDecoder.new]
  cases hread : LzwInput.readByte source with
  | error e => exact .error ((LzwInput.readByte_yields source).of_error hread)
  | ok r =>
    rcases r with ⟨b, source'⟩
    have hlen := (LzwInput.readByte_yields source).of_ok hread
    have hhead : b ∈ source.bytes.head? := by
      rw [LzwInput.readByte, ByteSource.read] at hread
      cases hbytes : source.bytes with
      | nil =>
        simp only [hbytes] at hread
        cases hread
      | cons b' bytes =>
        simp only [hbytes, Except.ok.injEq, Prod.mk.injEq] at hread
        rw [hread.1]
        rfl
    obtain ⟨d, hd, hconsistent, hinput⟩ := LzwDecoder.initTable_ok
      (d := ⟨b.toNat, 0, 0, 0, ⟨fun _ => 0, fun _ => 0, fun _ => 0, fun _ => 0⟩,
        ⟨[], 0, 0, source'⟩⟩) (hsize b hhead)
    change Yields _ _ (LzwDecoder.initTable _)
    rw [hd]
    refine .ok ⟨hconsistent, ?_⟩
    rw [hinput, LzwInput.bitsLeft, length_nil]
    dsimp only at hlen ⊢
    omega

theorem beginDecode_yields {frame : Frame} {stream : ByteSource}
    (hsmall : frame.w * frame.h < 2 ^ 31)
    (hsize : ∀ b ∈ stream.bytes.head?, shiftLeft 1 b.toNat ≤ tableSize) :
    Yields GifFailure.IsIO (fun r => Ready frame.w frame.h r.1 r.2 ∧
      r.2.dec.input.bitsLeft < 8 * stream.bytes.length ∧ workLeft frame.h r.2 ≤ frame.h)
      (frame.beginDecode stream) := by
  have hcast : int32 (frame.w * frame.h) = (frame.w * frame.h : Nat) := by
    exact int32_natCast hsmall
  have hintl : ∃ interlace, frame.reIndex = .ok interlace ∧
      (interlace = none ∨ interlace = some (interlacedRows frame.h)) := by
    rw [Frame.reIndex, computeInterlaceReIndex_eq]
    split_ifs
    · exact ⟨_, rfl, .inr rfl⟩
    · exact ⟨_, rfl, .inl rfl⟩
  obtain ⟨interlace, hreIndex, hintl⟩ := hintl
  rw [Frame.beginDecode, hreIndex]
  rw [hcast]
  apply ((newDecoder_yields hsize).mapError fun _ => isIO_toGif).bind
  rintro dec ⟨hconsistent, hbits⟩
  refine .ok ⟨?_, hbits, ?_⟩
  · exact
      { interlace_eq := hintl
        consistent := hconsistent
        string_le := Nat.zero_le _
        pos_le := le_rfl
        image_eq := by
          rw [length_replicate, Int.toNat_natCast]
        y_le := Nat.zero_le _
        row := fun hh => ⟨hh, 0, hh, by dsimp only; omega⟩ }
  · rw [workLeft, length_nil]
    omega

end Decoding

section Drawing

variable {frame : Frame} {screen : Screen}

def Frame.Coloured (frame : Frame) (srcImage : List UInt8) : Prop :=
  ∀ b ∈ srcImage, (b.toNat : Int) ≠ frame.trnsIndex →
    ∃ palette ∈ frame.palette, b.toNat < palette.r.length

variable {n : Nat} {img : List UInt8}

theorem forPixels_ok {body : Nat → List UInt8 → Nat → Outcome (List UInt8)}
    (hbody : ∀ y < frame.h, ∀ x < frame.w, ∀ img : List UInt8, img.length = n →
      ∃ img', body y img x = .ok img' ∧ img'.length = n) (himg : img.length = n) :
    ∃ img', frame.forPixels body img = .ok img' ∧ img'.length = n := by
  apply foldlM_ok (P := fun _ (img : List UInt8) => img.length = n) himg
  intro j y hy img himg
  have hy := mem_range.mp (mem_of_getElem? hy)
  apply foldlM_ok (P := fun _ (img : List UInt8) => img.length = n) himg
  intro k x hx img himg
  exact hbody y hy x (mem_range.mp (mem_of_getElem? hx)) img himg

theorem store_ok_of_lt {i : Nat} (hi : i < img.length) (value : UInt8) :
    ∃ img', store img (i : Int) value = .ok img' ∧ img'.length = img.length :=
  ⟨_, store_eq_set value hi, length_set⟩

theorem exists_iPos (hfits : frame.Fits screen)
    (hsmall : screen.screenW * screen.screenH * 4 < 2 ^ 31) {y x : Nat} (hy : y < frame.h)
    (hx : x < frame.w) :
    ∃ d : Nat, frame.iPos screen.screenW y x = d ∧
      d + 3 < screen.screenW * screen.screenH * 4 := by
  have hleft := hfits.left_le
  have htop := hfits.top_le
  have hplace := RowMajor.mul_add_lt_mul (show frame.top + y < screen.screenH by omega)
    (show frame.left + x < screen.screenW by omega)
  rw [Nat.mul_comm screen.screenH, ← Nat.add_assoc] at hplace
  rw [Frame.iPos]
  generalize (frame.top + y) * screen.screenW + frame.left = start at hplace
  have hlt : (start + x) * 4 + 3 < screen.screenW * screen.screenH * 4 := by omega
  refine ⟨(start + x) * 4, ?_, hlt⟩
  have hcast : ((start : Int) * 4 + 4 * (x : Int)) = ((start + x) * 4 : Nat) := by
    push_cast
    ring
  rw [int32_int32_add, hcast]
  exact int32_natCast ((Nat.le_add_right _ 3).trans_lt (hlt.trans hsmall))

theorem int32_natCast_add {d k : Nat} (hd : d + k < n) (hn : n < 2 ^ 31) :
    int32 ((d : Int) + k) = (d + k : Nat) := by
  exact int32_natCast (hd.trans hn)

theorem putPixel_ok {palette : Palette} (hfull : palette.Full) {index d : Nat}
    (hidx : index < palette.r.length) (hd : d + 3 < n) (hn : n < 2 ^ 31) (himg : img.length = n) :
    ∃ img', putPixel (some palette) index img d = .ok img' ∧ img'.length = n := by
  have hone := int32_natCast_add (k := 1) (show d + 1 < n by omega) hn
  have htwo := int32_natCast_add (k := 2) (show d + 2 < n by omega) hn
  have hthree := int32_natCast_add (k := 3) hd hn
  rw [Nat.cast_one] at hone
  rw [Nat.cast_ofNat] at htwo hthree
  have hg : index < palette.g.length := hfull.g_eq ▸ hidx
  have hb : index < palette.b.length := hfull.b_eq ▸ hidx
  have ha : index < palette.a.length := hfull.a_eq ▸ hidx
  obtain ⟨img₁, h₁, hlen₁⟩ := store_ok_of_lt (show d < img.length by omega)
    palette.r[index]
  obtain ⟨img₂, h₂, hlen₂⟩ := store_ok_of_lt (show d + 1 < img₁.length by omega)
    palette.g[index]
  obtain ⟨img₃, h₃, hlen₃⟩ := store_ok_of_lt (show d + 2 < img₂.length by omega)
    palette.b[index]
  obtain ⟨img₄, h₄, hlen₄⟩ := store_ok_of_lt (show d + 3 < img₃.length by omega)
    palette.a[index]
  refine ⟨img₄, ?_, by omega⟩
  rw [putPixel]
  simp only [load_natCast _ _ hidx, load_natCast _ _ hg, load_natCast _ _ hb,
    load_natCast _ _ ha, ok_bind, h₁, hone, h₂, htwo, h₃, hthree, h₄]

theorem drawPixel_ok (hfits : frame.Fits screen)
    (hsmall : screen.screenW * screen.screenH * 4 < 2 ^ 31) {srcImage : List UInt8}
    (hlen : srcImage.length = frame.w * frame.h) (hcoloured : frame.Coloured srcImage)
    {y x : Nat} (hy : y < frame.h) (hx : x < frame.w)
    (himg : img.length = screen.screenW * screen.screenH * 4) :
    ∃ img', frame.drawPixel screen.screenW srcImage y img x = .ok img' ∧
      img'.length = screen.screenW * screen.screenH * 4 := by
  obtain ⟨d, hd, hd_lt⟩ := exists_iPos hfits hsmall hy hx
  have hplace := RowMajor.mul_add_lt_mul hy hx
  have harea : frame.w * frame.h ≤ screen.screenW * screen.screenH :=
    Nat.mul_le_mul ((Nat.le_add_left _ _).trans hfits.left_le)
      ((Nat.le_add_left _ _).trans hfits.top_le)
  have hscreen : screen.screenW * screen.screenH < 2 ^ 31 :=
    (Nat.le_mul_of_pos_right _ (by decide)).trans_lt hsmall
  have hidx : int32 (int32 (y * frame.w) + x) = (y * frame.w + x : Nat) := by
    rw [int32_int32_add]
    rw [Nat.mul_comm frame.h] at hplace
    exact int32_natCast ((hplace.trans_le harea).trans hscreen)
  have hlt : y * frame.w + x < srcImage.length := by
    rw [hlen, Nat.mul_comm frame.w]
    exact hplace
  rw [Frame.drawPixel, hidx, load_natCast srcImage _ hlt, ok_bind]
  split_ifs with hopaque
  · have htransp : (srcImage[y * frame.w + x].toNat : Int) ≠ frame.trnsIndex := by
      omega
    obtain ⟨palette, hpal, hcolour⟩ := hcoloured _ (getElem_mem hlt) htransp
    rw [hd, Option.mem_def.mp hpal]
    exact putPixel_ok (hfits.full palette hpal) hcolour hd_lt hsmall himg
  · exact ⟨img, rfl, himg⟩

theorem decodePalette_ok {loader : GIFImageLoader2} (hfits : frame.Fits loader.toScreen)
    (hsmall : loader.screenW * loader.screenH * 4 < 2 ^ 31)
    (himage : loader.image.length = loader.screenW * loader.screenH * 4) {srcImage : List UInt8}
    (hlen : srcImage.length = frame.w * frame.h) (hcoloured : frame.Coloured srcImage) :
    ∃ img image, loader.decodePalette frame srcImage = .ok (img, image) ∧
      image.length = loader.screenW * loader.screenH * 4 := by
  obtain ⟨img, himg, himgLength⟩ := forPixels_ok
    (fun y hy x hx img himg => drawPixel_ok hfits hsmall hlen hcoloured hy hx himg) himage
  rw [GIFImageLoader2.decodePalette, himg, ok_bind]
  split_ifs
  · have hrestore : ∀ y < frame.h, ∀ x < frame.w, ∀ img : List UInt8,
        img.length = loader.screenW * loader.screenH * 4 →
        ∃ img', store img (int32 (frame.iPos loader.screenW y x + 3)) 0 = .ok img' ∧
          img'.length = loader.screenW * loader.screenH * 4 := by
      intro y hy x hx img himg
      obtain ⟨d, hd, hd_lt⟩ := exists_iPos hfits hsmall hy hx
      obtain ⟨img', himg', hlen'⟩ := store_ok_of_lt (himg.symm ▸ hd_lt) 0
      have hplace := int32_natCast_add (k := 3) hd_lt hsmall
      rw [Nat.cast_ofNat] at hplace
      rw [hd, hplace]
      exact ⟨img', himg', hlen'.trans himg⟩
    obtain ⟨image, hrestored, himageLength⟩ := forPixels_ok hrestore himgLength
    refine ⟨img, image, ?_, himageLength⟩
    rw [Frame.restoreToBackground, hrestored, ok_bind]
  · exact ⟨img, loader.image, rfl, himage⟩
  · exact ⟨img, img, rfl, himgLength⟩

end Drawing

structure GIFImageLoader2.Sized (loader : GIFImageLoader2) : Prop where
  full : loader.Full
  lt : loader.screenW * loader.screenH * 4 < 2 ^ 31
  length_eq : loader.image.length = loader.screenW * loader.screenH * 4

theorem GIFImageLoader2.Sized.withLoopCount {loader : GIFImageLoader2} (h : loader.Sized)
    (loopCount : Nat) : Sized { loader with loopCount := loopCount } :=
  ⟨h.full, h.lt, h.length_eq⟩

namespace Session

/-- What the next part of the constructor or of `load` needs: the image of the screen has a size
that an `int` can hold, the table of the decoder can have the initial code size and has room for
the next code, strings come for frames with rows only, and the pixels have colours. -/
def Meets (tools : Scaling) (s : Session) : Prop :=
  match s.stage with
  | .opening => True
  | .allocating screen => screen.screenW * screen.screenH * 4 < 2 ^ 31
  | .waiting _ => True
  | .starting _ _ _ => ∀ b ∈ s.stream.bytes.head?, shiftLeft 1 b.toNat ≤ tableSize
  | .decoding _ _ frame _ locals =>
    if locals.pos = locals.string.length then locals.dec.hasRoom = true else 0 < frame.h
  | .drawing _ _ frame srcImage => frame.Coloured srcImage
  | .scaling loader request _ img => (loader.scale tools request img).isOk = true

/-- The calls of `load`: those that have returned, the one that is running and those that are
still to be made. -/
def calls (s : Session) : Nat :=
  s.frames.length + s.requests.length +
    match s.stage with
    | .starting _ _ _ => 1
    | .decoding _ _ _ _ _ => 1
    | .drawing _ _ _ _ => 1
    | .scaling _ _ _ _ => 1
    | _ => 0

def Inv (s : Session) : Prop :=
  match s.stage with
  | .opening => True
  | .allocating screen => screen.Full
  | .waiting loader => loader.Sized
  | .starting loader _ frame => loader.Sized ∧ frame.Fits loader.toScreen
  | .decoding loader _ frame interlace locals =>
    loader.Sized ∧ frame.Fits loader.toScreen ∧ Ready frame.w frame.h interlace locals
  | .drawing loader _ frame srcImage =>
    loader.Sized ∧ frame.Fits loader.toScreen ∧ srcImage.length = frame.w * frame.h
  | .scaling loader _ _ _ => loader.Sized

def bitsLeft (s : Session) : Nat :=
  match s.stage with
  | .decoding _ _ _ _ locals => locals.dec.input.bitsLeft
  | _ => 8 * s.stream.bytes.length

/-- What is left to do before the stream is read again. -/
def work (s : Session) : Nat :=
  match s.stage with
  | .decoding _ _ frame _ locals => 3 + workLeft frame.h locals
  | .drawing _ _ _ _ => 2
  | .scaling _ _ _ _ => 1
  | .allocating _ => 1
  | _ => 0

/-- This becomes smaller with every turn. -/
def bound (s : Session) : Nat := 100000 * (s.bitsLeft + s.requests.length) + s.work

def Steps (calls bound : Nat) (t : Turn Session Result) : Prop :=
  (∃ result, t = .ends result ∧
    Yields GifFailure.IsIO (fun frames => frames.length = calls) result) ∨
  ∃ s, t = .goesOn s ∧ s.bound < bound ∧ s.Inv ∧ s.calls = calls

theorem continues_steps {α : Type} {P : α → Prop} {calls bound : Nat}
    {x : Except GifFailure α} {next : α → Session} (hx : Yields GifFailure.IsIO P x)
    (hnext : ∀ a, P a → (next a).bound < bound ∧ (next a).Inv ∧ (next a).calls = calls) :
    Steps calls bound (continues x next) := by
  cases hx with
  | ok ha => exact .inr ⟨_, rfl, hnext _ ha⟩
  | error he => exact .inl ⟨_, rfl, .error he⟩

def Proceeds (tools : Scaling) (s : Session) : Prop := Steps s.calls s.bound (turn tools s)

variable (tools : Scaling) (stream : ByteSource) (requests : List Request)
  (frames : List (Option ImageFrame))

theorem opening_steps : Proceeds tools ⟨stream, .opening, requests, frames⟩ := by
  apply continues_steps (readGlobalHeader_reads stream)
  rintro ⟨screen, stream'⟩ ⟨hle, hfull⟩
  refine ⟨?_, hfull, rfl⟩
  simp only [bound, bitsLeft, work]
  dsimp only at hle
  omega

theorem allocating_steps {screen : Screen} (hfull : screen.Full)
    (hsmall : screen.screenW * screen.screenH * 4 < 2 ^ 31) :
    Proceeds tools ⟨stream, .allocating screen, requests, frames⟩ := by
  have hsize : int32 (screen.screenW * screen.screenH * 4) =
      (screen.screenW * screen.screenH * 4 : Nat) := by
    rw [← int32_natCast hsmall]
    rfl
  have hloader : Yields GifFailure.IsIO GIFImageLoader2.Sized screen.newLoader := by
    rw [Screen.newLoader]
    rw [hsize]
    exact .ok ⟨hfull, hsmall, length_replicate⟩
  change Steps _ _ (continues screen.newLoader fun loader =>
    ⟨stream, .waiting loader, requests, frames⟩)
  apply continues_steps hloader
  intro loader hloader
  refine ⟨?_, hloader, rfl⟩
  simp only [bound, bitsLeft, work]
  omega

variable {loader : GIFImageLoader2}

theorem waiting_steps (hloader : loader.Sized) :
    Proceeds tools ⟨stream, .waiting loader, requests, frames⟩ := by
  cases requests with
  | nil => exact .inl ⟨_, rfl, .ok rfl⟩
  | cons request requests =>
    apply continues_steps (beginLoad_yields hloader.full stream)
    rintro ⟨⟨_ | frame, loopCount⟩, stream'⟩ ⟨hle, hframe⟩
    · refine ⟨?_, hloader.withLoopCount loopCount, ?_⟩
      · simp only [bound, bitsLeft, work, length_cons]
        dsimp only at hle
        omega
      · simp only [calls, length_append, length_cons, length_nil]
        omega
    · obtain ⟨hfits, hlt⟩ := hframe frame rfl
      refine ⟨?_, ⟨hloader.withLoopCount loopCount, hfits⟩, ?_⟩
      · simp only [bound, bitsLeft, work, length_cons]
        dsimp only at hlt
        omega
      · simp only [calls, length_cons]
        omega

theorem starting_steps (request : Request) {frame : Frame} (hloader : loader.Sized)
    (hfits : frame.Fits loader.toScreen)
    (hsize : ∀ b ∈ stream.bytes.head?, shiftLeft 1 b.toNat ≤ tableSize) :
    Proceeds tools ⟨stream, .starting loader request frame, requests, frames⟩ := by
  have hscreen : loader.screenW * loader.screenH < 2 ^ 31 :=
    (Nat.le_mul_of_pos_right _ (by decide)).trans_lt hloader.lt
  have harea : frame.w * frame.h ≤ loader.screenW * loader.screenH :=
    Nat.mul_le_mul ((Nat.le_add_left _ _).trans hfits.left_le)
      ((Nat.le_add_left _ _).trans hfits.top_le)
  have hh := hfits.h_lt
  have hbegin := beginDecode_yields (harea.trans_lt hscreen) hsize
  change Steps _ _ (continues (frame.beginDecode stream) fun r =>
    ⟨stream, .decoding loader request frame r.1 r.2, requests, frames⟩)
  apply continues_steps hbegin
  rintro ⟨interlace, locals⟩ ⟨hready, hbits, hwork⟩
  refine ⟨?_, ⟨hloader, hfits, hready⟩, rfl⟩
  simp only [bound, bitsLeft, work]
  dsimp only at hbits hwork
  omega

theorem decoding_steps (request : Request) {frame : Frame} {interlace : Option (List Nat)}
    {locals : StringReader.Locals LzwDecoder} (hloader : loader.Sized)
    (hfits : frame.Fits loader.toScreen) (hready : Ready frame.w frame.h interlace locals)
    (hmeets : if locals.pos = locals.string.length then locals.dec.hasRoom = true
      else 0 < frame.h) :
    Proceeds tools ⟨stream, .decoding loader request frame interlace locals, requests, frames⟩ := by
  have hh := hfits.h_lt
  rcases turn_ready hready hfits.h_lt hmeets with ⟨⟨srcImage, dec⟩, hturn, hlen, hdec⟩ |
    ⟨locals', hturn, hready', hlt⟩
  · simp only [Proceeds, turn, hturn]
    apply continues_steps (hdec.mapError fun _ => isIO_toGif)
    intro dec hle
    refine ⟨?_, ⟨hloader, hfits, hlen⟩, rfl⟩
    simp only [bound, bitsLeft, work]
    omega
  · simp only [Proceeds, turn, hturn]
    refine .inr ⟨_, rfl, ?_, ⟨hloader, hfits, hready'⟩, rfl⟩
    simp only [bound, bitsLeft, work]
    omega

theorem drawing_steps (request : Request) {frame : Frame} {srcImage : List UInt8}
    (hloader : loader.Sized) (hfits : frame.Fits loader.toScreen)
    (hlen : srcImage.length = frame.w * frame.h) (hcoloured : frame.Coloured srcImage) :
    Proceeds tools ⟨stream, .drawing loader request frame srcImage, requests, frames⟩ := by
  obtain ⟨img, image, hdecode, himg⟩ :=
    decodePalette_ok hfits hloader.lt hloader.length_eq hlen hcoloured
  simp only [Proceeds, turn, hdecode]
  refine .inr ⟨_, rfl, ?_, ⟨hloader.full, hloader.lt, himg⟩, rfl⟩
  simp only [bound, bitsLeft, work]
  omega

theorem scaling_steps (request : Request) (frame : Frame) {img : List UInt8}
    (hloader : loader.Sized) (hscale : (loader.scale tools request img).isOk = true) :
    Proceeds tools ⟨stream, .scaling loader request frame img, requests, frames⟩ := by
  cases hscaled : loader.scale tools request img with
  | error e =>
    rw [hscaled] at hscale
    cases hscale
  | ok scaled =>
    simp only [Proceeds, turn, hscaled]
    refine .inr ⟨_, rfl, ?_, hloader, ?_⟩
    · simp only [bound, bitsLeft, work]
      omega
    · simp only [calls, length_append, length_cons, length_nil]
      omega

/-- A part of the constructor or of `load` that has what it needs does not fail in any other way
than with an `IOException`. -/
theorem turn_steps (s : Session) (hinv : s.Inv) (hmeets : s.Meets tools) :
    Proceeds tools s := by
  rcases s with ⟨stream, stage, requests, frames⟩
  cases stage with
  | opening => exact opening_steps tools stream requests frames
  | allocating screen => exact allocating_steps tools stream requests frames hinv hmeets
  | waiting loader => exact waiting_steps tools stream requests frames hinv
  | starting loader request frame =>
    exact starting_steps tools stream requests frames request hinv.1 hinv.2 hmeets
  | decoding loader request frame interlace locals =>
    exact decoding_steps tools stream requests frames request hinv.1 hinv.2.1 hinv.2.2 hmeets
  | drawing loader request frame srcImage =>
    exact drawing_steps tools stream requests frames request hinv.1 hinv.2.1 hinv.2.2 hmeets
  | scaling loader request frame img =>
    exact scaling_steps tools stream requests frames request frame hinv hmeets

/-- Whatever the bytes of the stream are: if every part of the constructor and of the calls of
`load` finds what it needs, then all calls return, or one of them ends with an `IOException`. -/
theorem returns_of_meets
    (hmeets : ∀ s, Reaches (turn tools) (start stream requests) s → s.Meets tools) :
    ∃ result, Ends (turn tools) (start stream requests) result ∧
      Yields GifFailure.IsIO (fun frames => frames.length = requests.length) result := by
  have hturn : ∀ s : Session, s.Inv ∧ s.calls = requests.length → s.Meets tools →
      (∃ result, turn tools s = .ends result ∧
        Yields GifFailure.IsIO (fun frames => frames.length = requests.length) result) ∨
      ∃ s', turn tools s = .goesOn s' ∧ s'.bound < s.bound ∧
        s'.Inv ∧ s'.calls = requests.length := by
    rintro s ⟨hinv, hcalls⟩ hs
    rcases turn_steps tools s hinv hs with ⟨result, hresult, hyields⟩ |
      ⟨s', hs', hlt, hinv', hcalls'⟩
    · exact .inl ⟨result, hresult, hcalls ▸ hyields⟩
    · exact .inr ⟨s', hs', hlt, hinv', hcalls'.trans hcalls⟩
  exact TurnLoop.ends_of_meets bound hturn ⟨trivial, Nat.zero_add _⟩ hmeets

instance (tools : Scaling) : DecidablePred (Meets tools)
  | ⟨_, .opening, _, _⟩ => isTrue trivial
  | ⟨_, .allocating _, _, _⟩ => inferInstanceAs (Decidable (_ < _))
  | ⟨_, .waiting _, _, _⟩ => isTrue trivial
  | ⟨stream, .starting _ _ _, _, _⟩ =>
    inferInstanceAs (Decidable (∀ b ∈ stream.bytes.head?, shiftLeft 1 b.toNat ≤ tableSize))
  | ⟨_, .decoding _ _ frame _ locals, _, _⟩ =>
    inferInstanceAs (Decidable (if locals.pos = locals.string.length then
      locals.dec.hasRoom = true else 0 < frame.h))
  | ⟨_, .drawing _ _ frame srcImage, _, _⟩ =>
    inferInstanceAs (Decidable (∀ b ∈ srcImage, (b.toNat : Int) ≠ frame.trnsIndex →
      ∃ palette ∈ frame.palette, b.toNat < palette.r.length))
  | ⟨_, .scaling _ _ _ _, _, _⟩ => inferInstanceAs (Decidable (_ = true))

/-- A screen of one pixel with two colours, and a frame that has the second one. -/
def onePixel : List UInt8 :=
  fileSig89 ++ [1, 0, 1, 0, 0x80, 0, 0, 1, 2, 3, 4, 5, 6] ++
    [0x2C, 0, 0, 0, 0, 1, 0, 1, 0, 0, 2, 2, 0x4C, 1, 0, 0x3B]

theorem returns_of_meets_onePixel :
    ∃ result, Ends (turn unscaled) (start ⟨onePixel, fun _ => 1, 0⟩ [sourceSize, sourceSize])
        result ∧
      Yields GifFailure.IsIO (fun frames => frames.length = 2) result :=
  returns_of_meets unscaled _ _ fun s hs => of_decide_eq_true
    (hs.good (fun s => decide (s.Meets unscaled)) 20 (by decide +kernel))

/-- The header of a screen that is as large as a header can say. -/
def hugeScreen : List UInt8 := fileSig89 ++ [0xFF, 0xFF, 0xFF, 0xFF, 0, 0, 0]

/-- The constructor ends with another exception than an `IOException`. -/
theorem not_returns_hugeScreen :
    Ends (turn unscaled) (start ⟨hugeScreen, fun _ => 1, 0⟩ []) (.error .negativeArraySize) :=
  ⟨2, by decide +kernel⟩

end Session

end OpenJfx.Iio.Gif
