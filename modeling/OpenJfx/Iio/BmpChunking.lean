import OpenJfx.Data.Oblivious
import OpenJfx.Iio.BmpLoader

namespace OpenJfx.Iio.Bmp

open Data Java.Arrays Java.Ints List

/-- The streams give the same bytes in different chunks. -/
def SameBytes (s s' : ByteSource) : Prop := s.bytes = s'.bytes

namespace Reader

theorem ofOutcome_steady {α : Type} (x : Outcome α) : Oblivious SameBytes (ofOutcome x) :=
  .lift _

theorem newBytes_steady (size : Int) : Oblivious SameBytes (newBytes size) := by
  apply Oblivious.ite
  · apply Oblivious.throw
  · apply Oblivious.pure

theorem read_steady : Oblivious SameBytes read := by
  intro s s' h
  change Related _ (read s) (read s')
  rw [read, read, ByteSource.read, ByteSource.read, ← h]
  cases hbytes : s.bytes with
  | nil => exact .ok ⟨rfl, h⟩
  | cons b bytes => exact .ok ⟨rfl, congrArg (List.drop 1) h⟩

theorem readShort_steady : Oblivious SameBytes readShort := by
  apply read_steady.bind
  intro ch1
  apply read_steady.bind
  intro ch2
  cases ch1 with
  | none => apply Oblivious.throw
  | some ch1 =>
    cases ch2 with
    | none => apply Oblivious.throw
    | some ch2 => apply Oblivious.pure

theorem readInt_steady : Oblivious SameBytes readInt := by
  apply read_steady.bind
  intro ch1
  apply read_steady.bind
  intro ch2
  apply read_steady.bind
  intro ch3
  apply read_steady.bind
  intro ch4
  rcases ch1 with _ | ch1
  · apply Oblivious.throw
  rcases ch2 with _ | ch2
  · apply Oblivious.throw
  rcases ch3 with _ | ch3
  · apply Oblivious.throw
  rcases ch4 with _ | ch4
  · apply Oblivious.throw
  · apply Oblivious.pure

theorem skipBytes_ok {s : ByteSource} {n : Int} (h : n.toNat ≤ s.bytes.length) :
    ∃ s', (skipBytes n).run s = .ok ((), s') ∧ s'.bytes = s.bytes.drop n.toNat := by
  obtain ⟨s', hs', hbytes⟩ := s.skipFully_ok h
  refine ⟨s', ?_, hbytes⟩
  simp only [StateT.run, skipBytes, hs']

theorem skipBytes_eof {s : ByteSource} {n : Int} (h : s.bytes.length < n.toNat) :
    (skipBytes n).run s = .error .eof := by
  simp only [StateT.run, skipBytes]
  rw [ByteSource.skipFully, ByteSource.skipLoop_eof _ s n.toNat le_rfl h]

theorem skipBytes_steady (n : Int) : Oblivious SameBytes (skipBytes n) := by
  intro s s' h
  rcases Nat.lt_or_ge s.bytes.length n.toNat with hshort | hlong
  · rw [skipBytes_eof hshort, skipBytes_eof (h ▸ hshort)]
    exact .error _
  · obtain ⟨t, ht, hbytes⟩ := skipBytes_ok hlong
    obtain ⟨t', ht', hbytes'⟩ := skipBytes_ok (h ▸ hlong)
    rw [ht, ht']
    exact .ok ⟨rfl, by rw [SameBytes, hbytes, hbytes', h]⟩

theorem readFully_steady (len : Nat) : Oblivious SameBytes (readFully len) := by
  intro s s' h
  change Related _ (readFully len s) (readFully len s')
  rw [readFully, readFully]
  rcases Nat.lt_or_ge s.bytes.length len with hshort | hlong
  · rw [ByteSource.readFully, ByteSource.readFully, ByteSource.readLoop_eof _ s len le_rfl hshort,
      ByteSource.readLoop_eof _ s' len le_rfl (h ▸ hshort)]
    exact .error _
  · obtain ⟨t, ht, hbytes⟩ := ByteSource.readLoop_ok len s len le_rfl hlong
    obtain ⟨t', ht', hbytes'⟩ := ByteSource.readLoop_ok len s' len le_rfl (h ▸ hlong)
    rw [ByteSource.readFully, ByteSource.readFully, ht, ht', ← h]
    exact .ok ⟨rfl, by rw [SameBytes, hbytes, hbytes', h]⟩

end Reader

section Header

open Reader

theorem bitmapInfoHeader_steady : Oblivious SameBytes BitmapInfoHeader.new := by
  apply readInt_steady.bind
  intro biSize
  apply readInt_steady.bind
  intro biWidth
  apply readInt_steady.bind
  intro biHeight
  apply readShort_steady.bind
  intro biPlanes
  apply readShort_steady.bind
  intro biBitCount
  apply readInt_steady.bind
  intro biCompression
  apply readInt_steady.bind
  intro biSizeImage
  apply readInt_steady.bind
  intro biXPelsPerMeter
  apply readInt_steady.bind
  intro biYPelsPerMeter
  apply readInt_steady.bind
  intro biClrUsed
  apply readInt_steady.bind
  intro biClrImportant
  have hend : ∀ h : BitmapInfoHeader, Oblivious SameBytes (do
      .lift h.validate
      pure h : Reader BitmapInfoHeader) := by
    intro h
    apply (Oblivious.lift _).bind
    intro _
    apply Oblivious.pure
  apply Oblivious.ite
  · apply Oblivious.ite
    · apply (skipBytes_steady _).bind
      intro _
      apply hend
    · apply Oblivious.throw_bind
  · apply hend

theorem readFileHeader_steady : Oblivious SameBytes readFileHeader := by
  apply readShort_steady.bind
  intro signature
  apply Oblivious.ite
  · apply Oblivious.throw_bind
  · apply readInt_steady.bind
    intro bfSize
    apply (skipBytes_steady 4).bind
    intro _
    apply readInt_steady.bind
    intro bfOffBits
    apply bitmapInfoHeader_steady.bind
    intro bih
    apply Oblivious.ite
    · apply Oblivious.throw_bind
    · apply Oblivious.pure

end Header

section Image

open Reader

variable (loader : BMPImageLoader) (image : List UInt8) (rowLength hght : Int)

theorem forRows_steady {biHeight : Int} {body : Int → List UInt8 → Reader (List UInt8)}
    (hbody : ∀ line image, Oblivious SameBytes (body line image)) :
    Oblivious SameBytes (forRows biHeight hght body image) := by
  apply Oblivious.foldlM
  intro image i
  apply hbody

theorem forBufferedRows_steady {biHeight : Int} (len : Nat)
    (write : List UInt8 → Int → List UInt8 → Outcome (List UInt8)) :
    Oblivious SameBytes (forRows biHeight hght (fun line image => do
      let lineBuf ← readFully len
      ofOutcome (write lineBuf line image)) image) := by
  apply forRows_steady
  intro line image
  apply (readFully_steady len).bind
  intro lineBuf
  apply ofOutcome_steady

theorem readPackedBits_steady :
    Oblivious SameBytes (loader.readPackedBits image rowLength hght) := by
  apply (newBytes_steady _).bind
  intro lineBuf
  apply forBufferedRows_steady

theorem read16Bit_steady (converter : UInt32 → BitField → UInt8) :
    Oblivious SameBytes (loader.read16Bit converter image rowLength hght) := by
  apply (newBytes_steady _).bind
  intro lineBuf
  apply forBufferedRows_steady

theorem read32Bit_steady
    (pixel : List UInt8 → List UInt8 × Int → Int → Outcome (List UInt8 × Int)) :
    Oblivious SameBytes (loader.read32Bit pixel image rowLength hght) := by
  apply (newBytes_steady _).bind
  intro lineBuf
  apply forBufferedRows_steady

theorem readInto_steady (off len : Int) :
    Oblivious SameBytes (BMPImageLoader.readInto image off len) := by
  apply Oblivious.ite
  · apply Oblivious.throw_bind
  · apply (readFully_steady _).bind
    intro bytes
    apply Oblivious.pure

theorem read24Bit_steady : Oblivious SameBytes (loader.read24Bit image rowLength hght) := by
  apply forRows_steady
  intro line image
  apply (readInto_steady _ _ _).bind
  intro image
  apply (skipBytes_steady _).bind
  intro _
  apply ofOutcome_steady

theorem readRLE_steady (isRLE4 : Bool) :
    Oblivious SameBytes (loader.readRLE isRLE4 image rowLength hght) := by
  apply (newBytes_steady _).bind
  intro imgData
  apply (readFully_steady _).bind
  intro imgData
  apply ofOutcome_steady

theorem readImage_steady : Oblivious SameBytes (loader.readImage image rowLength hght) := by
  apply Oblivious.ite
  · apply readPackedBits_steady
  apply Oblivious.ite
  · apply Oblivious.ite
    · apply readRLE_steady
    · apply readPackedBits_steady
  apply Oblivious.ite
  · apply Oblivious.ite
    · apply readRLE_steady
    · apply readPackedBits_steady
  apply Oblivious.ite
  · apply Oblivious.ite
    · apply read16Bit_steady
    · apply read16Bit_steady
  apply Oblivious.ite
  · apply Oblivious.ite
    · apply read32Bit_steady
    · apply read32Bit_steady
  apply Oblivious.ite
  · apply read24Bit_steady
  · apply Oblivious.throw

theorem load_steady (tools : Scaling) (request : Request) :
    Oblivious SameBytes (loader.load tools request) := by
  apply Oblivious.ite
  · apply Oblivious.pure
  apply (newBytes_steady _).bind
  intro image
  apply (readImage_steady loader image _ _).bind
  intro image
  apply Oblivious.ite
  · apply (ofOutcome_steady _).bind
    intro img
    apply Oblivious.pure
  · apply Oblivious.pure

end Image

section Palette

open Reader

def given (s : ByteSource) (size : Nat) : Nat :=
  match s.readSome size with
  | none => 0
  | some (bytes, _) => bytes.length

/-- Every byte of the palette comes with the first request in both streams or in neither, or it
is 0. -/
def FileHeader.SamePalette (h : FileHeader) (s s' : ByteSource) : Prop :=
  ∀ i < h.paletteLength.toNat,
    (i < given s h.paletteLength.toNat ↔ i < given s' h.paletteLength.toNat) ∨
      s.bytes[i]? = some 0

theorem given_le (s : ByteSource) {size : Nat} (hsize : 0 < size) :
    given s size ≤ size ∧ given s size ≤ s.bytes.length := by
  rw [given]
  rcases eq_or_ne s.bytes [] with hnil | hne
  · rw [ByteSource.readSome_nil hnil]
    exact ⟨Nat.zero_le _, Nat.zero_le _⟩
  · obtain ⟨k, _, _, hk, hread, _⟩ := ByteSource.readSome_cons hne hsize
    rw [hread]
    dsimp only
    rw [length_take]
    omega

/-- The first bytes, and zeros in place of the others. -/
def padded (bytes : List UInt8) (count size : Nat) : List UInt8 :=
  bytes.take count ++ .replicate (size - count) 0

variable {s : ByteSource}

theorem readOnce_ok (hne : s.bytes ≠ []) {size : Nat} (hsize : 0 < size) :
    ∃ s', (readOnce size).run s = .ok ((padded s.bytes (given s size) size, given s size), s') ∧
      s'.bytes = s.bytes.drop (given s size) := by
  obtain ⟨k, s', _, _, hread, hs'⟩ := ByteSource.readSome_cons hne hsize
  have hgiven : given s size = min k s.bytes.length := by
    rw [given, hread]
    exact length_take
  have htake : s.bytes.take (given s size) = s.bytes.take k := by
    rw [take_eq_take_iff]
    omega
  refine ⟨s', ?_, ?_⟩
  · change readOnce size s = _
    rw [readOnce, if_neg hsize.ne', hread]
    dsimp only
    rw [length_take, ← hgiven, padded, htake]
  · rw [hs', hgiven]
    rcases Nat.le_total k s.bytes.length with hle | hle
    · rw [Nat.min_eq_left hle]
    · rw [Nat.min_eq_right hle, drop_of_length_le hle, drop_of_length_le le_rfl]

variable {bytes : List UInt8}

theorem getElem?_padded {count size i : Nat} (hcnt : count ≤ bytes.length) (hi : i < size) :
    (padded bytes count size)[i]? =
      if i < count then bytes[i]? else some 0 := by
  rw [padded]
  split_ifs with hlt
  · rw [getElem?_append_left (by rw [length_take]; omega),
      getElem?_take_of_lt hlt]
  · rw [getElem?_append_right (by rw [length_take]; omega), length_take,
      getElem?_replicate, if_pos (by omega)]

theorem padded_eq_iff {count count' size : Nat} (hcnt : count ≤ bytes.length)
    (hcnt' : count' ≤ bytes.length) (hsize : count ≤ size) (hsize' : count' ≤ size) :
    padded bytes count size = padded bytes count' size ↔
      ∀ i < size, (i < count ↔ i < count') ∨ bytes[i]? = some 0 := by
  have hlen : ∀ {k}, k ≤ bytes.length → k ≤ size → (padded bytes k size).length = size := by
    intro k hk hksize
    rw [padded, length_append, length_take, length_replicate]
    omega
  constructor
  · intro h i hi
    have hget := congrArg (fun l => l[i]?) h
    rw [getElem?_padded hcnt hi, getElem?_padded hcnt' hi] at hget
    split_ifs at hget with hlt hlt' hlt'
    · exact .inl (iff_of_true hlt hlt')
    · exact .inr hget
    · exact .inr hget.symm
    · exact .inl (iff_of_false hlt hlt')
  · intro h
    apply ext_getElem?
    intro i
    rcases Nat.lt_or_ge i size with hi | hi
    · rw [getElem?_padded hcnt hi, getElem?_padded hcnt' hi]
      rcases h i hi with hiff | hzero
      · rw [if_congr hiff rfl rfl]
      · rw [hzero, ite_self, ite_self]
    · rw [getElem?_eq_none (by rw [hlen hcnt hsize]; exact hi),
        getElem?_eq_none (by rw [hlen hcnt' hsize']; exact hi)]

theorem skipRest_steady (length read : Int) : Oblivious SameBytes (skipRest length read) := by
  apply Oblivious.ite
  · apply skipBytes_steady
  · apply Oblivious.pure

theorem skipRest_ok {count : Nat} {length : Int} (hs : s.bytes = bytes.drop count)
    (hcnt : count ≤ length) (hlen : length < 2 ^ 31) (hbytes : length.toNat ≤ bytes.length) :
    ∃ s', (skipRest length count).run s = .ok ((), s') ∧
      s'.bytes = bytes.drop length.toNat := by
  rw [skipRest]
  split_ifs with hlt
  · rw [int32_eq (by omega) (by omega)]
    have hrest : (length - count).toNat ≤ s.bytes.length := by
      rw [hs, length_drop]
      omega
    obtain ⟨s', hs', hskipped⟩ := skipBytes_ok hrest
    refine ⟨s', hs', ?_⟩
    rw [hskipped, hs, drop_drop]
    congr 1
    omega
  · refine ⟨s, rfl, ?_⟩
    rw [hs]
    congr 1
    omega

theorem skipRest_eof {count : Nat} {length : Int} (hs : s.bytes = bytes.drop count)
    (hcnt : count ≤ bytes.length) (hlen : length < 2 ^ 31) (hbytes : bytes.length < length.toNat) :
    (skipRest length count).run s = .error .eof := by
  rw [skipRest, if_pos (by omega), int32_eq (by omega) (by omega)]
  apply skipBytes_eof
  rw [hs, length_drop]
  omega

theorem paletteLength_le (h : FileHeader) (hpos : 0 < h.paletteLength.toNat) :
    (h.paletteLength.toNat : Int) ≤ h.length ∧ h.length < 2 ^ 31 := by
  have hlt : h.length < 2 ^ 31 := int32_lt _
  have hlow : -2 ^ 31 ≤ h.length := le_int32 _
  rw [FileHeader.paletteLength] at hpos ⊢
  generalize h.length = length at hpos hlt hlow ⊢
  rcases Int.le_total 0 length with hnn | hneg
  · rw [Int.tdiv_eq_ediv_of_nonneg hnn, int32_eq (by omega) (by omega)] at hpos ⊢
    omega
  · obtain ⟨n, rfl⟩ : ∃ n, length = -n := ⟨-length, by omega⟩
    rw [Int.neg_tdiv, Int.tdiv_eq_ediv_of_nonneg (by omega), int32_eq (by omega) (by omega)] at hpos
    omega

/-- Unless the palettes differ where the request gave less in one of the streams, the constructor
gets to the image with the same palette. -/
theorem readPalette_related (h : FileHeader) {s s' : ByteSource} (hbytes : SameBytes s s') :
    Related (fun r r' => ((h.length.toNat ≤ s.bytes.length → h.SamePalette s s') → r.1 = r'.1) ∧
      SameBytes r.2 r'.2) ((readPalette h).run s) ((readPalette h).run s') := by
  have hsteady : ∀ palette read, ∀ t t', SameBytes t t' →
      Related (fun r r' => ((h.length.toNat ≤ s.bytes.length → h.SamePalette s s') → r.1 = r'.1) ∧
        SameBytes r.2 r'.2) ((do
          skipRest h.length read
          pure (some palette) : Reader (Option (List UInt8))).run t) ((do
          skipRest h.length read
          pure (some palette) : Reader (Option (List UInt8))).run t') := by
    intro palette read t t' ht
    have hrest : Oblivious SameBytes (do
        skipRest h.length read
        pure (some palette) : Reader (Option (List UInt8))) := by
      apply (skipRest_steady _ _).bind
      intro _
      apply Oblivious.pure
    apply (hrest t t' ht).imp
    rintro r r' ⟨hr, hsame⟩
    exact ⟨fun _ => hr, hsame⟩
  rw [readPalette]
  split_ifs with hreg hneg
  · exact .error _
  · rw [StateT.run_bind, StateT.run_bind]
    rcases Nat.eq_zero_or_pos h.paletteLength.toNat with hzero | hpos
    · rw [hzero]
      exact hsteady [] 0 s s' hbytes
    rcases eq_or_ne s.bytes [] with hnil | hne
    · have hend : ∀ t : ByteSource, t.bytes = [] → (readOnce h.paletteLength.toNat).run t =
          .ok ((.replicate h.paletteLength.toNat 0, -1), t) := by
        intro t ht
        change readOnce _ t = _
        rw [readOnce, if_neg hpos.ne', ByteSource.readSome_nil ht]
      rw [hend s hnil, hend s' (hbytes ▸ hnil)]
      exact hsteady _ (-1) s s' hbytes
    · obtain ⟨hlen, hlt⟩ := paletteLength_le h hpos
      have hgiven := given_le s hpos
      have hgiven' := given_le s' hpos
      obtain ⟨t, ht, htbytes⟩ := readOnce_ok hne hpos
      obtain ⟨t', ht', htbytes'⟩ := readOnce_ok (hbytes ▸ hne : s'.bytes ≠ []) hpos
      rw [← hbytes] at ht' htbytes' hgiven'
      rw [ht, ht']
      change Related _ ((skipRest h.length _ >>= fun _ => pure _ : Reader _).run t)
        ((skipRest h.length _ >>= fun _ => pure _ : Reader _).run t')
      rw [StateT.run_bind, StateT.run_bind]
      rcases Nat.lt_or_ge s.bytes.length h.length.toNat with hshort | hlong
      · rw [skipRest_eof htbytes hgiven.2 hlt hshort, skipRest_eof htbytes' hgiven'.2 hlt hshort]
        exact .error _
      · obtain ⟨u, hu, hubytes⟩ := skipRest_ok htbytes (by omega) hlt hlong
        obtain ⟨u', hu', hubytes'⟩ := skipRest_ok htbytes' (by omega) hlt hlong
        rw [hu, hu']
        refine .ok ⟨?_, hubytes.trans hubytes'.symm⟩
        intro hagree
        have hpadded := (padded_eq_iff hgiven.2 hgiven'.2 hgiven.1 hgiven'.1).mpr (hagree hlong)
        exact congrArg some hpadded
  · exact .ok ⟨fun _ => rfl, hbytes⟩

end Palette

section Decoding

variable (tools : Scaling) (request : Request)

/-- Whether the image has indexes of the palette, or the masks of its colours are in the
palette. -/
def FileHeader.UsesPalette (h : FileHeader) : Prop :=
  h.bih.biBitCount ∈ ([1, 4, 8] : List Int) ∨
    h.bih.biCompression = BitmapInfoHeader.biBitfields

instance : DecidablePred FileHeader.UsesPalette := fun _ => inferInstanceAs (Decidable (_ ∨ _))

instance (h : FileHeader) (s s' : ByteSource) : Decidable (h.SamePalette s s') :=
  inferInstanceAs (Decidable (∀ i < _, _))

/-- What the two streams have to have in common at the palette. -/
def Agree : Except ReadFailure (FileHeader × ByteSource) →
    Except ReadFailure (FileHeader × ByteSource) → Prop
  | .ok (h, s), .ok (_, s') =>
    h.UsesPalette → h.length.toNat ≤ s.bytes.length → h.SamePalette s s'
  | _, _ => True

instance : ∀ r r', Decidable (Agree r r')
  | .ok (h, _), .ok _ => inferInstanceAs (Decidable (h.UsesPalette → _ → _))
  | .ok _, .error _ => isTrue trivial
  | .error _, _ => isTrue trivial

/-- If the image uses the palette and the stream goes on to the image, then the requests for the
palette give the same bytes, or what only one of them gives is 0. -/
def PalettesAgree (s s' : ByteSource) : Prop :=
  Agree (readFileHeader.run s) (readFileHeader.run s')

instance (s s' : ByteSource) : Decidable (PalettesAgree s s') :=
  inferInstanceAs (Decidable (Agree _ _))

def finish (header : FileHeader) (bgraPalette : Option (List UInt8)) :
    Reader (Option ImageFrame) := do
  let bits ← .lift (bitfields header.bih bgraPalette)
  (⟨header, bgraPalette, bits⟩ : BMPImageLoader).load tools request

theorem decode_eq (s : ByteSource) : decode tools request s =
    (readFileHeader >>= fun header => readPalette header >>= finish tools request header).run'
      s := by
  simp only [decode, BMPImageLoader.new, bind_assoc]
  rfl

theorem finish_steady (header : FileHeader) (bgraPalette : Option (List UInt8)) :
    Oblivious SameBytes (finish tools request header bgraPalette) := by
  apply (Oblivious.lift _).bind
  intro bits
  apply load_steady

theorem finish_of_unused {header : FileHeader} (hunused : ¬ header.UsesPalette)
    (bgraPalette bgraPalette' : Option (List UInt8)) :
    finish tools request header bgraPalette = finish tools request header bgraPalette' := by
  rw [FileHeader.UsesPalette, not_or] at hunused
  obtain ⟨hcnt, hmasks⟩ := hunused
  have hone : header.bih.biBitCount ≠ 1 := fun h => hcnt (by rw [h]; decide)
  have hfour : header.bih.biBitCount ≠ 4 := fun h => hcnt (by rw [h]; decide)
  have height : header.bih.biBitCount ≠ 8 := fun h => hcnt (by rw [h]; decide)
  have hbits : bitfields header.bih bgraPalette = bitfields header.bih bgraPalette' := by
    rw [bitfields, bitfields, if_neg hmasks, if_neg hmasks]
  have hload : ∀ bits, (⟨header, bgraPalette, bits⟩ : BMPImageLoader).load tools request =
      (⟨header, bgraPalette', bits⟩ : BMPImageLoader).load tools request := by
    intro bits
    have himg : (⟨header, bgraPalette, bits⟩ : BMPImageLoader).readImage =
        (⟨header, bgraPalette', bits⟩ : BMPImageLoader).readImage := by
      funext image stride hght
      simp only [BMPImageLoader.readImage, if_neg hone, if_neg hfour, if_neg height]
      rfl
    simp only [BMPImageLoader.load, himg]
  simp only [finish, hbits, hload]

theorem related_toOption {α : Type} {x y : Except ReadFailure (α × ByteSource)}
    (h : Related (fun r r' => r.1 = r'.1 ∧ SameBytes r.2 r'.2) x y) :
    (Prod.fst <$> x).toOption = (Prod.fst <$> y).toOption := by
  cases h with
  | ok h => exact congrArg some h.1
  | error e => rfl

/-- Streams with the same bytes whose requests for the palette agree give the same image, or the
loader fails with both. -/
theorem decode_chunking {s s' : ByteSource} (hbytes : s.bytes = s'.bytes)
    (hagree : PalettesAgree s s') :
    (decode tools request s).toOption = (decode tools request s').toOption := by
  rw [decode_eq, decode_eq, StateT.run'_eq, StateT.run'_eq]
  apply related_toOption
  rw [StateT.run_bind, StateT.run_bind]
  rw [PalettesAgree] at hagree
  have hheader := readFileHeader_steady s s' hbytes
  generalize readFileHeader.run s = r at hheader hagree
  generalize readFileHeader.run s' = r' at hheader hagree
  cases hheader with
  | error e => exact .error e
  | @ok r r' hr =>
    rcases r with ⟨header, t⟩
    rcases r' with ⟨header', t'⟩
    obtain ⟨rfl, ht⟩ := hr
    change Related _ ((readPalette header >>= finish tools request header).run t)
      ((readPalette header >>= finish tools request header).run t')
    rw [StateT.run_bind, StateT.run_bind]
    apply (readPalette_related header ht).bind
    rintro ⟨palette, u⟩ ⟨palette', u'⟩ ⟨hpalette, hu⟩
    have hsame : finish tools request header palette = finish tools request header palette' := by
      rcases Classical.em header.UsesPalette with huses | hunused
      · have heq : palette = palette' := hpalette (hagree huses)
        rw [heq]
      · exact finish_of_unused tools request hunused palette palette'
    change Related _ ((finish tools request header palette).run u)
      ((finish tools request header palette').run u')
    rw [hsame]
    exact finish_steady tools request header palette' u u' hu

end Decoding

/-- A white pixel: the image has one bit, and white is the first of two colours. -/
def whitePixel : List UInt8 :=
  [0x42, 0x4D, 66, 0, 0, 0, 0, 0, 0, 0, 62, 0, 0, 0] ++
    ([40, 0, 0, 0, 1, 0, 0, 0, 1, 0, 0, 0, 1, 0, 1, 0] ++ .replicate 24 0) ++
    [255, 255, 255, 0, 0, 0, 0, 0] ++ [0, 0, 0, 0]

/-- Single bytes, but for the palette. -/
theorem decode_chunking_whitePixel :
    (decode unscaled sourceSize ⟨whitePixel, fun _ => 100, 0⟩).toOption =
      (decode unscaled sourceSize ⟨whitePixel, fun n => if n = 54 then 8 else 1, 0⟩).toOption :=
  decode_chunking unscaled sourceSize rfl (by decide +kernel)

/-- The pixel is blue if the palette comes in single bytes too. -/
theorem not_decode_chunking_whitePixel :
    (decode unscaled sourceSize ⟨whitePixel, fun _ => 100, 0⟩).toOption =
        some (some ⟨[255, 255, 255], 1, 1, 3⟩) ∧
      (decode unscaled sourceSize ⟨whitePixel, fun _ => 1, 0⟩).toOption =
        some (some ⟨[0, 0, 255], 1, 1, 3⟩) := by
  decide +kernel

end OpenJfx.Iio.Bmp
