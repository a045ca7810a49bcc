import OpenJfx.Java.DataStream
import Mathlib.Data.List.Induction

namespace OpenJfx.Iio.PngHeader

open Data Java Java.DataStream List

/-- The exceptions that end the method: one of the stream, or an `IOException` of its own. -/
inductive HeaderThrown where
  | stream (thrown : Thrown)
  | ioException (message : String)

def HeaderThrown.isIOException : HeaderThrown → Bool
  | .stream thrown => thrown.isIOException
  | .ioException _ => true

def ihdrType : Int := 0x49484452
def colorGray : Int := 0
def colorPalette : Int := 3

/-- The fields of the loader that the method sets. -/
structure ImageHeader where
  width : Int
  height : Int
  bitDepth : Int
  colorType : Int
  isInterlaced : Bool

abbrev Reader := Decoder HeaderThrown

/-- A method of `stream`. -/
def fromStream {α : Type} (d : Decoder Thrown α) : Reader α := fun bytes =>
  match d bytes with
  | .ok result => .ok result
  | .error thrown => .error (.stream thrown)

def throwIf (bad : Prop) [Decidable bad] (message : String) : Reader Unit :=
  if bad then throw (.ioException message) else pure ()

def readChunk : Reader (Int × Int) := do
  let length ← fromStream readInt
  let type ← fromStream readInt
  pure (length, type)

def readHeader : Reader ImageHeader := do
  let hdrData ← readChunk
  throwIf (hdrData.2 ≠ ihdrType ∧ hdrData.1 ≠ 13) "Bad PNG header!"
  let width ← fromStream readInt
  let height ← fromStream readInt
  throwIf (width = 0 ∨ height = 0) "Bad PNG image size!"
  let bitDepth ← fromStream readByte
  throwIf (bitDepth ≠ 1 ∧ bitDepth ≠ 2 ∧ bitDepth ≠ 4 ∧ bitDepth ≠ 8 ∧ bitDepth ≠ 16)
    "Bad PNG bit depth"
  let colorType ← fromStream readByte
  throwIf (colorType > 6 ∨ colorType = 1 ∨ colorType = 5) "Bad PNG color type"
  throwIf ((colorType ≠ colorPalette ∧ colorType ≠ colorGray ∧ bitDepth < 8) ∨
    (colorType = colorPalette ∧ bitDepth = 16)) "Bad color type/bit depth combination!"
  let compressionMethod ← fromStream readByte
  throwIf (compressionMethod ≠ 0) "Bad PNG comression!"
  let filterMethod ← fromStream readByte
  throwIf (filterMethod ≠ 0) "Bad PNG filter method!"
  let interlaceMethod ← fromStream readByte
  throwIf (interlaceMethod ≠ 0 ∧ interlaceMethod ≠ 1) "Unknown interlace method (not 0 or 1)!"
  let _crc ← fromStream readInt
  pure ⟨width, height, bitDepth, colorType, interlaceMethod = 1⟩

section Specification

def unsignedAt (bytes : List UInt8) (offset k : Nat) : Nat :=
  ofBigEndian ((bytes.drop offset).take k)

/-- The bit depths that the specification allows for a color type. -/
def legalDepths : Nat → List Nat
  | 0 => [1, 2, 4, 8, 16]
  | 2 => [8, 16]
  | 3 => [1, 2, 4, 8]
  | 4 => [8, 16]
  | 6 => [8, 16]
  | _ => []

/-- A header as the specification has it, with the four bytes of its checksum. -/
structure Legal (bytes : List UInt8) : Prop where
  complete : 25 ≤ bytes.length
  length_eq : unsignedAt bytes 0 4 = 13
  type_eq : unsignedAt bytes 4 4 = 0x49484452
  width_pos : 1 ≤ unsignedAt bytes 8 4
  width_le : unsignedAt bytes 8 4 ≤ 2 ^ 31 - 1
  height_pos : 1 ≤ unsignedAt bytes 12 4
  height_le : unsignedAt bytes 12 4 ≤ 2 ^ 31 - 1
  depth_mem : unsignedAt bytes 16 1 ∈ legalDepths (unsignedAt bytes 17 1)
  compression_eq : unsignedAt bytes 18 1 = 0
  filter_eq : unsignedAt bytes 19 1 = 0
  interlace_le : unsignedAt bytes 20 1 ≤ 1

end Specification

/-- The method succeeds for legal headers, and throws an `IOException` for all others. -/
def MeetsSpecification (bytes : List UInt8) : Prop :=
  match readHeader bytes with
  | .ok _ => Legal bytes
  | .error thrown => thrown.isIOException ∧ ¬ Legal bytes

/-- What the method does not look for: one of the length and the type of the chunk may be wrong,
and a size or a color type may be too large for a number with a sign. -/
def HasUnseenFault (bytes : List UInt8) : Prop :=
  unsignedAt bytes 0 4 ≠ 13 ∨ unsignedAt bytes 4 4 ≠ 0x49484452 ∨
    2 ^ 31 ≤ unsignedAt bytes 8 4 ∨ 2 ^ 31 ≤ unsignedAt bytes 12 4 ∨
    128 ≤ unsignedAt bytes 17 1

def HasSeenFault (bytes : List UInt8) : Prop :=
  bytes.length < 25 ∨
    (unsignedAt bytes 0 4 ≠ 13 ∧ unsignedAt bytes 4 4 ≠ 0x49484452) ∨
    unsignedAt bytes 8 4 = 0 ∨ unsignedAt bytes 12 4 = 0 ∨
    unsignedAt bytes 16 1 ∉ [1, 2, 4, 8, 16] ∨
    (unsignedAt bytes 17 1 < 128 ∧ unsignedAt bytes 17 1 ∉ [0, 2, 3, 4, 6]) ∨
    (unsignedAt bytes 17 1 ∉ [0, 3] ∧ unsignedAt bytes 16 1 < 8) ∨
    (unsignedAt bytes 17 1 = 3 ∧ unsignedAt bytes 16 1 = 16) ∨
    unsignedAt bytes 18 1 ≠ 0 ∨ unsignedAt bytes 19 1 ≠ 0 ∨ 1 < unsignedAt bytes 20 1

section Readers

variable {α β : Type}

variable {bytes : List UInt8}

theorem bind_eq_ok {d : Reader α} {f : α → Reader β} {p : β × List UInt8} :
    (d >>= f) bytes = .ok p ↔ ∃ a rest, d bytes = .ok (a, rest) ∧ f a rest = .ok p := by
  change (d bytes >>= fun q => f q.1 q.2) = .ok p ↔ _
  rcases d bytes with thrown | ⟨a, rest⟩
  · constructor
    · intro h
      cases h
    · rintro ⟨a, rest, h, -⟩
      cases h
  · constructor
    · intro h
      exact ⟨a, rest, rfl, h⟩
    · rintro ⟨a', rest', h, hf⟩
      cases h
      exact hf

theorem pure_eq_ok {a : α} {p : α × List UInt8} :
    (pure a : Reader α) bytes = .ok p ↔ p = (a, bytes) := by
  change Except.ok (a, bytes) = .ok p ↔ _
  rw [Except.ok.injEq, eq_comm]

theorem throwIf_eq_ok {bad : Prop} [Decidable bad] {message : String} {p : Unit × List UInt8} :
    throwIf bad message bytes = .ok p ↔ ¬ bad ∧ p = ((), bytes) := by
  rw [throwIf]
  split_ifs with hbad
  · constructor
    · intro h
      cases h
    · rintro ⟨h, -⟩
      exact absurd hbad h
  · rw [pure_eq_ok]
    exact ⟨fun h => ⟨hbad, h⟩, fun h => h.2⟩

theorem fromStream_signed_eq_ok {k : Nat} {p : Int × List UInt8} :
    fromStream (signed k <$> readUnsigned k) bytes = .ok p ↔
      k ≤ bytes.length ∧ p = (signed k (unsignedAt bytes 0 k), bytes.drop k) := by
  by_cases hk : k ≤ bytes.length
  · have hread : (signed k <$> readUnsigned k) bytes =
        .ok (signed k (unsignedAt bytes 0 k), bytes.drop k) := by
      change ((nextBytes Thrown.eof k bytes >>= fun q => .ok (ofBigEndian q.1, q.2)) >>= fun q =>
        .ok (signed k q.1, q.2)) = _
      rw [nextBytes, if_pos hk]
      rfl
    simp only [fromStream, hread, Except.ok.injEq, hk, true_and]
    exact eq_comm
  · have hread : (signed k <$> readUnsigned k) bytes = .error .eof := by
      change ((nextBytes Thrown.eof k bytes >>= fun q => .ok (ofBigEndian q.1, q.2)) >>= fun q =>
        .ok (signed k q.1, q.2)) = _
      rw [nextBytes, if_neg hk]
      rfl
    simp only [fromStream, hread, hk, false_and, reduceCtorEq]

theorem unsignedAt_drop (bytes : List UInt8) (i offset k : Nat) :
    unsignedAt (bytes.drop i) offset k = unsignedAt bytes (i + offset) k := by
  rw [unsignedAt, unsignedAt, drop_drop]

end Readers

section Exceptions

variable {α β : Type}

def OnlyIOExceptions (d : Reader α) : Prop :=
  ∀ bytes thrown, d bytes = .error thrown → thrown.isIOException

theorem OnlyIOExceptions.bind {d : Reader α} {f : α → Reader β} (hd : OnlyIOExceptions d)
    (hf : ∀ a, OnlyIOExceptions (f a)) : OnlyIOExceptions (d >>= f) := by
  intro bytes thrown h
  change (d bytes >>= fun q => f q.1 q.2) = .error thrown at h
  rcases hres : d bytes with thrown' | ⟨a, rest⟩
  · rw [hres] at h
    cases h
    exact hd bytes thrown hres
  · rw [hres] at h
    exact hf a rest thrown h

theorem OnlyIOExceptions.pure (a : α) : OnlyIOExceptions (pure a : Reader α) := by
  intro bytes thrown h
  cases h

theorem onlyIOExceptions_throwIf (bad : Prop) [Decidable bad] (message : String) :
    OnlyIOExceptions (throwIf bad message) := by
  intro bytes thrown h
  rw [throwIf] at h
  split_ifs at h
  · cases h
    rfl
  · cases h

theorem onlyIOExceptions_readSigned (k : Nat) :
    OnlyIOExceptions (fromStream (signed k <$> readUnsigned k)) := by
  intro bytes thrown h
  have hread : (signed k <$> readUnsigned k) bytes =
      (if k ≤ bytes.length then .ok (signed k (unsignedAt bytes 0 k), bytes.drop k)
        else .error .eof) := by
    change ((nextBytes Thrown.eof k bytes >>= fun q => .ok (ofBigEndian q.1, q.2)) >>= fun q =>
      .ok (signed k q.1, q.2)) = _
    rw [nextBytes]
    split_ifs
    · rfl
    · rfl
  rw [fromStream, hread] at h
  split_ifs at h
  cases h
  rfl

theorem onlyIOExceptions_readHeader : OnlyIOExceptions readHeader := by
  have hint : OnlyIOExceptions (fromStream readInt) := onlyIOExceptions_readSigned 4
  have hbyte : OnlyIOExceptions (fromStream readByte) := onlyIOExceptions_readSigned 1
  have hthrow := onlyIOExceptions_throwIf
  have hchunk : OnlyIOExceptions readChunk := hint.bind fun _ => hint.bind fun _ => .pure _
  refine hchunk.bind fun _ => (hthrow _ _).bind fun _ => hint.bind fun _ => hint.bind fun _ => ?_
  refine (hthrow _ _).bind fun _ => hbyte.bind fun _ => (hthrow _ _).bind fun _ => ?_
  refine hbyte.bind fun _ => (hthrow _ _).bind fun _ => (hthrow _ _).bind fun _ => ?_
  refine hbyte.bind fun _ => (hthrow _ _).bind fun _ => hbyte.bind fun _ => ?_
  refine (hthrow _ _).bind fun _ => hbyte.bind fun _ => (hthrow _ _).bind fun _ => ?_
  exact hint.bind fun _ => .pure _

end Exceptions

section Numbers

theorem signed_cases (k n : Nat) :
    (2 * n < 256 ^ k ∧ signed k n = n) ∨
      (256 ^ k ≤ 2 * n ∧ signed k n = n - ((256 ^ k : Nat) : Int)) := by
  rcases Nat.lt_or_ge (2 * n) (256 ^ k) with hlt | hle
  · exact .inl ⟨hlt, signed_of_lt hlt⟩
  · refine .inr ⟨hle, ?_⟩
    rw [signed, if_neg (Nat.not_lt.mpr hle)]
    rfl

theorem signed_eq_iff {k n m : Nat} (hn : n < 256 ^ k) (hm : 2 * m < 256 ^ k) :
    signed k n = m ↔ n = m := by
  rcases signed_cases k n with ⟨hlt, heq⟩ | ⟨hle, heq⟩
  · omega
  · omega

theorem ofBigEndian_lt (bytes : List UInt8) : ofBigEndian bytes < 256 ^ bytes.length := by
  induction bytes using List.reverseRecOn with
  | nil => exact Nat.one_pos
  | append_singleton bytes b ih =>
    have hb : b.toNat < 256 := b.toNat_lt
    rw [ofBigEndian, foldl_append, ← ofBigEndian, foldl_cons, foldl_nil, length_append,
      length_singleton]
    omega

theorem unsignedAt_lt (bytes : List UInt8) (offset k : Nat) :
    unsignedAt bytes offset k < 256 ^ k := by
  have hle : ((bytes.drop offset).take k).length ≤ k := length_take_le ..
  exact (ofBigEndian_lt _).trans_le (Nat.pow_le_pow_right (by decide) hle)

end Numbers

def imageHeader (bytes : List UInt8) : ImageHeader where
  width := signed 4 (unsignedAt bytes 8 4)
  height := signed 4 (unsignedAt bytes 12 4)
  bitDepth := signed 1 (unsignedAt bytes 16 1)
  colorType := signed 1 (unsignedAt bytes 17 1)
  isInterlaced := signed 1 (unsignedAt bytes 20 1) = 1

theorem chunk_bad_iff (length type : Nat) (hlen : length < 256 ^ 4) (htype : type < 256 ^ 4) :
    (signed 4 type ≠ ihdrType ∧ signed 4 length ≠ 13) ↔
      length ≠ 13 ∧ type ≠ 0x49484452 := by
  have heq : signed 4 length = 13 ↔ length = 13 := signed_eq_iff hlen (by decide)
  have heq' : signed 4 type = ihdrType ↔ type = 0x49484452 := signed_eq_iff htype (by decide)
  rw [Ne, Ne, heq, heq']
  exact and_comm

theorem size_bad_iff (width height : Nat) (hwd : width < 256 ^ 4) (hht : height < 256 ^ 4) :
    (signed 4 width = 0 ∨ signed 4 height = 0) ↔ width = 0 ∨ height = 0 :=
  or_congr (signed_eq_iff hwd (by decide)) (signed_eq_iff hht (by decide))

theorem depth_bad_iff (depth : Nat) (hdepth : depth < 256) :
    (signed 1 depth ≠ 1 ∧ signed 1 depth ≠ 2 ∧ signed 1 depth ≠ 4 ∧ signed 1 depth ≠ 8 ∧
      signed 1 depth ≠ 16) ↔ depth ∉ [1, 2, 4, 8, 16] := by
  simp only [mem_cons, not_mem_nil, or_false]
  rcases signed_cases 1 depth with ⟨hlt, heq⟩ | ⟨hle, heq⟩ <;> omega

theorem color_bad_iff (color : Nat) (hcolor : color < 256) :
    (signed 1 color > 6 ∨ signed 1 color = 1 ∨ signed 1 color = 5) ↔
      color < 128 ∧ color ∉ [0, 2, 3, 4, 6] := by
  simp only [mem_cons, not_mem_nil, or_false]
  rcases signed_cases 1 color with ⟨hlt, heq⟩ | ⟨hle, heq⟩ <;> omega

theorem combination_bad_iff (depth color : Nat) (hdepth : depth < 256) (hcolor : color < 256) :
    ((signed 1 color ≠ colorPalette ∧ signed 1 color ≠ colorGray ∧ signed 1 depth < 8) ∨
      (signed 1 color = colorPalette ∧ signed 1 depth = 16)) ↔
      (color ∉ [0, 3] ∧ (depth < 8 ∨ 128 ≤ depth)) ∨ (color = 3 ∧ depth = 16) := by
  simp only [mem_cons, not_mem_nil, or_false, colorPalette, colorGray]
  rcases signed_cases 1 depth with ⟨hlt, heq⟩ | ⟨hle, heq⟩ <;>
    rcases signed_cases 1 color with ⟨hlt', heq'⟩ | ⟨hle', heq'⟩ <;> omega

theorem method_ok_iff (method : Nat) (hmethod : method < 256) :
    ¬ signed 1 method ≠ 0 ↔ method = 0 :=
  not_not.trans (signed_eq_iff hmethod (by decide))

theorem interlace_bad_iff (interlace : Nat) (hintl : interlace < 256) :
    (signed 1 interlace ≠ 0 ∧ signed 1 interlace ≠ 1) ↔ 1 < interlace := by
  rcases signed_cases 1 interlace with ⟨hlt, heq⟩ | ⟨hle, heq⟩ <;> omega

theorem readHeader_eq_ok_iff {bytes : List UInt8} {p : ImageHeader × List UInt8} :
    readHeader bytes = .ok p ↔ ¬ HasSeenFault bytes ∧ p = (imageHeader bytes, bytes.drop 25) := by
  have hint : ∀ offset, unsignedAt bytes offset 4 < 256 ^ 4 := fun _ => unsignedAt_lt ..
  have hbyte : ∀ offset, unsignedAt bytes offset 1 < 256 := fun _ => unsignedAt_lt ..
  simp only [readHeader, readChunk, readInt, readByte, bind_eq_ok, pure_eq_ok, throwIf_eq_ok,
    fromStream_signed_eq_ok, unsignedAt_drop, length_drop, drop_drop, Prod.mk.injEq,
    and_assoc, exists_and_left, exists_eq_left, exists_const]
  simp only [chunk_bad_iff _ _ (hint _) (hint _), size_bad_iff _ _ (hint _) (hint _),
    depth_bad_iff _ (hbyte _), color_bad_iff _ (hbyte _), method_ok_iff _ (hbyte _),
    combination_bad_iff _ _ (hbyte _) (hbyte _), interlace_bad_iff _ (hbyte _)]
  -- What is left of the checks is a statement about numbers without signs.
  rw [HasSeenFault]
  simp only [mem_cons, not_mem_nil, or_false, ← and_assoc, and_true, Nat.reduceAdd]
  refine and_congr ?_ Iff.rfl
  omega

theorem mem_legalDepths_iff (depth color : Nat) :
    depth ∈ legalDepths color ↔
      depth ∈ [1, 2, 4, 8, 16] ∧ color ∈ [0, 2, 3, 4, 6] ∧ ¬ (color ∉ [0, 3] ∧ depth < 8) ∧
        ¬ (color = 3 ∧ depth = 16) := by
  unfold legalDepths
  split <;> grind

theorem legal_iff (bytes : List UInt8) :
    Legal bytes ↔ ¬ HasSeenFault bytes ∧ ¬ HasUnseenFault bytes := by
  have hlegal : Legal bytes ↔ 25 ≤ bytes.length ∧ unsignedAt bytes 0 4 = 13 ∧
      unsignedAt bytes 4 4 = 0x49484452 ∧
      (1 ≤ unsignedAt bytes 8 4 ∧ unsignedAt bytes 8 4 ≤ 2 ^ 31 - 1) ∧
      (1 ≤ unsignedAt bytes 12 4 ∧ unsignedAt bytes 12 4 ≤ 2 ^ 31 - 1) ∧
      unsignedAt bytes 16 1 ∈ legalDepths (unsignedAt bytes 17 1) ∧
      unsignedAt bytes 18 1 = 0 ∧ unsignedAt bytes 19 1 = 0 ∧ unsignedAt bytes 20 1 ≤ 1 := by
    constructor
    · rintro ⟨hcomplete, hlen, htype, hw, hw', hh, hh', hdepth, hcomp, hfilter, hinter⟩
      exact ⟨hcomplete, hlen, htype, ⟨hw, hw'⟩, ⟨hh, hh'⟩, hdepth, hcomp, hfilter, hinter⟩
    · rintro ⟨hcomplete, hlen, htype, ⟨hw, hw'⟩, ⟨hh, hh'⟩, hdepth, hcomp, hfilter, hinter⟩
      exact ⟨hcomplete, hlen, htype, hw, hw', hh, hh', hdepth, hcomp, hfilter, hinter⟩
  rw [hlegal, mem_legalDepths_iff, HasSeenFault, HasUnseenFault]
  simp only [mem_cons, not_mem_nil, or_false]
  omega

/-- The method does what the specification asks for unless all its checks are passed in spite of a
fault that they do not look for. -/
theorem meetsSpecification_iff (bytes : List UInt8) :
    MeetsSpecification bytes ↔ (HasUnseenFault bytes → HasSeenFault bytes) := by
  rw [MeetsSpecification]
  rcases hresult : readHeader bytes with thrown | p
  · have hseen : HasSeenFault bytes := by
      by_contra hseen
      have hok := readHeader_eq_ok_iff.mpr ⟨hseen, rfl⟩
      rw [hresult] at hok
      cases hok
    have hio := onlyIOExceptions_readHeader bytes thrown hresult
    have hillegal : ¬ Legal bytes := fun hlegal => ((legal_iff bytes).mp hlegal).1 hseen
    exact ⟨fun _ _ => hseen, fun _ => ⟨hio, hillegal⟩⟩
  · obtain ⟨hseen, -⟩ := readHeader_eq_ok_iff.mp hresult
    constructor
    · intro hlegal hunseen
      exact absurd hunseen ((legal_iff bytes).mp hlegal).2
    · intro h
      exact (legal_iff bytes).mpr ⟨hseen, fun hunseen => hseen (h hunseen)⟩

/-- A text chunk of 13 bytes that passes for a header. -/
def textChunk : List UInt8 :=
  [0, 0, 0, 13, 0x74, 0x45, 0x58, 0x74, 0, 0, 0, 1, 0, 0, 0, 1, 8, 0, 0, 0, 0, 0, 0, 0, 0]

theorem not_meetsSpecification_textChunk : ¬ MeetsSpecification textChunk := by
  have hseen : ¬ HasSeenFault textChunk := by
    rw [HasSeenFault]
    decide
  have hok := readHeader_eq_ok_iff.mpr ⟨hseen, rfl⟩
  intro h
  rw [MeetsSpecification, hok] at h
  exact absurd h.type_eq (by decide)

end OpenJfx.Iio.PngHeader
