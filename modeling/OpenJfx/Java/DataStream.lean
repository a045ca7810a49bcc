import OpenJfx.Data.ByteCodec
import Mathlib.Algebra.Order.Group.Nat

namespace OpenJfx.Java

open Data List

inductive Thrown
  | eof
  | utfDataFormat
  | unpairedSurrogate
  | indexOutOfBounds
  | illegalArgument
  | classCast
  | negativeArraySize
  | nullPointer
  | internalError
  | outOfMemory

/-- The exceptions that are `IOException`s. -/
def Thrown.isIOException : Thrown → Bool
  | .eof | .utfDataFormat => true
  | _ => false

namespace DataStream

def writeByte (n : Nat) : List UInt8 := bigEndian 1 n

def writeBoolean (b : Bool) : List UInt8 := writeByte (if b then 1 else 0)

/-- `writeShort(n)`, which drops all but the lowest two bytes. -/
def writeShort (n : Nat) : List UInt8 := bigEndian 2 n

def writeInt (n : Nat) : List UInt8 := bigEndian 4 n

def writeLong (n : BitVec 64) : List UInt8 := bigEndian 8 n.toNat

def readUnsigned (k : Nat) : Decoder Thrown Nat := ofBigEndian <$> nextBytes .eof k

/-- The number that `k` bytes with a sign stand for. -/
def signed (k n : Nat) : Int := if 2 * n < 256 ^ k then n else n - 256 ^ k

def readByte : Decoder Thrown Int := signed 1 <$> readUnsigned 1

def readBoolean : Decoder Thrown Bool := (· != 0) <$> readUnsigned 1

def readShort : Decoder Thrown Int := signed 2 <$> readUnsigned 2

def readInt : Decoder Thrown Int := signed 4 <$> readUnsigned 4

def readLong : Decoder Thrown (BitVec 64) := BitVec.ofNat 64 <$> readUnsigned 8

section Numbers

theorem signed_of_lt {k n : Nat} (h : 2 * n < 256 ^ k) : signed k n = n := if_pos h

theorem restores_signed {k n : Nat} (h : 2 * n < 256 ^ k) :
    Restores (signed k <$> readUnsigned k) (bigEndian k n) n := by
  have hrest := (restores_bigEndian Thrown.eof k n).map (signed k)
  rwa [Nat.mod_eq_of_lt (by omega), signed_of_lt h] at hrest

theorem restores_byte {n : Nat} (h : n < 128) : Restores readByte (writeByte n) n :=
  restores_signed (by omega)

theorem restores_short {n : Nat} (h : n < 32768) : Restores readShort (writeShort n) n :=
  restores_signed (by omega)

theorem restores_int {n : Nat} (h : n < 2147483648) : Restores readInt (writeInt n) n :=
  restores_signed (by omega)

theorem restores_boolean (b : Bool) : Restores readBoolean (writeBoolean b) b := by
  have hrest := (restores_bigEndian Thrown.eof 1 (if b then 1 else 0)).map (· != 0)
  cases b <;> exact hrest

theorem restores_long (n : BitVec 64) : Restores readLong (writeLong n) n := by
  have hrest := (restores_bigEndian Thrown.eof 8 n.toNat).map (BitVec.ofNat 64)
  have hlt : n.toNat < 256 ^ 8 := n.isLt
  rwa [Nat.mod_eq_of_lt hlt, BitVec.ofNat_toNat] at hrest

end Numbers

section Utf

def codeUnits (c : Char) : List Nat :=
  if c.toNat < 0x10000 then [c.toNat]
  else [0xD800 + (c.toNat - 0x10000) / 1024, 0xDC00 + (c.toNat - 0x10000) % 1024]

/-- A code unit in the modified UTF-8 of `writeUTF`. -/
def encodeUnit (u : Nat) : List UInt8 :=
  if 1 ≤ u ∧ u ≤ 0x7F then [UInt8.ofNat u]
  else if u ≤ 0x7FF then [UInt8.ofNat (0xC0 + u / 64), UInt8.ofNat (0x80 + u % 64)]
  else [UInt8.ofNat (0xE0 + u / 4096), UInt8.ofNat (0x80 + u / 64 % 64),
    UInt8.ofNat (0x80 + u % 64)]

def encodeUTF (str : String) : List UInt8 := (str.toList.flatMap codeUnits).flatMap encodeUnit

def writeUTF (str : String) : Except Thrown (List UInt8) :=
  if (encodeUTF str).length > 65535 then .error .utfDataFormat
  else .ok (writeShort (encodeUTF str).length ++ encodeUTF str)

def isTail (b : UInt8) : Bool := 0x80 ≤ b.toNat && b.toNat < 0xC0

def decodeUnits : List UInt8 → Except Thrown (List Nat)
  | [] => .ok []
  | a :: bytes =>
    if a.toNat < 0x80 then (a.toNat :: ·) <$> decodeUnits bytes
    else
      match bytes with
      | [] => .error .utfDataFormat
      | b :: bytes =>
        if !isTail b then .error .utfDataFormat
        else if 0xC0 ≤ a.toNat ∧ a.toNat < 0xE0 then
          (((a.toNat - 0xC0) * 64 + (b.toNat - 0x80)) :: ·) <$> decodeUnits bytes
        else
          match bytes with
          | [] => .error .utfDataFormat
          | c :: bytes =>
            if 0xE0 ≤ a.toNat ∧ a.toNat < 0xF0 ∧ isTail c then
              (((a.toNat - 0xE0) * 4096 + (b.toNat - 0x80) * 64 + (c.toNat - 0x80)) :: ·) <$>
                decodeUnits bytes
            else .error .utfDataFormat

/-- The characters of code units. A Java string may have a surrogate without its pair, the strings
here may not. -/
def ofCodeUnits : List Nat → Except Thrown (List Char)
  | [] => .ok []
  | u :: units =>
    if 0xD800 ≤ u ∧ u < 0xE000 then
      match units with
      | [] => .error .unpairedSurrogate
      | v :: units =>
        if u < 0xDC00 ∧ 0xDC00 ≤ v ∧ v < 0xE000 then
          (Char.ofNat (0x10000 + (u - 0xD800) * 1024 + (v - 0xDC00)) :: ·) <$>
            ofCodeUnits units
        else .error .unpairedSurrogate
    else (Char.ofNat u :: ·) <$> ofCodeUnits units

def decodeUTF (bytes : List UInt8) : Except Thrown String := do
  let units ← decodeUnits bytes
  let chars ← ofCodeUnits units
  pure (String.ofList chars)

def readUTF : Decoder Thrown String := do
  let utflen ← readUnsigned 2
  let bytes ← nextBytes .eof utflen
  let str ← decodeUTF bytes
  pure str

theorem toNat_ofNat_of_lt {n : Nat} (h : n < 256) : (UInt8.ofNat n).toNat = n := by
  rw [UInt8.toNat_ofNat', Nat.mod_eq_of_lt h]

theorem decodeUnits_encodeUnit {u : Nat} (h : u < 0x10000) (bytes : List UInt8) :
    decodeUnits (encodeUnit u ++ bytes) = (u :: ·) <$> decodeUnits bytes := by
  unfold encodeUnit
  split
  · next hone =>
      have hu : (UInt8.ofNat u).toNat = u := toNat_ofNat_of_lt (by omega)
      rw [singleton_append, decodeUnits.eq_def]
      dsimp only
      rw [hu, if_pos (by omega)]
  · split
    · next hone htwo =>
        have ha : (UInt8.ofNat (0xC0 + u / 64)).toNat = 0xC0 + u / 64 :=
          toNat_ofNat_of_lt (by omega)
        have hb : (UInt8.ofNat (0x80 + u % 64)).toNat = 0x80 + u % 64 :=
          toNat_ofNat_of_lt (by omega)
        have htail : isTail (UInt8.ofNat (0x80 + u % 64)) = true := by
          rw [isTail]
          simp only [Bool.and_eq_true, decide_eq_true_eq]
          omega
        have hval : (0xC0 + u / 64 - 0xC0) * 64 + (0x80 + u % 64 - 0x80) = u := by omega
        rw [cons_append, singleton_append, decodeUnits.eq_def]
        dsimp only
        rw [ha, hb, htail, hval, if_neg (by omega), if_neg (by decide), if_pos (by omega)]
    · next hone htwo =>
        have ha : (UInt8.ofNat (0xE0 + u / 4096)).toNat = 0xE0 + u / 4096 :=
          toNat_ofNat_of_lt (by omega)
        have hb : (UInt8.ofNat (0x80 + u / 64 % 64)).toNat = 0x80 + u / 64 % 64 :=
          toNat_ofNat_of_lt (by omega)
        have hc : (UInt8.ofNat (0x80 + u % 64)).toNat = 0x80 + u % 64 :=
          toNat_ofNat_of_lt (by omega)
        have htail : ∀ n < 64, isTail (UInt8.ofNat (0x80 + n)) = true := by
          intro n hn
          rw [isTail, toNat_ofNat_of_lt (by omega)]
          simp only [Bool.and_eq_true, decide_eq_true_eq]
          omega
        have hval : (0xE0 + u / 4096 - 0xE0) * 4096 + (0x80 + u / 64 % 64 - 0x80) * 64 +
            (0x80 + u % 64 - 0x80) = u := by omega
        rw [cons_append, cons_append, singleton_append, decodeUnits.eq_def]
        dsimp only
        rw [ha, hb, hc, hval, htail (u / 64 % 64) (by omega), htail (u % 64) (by omega),
          if_neg (by omega),
          if_neg (by decide), if_neg (by omega), if_pos (by simp; omega)]

theorem decodeUnits_encode (units : List Nat) (h : ∀ u ∈ units, u < 0x10000) :
    decodeUnits (units.flatMap encodeUnit) = .ok units := by
  induction units with
  | nil => rfl
  | cons u units ih =>
    rw [flatMap_cons, decodeUnits_encodeUnit (h u mem_cons_self),
      ih fun v hv => h v (mem_cons_of_mem u hv)]
    rfl

theorem toNat_valid (c : Char) :
    c.toNat < 0xD800 ∨ 0xDFFF < c.toNat ∧ c.toNat < 0x110000 := c.valid

theorem codeUnits_lt {c : Char} : ∀ u ∈ codeUnits c, u < 0x10000 := by
  have hvalid := toNat_valid c
  unfold codeUnits
  split
  · next hlt => exact forall_mem_singleton.mpr hlt
  · intro u hu
    rcases mem_pair.mp hu with hu | hu
    · omega
    · omega

theorem ofCodeUnits_codeUnits (c : Char) (units : List Nat) :
    ofCodeUnits (codeUnits c ++ units) = (c :: ·) <$> ofCodeUnits units := by
  have hvalid := toNat_valid c
  unfold codeUnits
  split
  · next hlt =>
      have hchar : ¬(0xD800 ≤ c.toNat ∧ c.toNat < 0xE000) := by omega
      rw [singleton_append, ofCodeUnits.eq_def]
      dsimp only
      rw [if_neg hchar, Char.ofNat_toNat]
  · next hlt =>
      have hval : 0x10000 + (0xD800 + (c.toNat - 0x10000) / 1024 - 0xD800) * 1024 +
          (0xDC00 + (c.toNat - 0x10000) % 1024 - 0xDC00) = c.toNat := by omega
      rw [cons_append, singleton_append, ofCodeUnits.eq_def]
      dsimp only
      rw [if_pos (by omega), if_pos (by omega), hval, Char.ofNat_toNat]

theorem ofCodeUnits_flatMap (chars : List Char) :
    ofCodeUnits (chars.flatMap codeUnits) = .ok chars := by
  induction chars with
  | nil => rfl
  | cons c chars ih =>
    rw [flatMap_cons, ofCodeUnits_codeUnits, ih]
    rfl

theorem decodeUTF_encodeUTF (str : String) : decodeUTF (encodeUTF str) = .ok str := by
  have hunits : ∀ u ∈ str.toList.flatMap codeUnits, u < 0x10000 := by
    intro u hu
    rcases mem_flatMap.mp hu with ⟨c, -, hc⟩
    exact codeUnits_lt u hc
  rw [decodeUTF, encodeUTF, decodeUnits_encode _ hunits]
  change (ofCodeUnits (str.toList.flatMap codeUnits) >>= fun chars =>
    pure (String.ofList chars)) = _
  rw [ofCodeUnits_flatMap]
  exact congrArg Except.ok String.ofList_toList

theorem restores_utf {str : String} {bytes : List UInt8} (h : writeUTF str = .ok bytes) :
    Restores readUTF bytes str := by
  rw [writeUTF] at h
  split at h
  · cases h
  · next hle =>
      cases h
      have hlen : Restores (readUnsigned 2) (writeShort (encodeUTF str).length)
          (encodeUTF str).length := by
        have hrest := restores_bigEndian Thrown.eof 2 (encodeUTF str).length
        rwa [Nat.mod_eq_of_lt (by omega)] at hrest
      refine hlen.bind ?_
      have hbytes := restores_nextBytes Thrown.eof (encodeUTF str)
      intro rest
      change (nextBytes Thrown.eof (encodeUTF str).length (encodeUTF str ++ rest) >>= fun p =>
        decodeUTF p.1 >>= fun str => .ok (str, p.2)) = _
      rw [hbytes]
      change (decodeUTF (encodeUTF str) >>= fun str => .ok (str, rest)) = _
      rw [decodeUTF_encodeUTF]
      rfl

end Utf

end DataStream

end OpenJfx.Java
