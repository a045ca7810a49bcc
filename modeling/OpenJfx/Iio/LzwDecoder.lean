import OpenJfx.Iio.ByteSource
import OpenJfx.Data.BitPacking

namespace OpenJfx.Iio.Gif

inductive LzwFailure where
  | eof
  | outOfSequence
  | indexOutOfBounds
  deriving DecidableEq

/-- The input data buffer. Of the array `block`, there are the bytes from `blockPos` to
`blockLength`. -/
structure LzwInput where
  block : List UInt8
  inData : Nat
  inBits : Nat
  source : ByteSource

/-- `a << n` as an unsigned number; only the last five bits of `n` count. -/
def shiftLeft (a n : Nat) : Nat := (a <<< (n % 32)) % 2 ^ 32

namespace LzwInput

def readByte (source : ByteSource) : Except LzwFailure (UInt8 × ByteSource) :=
  match source.read with
  | none => .error .eof
  | some r => .ok r

def readBytes : Nat → Nat → ByteSource → Except LzwFailure (List UInt8 × ByteSource)
  | 0, _, source => .ok ([], source)
  | turns + 1, size, source =>
    if 0 < size then
      match source.readSome size with
      | none => .error .eof
      | some (bytes, source) => do
        let (more, source) ← readBytes turns (size - bytes.length) source
        pure (bytes ++ more, source)
    else .ok ([], source)

def readData (input : LzwInput) : Except LzwFailure LzwInput := do
  let (blockLength, source) ← readByte input.source
  if 0 < blockLength.toNat then
    let (block, source) ← readBytes blockLength.toNat blockLength.toNat source
    pure { input with block := block, source := source }
  else .error .eof

/-- The first lines of `nextByte`. -/
def fill (input : LzwInput) : Except LzwFailure LzwInput :=
  if input.block = [] then input.readData else .ok input

def nextByte (input : LzwInput) : Except LzwFailure (UInt8 × LzwInput) := do
  let input ← input.fill
  match input.block with
  | [] => .error .indexOutOfBounds
  | b :: block => pure (b, { input with block := block })

/-- The loop of `getCode`; every turn adds eight bits. -/
def takeBits (codeSize : Nat) : Nat → LzwInput → Except LzwFailure LzwInput
  | 0, input => .ok input
  | turns + 1, input =>
    if input.inBits < codeSize then do
      let (b, input) ← input.nextByte
      takeBits codeSize turns { input with
        inData := input.inData ||| shiftLeft b.toNat input.inBits
        inBits := input.inBits + 8 }
    else .ok input

def getCode (codeSize : Nat) (input : LzwInput) : Except LzwFailure (Nat × LzwInput) := do
  let input ← takeBits codeSize codeSize input
  pure (input.inData &&& (shiftLeft 1 codeSize - 1), { input with
    inData := input.inData >>> (codeSize % 32)
    inBits := input.inBits - codeSize })

end LzwInput

structure LzwTable where
  prefixOf : Nat → Int
  suffixOf : Nat → UInt8
  initialOf : Nat → UInt8
  lengthOf : Nat → Nat

def tableSize : Nat := 4096

structure LzwDecoder where
  initCodeSize : Nat
  codeSize : Nat
  tableIndex : Nat
  oldCode : Nat
  table : LzwTable
  input : LzwInput

namespace LzwDecoder

def clearCode (d : LzwDecoder) : Nat := shiftLeft 1 d.initCodeSize

def eofCode (d : LzwDecoder) : Nat := d.clearCode + 1

def initTable (d : LzwDecoder) : Except LzwFailure LzwDecoder :=
  let numEntries := shiftLeft 1 d.initCodeSize
  if tableSize < numEntries then .error .indexOutOfBounds
  else .ok { d with
    codeSize := d.initCodeSize + 1
    tableIndex := numEntries + 2
    oldCode := 0
    table :=
      { prefixOf := fun _ => -1
        suffixOf := fun i => if i < numEntries then .ofNat i else d.table.suffixOf i
        initialOf := fun i => if i < numEntries then .ofNat i else d.table.initialOf i
        lengthOf := fun _ => 1 } }

def new (source : ByteSource) : Except LzwFailure LzwDecoder := do
  let (initCodeSize, source) ← LzwInput.readByte source
  initTable
    { initCodeSize := initCodeSize.toNat
      codeSize := 0
      tableIndex := 0
      oldCode := 0
      table := ⟨fun _ => 0, fun _ => 0, fun _ => 0, fun _ => 0⟩
      input := ⟨[], 0, 0, source⟩ }

def getCode (d : LzwDecoder) : Except LzwFailure (Nat × LzwDecoder) := do
  let (code, input) ← d.input.getCode d.codeSize
  pure (code, { d with input := input })

/-- The part of `readString` for a code that is none of the special ones. -/
def addEntry (d : LzwDecoder) (code : Nat) : Except LzwFailure LzwDecoder :=
  let ti := d.tableIndex
  let newSuffixIndex := if code < ti then code else d.oldCode
  let oc := d.oldCode
  if ti < code then .error .outOfSequence
  else if tableSize ≤ ti then .error .indexOutOfBounds
  else .ok { d with
    table :=
      { prefixOf := Function.update d.table.prefixOf ti oc
        suffixOf := Function.update d.table.suffixOf ti (d.table.initialOf newSuffixIndex)
        initialOf := Function.update d.table.initialOf ti (d.table.initialOf oc)
        lengthOf := Function.update d.table.lengthOf ti (d.table.lengthOf oc + 1) }
    tableIndex := ti + 1
    codeSize := if ti + 1 = shiftLeft 1 d.codeSize ∧ ti + 1 < tableSize then d.codeSize + 1
      else d.codeSize }

/-- The loop that follows the prefixes, from the last byte to the first. -/
def reverseCode (t : LzwTable) : Nat → Int → Except LzwFailure (List UInt8)
  | 0, _ => .ok []
  | i + 1, c =>
    if 0 ≤ c ∧ c < tableSize then do
      let string ← reverseCode t i (t.prefixOf c.toNat)
      pure (string ++ [t.suffixOf c.toNat])
    else .error .indexOutOfBounds

def deliver (d : LzwDecoder) (code : Nat) :
    Except LzwFailure (Option (List UInt8) × LzwDecoder) := do
  if tableSize < d.table.lengthOf code then .error .indexOutOfBounds
  else
    let string ← reverseCode d.table (d.table.lengthOf code) code
    pure (some string, { d with oldCode := code })

def afterClear (d : LzwDecoder) : Except LzwFailure (Option (List UInt8) × LzwDecoder) := do
  let d ← d.initTable
  let (code, d) ← d.getCode
  if code = d.eofCode then pure (none, d) else d.deliver code

/-- `readString()` with the bytes that `getString()` then gives access to; there is no value
for `-1`. -/
def readString (d : LzwDecoder) : Except LzwFailure (Option (List UInt8) × LzwDecoder) := do
  let (code, d) ← d.getCode
  if code = d.eofCode then pure (none, d)
  else if code = d.clearCode then d.afterClear
  else do
    let d ← d.addEntry code
    d.deliver code

/-- All strings up to the end of the data, in at most so many calls of `readString`. -/
def readAll : Nat → LzwDecoder → Except LzwFailure (Option (List UInt8))
  | 0, _ => .ok none
  | calls + 1, d => do
    match ← d.readString with
    | (none, _) => pure (some [])
    | (some string, d) => return (← readAll calls d).map (string ++ ·)

end LzwDecoder

open Data.BitPacking List

theorem shiftLeft_eq {a k n : Nat} (ha : a < 2 ^ k) (hn : n < 32) (hfits : k + n ≤ 32) :
    shiftLeft a n = a <<< n := by
  have hlt : a * 2 ^ n < 2 ^ 32 := calc
    a * 2 ^ n < 2 ^ k * 2 ^ n := Nat.mul_lt_mul_of_pos_right ha (Nat.two_pow_pos n)
    _ = 2 ^ (k + n) := (pow_add 2 k n).symm
    _ ≤ 2 ^ 32 := Nat.pow_le_pow_right Nat.two_pos hfits
  rw [shiftLeft, Nat.mod_eq_of_lt hn, Nat.shiftLeft_eq, Nat.mod_eq_of_lt hlt]

theorem shiftLeft_one {n : Nat} (hn : n < 32) : shiftLeft 1 n = 2 ^ n := by
  rw [shiftLeft_eq (k := 1) Nat.one_lt_two hn (by omega), Nat.one_shiftLeft]

def encodeBlocks : List (List UInt8) → List UInt8
  | [] => []
  | block :: blocks => .ofNat block.length :: (block ++ encodeBlocks blocks)

def IsBlock (block : List UInt8) : Prop := block ≠ [] ∧ block.length ≤ 255

namespace LzwInput

/-- The bits that have not been read, as a number, and how many there are. -/
structure Pending (input : LzwInput) (bits length : Nat) (blocks : List (List UInt8))
    (tail : List UInt8) : Prop where
  isBlock : ∀ block ∈ blocks, IsBlock block
  source_eq : input.source.bytes = encodeBlocks blocks ++ tail
  inData_lt : input.inData < 2 ^ input.inBits
  bits_eq : bits = input.inData + 2 ^ input.inBits * ofBytes (input.block ++ blocks.flatten)
  length_eq : length = input.inBits + 8 * (input.block ++ blocks.flatten).length

theorem readBytes_spec (turns : Nat) :
    ∀ (source : ByteSource) (front back : List UInt8), source.bytes = front ++ back →
      front.length ≤ turns →
      ∃ source', readBytes turns front.length source = .ok (front, source') ∧
        source'.bytes = back := by
  induction turns with
  | zero =>
    intro source front back hbytes hle
    have hnil : front = [] := eq_nil_of_length_eq_zero (by omega)
    subst hnil
    exact ⟨source, rfl, hbytes⟩
  | succ turns ih =>
    intro source front back hbytes hle
    rw [readBytes]
    split_ifs with hpos
    · rcases ByteSource.readSome_spec hpos hbytes le_rfl with
        ⟨part, rest, source', hread, hfront, hne, -, hsrc'⟩
      have hpart : 0 < part.length := length_pos_of_ne_nil hne
      have hlen : front.length - part.length = rest.length := by
        rw [hfront, length_append]
        omega
      rcases ih source' rest back hsrc' (by omega) with ⟨source'', hmore, hback⟩
      refine ⟨source'', ?_, hback⟩
      rw [hread]
      simp only [hlen, hmore]
      rw [hfront]
      rfl
    · have hnil : front = [] := eq_nil_of_length_eq_zero (by omega)
      subst hnil
      exact ⟨source, rfl, hbytes⟩

theorem readByte_spec {source : ByteSource} {b : UInt8} {back : List UInt8}
    (hbytes : source.bytes = b :: back) :
    ∃ source', readByte source = .ok (b, source') ∧ source'.bytes = back := by
  refine ⟨source.advance 1, ?_, ?_⟩
  · simp only [readByte, ByteSource.read, hbytes]
  · simp only [ByteSource.advance, hbytes, drop_succ_cons, drop_zero]

theorem readData_spec {input : LzwInput} {block back : List UInt8} (hblock : IsBlock block)
    (hbytes : input.source.bytes = .ofNat block.length :: (block ++ back)) :
    ∃ source', input.readData = .ok { input with block := block, source := source' } ∧
      source'.bytes = back := by
  have hlen : (UInt8.ofNat block.length).toNat = block.length := by
    exact UInt8.toNat_ofNat_of_lt' (Nat.lt_succ_of_le hblock.2)
  have hpos : 0 < block.length := length_pos_of_ne_nil hblock.1
  rcases readByte_spec hbytes with ⟨source₁, hbyte, hsrc₁⟩
  rcases readBytes_spec block.length source₁ block back hsrc₁ le_rfl with
    ⟨source₂, hread, hsrc₂⟩
  refine ⟨source₂, ?_, hsrc₂⟩
  rw [readData, hbyte]
  simp only [bind, Except.bind, hlen, if_pos hpos, hread]
  rfl

section

variable {input : LzwInput} {bits length : Nat} {blocks : List (List UInt8)} {tail : List UInt8}

theorem fill_spec (hpend : input.Pending bits length blocks tail)
    (hlt : input.inBits < length) :
    ∃ b block source blocks',
      input.fill = .ok { input with block := b :: block, source := source } ∧
      Pending { input with block := b :: block, source := source } bits length blocks' tail := by
  rcases hpend with ⟨hblocks, hsrc, hdata, hbits, hlen⟩
  rw [fill]
  cases hblock : input.block with
  | cons b block =>
    rw [if_neg (by simp)]
    refine ⟨b, block, input.source, blocks, ?_, ⟨hblocks, hsrc, hdata, ?_, ?_⟩⟩
    · rw [← hblock]
    · rw [hbits, hblock]
    · rw [hlen, hblock]
  | nil =>
    cases blocks with
    | nil =>
      rw [hlen, hblock] at hlt
      simp at hlt
    | cons next blocks =>
      have hnext : IsBlock next := hblocks next (by simp)
      rw [encodeBlocks, cons_append, append_assoc] at hsrc
      rcases readData_spec hnext hsrc with ⟨source, hread, hrest⟩
      rcases exists_cons_of_ne_nil hnext.1 with ⟨b, block, rfl⟩
      refine ⟨b, block, source, blocks, hread,
        ⟨fun block' hmem => hblocks block' (by simp [hmem]), hrest, hdata, ?_, ?_⟩⟩
      · rw [hbits, hblock]
        rfl
      · rw [hlen, hblock]
        rfl

theorem nextByte_spec (hpend : input.Pending bits length blocks tail)
    (hlt : input.inBits < length) (hroom : input.inBits ≤ 24) :
    ∃ b input' blocks', input.nextByte = .ok (b, input') ∧ input'.inBits = input.inBits ∧
      Pending { input' with
        inData := input'.inData ||| shiftLeft b.toNat input'.inBits
        inBits := input'.inBits + 8 } bits length blocks' tail := by
  rcases fill_spec hpend hlt with
    ⟨b, block, source, blocks', hfill, ⟨hblocks, hsrc, hdata, hbits, hlen⟩⟩
  refine ⟨b, { input with block := block, source := source }, blocks', ?_, rfl, ?_⟩
  · rw [nextByte, hfill]
    rfl
  · have hshift : shiftLeft b.toNat input.inBits = b.toNat <<< input.inBits :=
      shiftLeft_eq (k := 8) b.toNat_lt (by omega) (by omega)
    refine ⟨hblocks, hsrc, ?_, ?_, ?_⟩
    · simp only [hshift, or_shiftLeft hdata]
      exact add_byte_lt hdata b
    · simp only [hshift, or_shiftLeft hdata]
      rw [hbits, cons_append, ofBytes]
      ring
    · rw [hlen]
      simp only [cons_append, length_cons]
      omega

theorem takeBits_spec {codeSize : Nat} (hle : codeSize ≤ length) (hsize : codeSize ≤ 24)
    (turns : Nat) :
    ∀ {input : LzwInput} {blocks : List (List UInt8)}, input.Pending bits length blocks tail →
      codeSize ≤ input.inBits + turns →
      ∃ input' blocks', takeBits codeSize turns input = .ok input' ∧
        input'.Pending bits length blocks' tail ∧ codeSize ≤ input'.inBits := by
  induction turns with
  | zero =>
    intro input blocks hpend hturns
    exact ⟨input, blocks, rfl, hpend, hturns⟩
  | succ turns ih =>
    intro input blocks hpend hturns
    rw [takeBits]
    split_ifs with hmore
    · rcases nextByte_spec hpend (by omega) (by omega) with
        ⟨b, input₁, blocks₁, hbyte, hbits, hpend₁⟩
      rcases ih hpend₁ (by simp only [hbits]; omega) with
        ⟨input₂, blocks₂, htake, hpend₂, henough⟩
      refine ⟨input₂, blocks₂, ?_, hpend₂, henough⟩
      rw [hbyte]
      exact htake
    · exact ⟨input, blocks, rfl, hpend, by omega⟩

theorem getCode_spec {codeSize : Nat} (hpend : input.Pending bits length blocks tail)
    (hle : codeSize ≤ length) (hsize : codeSize ≤ 24) :
    ∃ input' blocks', input.getCode codeSize = .ok (bits % 2 ^ codeSize, input') ∧
      input'.Pending (bits / 2 ^ codeSize) (length - codeSize) blocks' tail := by
  rcases takeBits_spec hle hsize codeSize hpend (by omega) with
    ⟨input', blocks', htake, ⟨hblocks, hsrc, hdata, hbits, hlen⟩, henough⟩
  have hmod : codeSize % 32 = codeSize := Nat.mod_eq_of_lt (by omega)
  refine ⟨{ input' with
      inData := input'.inData >>> codeSize
      inBits := input'.inBits - codeSize }, blocks', ?_, ⟨hblocks, hsrc, ?_, ?_, ?_⟩⟩
  · rw [getCode, htake, hbits, mod_of_le henough, ← Nat.and_two_pow_sub_one_eq_mod,
      ← shiftLeft_one (by omega)]
    simp only [hmod]
    rfl
  · simp only [Nat.shiftRight_eq_div_pow]
    exact div_lt_of_le henough hdata
  · simp only [Nat.shiftRight_eq_div_pow]
    rw [hbits, div_of_le henough]
  · simp only
    omega

end

end LzwInput

end OpenJfx.Iio.Gif
