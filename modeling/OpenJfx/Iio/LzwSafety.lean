import OpenJfx.Data.Loop
import OpenJfx.Iio.LzwDecoder

namespace OpenJfx.Iio.Gif

open Data List

/-- The failure is an `IOException`. -/
def LzwFailure.IsIO (e : LzwFailure) : Prop := e ≠ .indexOutOfBounds

theorem isIO_eof : LzwFailure.eof.IsIO := nofun

section Input

namespace LzwInput

/-- The bits that can still be read are not more than these. -/
def bitsLeft (input : LzwInput) : Nat :=
  input.inBits + 8 * (input.block.length + input.source.bytes.length)

theorem readByte_yields (source : ByteSource) :
    Yields LzwFailure.IsIO (fun r => r.2.bytes.length + 1 = source.bytes.length)
      (readByte source) := by
  rw [readByte, ByteSource.read]
  cases hbytes : source.bytes with
  | nil => exact .error isIO_eof
  | cons b bytes =>
    apply Yields.ok
    dsimp only [ByteSource.advance]
    rw [hbytes]
    rfl

theorem readBytes_yields (turns : Nat) :
    ∀ (size : Nat) (source : ByteSource), size ≤ turns →
      Yields LzwFailure.IsIO (fun r => r.1.length = size ∧
        r.1.length + r.2.bytes.length = source.bytes.length) (readBytes turns size source) := by
  induction turns with
  | zero =>
    intro size source hsize
    rw [Nat.le_zero.mp hsize]
    exact .ok ⟨rfl, Nat.zero_add _⟩
  | succ turns ih =>
    intro size source hsize
    rw [readBytes]
    split_ifs with hpos
    · rcases eq_or_ne source.bytes [] with hnil | hne
      · rw [ByteSource.readSome_nil hnil]
        exact .error isIO_eof
      · obtain ⟨k, source', hk, hkle, hread, hsrc'⟩ := ByteSource.readSome_cons hne hpos
        have hlen := length_pos_of_ne_nil hne
        rw [hread]
        dsimp only
        rw [length_take]
        apply (ih _ source' (by omega)).bind
        rintro ⟨more, source''⟩ ⟨hmore, hrest⟩
        dsimp only at hmore hrest
        rw [hsrc', length_drop] at hrest
        apply Yields.ok
        dsimp only
        rw [length_append, length_take]
        omega
    · rw [Nat.eq_zero_of_not_pos hpos]
      exact .ok ⟨rfl, Nat.zero_add _⟩

theorem readData_yields {input : LzwInput} (hblock : input.block = []) :
    Yields LzwFailure.IsIO (fun input' => input'.block ≠ [] ∧ input'.inBits = input.inBits ∧
      input'.bitsLeft ≤ input.bitsLeft) input.readData := by
  apply (readByte_yields input.source).bind
  rintro ⟨blockLength, source⟩ hsrc
  dsimp only at hsrc ⊢
  split_ifs with hpos
  · apply (readBytes_yields _ _ source le_rfl).bind
    rintro ⟨block, source'⟩ ⟨hlen, hsum⟩
    dsimp only at hlen hsum
    apply Yields.ok
    refine ⟨?_, rfl, ?_⟩
    · exact ne_nil_of_length_pos (hlen ▸ hpos)
    · rw [bitsLeft, bitsLeft, hblock, length_nil]
      dsimp only
      omega
  · exact .error isIO_eof

theorem nextByte_yields (input : LzwInput) :
    Yields LzwFailure.IsIO (fun r => r.2.inBits = input.inBits ∧
      r.2.bitsLeft + 8 ≤ input.bitsLeft) input.nextByte := by
  have hfill : Yields LzwFailure.IsIO (fun input' => input'.block ≠ [] ∧
      input'.inBits = input.inBits ∧ input'.bitsLeft ≤ input.bitsLeft) input.fill := by
    rw [fill]
    split_ifs with hblock
    · exact readData_yields hblock
    · exact .ok ⟨hblock, rfl, le_rfl⟩
  apply hfill.bind
  rintro input' ⟨hne, hbits, hle⟩
  rw [bitsLeft] at hle
  cases hblock : input'.block with
  | nil => exact absurd hblock hne
  | cons b block =>
    rw [hblock, length_cons] at hle
    apply Yields.ok
    refine ⟨hbits, ?_⟩
    rw [bitsLeft]
    dsimp only
    omega

theorem takeBits_yields (codeSize turns : Nat) :
    ∀ input : LzwInput, codeSize ≤ input.inBits + turns →
      Yields LzwFailure.IsIO (fun input' => codeSize ≤ input'.inBits ∧
        input'.bitsLeft ≤ input.bitsLeft) (takeBits codeSize turns input) := by
  induction turns with
  | zero =>
    intro input hturns
    exact .ok ⟨hturns, le_rfl⟩
  | succ turns ih =>
    intro input hturns
    rw [takeBits]
    split_ifs with hmore
    · apply (nextByte_yields input).bind
      rintro ⟨b, input'⟩ ⟨hbits, hle⟩
      dsimp only at hbits hle ⊢
      apply (ih _ (by dsimp only; omega)).imp
      rintro input'' ⟨henough, hle'⟩
      refine ⟨henough, hle'.trans ?_⟩
      rw [bitsLeft] at hle ⊢
      dsimp only
      omega
    · exact .ok ⟨by omega, le_rfl⟩

theorem getCode_yields (codeSize : Nat) (input : LzwInput) :
    Yields LzwFailure.IsIO (fun r => r.2.bitsLeft + codeSize ≤ input.bitsLeft)
      (input.getCode codeSize) := by
  apply (takeBits_yields codeSize codeSize input (Nat.le_add_left _ _)).bind
  rintro input' ⟨henough, hle⟩
  apply Yields.ok
  rw [bitsLeft] at hle ⊢
  dsimp only
  omega

end LzwInput

end Input

namespace LzwDecoder

def hasRoom (d : LzwDecoder) : Bool :=
  match d.getCode with
  | .error _ => true
  | .ok (code, d) =>
    if code = d.eofCode then true
    else if code = d.clearCode then
      match d.initTable with
      | .error _ => true
      | .ok d =>
        match d.getCode with
        | .error _ => true
        | .ok (code, d) => code = d.eofCode ∨ code < tableSize
    else d.tableIndex < code ∨ d.tableIndex < tableSize

/-- The entries lead to each other. An entry that is not in use may be the prefix of another one,
which is then as long as if it were a single byte. -/
structure Consistent (d : LzwDecoder) : Prop where
  clearCode_le : d.clearCode ≤ tableSize
  codeSize_pos : 0 < d.codeSize
  oldCode_lt : d.oldCode < tableSize
  lengthOf_pos : ∀ c, 0 < d.table.lengthOf c
  lengthOf_le : ∀ c, d.table.lengthOf c ≤ tableSize
  lengthOf_add_le : ∀ c, d.table.lengthOf c + 2 ≤ d.tableIndex
  lengthOf_unused : ∀ c, d.tableIndex ≤ c → d.table.lengthOf c = 1
  prefixOf_lt : ∀ c, 1 < d.table.lengthOf c → ∃ p : Nat, d.table.prefixOf c = p ∧
    p < tableSize ∧ d.table.lengthOf c ≤ d.table.lengthOf p + 1

theorem clearCode_pos (d : LzwDecoder) : 0 < d.clearCode := by
  have hlt : d.initCodeSize % 32 < 32 := Nat.mod_lt _ (by decide)
  have hmod : shiftLeft 1 d.initCodeSize = shiftLeft 1 (d.initCodeSize % 32) := by
    rw [shiftLeft, shiftLeft, Nat.mod_mod]
  rw [clearCode, hmod, shiftLeft_one hlt]
  exact Nat.two_pow_pos _

variable {d : LzwDecoder}

theorem initTable_ok (hclear : d.clearCode ≤ tableSize) :
    ∃ d', d.initTable = .ok d' ∧ d'.Consistent ∧ d'.input = d.input := by
  refine ⟨_, if_neg (Nat.not_lt.mpr hclear), ?_, rfl⟩
  have hpos := d.clearCode_pos
  exact
    { clearCode_le := hclear
      codeSize_pos := Nat.succ_pos _
      oldCode_lt := (by decide : 0 < tableSize)
      lengthOf_pos := fun _ => Nat.one_pos
      lengthOf_le := fun _ => (by decide : 1 ≤ tableSize)
      lengthOf_add_le := fun _ => by
        change 1 + 2 ≤ d.clearCode + 2
        omega
      lengthOf_unused := fun _ _ => rfl
      prefixOf_lt := fun _ hlt => absurd hlt (lt_irrefl 1) }

theorem Consistent.withInput (h : d.Consistent) (input : LzwInput) :
    Consistent { d with input := input } where
  clearCode_le := h.clearCode_le
  codeSize_pos := h.codeSize_pos
  oldCode_lt := h.oldCode_lt
  lengthOf_pos := h.lengthOf_pos
  lengthOf_le := h.lengthOf_le
  lengthOf_add_le := h.lengthOf_add_le
  lengthOf_unused := h.lengthOf_unused
  prefixOf_lt := h.prefixOf_lt

theorem getCode_yields (h : d.Consistent) :
    Yields LzwFailure.IsIO (fun r => r.2.Consistent ∧ r.2.input.bitsLeft < d.input.bitsLeft)
      d.getCode := by
  apply (LzwInput.getCode_yields d.codeSize d.input).bind
  rintro ⟨code, input⟩ hle
  have hpos := h.codeSize_pos
  apply Yields.ok
  refine ⟨h.withInput input, ?_⟩
  dsimp only at hle ⊢
  omega

theorem addEntry_yields (h : d.Consistent) {code : Nat}
    (hroom : d.tableIndex < code ∨ d.tableIndex < tableSize) :
    Yields LzwFailure.IsIO (fun d' => d'.Consistent ∧ d'.input = d.input ∧ code < tableSize)
      (d.addEntry code) := by
  rw [addEntry]
  rcases Nat.lt_or_ge d.tableIndex code with hsequence | hle
  · rw [if_pos hsequence]
    exact .error nofun
  have hfull : d.tableIndex < tableSize := by omega
  rw [if_neg (Nat.not_lt.mpr hle), if_neg (Nat.not_le.mpr hfull)]
  have hlast := h.lengthOf_add_le d.oldCode
  have hunused := h.lengthOf_unused d.tableIndex le_rfl
  have hold := h.oldCode_lt
  have hlen : ∀ c, Function.update d.table.lengthOf d.tableIndex
      (d.table.lengthOf d.oldCode + 1) c =
      if c = d.tableIndex then d.table.lengthOf d.oldCode + 1 else d.table.lengthOf c :=
    fun c => Function.update_apply _ _ _ c
  have hmono : ∀ c, d.table.lengthOf c ≤ Function.update d.table.lengthOf d.tableIndex
      (d.table.lengthOf d.oldCode + 1) c := by
    intro c
    rw [hlen]
    split_ifs with hc
    · rw [hc, hunused]
      omega
    · exact le_rfl
  apply Yields.ok
  refine ⟨?_, rfl, by omega⟩
  constructor
  · exact h.clearCode_le
  · have hpos := h.codeSize_pos
    dsimp only
    split_ifs <;> omega
  · exact hold
  · intro c
    exact (h.lengthOf_pos c).trans_le (hmono c)
  · intro c
    dsimp only
    rw [hlen]
    split_ifs
    · omega
    · exact h.lengthOf_le c
  · intro c
    have hle := h.lengthOf_add_le c
    dsimp only
    rw [hlen]
    split_ifs <;> omega
  · intro c hc
    dsimp only at hc ⊢
    rw [hlen, if_neg (by omega)]
    exact h.lengthOf_unused c (by omega)
  · intro c hc
    dsimp only at hc ⊢
    rw [hlen] at hc
    rw [hlen c, Function.update_apply]
    split_ifs at hc ⊢ with heq
    · exact ⟨d.oldCode, rfl, hold, Nat.succ_le_succ (hmono _)⟩
    · obtain ⟨p, hp, hlt, hle⟩ := h.prefixOf_lt c hc
      exact ⟨p, hp, hlt, hle.trans (Nat.succ_le_succ (hmono p))⟩

theorem reverseCode_ok (h : d.Consistent) (n : Nat) :
    ∀ c : Nat, c < tableSize → n ≤ d.table.lengthOf c →
      ∃ string, reverseCode d.table n c = .ok string ∧ string.length = n := by
  induction n with
  | zero => exact fun _ _ _ => ⟨[], rfl, rfl⟩
  | succ n ih =>
    intro c hc hn
    rw [reverseCode, if_pos (by omega), Int.toNat_natCast]
    rcases Nat.eq_zero_or_pos n with rfl | hpos
    · exact ⟨_, rfl, rfl⟩
    · obtain ⟨p, hp, hlt, hle⟩ := h.prefixOf_lt c (by omega)
      obtain ⟨string, hstr, hlen⟩ := ih p hlt (by omega)
      rw [hp, hstr]
      refine ⟨_, rfl, ?_⟩
      rw [length_append, hlen]
      rfl

def Read (d : LzwDecoder) (r : Option (List UInt8) × LzwDecoder) : Prop :=
  r.2.Consistent ∧ r.2.input.bitsLeft < d.input.bitsLeft ∧
    ∀ string ∈ r.1, 0 < string.length ∧ string.length ≤ tableSize

theorem deliver_yields {d' : LzwDecoder} (h : d'.Consistent)
    (hbits : d'.input.bitsLeft < d.input.bitsLeft) {code : Nat} (hcode : code < tableSize) :
    Yields LzwFailure.IsIO d.Read (d'.deliver code) := by
  have hle := h.lengthOf_le code
  obtain ⟨string, hstr, hlen⟩ := reverseCode_ok h _ code hcode le_rfl
  rw [deliver, if_neg (Nat.not_lt.mpr hle), hstr]
  apply Yields.ok
  refine ⟨⟨h.clearCode_le, h.codeSize_pos, hcode, h.lengthOf_pos, h.lengthOf_le,
    h.lengthOf_add_le, h.lengthOf_unused, h.prefixOf_lt⟩, hbits, ?_⟩
  rintro _ ⟨⟩
  rw [hlen]
  exact ⟨h.lengthOf_pos code, hle⟩

theorem readString_yields (h : d.Consistent) (hroom : d.hasRoom = true) :
    Yields LzwFailure.IsIO d.Read d.readString := by
  have hcode := getCode_yields h
  rw [hasRoom] at hroom
  rw [readString]
  cases hget : d.getCode with
  | error e => exact .error (hcode.of_error hget)
  | ok r =>
    rcases r with ⟨code, d₁⟩
    obtain ⟨h₁, hbits₁⟩ := hcode.of_ok hget
    simp only [hget] at hroom
    change Yields _ _ (if code = d₁.eofCode then _ else if code = d₁.clearCode then _ else _)
    rcases eq_or_ne code d₁.eofCode with heof | heof
    · rw [if_pos heof]
      exact .ok ⟨h₁, hbits₁, nofun⟩
    rw [if_neg heof] at hroom ⊢
    rcases eq_or_ne code d₁.clearCode with hclear | hclear
    · rw [if_pos hclear] at hroom ⊢
      obtain ⟨d₂, hinit, h₂, hinput⟩ := initTable_ok h₁.clearCode_le
      have hcode₂ := getCode_yields h₂
      simp only [hinit] at hroom
      rw [afterClear, hinit]
      change Yields _ _ (d₂.getCode >>= _)
      cases hget₂ : d₂.getCode with
      | error e => exact .error (hcode₂.of_error hget₂)
      | ok r =>
        rcases r with ⟨code₂, d₃⟩
        obtain ⟨h₃, hbits₃⟩ := hcode₂.of_ok hget₂
        simp only [hget₂, decide_eq_true_eq] at hroom
        rw [hinput] at hbits₃
        change Yields _ _ (if code₂ = d₃.eofCode then _ else _)
        split_ifs with heof₂
        · exact .ok ⟨h₃, hbits₃.trans hbits₁, nofun⟩
        · exact deliver_yields h₃ (hbits₃.trans hbits₁) (hroom.resolve_left heof₂)
    · rw [if_neg hclear] at hroom ⊢
      apply (addEntry_yields h₁ (of_decide_eq_true hroom)).bind
      rintro d₂ ⟨h₂, hinput, hlt⟩
      apply deliver_yields h₂ _ hlt
      rw [hinput]
      exact hbits₁

end LzwDecoder

end OpenJfx.Iio.Gif
