import OpenJfx.Iio.ByteSource

namespace OpenJfx.Iio.PngIdat

open Data Java

def idatType : Int := 0x49444154

/-- The data of consecutive IDAT chunks as one stream. The header of a chunk is read when the data
before it is exhausted. -/
structure IdatStream where
  source : ByteSource
  numBytesAvailable : Int
  foundAllIDATChunks : Bool
  nextChunkLength : Int
  nextChunkType : Int

namespace IdatStream

def new (input : ByteSource) (firstIDATChunkLength : Int) : Except IOFailure IdatStream :=
  if firstIDATChunkLength < 0 then .error .invalidChunkLength
  else .ok
    { source := input
      numBytesAvailable := firstIDATChunkLength
      foundAllIDATChunks := false
      nextChunkLength := 0
      nextChunkType := 0 }

def nextChunk (s : IdatStream) : Except IOFailure IdatStream :=
  if s.foundAllIDATChunks then .ok s
  else do
    let source ← s.source.skipFully 4
    let (chunkLength, source) ← source.readInt
    if chunkLength < 0 then .error .invalidChunkLength
    else do
      let (chunkType, source) ← source.readInt
      let s := { s with source := source }
      if chunkType = idatType then
        pure { s with numBytesAvailable := s.numBytesAvailable + chunkLength }
      else
        pure { s with
          foundAllIDATChunks := true
          nextChunkLength := chunkLength
          nextChunkType := chunkType }

/-- Both methods read the next header first if the data of the current chunk is exhausted. -/
def refill (s : IdatStream) : Except IOFailure IdatStream :=
  if s.numBytesAvailable = 0 then s.nextChunk else pure s

/-- `read()`; there is no value for `-1`. -/
def read (s : IdatStream) : Except IOFailure (Option UInt8 × IdatStream) := do
  let s ← s.refill
  if s.numBytesAvailable = 0 then pure (none, s)
  else
    let s := { s with numBytesAvailable := s.numBytesAvailable - 1 }
    match s.source.read with
    | some (b, source) => pure (some b, { s with source := source })
    | none => pure (none, s)

/-- One turn of the loop of `read(b, off, len)`, with the bytes that it stores. -/
def readPart (s : IdatStream) (len : Nat) : Except IOFailure (List UInt8 × IdatStream) :=
  let numToRead := if (len : Int) < s.numBytesAvailable then len else s.numBytesAvailable.toNat
  match s.source.readSome numToRead with
  | none => .error .eof
  | some (bytes, source) => do
    let s := { s with
      source := source
      numBytesAvailable := s.numBytesAvailable - bytes.length }
    let s ← if s.numBytesAvailable = 0 ∧ len - bytes.length > 0 then s.nextChunk else pure s
    pure (bytes, s)

def readLoop : Nat → Nat → IdatStream → Except IOFailure (List UInt8 × IdatStream)
  | 0, _, s => .ok ([], s)
  | turns + 1, len, s =>
    if s.numBytesAvailable > 0 ∧ len > 0 then do
      let (bytes, s) ← s.readPart len
      let (more, s) ← readLoop turns (len - bytes.length) s
      pure (bytes ++ more, s)
    else .ok ([], s)

/-- `read(b, off, len)`; there is no value for `-1`, else there are the bytes that have been
stored from `off` on. -/
def readBytes (s : IdatStream) (len : Nat) :
    Except IOFailure (Option (List UInt8) × IdatStream) := do
  let s' ← s.refill
  if s.numBytesAvailable = 0 ∧ s'.numBytesAvailable = 0 then pure (none, s')
  else
    let (bytes, s') ← readLoop len len s'
    pure (some bytes, s')

end IdatStream

structure Chunk where
  data : List UInt8
  length_lt : data.length < 2 ^ 31
  crc : List UInt8
  crc_length : crc.length = 4

structure NextChunk where
  length : Nat
  length_lt : length < 2 ^ 31
  type : Nat
  type_lt : type < 256 ^ 4
  type_ne : (type : Int) ≠ idatType
  rest : List UInt8

def encode (chunks : List Chunk) (next : NextChunk) : List UInt8 :=
  match chunks with
  | [] => DataStream.writeInt next.length ++ (DataStream.writeInt next.type ++ next.rest)
  | chunk :: chunks =>
    DataStream.writeInt chunk.data.length ++ (DataStream.writeInt idatType.toNat ++
      (chunk.data ++ (chunk.crc ++ encode chunks next)))

open List

theorem writeInt_inj {n m : Nat} (hn : n < 256 ^ 4) (hm : m < 256 ^ 4)
    (h : DataStream.writeInt n = DataStream.writeInt m) : n = m := by
  rw [← ofBigEndian_bigEndian_of_lt hn, ← ofBigEndian_bigEndian_of_lt hm]
  exact congrArg ofBigEndian h

theorem signed_eq_idatType {n : Nat} (hn : n < 256 ^ 4) :
    DataStream.signed 4 n = idatType ↔ (n : Int) = idatType := by
  rw [DataStream.signed, idatType]
  split_ifs with h
  · rfl
  · constructor <;> intro heq <;> omega

namespace IdatStream

section

variable {s : IdatStream} {rest crc : List UInt8} {chunks : List Chunk} {next : NextChunk}

structure Reading (s : IdatStream) (rest crc : List UInt8) (chunks : List Chunk)
    (next : NextChunk) : Prop where
  bytes : s.source.bytes = rest ++ (crc ++ encode chunks next)
  crc_length : crc.length = 4
  available : s.numBytesAvailable = rest.length
  found : s.foundAllIDATChunks = false

structure Finished (s : IdatStream) (next : NextChunk) : Prop where
  available : s.numBytesAvailable = 0
  found : s.foundAllIDATChunks = true
  nextLength : s.nextChunkLength = next.length
  nextType : s.nextChunkType = DataStream.signed 4 next.type

inductive Positioned (next : NextChunk) (s : IdatStream) : List UInt8 → Prop
  | reading {rest crc : List UInt8} {chunks : List Chunk} (h : s.Reading rest crc chunks next) :
      Positioned next s (rest ++ chunks.flatMap Chunk.data)
  | finished (h : s.Finished next) : Positioned next s []

def AtEmptyChunk (s : IdatStream) : Prop :=
  s.numBytesAvailable = 0 ∧ s.foundAllIDATChunks = false ∧
    ∃ back, s.source.bytes.drop 4 =
      DataStream.writeInt 0 ++ (DataStream.writeInt idatType.toNat ++ back)

theorem nextChunk_finished (h : s.Finished next) : s.nextChunk = .ok s := by
  rw [nextChunk, if_pos h.found]

theorem nextChunk_nil (h : s.Reading [] crc [] next) :
    ∃ s', s.nextChunk = .ok s' ∧ s'.Finished next := by
  have hbytes := h.bytes
  rw [nil_append] at hbytes
  rcases ByteSource.skipFully_spec hbytes with ⟨source₁, hskip, hbytes₁⟩
  have hlt := next.length_lt
  rcases ByteSource.readInt_spec (by omega) hbytes₁ with ⟨source₂, hlen, hbytes₂⟩
  rcases ByteSource.readInt_spec next.type_lt hbytes₂ with ⟨source₃, htype, -⟩
  rw [h.crc_length] at hskip
  have hsigned : DataStream.signed 4 next.length = next.length :=
    DataStream.signed_of_lt (by omega)
  have hne : DataStream.signed 4 next.type ≠ idatType := by
    rw [Ne, signed_eq_idatType next.type_lt]
    exact next.type_ne
  simp only [nextChunk, h.found, hskip, bind, Except.bind, hlen, hsigned, htype, if_neg hne]
  exact ⟨_, rfl, h.available, rfl, rfl, rfl⟩

theorem nextChunk_cons {chunk : Chunk} (h : s.Reading [] crc (chunk :: chunks) next) :
    ∃ s', s.nextChunk = .ok s' ∧ s'.Reading chunk.data chunk.crc chunks next := by
  have hbytes := h.bytes
  rw [nil_append] at hbytes
  rcases ByteSource.skipFully_spec hbytes with ⟨source₁, hskip, hbytes₁⟩
  have hlt := chunk.length_lt
  rcases ByteSource.readInt_spec (by omega) hbytes₁ with ⟨source₂, hlen, hbytes₂⟩
  rcases ByteSource.readInt_spec (by decide) hbytes₂ with ⟨source₃, htype, hbytes₃⟩
  rw [h.crc_length] at hskip
  have hsigned : DataStream.signed 4 chunk.data.length = chunk.data.length :=
    DataStream.signed_of_lt (by omega)
  simp only [nextChunk, h.found, hskip, bind, Except.bind, hlen, hsigned, htype]
  refine ⟨_, rfl, hbytes₃, chunk.crc_length, ?_, rfl⟩
  rw [h.available]
  simp

theorem atEmptyChunk_nil (h : s.Reading rest crc [] next) : ¬ s.AtEmptyChunk := by
  rintro ⟨havail, -, back, hback⟩
  have hnil : rest = [] := by
    refine eq_nil_of_length_eq_zero ?_
    have := h.available
    omega
  rw [h.bytes, hnil, nil_append, ← h.crc_length, drop_left] at hback
  have htype := (append_inj (append_inj hback (by simp [DataStream.writeInt])).2
    (by simp [DataStream.writeInt])).1
  have heq := writeInt_inj next.type_lt (by decide) htype
  refine next.type_ne ?_
  rw [heq]
  rfl

theorem atEmptyChunk_cons {chunk : Chunk} (h : s.Reading [] crc (chunk :: chunks) next) :
    s.AtEmptyChunk ↔ chunk.data = [] := by
  have hbytes : s.source.bytes.drop 4 = encode (chunk :: chunks) next := by
    rw [h.bytes, nil_append, ← h.crc_length, drop_left]
  have hlt := chunk.length_lt
  constructor
  · rintro ⟨-, -, back, hback⟩
    rw [hbytes] at hback
    have hlen := (append_inj hback (by simp [DataStream.writeInt])).1
    exact eq_nil_of_length_eq_zero (writeInt_inj (by omega) (by decide) hlen)
  · intro hnil
    refine ⟨h.available, h.found, chunk.crc ++ encode chunks next, ?_⟩
    rw [hbytes, encode, hnil]
    rfl

theorem nextChunk_spec (h : s.Reading [] crc chunks next) :
    ∃ s', s.nextChunk = .ok s' ∧ Positioned next s' (chunks.flatMap Chunk.data) ∧
      (s'.numBytesAvailable = 0 → ¬ s.AtEmptyChunk → s'.Finished next) ∧
      (s.AtEmptyChunk → s'.numBytesAvailable = 0 ∧ s'.foundAllIDATChunks = false) := by
  cases chunks with
  | nil =>
    rcases nextChunk_nil h with ⟨s', hs', hfinished⟩
    exact ⟨s', hs', .finished hfinished, fun _ _ => hfinished,
      fun hemp => absurd hemp (atEmptyChunk_nil h)⟩
  | cons chunk chunks =>
    rcases nextChunk_cons h with ⟨s', hs', hreading⟩
    refine ⟨s', hs', .reading hreading, ?_, ?_⟩
    · intro hzero hemp
      rw [hreading.available] at hzero
      rw [atEmptyChunk_cons h] at hemp
      exact absurd (eq_nil_of_length_eq_zero (by omega)) hemp
    · intro hemp
      rw [atEmptyChunk_cons h] at hemp
      refine ⟨?_, hreading.found⟩
      rw [hreading.available, hemp]
      rfl

theorem readPart_spec {len : Nat} (h : s.Reading rest crc chunks next) (hrest : rest ≠ [])
    (hlen : 0 < len) :
    ∃ bytes data s', s.readPart len = .ok (bytes, s') ∧
      rest ++ chunks.flatMap Chunk.data = bytes ++ data ∧ Positioned next s' data ∧
      bytes ≠ [] ∧ bytes.length ≤ len := by
  have havail := h.available
  have hpos := length_pos_of_ne_nil hrest
  have hamount : (if (len : Int) < s.numBytesAvailable then len
      else s.numBytesAvailable.toNat) = min len rest.length := by
    split_ifs <;> omega
  rcases ByteSource.readSome_spec (n := min len rest.length) (by omega) h.bytes (by omega) with
    ⟨part, rest', source, hread, hparts, hne, hlength, hbytes⟩
  subst hparts
  rw [length_append] at havail
  simp only [readPart, hamount, hread]
  have hreading : Reading { s with
      source := source
      numBytesAvailable := s.numBytesAvailable - part.length } rest' crc chunks next := by
    refine ⟨hbytes, h.crc_length, ?_, h.found⟩
    simp only [havail]
    omega
  split_ifs with hnext
  · have hnil : rest' = [] := by
      refine eq_nil_of_length_eq_zero ?_
      rw [← Int.natCast_inj, ← hreading.available]
      exact hnext.1
    rw [hnil] at hreading ⊢
    rcases nextChunk_spec hreading with ⟨s', hs', hpositioned, -⟩
    refine ⟨part, chunks.flatMap Chunk.data, s', ?_, by simp, hpositioned, hne, by omega⟩
    rw [hs']
    rfl
  · exact ⟨part, _, _, rfl, append_assoc .., .reading hreading, hne, by omega⟩

theorem readLoop_spec (turns : Nat) :
    ∀ (len : Nat) (s : IdatStream) (data : List UInt8), len ≤ turns → Positioned next s data →
      ∃ bytes data' s', readLoop turns len s = .ok (bytes, s') ∧ data = bytes ++ data' ∧
        Positioned next s' data' ∧ bytes.length ≤ len ∧
        (0 < len → s.numBytesAvailable ≠ 0 → bytes ≠ []) := by
  induction turns with
  | zero =>
    intro len s data hle h
    exact ⟨[], data, s, rfl, rfl, h, Nat.zero_le _, fun hpos => by omega⟩
  | succ turns ih =>
    intro len s data hle h
    have hstop : ¬ (s.numBytesAvailable > 0 ∧ len > 0) → 0 ≤ s.numBytesAvailable →
        readLoop (turns + 1) len s = .ok ([], s) ∧
          (0 < len → s.numBytesAvailable ≠ 0 → ([] : List UInt8) ≠ []) := by
      intro hcond hnn
      refine ⟨by rw [readLoop, if_neg hcond], ?_⟩
      omega
    cases h with
    | finished h =>
      have havail := h.available
      rcases hstop (by omega) (by omega) with ⟨hread, hprog⟩
      exact ⟨[], [], s, hread, rfl, .finished h, Nat.zero_le _, hprog⟩
    | @reading rest crc chunks h =>
      have havail := h.available
      by_cases hcond : s.numBytesAvailable > 0 ∧ len > 0
      · have hrest : rest ≠ [] := by
          rintro rfl
          rw [length_nil] at havail
          omega
        rcases readPart_spec h hrest hcond.2 with
          ⟨bytes, data', s₁, hpart, hdata, hpositioned, hne, hlen⟩
        have hpos := length_pos_of_ne_nil hne
        rcases ih (len - bytes.length) s₁ data' (by omega) hpositioned with
          ⟨more, data'', s₂, hmore, hdata', hpositioned', hlen', -⟩
        refine ⟨bytes ++ more, data'', s₂, ?_, ?_, hpositioned', ?_, ?_⟩
        · rw [readLoop, if_pos hcond, hpart]
          simp only [bind, Except.bind, hmore]
          rfl
        · rw [hdata, hdata', append_assoc]
        · rw [length_append]
          omega
        · intro _ _
          exact append_ne_nil_of_left_ne_nil hne more
      · rcases hstop hcond (by omega) with ⟨hread, hprog⟩
        exact ⟨[], _, s, hread, rfl, .reading h, Nat.zero_le _, hprog⟩

end

inductive Call where
  | read
  | readBytes (len : Nat)

/-- The bytes that a call delivers, or none for `-1`. -/
def perform (s : IdatStream) : Call → Except IOFailure (Option (List UInt8) × IdatStream)
  | .read => do
    let (b, s) ← s.read
    pure (b.map fun b => [b], s)
  | .readBytes len => s.readBytes len

/-- A number of bytes with which the call can be answered. -/
def Call.Fits (call : Call) (bytes : List UInt8) : Prop :=
  match call with
  | .read => bytes.length = 1
  | .readBytes len => bytes.length ≤ len ∧ (0 < len → bytes ≠ [])

section

variable {s : IdatStream} {data : List UInt8} {next : NextChunk}

theorem refill_spec (h : Positioned next s data) :
    ∃ s', s.refill = .ok s' ∧ Positioned next s' data ∧
      (s'.numBytesAvailable = 0 → ¬ s.AtEmptyChunk → s'.Finished next) ∧
      (s.AtEmptyChunk → s'.numBytesAvailable = 0 ∧ s'.foundAllIDATChunks = false) := by
  rw [refill]
  split_ifs with hzero
  · cases h with
    | finished h =>
      refine ⟨s, nextChunk_finished h, .finished h, fun _ _ => h, ?_⟩
      rintro ⟨-, hfound, -⟩
      rw [h.found] at hfound
      cases hfound
    | @reading rest crc chunks h =>
      have hnil : rest = [] := by
        refine eq_nil_of_length_eq_zero ?_
        have := h.available
        omega
      subst hnil
      rcases nextChunk_spec h with ⟨s', hs', hpositioned, hfinished, hemp⟩
      exact ⟨s', hs', hpositioned, hfinished, hemp⟩
  · refine ⟨s, rfl, h, fun hzero' => absurd hzero' hzero, ?_⟩
    rintro ⟨hzero', -⟩
    exact absurd hzero' hzero

theorem Finished.data_eq (hfinished : s.Finished next) (h : Positioned next s data) :
    data = [] := by
  cases h with
  | finished _ => rfl
  | reading h =>
    have := h.found
    rw [hfinished.found] at this
    cases this

theorem read_spec {s' : IdatStream} (hrefill : s.refill = .ok s') :
    (s'.numBytesAvailable = 0 → s.perform .read = .ok (none, s')) ∧
    (s'.numBytesAvailable ≠ 0 → Positioned next s' data →
      ∃ bytes data' s'', s.perform .read = .ok (some bytes, s'') ∧ data = bytes ++ data' ∧
        Positioned next s'' data' ∧ Call.read.Fits bytes) := by
  have hread : s.read = (if s'.numBytesAvailable = 0 then pure (none, s')
      else
        match s'.source.read with
        | some (b, source) => pure (some b, { s' with
            numBytesAvailable := s'.numBytesAvailable - 1
            source := source })
        | none => pure (none, { s' with numBytesAvailable := s'.numBytesAvailable - 1 })) := by
    rw [read, hrefill]
    rfl
  constructor
  · intro hzero
    simp only [perform, hread, if_pos hzero]
    rfl
  · intro hne h
    cases h with
    | finished h => exact absurd h.available hne
    | @reading rest crc chunks h =>
      cases rest with
      | nil => exact absurd h.available hne
      | cons b rest =>
        have hbytes := h.bytes
        rw [cons_append] at hbytes
        have hsrc : s'.source.read = some (b, s'.source.advance 1) := by
          rw [ByteSource.read]
          simp only [hbytes]
        have hreading : Reading { s' with
            numBytesAvailable := s'.numBytesAvailable - 1
            source := s'.source.advance 1 } rest crc chunks next := by
          refine ⟨?_, h.crc_length, ?_, h.found⟩
          · simp [ByteSource.advance, hbytes]
          · have := h.available
            rw [length_cons] at this
            simp only [this]
            omega
        refine ⟨[b], _, _, ?_, rfl, .reading hreading, rfl⟩
        simp only [perform, hread, if_neg hne, hsrc]
        rfl

theorem readBytes_spec {s' : IdatStream} (hrefill : s.refill = .ok s') (len : Nat) :
    (s'.numBytesAvailable = 0 → s.perform (.readBytes len) = .ok (none, s')) ∧
    (s'.numBytesAvailable ≠ 0 → Positioned next s' data →
      ∃ bytes data' s'', s.perform (.readBytes len) = .ok (some bytes, s'') ∧
        data = bytes ++ data' ∧ Positioned next s'' data' ∧ (Call.readBytes len).Fits bytes) := by
  have hread : s.readBytes len = (if s.numBytesAvailable = 0 ∧ s'.numBytesAvailable = 0
      then pure (none, s')
      else do
        let (bytes, s') ← readLoop len len s'
        pure (some bytes, s')) := by
    rw [readBytes, hrefill]
    rfl
  constructor
  · intro hzero
    have hzero' : s.numBytesAvailable = 0 := by
      by_contra hne
      rw [refill, if_neg hne] at hrefill
      cases hrefill
      exact hne hzero
    rw [perform, hread, if_pos ⟨hzero', hzero⟩]
    rfl
  · intro hne h
    rcases readLoop_spec len len s' data le_rfl h with
      ⟨bytes, data', s'', hloop, hdata, hpositioned, hlen, hprog⟩
    refine ⟨bytes, data', s'', ?_, hdata, hpositioned, hlen, fun hpos => hprog hpos hne⟩
    rw [perform, hread, if_neg (fun hcond => hne hcond.2), hloop]
    rfl

theorem perform_spec (h : Positioned next s data) (call : Call) :
    (s.AtEmptyChunk → ∃ s', s.perform call = .ok (none, s') ∧ s'.foundAllIDATChunks = false) ∧
    (¬ s.AtEmptyChunk →
      (∃ s', s.perform call = .ok (none, s') ∧ data = [] ∧ s'.Finished next) ∨
      ∃ bytes data' s', s.perform call = .ok (some bytes, s') ∧ data = bytes ++ data' ∧
        Positioned next s' data' ∧ call.Fits bytes) := by
  rcases refill_spec h with ⟨s', hrefill, hpositioned, hfinished, hemp⟩
  have hcall : (s'.numBytesAvailable = 0 → s.perform call = .ok (none, s')) ∧
      (s'.numBytesAvailable ≠ 0 → Positioned next s' data →
        ∃ bytes data' s'', s.perform call = .ok (some bytes, s'') ∧ data = bytes ++ data' ∧
          Positioned next s'' data' ∧ call.Fits bytes) := by
    cases call with
    | read => exact read_spec hrefill
    | readBytes len => exact readBytes_spec hrefill len
  constructor
  · intro hat
    rcases hemp hat with ⟨hzero, hfound⟩
    exact ⟨s', hcall.1 hzero, hfound⟩
  · intro hat
    by_cases hzero : s'.numBytesAvailable = 0
    · have hdone := hfinished hzero hat
      exact .inl ⟨s', hcall.1 hzero, hdone.data_eq hpositioned, hdone⟩
    · exact .inr (hcall.2 hzero hpositioned)

/-- The calls deliver the data in order. There is no value for `-1` before everything has been
delivered, and then the length and the type of the next chunk are known. -/
def Delivers (next : NextChunk) : IdatStream → List UInt8 → List Call → Prop
  | _, _, [] => True
  | s, data, call :: calls =>
    ∃ result s', s.perform call = .ok (result, s') ∧
      match result with
      | none => data = [] ∧ s'.Finished next ∧ Delivers next s' data calls
      | some bytes => ∃ data', data = bytes ++ data' ∧ call.Fits bytes ∧
          Delivers next s' data' calls

/-- No call is made when an IDAT chunk without data comes next. -/
def AvoidsEmptyChunks : IdatStream → List Call → Prop
  | _, [] => True
  | s, call :: calls =>
    ¬ s.AtEmptyChunk ∧ ∀ result s', s.perform call = .ok (result, s') → AvoidsEmptyChunks s' calls

theorem delivers_iff (calls : List Call) :
    ∀ (s : IdatStream) (data : List UInt8), Positioned next s data →
      (Delivers next s data calls ↔ s.AvoidsEmptyChunks calls) := by
  induction calls with
  | nil => exact fun s data h => Iff.rfl
  | cons call calls ih =>
    intro s data h
    rcases perform_spec h call with ⟨hemp, hdelivers⟩
    by_cases hat : s.AtEmptyChunk
    · refine iff_of_false ?_ (fun havoids => havoids.1 hat)
      rintro ⟨result, s₁, hres, hmatch⟩
      rcases hemp hat with ⟨s', hnone, hfound⟩
      cases hres.symm.trans hnone
      have := hmatch.2.1.found
      rw [hfound] at this
      cases this
    · rcases hdelivers hat with ⟨s', hnone, hnil, hfinished⟩ |
        ⟨bytes, data', s', hsome, hdata, hpositioned, hfits⟩
      · subst hnil
        have hrest := ih s' [] (.finished hfinished)
        constructor
        · rintro ⟨result, s₁, hres, hmatch⟩
          cases hres.symm.trans hnone
          refine ⟨hat, ?_⟩
          intro result s₂ hres'
          cases hres'.symm.trans hnone
          exact hrest.mp hmatch.2.2
        · intro havoids
          exact ⟨none, s', hnone, rfl, hfinished, hrest.mpr (havoids.2 none s' hnone)⟩
      · have hrest := ih s' data' hpositioned
        constructor
        · rintro ⟨result, s₁, hres, hmatch⟩
          cases hres.symm.trans hsome
          rcases hmatch with ⟨data'', hdata', -, hcalls⟩
          rw [hdata] at hdata'
          rw [append_cancel_left hdata'] at hrest
          refine ⟨hat, ?_⟩
          intro result s₂ hres'
          cases hres'.symm.trans hsome
          exact hrest.mp hcalls
        · intro havoids
          exact ⟨some bytes, s', hsome, data', hdata, hfits,
            hrest.mpr (havoids.2 (some bytes) s' hsome)⟩

end

/-- For all chunks, whatever amounts the source gives and whatever calls are made, the stream
does what it is for if and only if no call is made at an IDAT chunk without data. -/
theorem new_delivers_iff (first : Chunk) (chunks : List Chunk) (next : NextChunk)
    (amounts : Nat → Nat) (calls : List Call) :
    ∃ s, new ⟨first.data ++ (first.crc ++ encode chunks next), amounts, 0⟩ first.data.length =
        .ok s ∧
      (Delivers next s ((first :: chunks).flatMap Chunk.data) calls ↔
        s.AvoidsEmptyChunks calls) := by
  refine ⟨_, by rw [new, if_neg (by omega)], ?_⟩
  rw [flatMap_cons]
  exact delivers_iff calls _ _ (.reading ⟨rfl, first.crc_length, rfl, rfl⟩)

/-- A chunk with the given byte, one without data, and one with another byte. -/
def emptyBetween : List UInt8 :=
  [1] ++ ([0, 0, 0, 0] ++ encode
    [⟨[], by decide, [0, 0, 0, 0], rfl⟩, ⟨[2], by decide, [0, 0, 0, 0], rfl⟩]
    ⟨0, by decide, 0x49454E44, by decide, by decide, []⟩)

/-- The second call returns `-1`, and the third one a byte. -/
theorem read_at_empty_chunk :
    (do
      let s ← new ⟨emptyBetween, fun _ => 4, 0⟩ 1
      let (first, s) ← s.perform .read
      let (second, s) ← s.perform .read
      let (third, s) ← s.perform .read
      pure (first, second, third, s.foundAllIDATChunks)) =
        Except.ok (some [1], none, some [2], false) :=
  rfl

end IdatStream

end OpenJfx.Iio.PngIdat
