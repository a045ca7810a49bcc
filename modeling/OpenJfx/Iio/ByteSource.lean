import OpenJfx.Java.Arrays
import OpenJfx.Java.DataStream

namespace OpenJfx.Iio

open Data Java List

inductive IOFailure where
  | eof
  | invalidChunkLength
  | invalidImage

/-- The bytes of the stream, and how many of them it is willing to give at each request. -/
structure ByteSource where
  bytes : List UInt8
  amounts : Nat → Nat
  requests : Nat

namespace ByteSource

def advance (s : ByteSource) (k : Nat) : ByteSource :=
  { s with bytes := s.bytes.drop k, requests := s.requests + 1 }

/-- `read(b, off, n)` for `n > 0`: at least one byte, or nothing at the end. -/
def readSome (s : ByteSource) (n : Nat) : Option (List UInt8 × ByteSource) :=
  if s.bytes = [] then none
  else
    let k := max 1 (min n (s.amounts s.requests))
    some (s.bytes.take k, s.advance k)

def read (s : ByteSource) : Option (UInt8 × ByteSource) :=
  match s.bytes with
  | [] => none
  | b :: _ => some (b, s.advance 1)

def skip (s : ByteSource) (n : Nat) : Nat × ByteSource :=
  let k := min (min n (s.amounts s.requests)) s.bytes.length
  (k, s.advance k)

def skipLoop : Nat → Nat → ByteSource → Except IOFailure ByteSource
  | 0, _, s => .ok s
  | turns + 1, n, s =>
    if 0 < n then
      let (skipped, s) := s.skip n
      if skipped = 0 then
        match s.read with
        | none => .error .eof
        | some (_, s) => skipLoop turns (n - 1) s
      else skipLoop turns (n - skipped) s
    else .ok s

def skipFully (s : ByteSource) (n : Nat) : Except IOFailure ByteSource := skipLoop n n s

def readLoop : Nat → Nat → ByteSource → Except IOFailure (List UInt8 × ByteSource)
  | 0, _, s => .ok ([], s)
  | turns + 1, len, s =>
    if 0 < len then
      match s.readSome len with
      | none => .error .eof
      | some (bytes, s) => do
        let (more, s) ← readLoop turns (len - bytes.length) s
        pure (bytes ++ more, s)
    else .ok ([], s)

/-- `readFully(stream, b, off, len)`, with the bytes that it writes into `b`. -/
def readFully (s : ByteSource) (len : Nat) : Except IOFailure (List UInt8 × ByteSource) :=
  readLoop len len s

def readInt (s : ByteSource) : Except IOFailure (Int × ByteSource) :=
  match DataStream.readInt s.bytes with
  | .ok (n, bytes) => .ok (n, { s with bytes := bytes, requests := s.requests + 1 })
  | .error _ => .error .eof

variable {s s' : ByteSource} {n k : Nat}

theorem skip_spec (h : s.skip n = (k, s')) :
    k ≤ n ∧ s'.bytes = s.bytes.drop k := by
  rcases h with ⟨rfl, rfl⟩
  exact ⟨by omega, rfl⟩

theorem skip_le (h : s.skip n = (k, s')) :
    k ≤ s.bytes.length := by
  rw [Prod.mk.injEq] at h
  exact h.1 ▸ Nat.min_le_right _ _

theorem skipLoop_spec (turns : Nat) :
    ∀ (s : ByteSource) (front back : List UInt8), s.bytes = front ++ back →
      front.length ≤ turns →
      ∃ s', skipLoop turns front.length s = .ok s' ∧ s'.bytes = back := by
  induction turns with
  | zero =>
    intro s front back hbytes hle
    have hnil : front = [] := eq_nil_of_length_eq_zero (by omega)
    exact ⟨s, rfl, by rw [hbytes, hnil, nil_append]⟩
  | succ turns ih =>
    intro s front back hbytes hle
    cases front with
    | nil => exact ⟨s, rfl, hbytes⟩
    | cons b front =>
      rcases hskip : s.skip (b :: front).length with ⟨k, s₁⟩
      rcases skip_spec hskip with ⟨hk, hs₁⟩
      rw [hbytes, drop_append_of_le_length hk] at hs₁
      simp only [skipLoop, length_cons, Nat.succ_pos, if_true] at hskip ⊢
      simp only [hskip]
      split_ifs with hzero
      · subst hzero
        simp only [drop_zero, cons_append] at hs₁
        simp only [read, hs₁]
        refine ih _ front back ?_ (by simpa using hle)
        rw [advance]
        simp only [hs₁, drop_succ_cons, drop_zero]
      · have hlen : front.length + 1 - k = ((b :: front).drop k).length := by
          rw [length_drop, length_cons]
        rw [hlen]
        refine ih s₁ _ back hs₁ ?_
        rw [length_drop]
        omega

variable {front back : List UInt8}

theorem skipFully_spec (h : s.bytes = front ++ back) :
    ∃ s', s.skipFully front.length = .ok s' ∧ s'.bytes = back :=
  skipLoop_spec front.length s front back h le_rfl

theorem skipFully_ok (s : ByteSource) (h : n ≤ s.bytes.length) :
    ∃ s', s.skipFully n = .ok s' ∧ s'.bytes = s.bytes.drop n := by
  have hspec := skipFully_spec (take_append_drop n s.bytes).symm
  rw [length_take, Nat.min_eq_left h] at hspec
  exact hspec

theorem readInt_spec (hn : n < 256 ^ 4) (h : s.bytes = DataStream.writeInt n ++ back) :
    ∃ s', s.readInt = .ok (DataStream.signed 4 n, s') ∧ s'.bytes = back := by
  have hrest := (restores_bigEndian Thrown.eof 4 n).map (DataStream.signed 4)
  rw [Nat.mod_eq_of_lt hn] at hrest
  have hread : DataStream.readInt s.bytes = .ok (DataStream.signed 4 n, back) := by
    rw [h]
    exact hrest back
  refine ⟨_, by rw [readInt, hread], rfl⟩

theorem readSome_spec (hn : 0 < n) (h : s.bytes = front ++ back) (hlen : n ≤ front.length) :
    ∃ part rest s', s.readSome n = some (part, s') ∧ front = part ++ rest ∧ part ≠ [] ∧
      part.length ≤ n ∧ s'.bytes = rest ++ back := by
  have hne : s.bytes ≠ [] := by
    rw [h]
    intro hnil
    rw [append_eq_nil_iff] at hnil
    rw [hnil.1, length_nil] at hlen
    omega
  simp only [readSome, if_neg hne]
  generalize hk : max 1 (min n (s.amounts s.requests)) = k
  have hle : k ≤ front.length := by omega
  refine ⟨front.take k, front.drop k, s.advance k, ?_, ?_, ?_, ?_, ?_⟩
  · rw [h, take_append_of_le_length hle]
  · rw [take_append_drop]
  · intro hnil
    have := congrArg List.length hnil
    rw [length_take, length_nil] at this
    omega
  · rw [length_take]
    omega
  · rw [advance]
    simp only [h]
    rw [drop_append_of_le_length hle]

theorem readSome_nil (h : s.bytes = []) (n : Nat) : s.readSome n = none :=
  if_pos h

theorem readSome_cons (h : s.bytes ≠ []) (hn : 0 < n) :
    ∃ k s', 0 < k ∧ k ≤ n ∧ s.readSome n = some (s.bytes.take k, s') ∧
      s'.bytes = s.bytes.drop k :=
  ⟨max 1 (min n (s.amounts s.requests)), _, by omega, by omega, if_neg h, rfl⟩

theorem readLoop_ok (turns : Nat) :
    ∀ (s : ByteSource) (len : Nat), len ≤ turns → len ≤ s.bytes.length →
      ∃ s', readLoop turns len s = .ok (s.bytes.take len, s') ∧ s'.bytes = s.bytes.drop len := by
  induction turns with
  | zero =>
    intro s len hle _
    rw [Nat.le_zero.mp hle]
    exact ⟨s, rfl, rfl⟩
  | succ turns ih =>
    intro s len hle hlength
    rw [readLoop]
    split_ifs with hlen
    · have hne : s.bytes ≠ [] := ne_nil_of_length_pos (hlen.trans_le hlength)
      obtain ⟨k, s₁, hk, hkn, hread, hs₁⟩ := readSome_cons hne hlen
      have htaken : (s.bytes.take k).length = k := by
        rw [length_take]
        omega
      have hrest : len - k ≤ s₁.bytes.length := by
        rw [hs₁, length_drop]
        omega
      obtain ⟨s', hmore, hs'⟩ := ih s₁ (len - k) (by omega) hrest
      have hjoin : s.bytes.take len = s.bytes.take k ++ s₁.bytes.take (len - k) := by
        rw [hs₁, ← take_add, Nat.add_sub_cancel' hkn]
      refine ⟨s', ?_, ?_⟩
      · simp only [hread, htaken, hmore, hjoin]
        rfl
      · rw [hs', hs₁, drop_drop, Nat.add_sub_cancel' hkn]
    · rw [Nat.eq_zero_of_not_pos hlen]
      exact ⟨s, rfl, rfl⟩

theorem readLoop_eof (turns : Nat) :
    ∀ (s : ByteSource) (len : Nat), len ≤ turns → s.bytes.length < len →
      readLoop turns len s = .error .eof := by
  induction turns with
  | zero =>
    omega
  | succ turns ih =>
    intro s len hle hlen
    rw [readLoop, if_pos (by omega)]
    rcases eq_nil_or_concat s.bytes with hnil | ⟨_, _, hne⟩
    · rw [readSome_nil hnil]
    · have hne : s.bytes ≠ [] := by simp [hne]
      obtain ⟨k, s₁, hk, hkn, hread, hs₁⟩ := readSome_cons hne (by omega : 0 < len)
      have hmore := ih s₁ (len - (s.bytes.take k).length)
        (by have hpos := length_pos_of_ne_nil hne; rw [length_take]; omega)
        (by rw [hs₁, length_drop, length_take]; omega)
      simp only [hread, hmore]
      rfl

theorem skipLoop_eof (turns : Nat) :
    ∀ (s : ByteSource) (n : Nat), n ≤ turns → s.bytes.length < n →
      skipLoop turns n s = .error .eof := by
  induction turns with
  | zero =>
    omega
  | succ turns ih =>
    intro s n hle hlen
    rcases hskip : s.skip n with ⟨k, s₁⟩
    rcases skip_spec hskip with ⟨hk, hs₁⟩
    have hlen₁ := congrArg List.length hs₁
    rw [length_drop] at hlen₁
    have hkle := skip_le hskip
    simp only [skipLoop, hskip, if_pos (show 0 < n by omega)]
    split_ifs with hzero
    · cases hbytes : s₁.bytes with
      | nil => simp only [read, hbytes]
      | cons b bytes =>
        simp only [read, hbytes]
        rw [hbytes, length_cons] at hlen₁
        apply ih _ _ (by omega)
        rw [advance]
        simp only [hbytes, drop_succ_cons, drop_zero]
        omega
    · apply ih _ _ (by omega)
      omega

end ByteSource

/-- The size of an image that `load` is asked for. -/
structure Request where
  imageIndex : Int
  width : Int
  height : Int
  preserveAspectRatio : Bool
  smooth : Bool

/-- The methods of `ImageTools` that `load` calls beside those that read. -/
structure Scaling where
  computeDimensions (sourceWidth sourceHeight maxWidth maxHeight : Int)
    (preserveAspectRatio : Bool) : Int × Int
  scaleImage (src : List UInt8) (sourceWidth sourceHeight bpp destWidth destHeight : Int)
    (smooth : Bool) : Arrays.Outcome (List UInt8)

/-- What `ImageTools` does if no size is asked for. -/
def unscaled : Scaling where
  computeDimensions sourceWidth sourceHeight _ _ _ := (sourceWidth, sourceHeight)
  scaleImage src _ _ _ _ _ _ := .ok src

def sourceSize : Request := ⟨0, 0, 0, false, false⟩

end OpenJfx.Iio
