import Mathlib.Data.List.Basic
import Mathlib.Algebra.Order.Ring.Int

/-!
Numbers as bytes, decoders that read from the front of a list of bytes, and encoders that write
against a state which the decoder gets to know only as it is in the end.
-/

namespace OpenJfx.Data

open List

/-- The lowest `k` bytes of a number, the most significant one first. -/
def bigEndian : Nat → Nat → List UInt8
  | 0, _ => []
  | k + 1, n => bigEndian k (n / 256) ++ [UInt8.ofNat n]

def ofBigEndian (bytes : List UInt8) : Nat :=
  bytes.foldl (fun n byte => n * 256 + byte.toNat) 0

@[simp] theorem length_bigEndian (k n : Nat) : (bigEndian k n).length = k := by
  induction k generalizing n with
  | zero => rfl
  | succ k ih => rw [bigEndian, length_append, ih, length_singleton]

theorem ofBigEndian_bigEndian (k n : Nat) : ofBigEndian (bigEndian k n) = n % 256 ^ k := by
  induction k generalizing n with
  | zero => rw [Nat.pow_zero, Nat.mod_one]; rfl
  | succ k ih =>
    have hbyte : (UInt8.ofNat n).toNat = n % 256 := UInt8.toNat_ofNat'
    rw [bigEndian, ofBigEndian, foldl_append, ← ofBigEndian, ih, foldl_cons,
      foldl_nil, hbyte, Nat.pow_succ, Nat.mul_comm (256 ^ k), Nat.mod_mul, Nat.mul_comm,
      Nat.add_comm]

theorem ofBigEndian_bigEndian_of_lt {k n : Nat} (h : n < 256 ^ k) :
    ofBigEndian (bigEndian k n) = n := by
  rw [ofBigEndian_bigEndian, Nat.mod_eq_of_lt h]

/-- A decoder takes what it reads from the front of the bytes. -/
abbrev Decoder (ε α : Type) := StateT (List UInt8) (Except ε) α

section Decoders

variable {ε α β : Type}

def nextBytes (eof : ε) (k : Nat) : Decoder ε (List UInt8) := fun bytes =>
  if k ≤ bytes.length then .ok (bytes.take k, bytes.drop k) else .error eof

def times (n : Nat) (d : Decoder ε α) : Decoder ε (List α) :=
  match n with
  | 0 => pure []
  | n + 1 => do
    let a ← d
    let as ← times n d
    pure (a :: as)

/-- The decoder gives `a` for these bytes and reads no further. -/
def Restores (d : Decoder ε α) (bytes : List UInt8) (a : α) : Prop :=
  ∀ rest, d (bytes ++ rest) = .ok (a, rest)

theorem Restores.pure (a : α) : Restores (pure a : Decoder ε α) [] a := fun _ => rfl

variable {d : Decoder ε α} {f : α → Decoder ε β} {bytes : List UInt8} {a : α} {b : β}

theorem Restores.bind {bytes' : List UInt8} (hd : Restores d bytes a)
    (hf : Restores (f a) bytes' b) :
    Restores (d >>= f) (bytes ++ bytes') b := by
  intro rest
  change (d (bytes ++ bytes' ++ rest) >>= fun p => f p.1 p.2) = _
  rw [append_assoc, hd]
  exact hf rest

theorem Restores.bind_nil (hd : Restores d bytes a) (hf : Restores (f a) [] b) :
    Restores (d >>= f) bytes b :=
  append_nil bytes ▸ hd.bind hf

theorem Restores.bind_pure (hd : Restores d bytes a) (f : α → β) :
    Restores (do let x ← d; return f x) bytes (f a) :=
  hd.bind_nil (.pure (f a))

theorem Restores.map (hd : Restores d bytes a) (f : α → β) : Restores (f <$> d) bytes (f a) := by
  intro rest
  change (d (bytes ++ rest) >>= fun p => .ok (f p.1, p.2)) = _
  rw [hd]
  rfl

theorem restores_nextBytes (eof : ε) (bytes : List UInt8) :
    Restores (nextBytes eof bytes.length) bytes bytes := by
  intro rest
  have hle : bytes.length ≤ (bytes ++ rest).length := by
    rw [length_append]
    exact Nat.le_add_right _ _
  rw [nextBytes, if_pos hle, take_left, drop_left]

theorem restores_bigEndian (eof : ε) (k n : Nat) :
    Restores (ofBigEndian <$> nextBytes eof k) (bigEndian k n) (n % 256 ^ k) := by
  have h := restores_nextBytes eof (bigEndian k n)
  rw [length_bigEndian] at h
  rw [← ofBigEndian_bigEndian]
  exact h.map ofBigEndian

theorem Restores.run_eq (h : Restores d bytes a) :
    d bytes = .ok (a, []) := by
  have hrest := h []
  rwa [append_nil] at hrest

end Decoders

/-- An encoder gives the bytes that it writes and changes its state. -/
abbrev Encoder (σ ε : Type) := σ → Except ε (List UInt8 × σ)

section Encoders

variable {σ τ ε α β : Type}

def emit (bytes : List UInt8) : Encoder σ ε := fun s => .ok (bytes, s)

instance : Append (Encoder σ ε) where
  append first second := fun s => do
    let (bytes, s) ← first s
    let (bytes', s) ← second s
    pure (bytes ++ bytes', s)

def writeAll (w : α → Encoder σ ε) : List α → Encoder σ ε
  | [] => emit []
  | a :: as => w a ++ writeAll w as

variable {first second : Encoder σ ε} {bytes : List UInt8}

theorem append_eq_ok {s s'' : σ} (h : (first ++ second) s = .ok (bytes, s'')) :
    ∃ bytes₁ s' bytes₂, first s = .ok (bytes₁, s') ∧ second s' = .ok (bytes₂, s'') ∧
      bytes = bytes₁ ++ bytes₂ := by
  change (first s >>= fun p => second p.2 >>= fun q => .ok (p.1 ++ q.1, q.2)) = _ at h
  rcases hfst : first s with err | ⟨bytes₁, s'⟩
  · rw [hfst] at h
    cases h
  · rw [hfst] at h
    change (second s' >>= fun q => .ok (bytes₁ ++ q.1, q.2)) = _ at h
    rcases hsnd : second s' with err | ⟨bytes₂, s₂⟩
    · rw [hsnd] at h
      cases h
    · rw [hsnd] at h
      cases h
      exact ⟨bytes₁, s', bytes₂, rfl, hsnd, rfl⟩

theorem encoder_append_assoc (first second third : Encoder σ ε) :
    first ++ second ++ third = first ++ (second ++ third) := by
  funext s
  change (first s >>= fun p => second p.2 >>= fun q => .ok (p.1 ++ q.1, q.2)) >>= (fun r =>
      third r.2 >>= fun t => .ok (r.1 ++ t.1, t.2)) =
    first s >>= fun p => (second p.2 >>= fun q => third q.2 >>= fun t => .ok (q.1 ++ t.1, t.2)) >>=
      fun r => .ok (p.1 ++ r.1, r.2)
  rcases first s with err | ⟨bytes, s⟩
  · rfl
  · change (second s >>= fun q => Except.ok (bytes ++ q.1, q.2)) >>= (fun r =>
        third r.2 >>= fun t => .ok (r.1 ++ t.1, t.2)) =
      (second s >>= fun q => third q.2 >>= fun t => .ok (q.1 ++ t.1, t.2)) >>=
        fun r => .ok (bytes ++ r.1, r.2)
    rcases second s with err | ⟨bytes', s⟩
    · rfl
    · change (third s >>= fun t => Except.ok (bytes ++ bytes' ++ t.1, t.2)) =
        (third s >>= fun t => .ok (bytes' ++ t.1, t.2)) >>= fun r => .ok (bytes ++ r.1, r.2)
      rcases third s with err | ⟨bytes'', s⟩
      · rfl
      · exact congrArg (fun bytes => Except.ok (bytes, s)) (append_assoc ..)

def WritesAtLeast (w : Encoder σ ε) (n : Nat) : Prop :=
  ∀ s bytes s', w s = .ok (bytes, s') → n ≤ bytes.length

theorem WritesAtLeast.append {n m : Nat} (hfst : WritesAtLeast first n)
    (hsnd : WritesAtLeast second m) :
    WritesAtLeast (first ++ second) (n + m) := by
  intro s bytes s'' h
  rcases append_eq_ok h with ⟨bytes₁, s', bytes₂, h₁, h₂, rfl⟩
  rw [length_append]
  exact Nat.add_le_add (hfst s bytes₁ s' h₁) (hsnd s' bytes₂ s'' h₂)

theorem WritesAtLeast.zero (w : Encoder σ ε) : WritesAtLeast w 0 := fun _ _ _ _ => Nat.zero_le _

theorem WritesAtLeast.emit (bytes : List UInt8) :
    WritesAtLeast (emit bytes : Encoder σ ε) bytes.length := by
  intro s bytes' s' h
  cases h
  exact Nat.le_refl _

variable {w : Encoder σ ε}

theorem WritesAtLeast.of_le {n m : Nat} (h : WritesAtLeast w m) (hle : n ≤ m) :
    WritesAtLeast w n :=
  fun s bytes s' hw => Nat.le_trans hle (h s bytes s' hw)

/-- The decoder gets a `t` that knows what the state of the encoder has become. It then knows all
earlier states, and gives `a` for what the encoder has written. -/
def Codes (knows : σ → τ → Prop) (w : Encoder σ ε) (read : τ → Decoder ε α) (a : α) : Prop :=
  ∀ s bytes s', w s = .ok (bytes, s') → ∀ t, knows s' t → knows s t ∧ Restores (read t) bytes a

variable {knows : σ → τ → Prop}

variable {a : α}

theorem Codes.emit {d : Decoder ε α} (h : Restores d bytes a) :
    Codes knows (emit bytes) (fun _ => d) a := by
  intro s bytes' s' hw t hknows
  cases hw
  exact ⟨hknows, h⟩

variable {read' : τ → α → Decoder ε β} {b : β}

variable {read : τ → Decoder ε α}

theorem Codes.append (hfst : Codes knows first read a)
    (hsnd : Codes knows second (fun t => read' t a) b) :
    Codes knows (first ++ second) (fun t => read t >>= read' t) b := by
  intro s bytes s'' hw t hknows
  rcases append_eq_ok hw with ⟨bytes₁, s', bytes₂, h₁, h₂, rfl⟩
  rcases hsnd s' bytes₂ s'' h₂ t hknows with ⟨hknows', hrest₂⟩
  rcases hfst s bytes₁ s' h₁ t hknows' with ⟨hknows'', hrest₁⟩
  exact ⟨hknows'', hrest₁.bind hrest₂⟩

theorem Codes.bind_nil (h : Codes knows w read a) (hread' : ∀ t, Restores (read' t a) [] b) :
    Codes knows w (fun t => read t >>= read' t) b := by
  intro s bytes s' hw t hknows
  rcases h s bytes s' hw t hknows with ⟨hknows', hrest⟩
  exact ⟨hknows', hrest.bind_nil (hread' t)⟩

theorem Codes.bind_pure (h : Codes knows w read a) (f : α → β) :
    Codes knows w (fun t => do let x ← read t; return f x) (f a) :=
  h.bind_nil fun _ => .pure (f a)

theorem Codes.writeAll {w : α → Encoder σ ε} {read : τ → Decoder ε β} {f : α → β} (as : List α)
    (h : ∀ a ∈ as, Codes knows (w a) read (f a)) :
    Codes knows (writeAll w as) (fun t => times as.length (read t)) (as.map f) := by
  induction as with
  | nil => exact .emit (.pure [])
  | cons a as ih =>
    have hfst := h a mem_cons_self
    have hrest := ih fun a' ha' => h a' (mem_cons_of_mem a ha')
    exact hfst.append (hrest.bind_pure (f a :: ·))

/-- The decoder gives something that is related to what the encoder has written. -/
def CodesTo (knows : σ → τ → Prop) (w : Encoder σ ε) (read : τ → Decoder ε α)
    (P : τ → α → Prop) : Prop :=
  ∀ s bytes s', w s = .ok (bytes, s') → ∀ t, knows s' t →
    knows s t ∧ ∃ a, P t a ∧ Restores (read t) bytes a

theorem Codes.to (h : Codes knows w read a) :
    CodesTo knows w read fun _ b => b = a := by
  intro s bytes s' hw t hknows
  rcases h s bytes s' hw t hknows with ⟨hknows', hrest⟩
  exact ⟨hknows', a, rfl, hrest⟩

theorem Codes.appendTo {P : τ → β → Prop} (hfst : Codes knows first read a)
    (hsnd : CodesTo knows second (fun t => read' t a) P) :
    CodesTo knows (first ++ second) (fun t => read t >>= read' t) P := by
  intro s bytes s'' hw t hknows
  rcases append_eq_ok hw with ⟨bytes₁, s', bytes₂, h₁, h₂, rfl⟩
  rcases hsnd s' bytes₂ s'' h₂ t hknows with ⟨hknows', b, hb, hrest₂⟩
  rcases hfst s bytes₁ s' h₁ t hknows' with ⟨hknows'', hrest₁⟩
  exact ⟨hknows'', b, hb, hrest₁.bind hrest₂⟩

theorem CodesTo.append {γ : Type} {read' : τ → Decoder ε β} {P : τ → α → Prop} {Q : τ → β → Prop}
    (hfst : CodesTo knows first read P) (hsnd : CodesTo knows second read' Q) (f : τ → α → β → γ) :
    CodesTo knows (first ++ second) (fun t => do let a ← read t; let b ← read' t; pure (f t a b))
      fun t c => ∃ a b, P t a ∧ Q t b ∧ c = f t a b := by
  intro s bytes s'' hw t hknows
  rcases append_eq_ok hw with ⟨bytes₁, s', bytes₂, h₁, h₂, rfl⟩
  rcases hsnd s' bytes₂ s'' h₂ t hknows with ⟨hknows', b, hb, hrest₂⟩
  rcases hfst s bytes₁ s' h₁ t hknows' with ⟨hknows'', a, ha, hrest₁⟩
  exact ⟨hknows'', f t a b, ⟨a, b, ha, hb, rfl⟩, hrest₁.bind (hrest₂.bind_pure (f t a))⟩

theorem CodesTo.imp {P Q : τ → α → Prop} (h : CodesTo knows w read P) (hPQ : ∀ t a, P t a → Q t a) :
    CodesTo knows w read Q := by
  intro s bytes s' hw t hknows
  rcases h s bytes s' hw t hknows with ⟨hknows', a, ha, hrest⟩
  exact ⟨hknows', a, hPQ t a ha, hrest⟩

theorem CodesTo.writeAll {w : α → Encoder σ ε} {read : τ → Decoder ε β}
    {R : τ → α → β → Prop} (as : List α)
    (h : ∀ a ∈ as, CodesTo knows (w a) read fun t b => R t a b) :
    CodesTo knows (writeAll w as) (fun t => times as.length (read t))
      fun t bs => List.Forall₂ (R t) as bs := by
  induction as with
  | nil => exact (Codes.emit (.pure [])).to.imp fun _ bs hbs => hbs ▸ .nil
  | cons a as ih =>
    have hfst := h a mem_cons_self
    have hrest := ih fun a' ha' => h a' (mem_cons_of_mem a ha')
    refine (hfst.append hrest fun _ => List.cons).imp ?_
    rintro t _ ⟨b, bs, hb, hbs, rfl⟩
    exact .cons hb hbs

end Encoders

end OpenJfx.Data
