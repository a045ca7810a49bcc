import OpenJfx.Iio.LzwDecoder
import OpenJfx.Data.Loop
import OpenJfx.Data.RowMajor
import Mathlib.Data.List.GetD

namespace OpenJfx.Iio.Gif

open Data Data.TurnLoop Java.Arrays List

/-- `for (int i = start; i < h; i += step) data[pos++] = i`. The first argument bounds the number
of turns; the step is positive. -/
def fillRows (h step : Nat) : Nat → Nat → List Nat × Nat → Outcome (List Nat × Nat)
  | 0, _, s => .ok s
  | turns + 1, i, (data, pos) =>
    if i < h then
      match store data pos i with
      | .ok data => fillRows h step turns (i + step) (data, pos + 1)
      | .error e => .error e
    else .ok (data, pos)

def computeInterlaceReIndex (h : Nat) : Outcome (List Nat) := do
  let s ← fillRows h 8 h 0 (List.replicate h 0, 0)
  let s ← fillRows h 8 h 4 s
  let s ← fillRows h 4 h 2 s
  let s ← fillRows h 2 h 1 s
  pure s.1

/-- What `decodeImage` calls of an `LZWDecoder`. A string is given back as the bytes that
`getString` gives access to. -/
structure StringReader (σ : Type) where
  readString : σ → Except LzwFailure (Option (List UInt8) × σ)
  waitForTerminator : σ → Except LzwFailure σ

namespace StringReader

variable {σ : Type} (r : StringReader σ)

/-- The local variables of `decodeImage`, with the string that was read last. -/
structure Locals (σ : Type) where
  dec : σ
  string : List UInt8
  pos : Nat
  image : List UInt8
  y : Nat
  iPos : Nat
  xr : Nat

/-- The image as the method leaves it, and whether it returns or throws. -/
abbrev Decoded (σ : Type) := List UInt8 × Except LzwFailure σ

section

variable (w h : Nat) (interlace : Option (List Nat)) (st : Locals σ)

def readNext : Turn (Locals σ) (Decoded σ) :=
  match r.readString st.dec with
  | .error e => .ends (st.image, .error e)
  | .ok (none, dec) => .ends (st.image, r.waitForTerminator dec)
  | .ok (some string, dec) => .goesOn { st with dec := dec, string := string, pos := 0 }

def rowAt (y : Nat) : Option Nat :=
  match interlace with
  | none => some y
  | some table => table[y]?

/-- A turn of the inner loop. -/
def copyPart : Turn (Locals σ) (Decoded σ) :=
  let ax := if st.xr < st.string.length - st.pos then st.xr else st.string.length - st.pos
  match arraycopy st.string st.pos st.image st.iPos ax with
  | .error _ => .ends (st.image, .error .indexOutOfBounds)
  | .ok image =>
    if st.xr - ax = 0 then
      if st.y + 1 = h then .ends (image, r.waitForTerminator st.dec)
      else
        match rowAt interlace (st.y + 1) with
        | none => .ends (image, .error .indexOutOfBounds)
        | some iY => .goesOn { st with
            pos := st.pos + ax
            image := image
            y := st.y + 1
            iPos := iY * w
            xr := w }
    else .goesOn { st with
      pos := st.pos + ax
      image := image
      iPos := st.iPos + ax
      xr := st.xr - ax }

def turn : Turn (Locals σ) (Decoded σ) :=
  if st.pos = st.string.length then r.readNext st else r.copyPart w h interlace st

end

/-- The method as far as it ends within so many turns of its two loops. -/
def decodeImage (turns : Nat) (image : List UInt8) (w h : Nat) (interlace : Option (List Nat))
    (dec : σ) : Option (Decoded σ) :=
  run (r.turn w h interlace) turns ⟨dec, [], 0, image, 0, 0, w⟩

end StringReader

def consumeBlocks : Nat → ByteSource → Except LzwFailure ByteSource
  | 0, _ => .error .eof
  | turns + 1, source => do
    let (blSize, source) ← LzwInput.readByte source
    if blSize = 0 then pure source
    else
      match source.skipFully blSize.toNat with
      | .ok source => consumeBlocks turns source
      | .error _ => .error .eof

def consumeAnExtension (source : ByteSource) : Except LzwFailure ByteSource :=
  consumeBlocks (source.bytes.length + 1) source

def lzwReader : StringReader LzwDecoder where
  readString := LzwDecoder.readString
  waitForTerminator dec := do
    let source ← consumeAnExtension dec.input.source
    pure { dec with input := { dec.input with source := source } }

namespace StringReader

variable {σ : Type} (r : StringReader σ)

/-- The strings are what the decoder gives on the way from one state to another. -/
inductive Delivers : List (List UInt8) → σ → σ → Prop
  | nil (dec : σ) : Delivers [] dec dec
  | cons {string : List UInt8} {strings : List (List UInt8)} {dec dec' dec'' : σ} :
      r.readString dec = .ok (some string, dec') → Delivers strings dec' dec'' →
      Delivers (string :: strings) dec dec''

end StringReader

section InterlaceTable

def rowCount (h start step : Nat) : Nat := (h + step - 1 - start) / step

def rowsFrom (h start step : Nat) : List Nat := List.range' start (rowCount h start step) step

def interlacedRows (h : Nat) : List Nat :=
  rowsFrom h 0 8 ++ rowsFrom h 4 8 ++ rowsFrom h 2 4 ++ rowsFrom h 1 2

variable {h start step : Nat}

theorem mem_rowsFrom (hstart : start < step) {i : Nat} :
    i ∈ rowsFrom h start step ↔ i < h ∧ i % step = start := by
  have hcnt : ∀ k, k < rowCount h start step ↔ start + step * k < h := by
    intro k
    rw [rowCount, Nat.lt_iff_add_one_le, Nat.le_div_iff_mul_le (by omega), Nat.add_one_mul,
      Nat.mul_comm k]
    omega
  rw [rowsFrom, mem_range']
  constructor
  · rintro ⟨k, hk, rfl⟩
    exact ⟨(hcnt k).mp hk, by rw [Nat.add_mul_mod_self_left, Nat.mod_eq_of_lt hstart]⟩
  · rintro ⟨hi, hmod⟩
    have hdiv := Nat.mod_add_div i step
    rw [hmod] at hdiv
    exact ⟨i / step, (hcnt _).mpr (by omega), hdiv.symm⟩

theorem nodup_rowsFrom (hstep : 0 < step) : (rowsFrom h start step).Nodup :=
  nodup_range' step hstep

theorem mem_interlacedRows (i : Nat) : i ∈ interlacedRows h ↔ i < h := by
  have h₀ : i ∈ rowsFrom h 0 8 ↔ i < h ∧ i % 8 = 0 := mem_rowsFrom (by decide)
  have h₄ : i ∈ rowsFrom h 4 8 ↔ i < h ∧ i % 8 = 4 := mem_rowsFrom (by decide)
  have h₂ : i ∈ rowsFrom h 2 4 ↔ i < h ∧ i % 4 = 2 := mem_rowsFrom (by decide)
  have h₁ : i ∈ rowsFrom h 1 2 ↔ i < h ∧ i % 2 = 1 := mem_rowsFrom (by decide)
  rw [interlacedRows, mem_append, mem_append, mem_append, h₀, h₄, h₂, h₁]
  omega

theorem nodup_interlacedRows (h : Nat) : (interlacedRows h).Nodup := by
  simp only [interlacedRows, nodup_append, mem_append]
  refine ⟨⟨⟨nodup_rowsFrom (by decide), nodup_rowsFrom (by decide), ?_⟩,
    nodup_rowsFrom (by decide), ?_⟩, nodup_rowsFrom (by decide), ?_⟩
  · intro i hi j hj
    have := (mem_rowsFrom (by decide)).mp hi
    have := (mem_rowsFrom (by decide)).mp hj
    omega
  · intro i hi j hj
    have hj := (mem_rowsFrom (by decide)).mp hj
    rcases hi with hi | hi
    · have := (mem_rowsFrom (by decide)).mp hi
      omega
    · have := (mem_rowsFrom (by decide)).mp hi
      omega
  · intro i hi j hj
    have hj := (mem_rowsFrom (by decide)).mp hj
    rcases hi with (hi | hi) | hi
    · have := (mem_rowsFrom (by decide)).mp hi
      omega
    · have := (mem_rowsFrom (by decide)).mp hi
      omega
    · have := (mem_rowsFrom (by decide)).mp hi
      omega

theorem interlacedRows_perm (h : Nat) : (interlacedRows h).Perm (List.range h) := by
  apply (perm_ext_iff_of_nodup (nodup_interlacedRows h) nodup_range).mpr
  intro i
  rw [mem_interlacedRows, mem_range]

theorem rowCount_of_le (hstep : 0 < step) (hle : h ≤ start) : rowCount h start step = 0 := by
  rw [rowCount, Nat.div_eq_zero_iff]
  omega

theorem rowCount_of_lt (hstep : 0 < step) (hlt : start < h) :
    rowCount h start step = rowCount h (start + step) step + 1 := by
  have hsum : h + step - 1 - start = h + step - 1 - (start + step) + step := by omega
  rw [rowCount, rowCount, hsum, Nat.add_div_right _ hstep]

theorem fillRows_eq (hstep : 0 < step) (turns : Nat) :
    ∀ (start : Nat) (front data : List Nat), front <+: data →
      front.length + rowCount h start step ≤ data.length → rowCount h start step ≤ turns →
      ∃ data', fillRows h step turns start (data, front.length) =
          .ok (data', (front ++ rowsFrom h start step).length) ∧
        front ++ rowsFrom h start step <+: data' ∧ data'.length = data.length := by
  induction turns with
  | zero =>
    intro start front data hfront _ hturns
    have hemp : rowsFrom h start step = [] := by
      rw [rowsFrom, Nat.le_zero.mp hturns, range'_zero]
    rw [hemp, append_nil]
    exact ⟨data, rfl, hfront, rfl⟩
  | succ turns ih =>
    intro start front data hfront hroom hturns
    rcases Nat.lt_or_ge start h with hlt | hge
    · have hcnt := rowCount_of_lt hstep hlt
      obtain ⟨data₁, hstore, hfront₁, hlen₁⟩ := store_end start hfront (by omega)
      obtain ⟨data', hdata', hpre, hlen⟩ := ih (start + step) (front ++ [start]) data₁
        hfront₁ (by rw [length_append, length_singleton]; omega) (by omega)
      have hrows : rowsFrom h start step = start :: rowsFrom h (start + step) step := by
        rw [rowsFrom, hcnt, range'_succ, rowsFrom]
      rw [hrows, ← singleton_append, ← append_assoc]
      refine ⟨data', ?_, hpre, hlen.trans hlen₁⟩
      rw [fillRows, if_pos hlt]
      simp only [hstore]
      rw [length_append] at hdata'
      exact hdata'
    · have hemp : rowsFrom h start step = [] := by
        rw [rowsFrom, rowCount_of_le hstep hge, range'_zero]
      rw [hemp, append_nil]
      refine ⟨data, ?_, hfront, rfl⟩
      rw [fillRows, if_neg (by omega)]

theorem fillRows_table (start : Nat) (hstep : 0 < step) {front data : List Nat}
    (hfront : front <+: data) (hlen : data.length = h)
    (hroom : front.length + rowCount h start step ≤ h) :
    ∃ data', fillRows h step h start (data, front.length) =
        .ok (data', (front ++ rowsFrom h start step).length) ∧
      front ++ rowsFrom h start step <+: data' ∧ data'.length = h := by
  obtain ⟨data', hdata', hpre, hlen'⟩ :=
    fillRows_eq (h := h) hstep h start front data hfront (by omega) (by omega)
  exact ⟨data', hdata', hpre, hlen'.trans hlen⟩

theorem length_interlacedRows (h : Nat) : (interlacedRows h).length = h := by
  rw [(interlacedRows_perm h).length_eq, length_range]

theorem computeInterlaceReIndex_eq (h : Nat) :
    computeInterlaceReIndex h = .ok (interlacedRows h) := by
  have hlen : ∀ start step, (rowsFrom h start step).length = rowCount h start step := fun _ _ =>
    length_range'
  have htotal := length_interlacedRows h
  simp only [interlacedRows, length_append, hlen] at htotal
  obtain ⟨data₁, hdata₁, hpre₁, hlen₁⟩ := fillRows_table 0 (by decide : 0 < 8)
    ( nil_prefix (l := List.replicate h 0)) length_replicate
    (by rw [length_nil]; omega)
  obtain ⟨data₂, hdata₂, hpre₂, hlen₂⟩ := fillRows_table 4 (by decide : 0 < 8) hpre₁
    hlen₁ (by simp only [length_append, length_nil, hlen]; omega)
  obtain ⟨data₃, hdata₃, hpre₃, hlen₃⟩ := fillRows_table 2 (by decide : 0 < 4) hpre₂
    hlen₂ (by simp only [length_append, length_nil, hlen]; omega)
  obtain ⟨data₄, hdata₄, hpre₄, hlen₄⟩ := fillRows_table 1 (by decide : 0 < 2) hpre₃
    hlen₃ (by simp only [length_append, length_nil, hlen]; omega)
  have heq : interlacedRows h = data₄ := by
    apply hpre₄.eq_of_length
    rw [hlen₄]
    exact length_interlacedRows h
  rw [length_nil] at hdata₁
  rw [computeInterlaceReIndex, hdata₁, ok_bind, hdata₂, ok_bind, hdata₃, ok_bind, hdata₄, heq]
  rfl

end InterlaceTable

section Placement

/-- The place of the pixel `k` of the stream in an image of width `w`, of which the row `y` comes
from the row `row y` of the stream. -/
def place (row : Nat → Nat) (w k : Nat) : Nat := row (k / w) * w + k % w

variable {row : Nat → Nat} {w h : Nat}

/-- The stream goes through the rows of the image, each of them once. -/
structure IsRowOrder (row : Nat → Nat) (h : Nat) : Prop where
  zero_eq : row 0 = 0
  lt : ∀ y < h, row y < h
  inj : ∀ y < h, ∀ y' < h, row y = row y' → y = y'

theorem place_eq {y x : Nat} (hx : x < w) : place row w (y * w + x) = row y * w + x := by
  have hdiv : (y * w + x) / w = y := by
    rw [Nat.add_comm, Nat.add_mul_div_right _ _ (by omega), Nat.div_eq_of_lt hx, Nat.zero_add]
  have hmod : (y * w + x) % w = x := by
    rw [Nat.add_comm, Nat.add_mul_mod_self_right, Nat.mod_eq_of_lt hx]
  rw [place, hdiv, hmod]

theorem place_apart (hrow : IsRowOrder row h) {y x ax : Nat} (hy : y < h) (hax : x + ax ≤ w)
    (hw : 0 < w) {j : Nat} (hj : j < y * w + x) :
    ¬ (row y * w + x ≤ place row w j ∧ place row w j < row y * w + x + ax) := by
  have hmod : j % w < w := Nat.mod_lt j hw
  have hdiv : j / w * w + j % w = j := Nat.div_add_mod' j w
  rcases Nat.lt_trichotomy (j / w) y with hlt | heq | hgt
  · have hne : row (j / w) ≠ row y := fun hrows =>
      absurd (hrow.inj _ (hlt.trans hy) _ hy hrows) (Nat.ne_of_lt hlt)
    rw [place]
    rcases Nat.lt_or_gt_of_ne hne with hbef | hafter
    · have := RowMajor.mul_add_le_mul hbef (Nat.succ_le_of_lt hmod)
      omega
    · have := RowMajor.mul_add_le_mul hafter hax
      omega
  · rw [place, heq]
    rw [heq] at hdiv
    omega
  · have := RowMajor.mul_add_le_mul hgt (by omega : x ≤ w)
    omega

def Placed (row : Nat → Nat) (w : Nat) (pixels : List UInt8) (k : Nat) (image : List UInt8) :
    Prop :=
  ∀ j < k, image[place row w j]? = pixels[j]?

theorem Placed.copy {pixels string image image' : List UInt8} {pos y x ax : Nat}
    {rest : List UInt8} (hrow : IsRowOrder row h) (hy : y < h) (hax : x + ax ≤ w) (hw : 0 < w)
    (hplaced : Placed row w pixels (y * w + x) image)
    (hpixels : pixels.drop (y * w + x) = string.drop pos ++ rest)
    (hpos : pos + ax ≤ string.length)
    (himg' : ∀ i, image'[i]? = if row y * w + x ≤ i ∧ i < row y * w + x + ax then
      string[pos + (i - (row y * w + x))]? else image[i]?) :
    Placed row w pixels (y * w + x + ax) image' := by
  intro j hj
  rcases Nat.lt_or_ge j (y * w + x) with hlt | hge
  · rw [himg', if_neg (place_apart hrow hy hax hw hlt)]
    exact hplaced j hlt
  · obtain ⟨i, rfl⟩ := Nat.exists_eq_add_of_le hge
    have hplace : place row w (y * w + x + i) = row y * w + x + i := by
      rw [Nat.add_assoc, place_eq (by omega), Nat.add_assoc]
    have hpixel : pixels[y * w + x + i]? = string[pos + i]? := by
      rw [← getElem?_drop, hpixels,
        getElem?_append_left (by rw [length_drop]; omega), getElem?_drop]
    rw [himg', hplace, if_pos (by omega), Nat.add_sub_cancel_left, hpixel]

end Placement

namespace StringReader

variable {σ : Type} (r : StringReader σ)

section

variable (row : Nat → Nat) (w h : Nat) (strings : List (List UInt8)) (start : σ)

/-- The state of `decodeImage` in the course of the strings, of which there are still `rest`. -/
structure Placing (rest : List (List UInt8)) (st : Locals σ) : Prop where
  delivered : ∃ front, strings = front ++ rest ∧ r.Delivers front start st.dec
  remaining : ∃ last, r.Delivers rest st.dec last
  length_eq : st.image.length = w * h
  y_lt : st.y < h
  xr_pos : 0 < st.xr
  xr_le : st.xr ≤ w
  iPos_eq : st.iPos = row st.y * w + (w - st.xr)
  pos_le : st.pos ≤ st.string.length
  pixels_eq : strings.flatten.drop (st.y * w + (w - st.xr)) = st.string.drop st.pos ++ rest.flatten
  placed : Placed row w strings.flatten (st.y * w + (w - st.xr)) st.image

/-- The method has filled the image and left the decoder behind some of the strings. -/
def Filled (decoded : Decoded σ) : Prop :=
  decoded.1.length = w * h ∧ Placed row w strings.flatten (w * h) decoded.1 ∧
    ∃ front rest dec, strings = front ++ rest ∧ r.Delivers front start dec ∧
      decoded.2 = r.waitForTerminator dec

end

variable {r} {row : Nat → Nat} {w h : Nat} {strings : List (List UInt8)} {start : σ}

theorem Delivers.snoc {string : List UInt8} {dec dec' dec'' : σ}
    (h : r.Delivers strings dec dec') (hstr : r.readString dec' = .ok (some string, dec'')) :
    r.Delivers (strings ++ [string]) dec dec'' := by
  induction h with
  | nil dec => exact .cons hstr (.nil _)
  | cons hread _ ih => exact .cons hread (ih hstr)

variable {rest : List (List UInt8)} {st : Locals σ}

theorem Placing.lt (hplacing : r.Placing row w h strings start rest st) :
    st.y * w + (w - st.xr) < w * h := by
  have hmul := RowMajor.mul_add_le_mul (w := w) hplacing.y_lt le_rfl
  have hpos := hplacing.xr_pos
  have hle := hplacing.xr_le
  rw [Nat.mul_comm h] at hmul
  omega

theorem Placing.readNext (hplacing : r.Placing row w h strings start rest st)
    (hpos : st.pos = st.string.length) (hfull : w * h ≤ strings.flatten.length) :
    ∃ string rest' dec', rest = string :: rest' ∧
      r.readNext st = .goesOn { st with dec := dec', string := string, pos := 0 } ∧
      r.Placing row w h strings start rest'
        { st with dec := dec', string := string, pos := 0 } := by
  obtain ⟨front, hfront, hdelivers⟩ := hplacing.delivered
  obtain ⟨last, hrest⟩ := hplacing.remaining
  have hlt := hplacing.lt
  have hpixels := hplacing.pixels_eq
  rw [hpos, drop_length, nil_append] at hpixels
  cases hrest with
  | nil dec =>
    have hlen := congrArg List.length hpixels
    rw [length_drop, flatten_nil, length_nil] at hlen
    omega
  | @cons string rest' _ dec' _ hread hrest' =>
    refine ⟨string, rest', dec', rfl, by rw [StringReader.readNext, hread], ?_⟩
    exact
      { delivered := ⟨front ++ [string], by rw [hfront, append_assoc, singleton_append],
          hdelivers.snoc hread⟩
        remaining := ⟨last, hrest'⟩
        length_eq := hplacing.length_eq
        y_lt := hplacing.y_lt
        xr_pos := hplacing.xr_pos
        xr_le := hplacing.xr_le
        iPos_eq := hplacing.iPos_eq
        pos_le := Nat.zero_le _
        pixels_eq := by rw [hpixels, flatten_cons, drop_zero]
        placed := hplacing.placed }

theorem Placing.copyPart {interlace : Option (List Nat)} (hrow : IsRowOrder row h)
    (hrowAt : ∀ y < h, rowAt interlace y = some (row y))
    (hplacing : r.Placing row w h strings start rest st) (hpos : st.pos < st.string.length) :
    (∃ decoded, r.copyPart w h interlace st = .ends decoded ∧
      r.Filled row w h strings start decoded) ∨
    ∃ st', r.copyPart w h interlace st = .goesOn st' ∧
      st'.string = st.string ∧ st.pos < st'.pos ∧ r.Placing row w h strings start rest st' := by
  obtain ⟨hdeliv, hremaining, hlen, hy, hxr, hxr', hiPos, hpos', hpixels, hplaced⟩ :=
    hplacing
  generalize hax : (if st.xr < st.string.length - st.pos then st.xr
    else st.string.length - st.pos) = ax
  have hax_pos : 0 < ax := by
    rw [← hax]
    split_ifs <;> omega
  have hax_xr : ax ≤ st.xr := by
    rw [← hax]
    split_ifs <;> omega
  have hax_pos' : st.pos + ax ≤ st.string.length := by
    rw [← hax]
    split_ifs <;> omega
  have hroom : st.iPos + ax ≤ st.image.length := by
    have hmul := RowMajor.mul_add_le_mul (w := w) (hrow.lt st.y hy) le_rfl
    rw [hlen, Nat.mul_comm w]
    omega
  obtain ⟨image', hcopy, hlen', himg'⟩ := arraycopy_spec hax_pos' hroom
  have hw : 0 < w := by omega
  rw [hiPos] at himg'
  have hplaced' := hplaced.copy hrow hy (by omega) hw hpixels hax_pos' himg'
  have hpixels' : strings.flatten.drop (st.y * w + (w - st.xr) + ax) =
      st.string.drop (st.pos + ax) ++ rest.flatten := by
    rw [← drop_drop, hpixels, drop_append_of_le_length (by rw [length_drop]; omega),
      drop_drop]
  simp only [StringReader.copyPart, hax, hcopy]
  split_ifs with hzero hend
  · -- The row is full, and it was the last one.
    have hfull : st.y * w + (w - st.xr) + ax = w * h := by
      rw [← hend, Nat.mul_comm w, Nat.add_one_mul]
      omega
    rw [hfull] at hplaced'
    obtain ⟨front, hfront, hdelivers⟩ := hdeliv
    exact .inl ⟨_, rfl, hlen'.trans hlen, hplaced', front, rest, st.dec, hfront, hdelivers,
      rfl⟩
  · have hy' : st.y + 1 < h := by omega
    have hk : (st.y + 1) * w + (w - w) = st.y * w + (w - st.xr) + ax := by
      rw [Nat.add_one_mul]
      omega
    rw [hrowAt _ hy']
    refine .inr ⟨_, rfl, rfl, by dsimp only; omega, ?_⟩
    exact
      { delivered := hdeliv
        remaining := hremaining
        length_eq := hlen'.trans hlen
        y_lt := hy'
        xr_pos := hw
        xr_le := le_rfl
        iPos_eq := by dsimp only; omega
        pos_le := hax_pos'
        pixels_eq := by rw [hk, hpixels']
        placed := by rw [hk]; exact hplaced' }
  · have hk : st.y * w + (w - (st.xr - ax)) = st.y * w + (w - st.xr) + ax := by omega
    refine .inr ⟨_, rfl, rfl, by dsimp only; omega, ?_⟩
    exact
      { delivered := hdeliv
        remaining := hremaining
        length_eq := hlen'.trans hlen
        y_lt := hy
        xr_pos := by dsimp only; omega
        xr_le := by dsimp only; omega
        iPos_eq := by dsimp only; omega
        pos_le := hax_pos'
        pixels_eq := by dsimp only; rw [hk, hpixels']
        placed := by dsimp only; rw [hk]; exact hplaced' }

theorem decodeImage_fills {interlace : Option (List Nat)} {image : List UInt8} {last : σ}
    (hw : 0 < w) (hh : 0 < h) (hrow : IsRowOrder row h)
    (hrowAt : ∀ y < h, rowAt interlace y = some (row y)) (himg : image.length = w * h)
    (hstrs : r.Delivers strings start last) (hfull : w * h ≤ strings.flatten.length) :
    ∃ turns decoded, r.decodeImage turns image w h interlace start = some decoded ∧
      r.Filled row w h strings start decoded := by
  have hstart : r.Placing row w h strings start strings ⟨start, [], 0, image, 0, 0, w⟩ :=
    { delivered := ⟨[], rfl, .nil start⟩
      remaining := ⟨last, hstrs⟩
      length_eq := himg
      y_lt := hh
      xr_pos := hw
      xr_le := le_rfl
      iPos_eq := by dsimp only; rw [hrow.zero_eq]; omega
      pos_le := le_rfl
      pixels_eq := by simp
      placed := by
        intro j hj
        simp at hj }
  -- Every turn takes a string or at least one of its bytes.
  have hturn : ∀ bound st, (∃ rest, r.Placing row w h strings start rest st ∧
        bound = rest.length + rest.flatten.length + (st.string.length - st.pos)) →
      (∃ decoded, r.turn w h interlace st = .ends decoded ∧
        r.Filled row w h strings start decoded) ∨
      ∃ bound' st', r.turn w h interlace st = .goesOn st' ∧ bound' < bound ∧
        ∃ rest, r.Placing row w h strings start rest st' ∧
          bound' = rest.length + rest.flatten.length + (st'.string.length - st'.pos) := by
    rintro bound st ⟨rest, hplacing, rfl⟩
    rw [turn]
    split_ifs with hpos
    · obtain ⟨string, rest', dec', rfl, hread, hplacing'⟩ := hplacing.readNext hpos hfull
      refine .inr ⟨_, _, hread, ?_, rest', hplacing', rfl⟩
      simp only [length_cons, flatten_cons, length_append]
      omega
    · have hlt := Nat.lt_of_le_of_ne hplacing.pos_le hpos
      rcases hplacing.copyPart hrow hrowAt hlt with hends | ⟨st', hst', hstr, hpos', hplacing'⟩
      · exact .inl hends
      · refine .inr ⟨_, st', hst', ?_, rest, hplacing', rfl⟩
        rw [hstr]
        omega
  obtain ⟨decoded, ⟨turns, hturns⟩, hfilled⟩ :=
    ends_of_bound hturn _ _ ⟨strings, hstart, rfl⟩
  exact ⟨turns, decoded, hturns, hfilled⟩

theorem isRowOrder_id (h : Nat) : IsRowOrder id h where
  zero_eq := rfl
  lt _ hy := hy
  inj _ _ _ _ heq := heq

theorem isRowOrder_interlaced (hh : 0 < h) :
    IsRowOrder (fun y => (interlacedRows h).getD y 0) h := by
  have hget : ∀ y < h, ∃ hy : y < (interlacedRows h).length,
      (interlacedRows h).getD y 0 = (interlacedRows h)[y] := by
    intro y hy
    have hy' : y < (interlacedRows h).length := by rwa [length_interlacedRows]
    exact ⟨hy', getD_eq_getElem _ _ hy'⟩
  constructor
  · rw [interlacedRows, rowsFrom, rowCount_of_lt (by decide) hh, range'_succ]
    rfl
  · intro y hy
    obtain ⟨hy', hget⟩ := hget y hy
    rw [hget]
    exact (mem_interlacedRows _).mp (getElem_mem hy')
  · intro y hy y' hy' heq
    obtain ⟨hlt, hget₁⟩ := hget y hy
    obtain ⟨hlt', hget₂⟩ := hget y' hy'
    rw [hget₁, hget₂] at heq
    exact (nodup_interlacedRows h).getElem_inj_iff.mp heq

/-- The pixel `k` of the stream is placed in the row that belongs to `k / w`, in column `k % w`,
whatever the lengths of the strings are in which the stream arrives. -/
theorem decodeImage_places (r : StringReader σ) {w h : Nat} (hw : 0 < w) (hh : 0 < h)
    (isInterlaced : Bool) {strings : List (List UInt8)} {dec last : σ}
    (hstrings : r.Delivers strings dec last) (hfull : w * h ≤ strings.flatten.length)
    {image : List UInt8} (himage : image.length = w * h) :
    ∃ table, computeInterlaceReIndex h = .ok table ∧ table.Perm (List.range h) ∧
      table = rowsFrom h 0 8 ++ rowsFrom h 4 8 ++ rowsFrom h 2 4 ++ rowsFrom h 1 2 ∧
      ∃ turns image' front rest dec', strings = front ++ rest ∧ r.Delivers front dec dec' ∧
        r.decodeImage turns image w h (if isInterlaced then some table else none) dec =
          some (image', r.waitForTerminator dec') ∧
        image'.length = w * h ∧
        ∀ k < w * h, image'[(if isInterlaced then table.getD (k / w) 0 else k / w) * w + k % w]? =
          strings.flatten[k]? := by
  refine ⟨interlacedRows h, computeInterlaceReIndex_eq h, interlacedRows_perm h, rfl, ?_⟩
  have hfills : ∀ (row : Nat → Nat) (interlace : Option (List Nat)), IsRowOrder row h →
      (∀ y < h, rowAt interlace y = some (row y)) →
      ∃ turns image' front rest dec', strings = front ++ rest ∧ r.Delivers front dec dec' ∧
        r.decodeImage turns image w h interlace dec = some (image', r.waitForTerminator dec') ∧
        image'.length = w * h ∧ Placed row w strings.flatten (w * h) image' := by
    intro row interlace hrow hrowAt
    obtain ⟨turns, ⟨image', result⟩, hturns, hlength, hplaced, front, rest, dec', hfront,
      hdelivers, rfl⟩ := decodeImage_fills hw hh hrow hrowAt himage hstrings hfull
    exact ⟨turns, image', front, rest, dec', hfront, hdelivers, hturns, hlength, hplaced⟩
  cases isInterlaced with
  | false => exact hfills id none (isRowOrder_id h) fun _ _ => rfl
  | true =>
    apply hfills _ _ (isRowOrder_interlaced hh)
    intro y hy
    have hy' : y < (interlacedRows h).length := by rwa [length_interlacedRows]
    simp only [rowAt, if_true, getD_eq_getElem _ _ hy', getElem?_eq_getElem hy']

def ofStrings : StringReader (List (List UInt8)) where
  readString strings := .ok (strings.head?, strings.tail)
  waitForTerminator := .ok

/-- Five rows of two pixels in strings of three, none and seven. -/
def fiveRows : List (List UInt8) := [[1, 2, 3], [], [4, 5, 6, 7, 8, 9, 10]]

theorem decodeImage_places_five_rows :
    ∃ table, computeInterlaceReIndex 5 = .ok table ∧ table.Perm (List.range 5) ∧
      table = rowsFrom 5 0 8 ++ rowsFrom 5 4 8 ++ rowsFrom 5 2 4 ++ rowsFrom 5 1 2 ∧
      ∃ turns image' front rest dec', fiveRows = front ++ rest ∧
        ofStrings.Delivers front fiveRows dec' ∧
        ofStrings.decodeImage turns (List.replicate 10 0) 2 5 (some table) fiveRows =
          some (image', .ok dec') ∧
        image'.length = 2 * 5 ∧
        ∀ k < 2 * 5, image'[table.getD (k / 2) 0 * 2 + k % 2]? = fiveRows.flatten[k]? :=
  decodeImage_places ofStrings (by decide) (by decide) true
    (.cons rfl (.cons rfl (.cons rfl (.nil [])))) (by decide) rfl

end StringReader

end OpenJfx.Iio.Gif
