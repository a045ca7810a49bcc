import OpenJfx.Data.Lzw
import OpenJfx.Iio.LzwDecoder

/-!
The decoder delivers what the codes stand for. Its table holds the strings of
the dictionary, one symbol an entry, with the other symbols behind the prefix.
-/

namespace OpenJfx.Iio.Gif

open Data.BitPacking Data.Lzw List

/-- The codes of a GIF image, which have at most twelve bits. -/
def scheme (initCodeSize : Nat) : Scheme UInt8 := ⟨2 ^ initCodeSize, UInt8.ofNat, 12⟩

inductive Spells (t : LzwTable) : Nat → List UInt8 → Prop
  | symbol {c : Nat} : c < tableSize → t.lengthOf c = 1 → t.initialOf c = t.suffixOf c →
      Spells t c [t.suffixOf c]
  | entry {c p : Nat} {s : List UInt8} : c < tableSize → p < c → t.prefixOf c = p →
      Spells t p s → t.lengthOf c = s.length + 1 → t.initialOf c = t.initialOf p →
      Spells t c (s ++ [t.suffixOf c])

namespace Spells

variable {t t' : LzwTable} {c : Nat} {s : List UInt8}

theorem lt_tableSize (h : Spells t c s) : c < tableSize := by
  cases h <;> assumption

theorem lengthOf_eq (h : Spells t c s) : t.lengthOf c = s.length := by
  cases h with
  | symbol _ hlen _ => exact hlen
  | entry _ _ _ _ hlen _ => rw [hlen, length_append, length_singleton]

theorem length_le (h : Spells t c s) : s.length ≤ c + 1 := by
  induction h with
  | symbol _ _ _ => simp
  | entry _ hlt _ _ _ _ ih =>
    rw [length_append, length_singleton]
    omega

theorem take_one (h : Spells t c s) : s.take 1 = [t.initialOf c] := by
  induction h with
  | symbol _ _ hini => rw [hini, take_of_length_le (by simp)]
  | entry _ _ _ _ _ hini ih =>
    rw [hini, ← ih, take_append_of_le_length]
    by_contra hshort
    have hnil := eq_nil_of_length_eq_zero (Nat.lt_one_iff.mp (Nat.not_le.mp hshort))
    rw [hnil] at ih
    exact nomatch ih

theorem congr {limit : Nat} (heq : ∀ i < limit, t'.prefixOf i = t.prefixOf i ∧
      t'.suffixOf i = t.suffixOf i ∧ t'.initialOf i = t.initialOf i ∧
      t'.lengthOf i = t.lengthOf i) (h : Spells t c s) : c < limit → Spells t' c s := by
  induction h with
  | symbol hc hlen hini =>
    intro hlt
    rcases heq _ hlt with ⟨-, hsuf, hini', hlen'⟩
    rw [← hsuf]
    exact .symbol hc (hlen'.trans hlen) (by rw [hini', hini, hsuf])
  | entry hc hp hpre _ hlen hini ih =>
    intro hlt
    rcases heq _ hlt with ⟨hpre', hsuf, hini', hlen'⟩
    rcases heq _ (hp.trans hlt) with ⟨-, -, hini'', -⟩
    rw [← hsuf]
    exact .entry hc hp (hpre'.trans hpre) (ih (hp.trans hlt)) (hlen'.trans hlen)
      (by rw [hini', hini, hini''])

theorem reverseCode_eq (h : Spells t c s) :
    LzwDecoder.reverseCode t s.length c = .ok s := by
  induction h with
  | symbol hc _ _ =>
    rw [length_singleton, LzwDecoder.reverseCode, if_pos (by omega)]
    rfl
  | entry hc _ hpre _ _ _ ih =>
    rw [length_append, length_singleton, LzwDecoder.reverseCode, if_pos (by omega),
      Int.toNat_natCast, hpre, ih]
    rfl

end Spells

namespace LzwDecoder

theorem deliver_spec {d : LzwDecoder} {code : Nat} {s : List UInt8}
    (h : Spells d.table code s) :
    d.deliver code = .ok (some s, { d with oldCode := code }) := by
  have hle := h.length_le
  have hlt := h.lt_tableSize
  rw [deliver, h.lengthOf_eq, if_neg (by omega), h.reverseCode_eq]
  rfl

end LzwDecoder

section

variable {init : Nat} {dict : Dict UInt8}

theorem lt_width {code : Nat} (hnext : (scheme init).nextCode dict ≤ 2 ^ 12)
    (hle : code ≤ (scheme init).nextCode dict)
    (hfull : code = (scheme init).nextCode dict → ¬ (scheme init).Full dict) :
    code < 2 ^ (scheme init).width dict := by
  rw [Scheme.width]
  rcases Nat.lt_or_ge ((scheme init).nextCode dict) (2 ^ 12) with hlt | hge
  · have hlog : Nat.log 2 ((scheme init).nextCode dict) < 12 :=
      Nat.log_lt_of_lt_pow' (by decide) hlt
    rw [show min (scheme init).maxWidth (Nat.log 2 ((scheme init).nextCode dict) + 1) =
      Nat.log 2 ((scheme init).nextCode dict) + 1 from Nat.min_eq_right hlog]
    exact hle.trans_lt (Nat.lt_pow_succ_log_self (by decide) _)
  · have heq : (scheme init).nextCode dict = 2 ^ 12 := le_antisymm hnext hge
    have hne : code ≠ (scheme init).nextCode dict := fun h => hfull h hge
    have hwd :
        min (scheme init).maxWidth (Nat.log 2 ((scheme init).nextCode dict) + 1) = 12 := by
      rw [heq]
      rfl
    rw [hwd]
    omega

theorem string_lt_width {code : Nat} {s : List UInt8}
    (hnext : (scheme init).nextCode dict ≤ 2 ^ 12)
    (hstr : (scheme init).string dict code = some s) :
    code < 2 ^ (scheme init).width dict := by
  refine lt_width hnext (Scheme.string_le hstr) ?_
  intro heq hfull
  exact absurd heq (Scheme.string_lt_of_full hstr hfull).ne

end

/-- The decoder has the strings of the dictionary in its table. -/
structure Represents (d : LzwDecoder) (init : Nat) (dict : Dict UInt8) : Prop where
  initCodeSize_eq : d.initCodeSize = init
  tableIndex_eq : d.tableIndex = (scheme init).nextCode dict
  tableIndex_le : d.tableIndex ≤ tableSize
  codeSize_eq : d.codeSize = (scheme init).width dict
  symbols : ∀ i < 2 ^ init, Spells d.table i [UInt8.ofNat i]
  added : ∀ k s, dict.added[k]? = some s → Spells d.table (2 ^ init + 2 + k) s
  previous : ∀ s, dict.previous = some s → d.oldCode < d.tableIndex ∧ Spells d.table d.oldCode s

theorem Represents.init_lt {d : LzwDecoder} {init : Nat} {dict : Dict UInt8}
    (hrep : Represents d init dict) : init < 32 := by
  have hidx := hrep.tableIndex_eq
  have hle : d.tableIndex ≤ 4096 := hrep.tableIndex_le
  change d.tableIndex = 2 ^ init + 2 + dict.added.length at hidx
  by_contra hge
  have hpow : 2 ^ 32 ≤ 2 ^ init := Nat.pow_le_pow_right Nat.two_pos (Nat.le_of_not_lt hge)
  omega

theorem width_lt {init : Nat} {dict : Dict UInt8} : (scheme init).width dict < 24 :=
  (Nat.min_le_left 12 _).trans_lt (by decide)

namespace LzwDecoder

theorem width_cleared {init : Nat} (hlow : 2 ≤ init) (hhigh : init ≤ 8) :
    (scheme init).width Dict.cleared = init + 1 := by
  have hfour : 2 ^ 2 ≤ 2 ^ init := Nat.pow_le_pow_right (by decide) hlow
  have hlog : Nat.log 2 (2 ^ init + 2) = init := by
    refine Nat.log_eq_of_pow_le_of_lt_pow (by omega) ?_
    omega
  change min 12 (Nat.log 2 (2 ^ init + 2) + 1) = init + 1
  omega

theorem initTable_spec {d : LzwDecoder} {init : Nat} (hinit : d.initCodeSize = init)
    (hlow : 2 ≤ init) (hhigh : init ≤ 8) :
    ∃ d', d.initTable = .ok d' ∧ Represents d' init Dict.cleared ∧ d'.input = d.input := by
  have hsize : 2 ^ init ≤ 2 ^ 8 := Nat.pow_le_pow_right (by decide) hhigh
  have htable : tableSize = 4096 := rfl
  simp only [initTable, hinit, shiftLeft_one (show init < 32 by omega)]
  rw [if_neg (by omega)]
  refine ⟨_, rfl, ⟨rfl, rfl, ?_, (width_cleared hlow hhigh).symm, ?_, ?_, ?_⟩, rfl⟩
  · simp only
    omega
  · intro i hi
    have hspells : ∀ t : LzwTable, t.lengthOf i = 1 → t.initialOf i = t.suffixOf i →
        t.suffixOf i = UInt8.ofNat i → Spells t i [UInt8.ofNat i] := by
      intro t hlen hini hsuf
      rw [← hsuf]
      exact .symbol (by omega) hlen hini
    refine hspells _ rfl ?_ ?_
    · simp only [if_pos hi]
    · simp only [if_pos hi]
  · intro k s hk
    exact nomatch hk
  · intro s hs
    exact nomatch hs

end LzwDecoder

section

variable {init : Nat} {dict : Dict UInt8} {p s : List UInt8}

theorem added_extend (hprev : dict.previous = some p) (hroom : ¬ (scheme init).Full dict) :
    ((scheme init).extend dict s).added = dict.added ++ [p ++ s.take 1] := by
  simp only [Scheme.extend, hprev, if_neg hroom]

theorem nextCode_extend (hprev : dict.previous = some p) (hroom : ¬ (scheme init).Full dict) :
    (scheme init).nextCode ((scheme init).extend dict s) = (scheme init).nextCode dict + 1 := by
  rw [Scheme.nextCode, added_extend hprev hroom, length_append]
  rfl

theorem width_extend (hprev : dict.previous = some p) (hroom : ¬ (scheme init).Full dict) :
    (scheme init).width ((scheme init).extend dict s) =
      if (scheme init).nextCode dict + 1 = 2 ^ (scheme init).width dict ∧
        (scheme init).nextCode dict + 1 < tableSize then (scheme init).width dict + 1
      else (scheme init).width dict := by
  have hpos : (scheme init).nextCode dict ≠ 0 := by
    rw [Scheme.nextCode]
    omega
  have hlt : (scheme init).nextCode dict < 2 ^ 12 := Nat.not_le.mp hroom
  rw [Scheme.width, Scheme.width, nextCode_extend hprev hroom]
  change min 12 _ = _
  generalize (scheme init).nextCode dict = next at hpos hlt
  have hlog : Nat.log 2 next < 12 := Nat.log_lt_of_lt_pow' (by decide) hlt
  rw [show min (scheme init).maxWidth (Nat.log 2 next + 1) = Nat.log 2 next + 1 from
    Nat.min_eq_right hlog]
  have hlow : 2 ^ Nat.log 2 next ≤ next := Nat.pow_log_le_self 2 hpos
  have hhigh : next < 2 ^ (Nat.log 2 next + 1) := Nat.lt_pow_succ_log_self (by decide) next
  split_ifs with hgrow
  · have hlog' : Nat.log 2 (next + 1) = Nat.log 2 next + 1 := by
      rw [hgrow.1, Nat.log_pow (by decide)]
    have hle : Nat.log 2 next + 1 < 12 := by
      rw [hgrow.1] at hgrow
      exact (Nat.pow_lt_pow_iff_right (by decide)).mp hgrow.2
    omega
  · rcases Nat.lt_or_ge (next + 1) (2 ^ (Nat.log 2 next + 1)) with hsame | hfull
    · have hlog' : Nat.log 2 (next + 1) = Nat.log 2 next :=
        Nat.log_eq_of_pow_le_of_lt_pow (by omega) hsame
      omega
    · -- the table is full now
      have heq : next + 1 = 2 ^ (Nat.log 2 next + 1) := by omega
      have htable : tableSize = 2 ^ 12 := rfl
      have htop : next + 1 = 2 ^ 12 := by
        omega
      have hlog' : Nat.log 2 next + 1 = 12 :=
        Nat.pow_right_injective le_rfl (heq.symm.trans htop)
      rw [htop, hlog']
      rfl

end

namespace LzwDecoder

section

variable {d : LzwDecoder} {init : Nat} {dict : Dict UInt8} {code : Nat} {p s : List UInt8}

theorem spells_of_string (hrep : Represents d init dict)
    (hstr : (scheme init).string dict code = some s) (hlt : code < d.tableIndex) :
    Spells d.table code s := by
  rcases Scheme.string_cases hstr with ⟨hsymbol, rfl⟩ | ⟨k, rfl, hk⟩ | ⟨hnext, -, -⟩
  · exact hrep.symbols code hsymbol
  · exact hrep.added k s hk
  · rw [hrep.tableIndex_eq] at hlt
    omega

theorem addEntry_spec (hrep : Represents d init dict) (hprev : dict.previous = some p)
    (hroom : ¬ (scheme init).Full dict) (hstr : (scheme init).string dict code = some s) :
    ∃ d', d.addEntry code = .ok d' ∧ d'.input = d.input ∧ Spells d'.table code s ∧
      Represents { d' with oldCode := code } init ((scheme init).extend dict s) := by
  have hti := hrep.tableIndex_eq
  have hlt : d.tableIndex < tableSize := by
    rw [hti]
    exact Nat.not_le.mp hroom
  have hle : code ≤ d.tableIndex := hti ▸ Scheme.string_le hstr
  rcases hrep.previous p hprev with ⟨hold, hspells⟩
  simp only [addEntry]
  rw [if_neg (by omega), if_neg (by omega)]
  refine ⟨_, rfl, rfl, ?_⟩
  generalize ht : (LzwTable.mk (Function.update d.table.prefixOf d.tableIndex d.oldCode)
    (Function.update d.table.suffixOf d.tableIndex
      (d.table.initialOf (if code < d.tableIndex then code else d.oldCode)))
    (Function.update d.table.initialOf d.tableIndex (d.table.initialOf d.oldCode))
    (Function.update d.table.lengthOf d.tableIndex (d.table.lengthOf d.oldCode + 1))) = t
  have hbelow : ∀ i < d.tableIndex, t.prefixOf i = d.table.prefixOf i ∧
      t.suffixOf i = d.table.suffixOf i ∧ t.initialOf i = d.table.initialOf i ∧
      t.lengthOf i = d.table.lengthOf i := by
    intro i hi
    rw [← ht]
    simp only [Function.update_of_ne hi.ne, and_self]
  have hnew : d.tableIndex ≤ code → s = p ++ s.take 1 := by
    intro hge
    have heq : code = (scheme init).nextCode dict := by omega
    rw [heq] at hstr
    rcases Scheme.string_nextCode hstr with ⟨p', hp', hs⟩
    rw [hprev] at hp'
    cases hp'
    exact hs
  -- the new entry: its last symbol is the first one of the string
  have hsuf : s.take 1 = [t.suffixOf d.tableIndex] := by
    rw [← ht]
    simp only [Function.update_self]
    split_ifs with hin
    · exact (spells_of_string hrep hstr hin).take_one
    · have heq := hnew (Nat.not_lt.mp hin)
      have hpos : 1 ≤ p.length := by
        rw [← hspells.lengthOf_eq]
        cases hspells <;> omega
      rw [heq, take_append_of_le_length hpos, hspells.take_one]
  have hentry : Spells t d.tableIndex (p ++ s.take 1) := by
    rw [hsuf]
    refine .entry hlt hold ?_ (hspells.congr hbelow hold) ?_ ?_
    · rw [← ht]
      simp only [Function.update_self]
    · rw [← hspells.lengthOf_eq, ← ht]
      simp only [Function.update_self]
    · rw [(hbelow d.oldCode hold).2.2.1, ← ht]
      simp only [Function.update_self]
  have hcode : Spells t code s := by
    rcases Nat.lt_or_ge code d.tableIndex with hin | hge
    · exact (spells_of_string hrep hstr hin).congr hbelow hin
    · rw [hnew hge, show code = d.tableIndex by omega]
      exact hentry
  have hwd : d.codeSize ≤ 24 := hrep.codeSize_eq ▸ width_lt.le
  refine ⟨hcode, ⟨hrep.initCodeSize_eq, ?_, ?_, ?_, ?_, ?_, ?_⟩⟩
  · rw [nextCode_extend hprev hroom, ← hti]
  · exact hlt
  · rw [width_extend hprev hroom, ← hti, ← hrep.codeSize_eq, shiftLeft_one
      (hwd.trans_lt (by decide))]
  · intro i hi
    refine (hrep.symbols i hi).congr hbelow ?_
    rw [hti]
    exact Nat.lt_of_lt_of_le hi (by change 2 ^ init ≤ 2 ^ init + 2 + _; omega)
  · intro k s' hk
    rw [added_extend hprev hroom, getElem?_append] at hk
    change d.tableIndex = 2 ^ init + 2 + dict.added.length at hti
    split_ifs at hk with hin
    · exact (hrep.added k s' hk).congr hbelow (by omega)
    · rcases List.getElem?_eq_some_iff.mp hk with ⟨hlast, heq⟩
      rw [length_singleton] at hlast
      rw [show 2 ^ init + 2 + k = d.tableIndex by omega, ← heq]
      simpa using hentry
  · intro s' hs'
    cases hs'
    exact ⟨Nat.lt_succ_of_le hle, hcode⟩

end

end LzwDecoder

def LzwInput.Ahead (input : LzwInput) (codes : List (Nat × Nat)) (tail : List UInt8) : Prop :=
  ∃ bits length blocks, input.Pending bits length blocks tail ∧ Holds codes bits length

def IsData (init code : Nat) : Prop :=
  code ≠ (scheme init).clearCode ∧ code ≠ (scheme init).eofCode

/-- The codes that the decoder can handle: the first one clears the table or ends the data, no
two codes in a row clear the table, and it is cleared before a string would have to be added to
the full table. -/
structure Handled (init : Nat) (codes : List Nat) : Prop where
  start : ∀ code ∈ codes.head?, ¬ IsData init code
  separate : codes.IsChain fun code next => code = (scheme init).clearCode → next ≠ code
  room : ∀ run, run <:+: codes → (∀ code ∈ run, IsData init code) →
    2 ^ init + 1 + run.length ≤ tableSize

namespace LzwDecoder

section

variable {d : LzwDecoder} {init : Nat} {dict : Dict UInt8} {code : Nat} {s : List UInt8}
  {codes : List (Nat × Nat)} {tail : List UInt8}

theorem getCode_spec (hrep : Represents d init dict)
    (hahead : d.input.Ahead (((scheme init).width dict, code) :: codes) tail)
    (hlt : code < 2 ^ (scheme init).width dict) :
    ∃ input, d.getCode = .ok (code, { d with input := input }) ∧ input.Ahead codes tail := by
  rcases hahead with ⟨bits, length, blocks, hpend, hholds⟩
  rcases LzwInput.getCode_spec hpend hholds.le_length width_lt.le with
    ⟨input, blocks', hcode, hpend'⟩
  refine ⟨input, ?_, ⟨_, _, blocks', hpend', hholds.div hlt⟩⟩
  rw [getCode, hrep.codeSize_eq, hcode, hholds.mod_eq hlt]
  rfl

theorem clearCode_eq (hrep : Represents d init dict) : d.clearCode = (scheme init).clearCode := by
  rw [clearCode, hrep.initCodeSize_eq, shiftLeft_one hrep.init_lt]
  rfl

theorem eofCode_eq (hrep : Represents d init dict) : d.eofCode = (scheme init).eofCode := by
  rw [eofCode, clearCode_eq hrep]
  rfl

theorem special_lt_width (hnext : (scheme init).nextCode dict ≤ 2 ^ 12) :
    (scheme init).clearCode < 2 ^ (scheme init).width dict ∧
      (scheme init).eofCode < 2 ^ (scheme init).width dict := by
  have hlt : (scheme init).eofCode < (scheme init).nextCode dict := by
    rw [Scheme.eofCode, Scheme.nextCode]
    omega
  have hlt' : (scheme init).clearCode < (scheme init).eofCode := Nat.lt_succ_self _
  constructor
  · exact lt_width hnext (by omega) (fun heq => by omega)
  · exact lt_width hnext (by omega) (fun heq => by omega)

theorem nextCode_le (hrep : Represents d init dict) : (scheme init).nextCode dict ≤ 2 ^ 12 :=
  hrep.tableIndex_eq ▸ hrep.tableIndex_le

theorem nextCode_cleared_le (hhigh : init ≤ 8) :
    (scheme init).nextCode Dict.cleared ≤ 2 ^ 12 := by
  have hsize : 2 ^ init ≤ 2 ^ 8 := Nat.pow_le_pow_right (by decide) hhigh
  change 2 ^ init + 2 + 0 ≤ 2 ^ 12
  omega

theorem represents_input (hrep : Represents d init dict) (input : LzwInput) :
    Represents { d with input := input } init dict := by
  rcases hrep with ⟨h₁, h₂, h₃, h₄, h₅, h₆, h₇⟩
  exact ⟨h₁, h₂, h₃, h₄, h₅, h₆, h₇⟩

theorem readString_eof (hrep : Represents d init dict)
    (hahead : d.input.Ahead (((scheme init).width dict, (scheme init).eofCode) :: codes) tail) :
    ∃ d', d.readString = .ok (none, d') := by
  rcases getCode_spec hrep hahead (special_lt_width (nextCode_le hrep)).2 with ⟨input, hcode, -⟩
  refine ⟨{ d with input := input }, ?_⟩
  rw [readString, hcode]
  simp only [bind, Except.bind]
  rw [if_pos (eofCode_eq (represents_input hrep input)).symm]
  rfl

theorem readString_data {p : List UInt8} (hrep : Represents d init dict)
    (hprev : dict.previous = some p) (hroom : ¬ (scheme init).Full dict)
    (hstr : (scheme init).string dict code = some s)
    (hahead : d.input.Ahead (((scheme init).width dict, code) :: codes) tail) :
    ∃ d', d.readString = .ok (some s, d') ∧
      Represents d' init ((scheme init).extend dict s) ∧ d'.input.Ahead codes tail := by
  rcases getCode_spec hrep hahead (string_lt_width (nextCode_le hrep) hstr) with
    ⟨input, hcode, hrest⟩
  have hrep' := represents_input hrep input
  rcases addEntry_spec hrep' hprev hroom hstr with ⟨d', hadd, hinput, hspells, hrep''⟩
  refine ⟨{ d' with oldCode := code }, ?_, hrep'', ?_⟩
  · rcases Scheme.string_ne hstr with ⟨hclear, heof⟩
    rw [readString, hcode]
    simp only [bind, Except.bind]
    rw [if_neg (by rwa [eofCode_eq hrep']), if_neg (by rwa [clearCode_eq hrep']), hadd]
    exact deliver_spec hspells
  · simp only [hinput]
    exact hrest

theorem readString_clear (hlow : 2 ≤ init) (hhigh : init ≤ 8) (hrep : Represents d init dict)
    (hlt : code < 2 ^ (scheme init).width Dict.cleared)
    (hahead : d.input.Ahead (((scheme init).width dict, (scheme init).clearCode) ::
      ((scheme init).width Dict.cleared, code) :: codes) tail) :
    ∃ d', Represents d' init Dict.cleared ∧ d'.input.Ahead codes tail ∧
      d.readString =
        if code = (scheme init).eofCode then .ok (none, d') else d'.deliver code := by
  rcases getCode_spec hrep hahead (special_lt_width (nextCode_le hrep)).1 with ⟨input, hcode, hrest⟩
  have hrep₁ := represents_input hrep input
  rcases initTable_spec hrep₁.initCodeSize_eq hlow hhigh with ⟨d₂, hinit, hrep₂, hinput⟩
  have hrest₂ : d₂.input.Ahead (((scheme init).width Dict.cleared, code) :: codes) tail :=
    hinput ▸ hrest
  rcases getCode_spec hrep₂ hrest₂ hlt with ⟨input₃, hcode₃, hrest₃⟩
  have hrep₃ := represents_input hrep₂ input₃
  refine ⟨{ d₂ with input := input₃ }, hrep₃, hrest₃, ?_⟩
  have hne : ¬ (scheme init).clearCode = (scheme init).eofCode := (Nat.lt_succ_self _).ne
  rw [readString, hcode]
  simp only [bind, Except.bind]
  rw [eofCode_eq hrep₁, if_neg hne, clearCode_eq hrep₁, afterClear, hinit]
  simp only [bind, Except.bind]
  rw [hcode₃]
  simp only [eofCode_eq hrep₃]
  rfl

theorem readString_first (hlow : 2 ≤ init) (hhigh : init ≤ 8) (hrep : Represents d init dict)
    (hstr : (scheme init).string Dict.cleared code = some s)
    (hahead : d.input.Ahead (((scheme init).width dict, (scheme init).clearCode) ::
      ((scheme init).width Dict.cleared, code) :: codes) tail) :
    ∃ d', d.readString = .ok (some s, d') ∧
      Represents d' init ((scheme init).extend Dict.cleared s) ∧ d'.input.Ahead codes tail := by
  have hlt := string_lt_width (nextCode_cleared_le hhigh) hstr
  rcases readString_clear hlow hhigh hrep hlt hahead with ⟨d', hrep', hahead', heq⟩
  have hcode : code < d'.tableIndex := by
    rw [hrep'.tableIndex_eq]
    rcases Scheme.string_cases hstr with ⟨hsymbol, -⟩ | ⟨k, -, hk⟩ | ⟨-, -, p, hp, -⟩
    · exact hsymbol.trans (by change 2 ^ init < 2 ^ init + 2; omega)
    · exact nomatch hk
    · exact nomatch hp
  have hspells := spells_of_string hrep' hstr hcode
  rw [if_neg (Scheme.string_ne hstr).2, deliver_spec hspells] at heq
  refine ⟨{ d' with oldCode := code }, heq, ?_, hahead'⟩
  rcases hrep' with ⟨h₁, h₂, h₃, h₄, h₅, h₆, -⟩
  refine ⟨h₁, h₂, h₃, h₄, h₅, h₆, ?_⟩
  intro s' hs'
  cases hs'
  exact ⟨hcode, hspells⟩

theorem readString_full (hrep : Represents d init dict) (hfull : (scheme init).Full dict)
    (hstr : (scheme init).string dict code = some s)
    (hahead : d.input.Ahead (((scheme init).width dict, code) :: codes) tail) :
    d.readString = .error .indexOutOfBounds := by
  rcases getCode_spec hrep hahead (string_lt_width (nextCode_le hrep) hstr) with
    ⟨input, hcode, -⟩
  have hrep' := represents_input hrep input
  rcases Scheme.string_ne hstr with ⟨hclear, heof⟩
  have hle : code ≤ d.tableIndex := hrep.tableIndex_eq ▸ Scheme.string_le hstr
  have htable : tableSize ≤ d.tableIndex := hrep.tableIndex_eq ▸ hfull
  rw [readString, hcode]
  simp only [bind, Except.bind]
  rw [if_neg (by rwa [eofCode_eq hrep']), if_neg (by rwa [clearCode_eq hrep'])]
  simp only [addEntry]
  rw [if_neg (by omega), if_pos htable]

end

def Room (init : Nat) (dict : Dict UInt8) (codes : List Nat) : Prop :=
  ∀ run, run <+: codes → (∀ code ∈ run, IsData init code) →
    (scheme init).nextCode dict + run.length ≤ tableSize

def Fits (init : Nat) (dict : Dict UInt8) (codes : List Nat) : Prop :=
  (dict.previous ≠ none → Room init dict codes) ∧
    ∀ run, run <:+: codes → (∀ code ∈ run, IsData init code) →
      2 ^ init + 1 + run.length ≤ tableSize

section

variable {init : Nat} {dict : Dict UInt8} {code : Nat} {codes run : List Nat} {p s : List UInt8}

theorem nil_of_special (hcode : ¬ IsData init code) (hrun : run <+: code :: codes)
    (hdata : ∀ code ∈ run, IsData init code) : run = [] := by
  rcases run with _ | ⟨c, run⟩
  · rfl
  · have heq : c = code := (cons_prefix_cons.mp hrun).1
    exact absurd (hdata c (by simp)) (heq ▸ hcode)

theorem nextCode_ge (init : Nat) (dict : Dict UInt8) : 2 ^ init + 2 ≤ (scheme init).nextCode dict :=
  Nat.le_add_right _ _

theorem fits_data (hprev : dict.previous = some p) (hroom : ¬ (scheme init).Full dict)
    (hcode : IsData init code) :
    Fits init dict (code :: codes) ↔ Fits init ((scheme init).extend dict s) codes := by
  have hlt : (scheme init).nextCode dict < tableSize := Nat.not_le.mp hroom
  have hge := nextCode_ge init dict
  constructor
  · rintro ⟨hfst, hruns⟩
    refine ⟨?_, fun run hrun => hruns run (hrun.trans (suffix_cons ..).isInfix)⟩
    intro _ run hrun hdata
    rw [nextCode_extend hprev hroom, Nat.add_assoc, Nat.add_comm 1]
    refine hfst (by rw [hprev]; exact nofun) (code :: run) (by simpa using hrun) ?_
    simpa [hcode] using hdata
  · rintro ⟨hfst, hruns⟩
    have hpre : Room init dict (code :: codes) := by
      intro run hrun hdata
      rcases run with _ | ⟨c, run⟩
      · exact hlt.le
      · have hle := hfst nofun run (cons_prefix_cons.mp hrun).2
          fun c hc => hdata c (by simp [hc])
        rwa [nextCode_extend hprev hroom, Nat.add_assoc, Nat.add_comm 1] at hle
    refine ⟨fun _ => hpre, ?_⟩
    intro run hrun hdata
    rcases infix_cons_iff.mp hrun with hrun | hrun
    · have := hpre run hrun hdata
      omega
    · exact hruns run hrun hdata

theorem not_fits_full (hprev : dict.previous = some p) (hfull : (scheme init).Full dict)
    (hcode : IsData init code) : ¬ Fits init dict (code :: codes) := by
  rintro ⟨hfst, -⟩
  have hle := hfst (by rw [hprev]; exact nofun) [code] (by simp) (by simpa using hcode)
  exact absurd hfull (Nat.not_le.mpr hle)

theorem fits_special (hnext : (scheme init).nextCode dict ≤ tableSize)
    (hcode : ¬ IsData init code) :
    Fits init dict (code :: codes) ↔ ∀ run, run <:+: codes → (∀ code ∈ run, IsData init code) →
      2 ^ init + 1 + run.length ≤ tableSize := by
  have hge := nextCode_ge init dict
  constructor
  · rintro ⟨-, hruns⟩ run hrun
    exact hruns run (hrun.trans (suffix_cons ..).isInfix)
  · intro hruns
    constructor
    · intro _ run hrun hdata
      rw [nil_of_special hcode hrun hdata]
      exact hnext
    · intro run hrun hdata
      rcases infix_cons_iff.mp hrun with hrun | hrun
      · rw [nil_of_special hcode hrun hdata, length_nil]
        omega
      · exact hruns run hrun hdata

theorem fits_first (hcode : IsData init code) :
    (∀ run, run <:+: code :: codes → (∀ code ∈ run, IsData init code) →
      2 ^ init + 1 + run.length ≤ tableSize) ↔
      Fits init ((scheme init).extend Dict.cleared s) codes := by
  have hnext : (scheme init).nextCode ((scheme init).extend Dict.cleared s) = 2 ^ init + 2 := rfl
  constructor
  · intro hruns
    refine ⟨?_, fun run hrun => hruns run (hrun.trans (suffix_cons ..).isInfix)⟩
    intro _ run hrun hdata
    have hinfix : code :: run <:+: code :: codes := (cons_prefix_cons.mpr ⟨rfl, hrun⟩).isInfix
    have hle := hruns (code :: run) hinfix (by simpa [hcode] using hdata)
    rw [length_cons] at hle
    omega
  · rintro ⟨hfst, hruns⟩ run hrun hdata
    rcases infix_cons_iff.mp hrun with hrun | hrun
    · rcases run with _ | ⟨c, run⟩
      · have := hfst nofun [] nil_prefix (by simp)
        omega
      · have := hfst nofun run (cons_prefix_cons.mp hrun).2
          fun c hc => hdata c (by simp [hc])
        rw [length_cons]
        omega
    · exact hruns run hrun hdata

theorem not_isData_clear : ¬ IsData init (scheme init).clearCode := fun h => h.1 rfl

theorem not_isData_eof : ¬ IsData init (scheme init).eofCode := fun h => h.2 rfl

end

variable {calls : Nat} {d d' : LzwDecoder}

theorem readAll_some {s : List UInt8} (hstr : d.readString = .ok (some s, d')) :
    d.readAll (calls + 1) = (d'.readAll calls).map fun out => out.map (s ++ ·) := by
  rw [readAll, hstr]
  simp only [bind, Except.bind]
  cases d'.readAll calls <;> rfl

theorem readAll_none (hstr : d.readString = .ok (none, d')) :
    d.readAll (calls + 1) = .ok (some []) := by
  rw [readAll, hstr]
  rfl

theorem readAll_error {d : LzwDecoder} {e : LzwFailure} (hstr : d.readString = .error e) :
    d.readAll (calls + 1) = .error e := by
  rw [readAll, hstr]
  rfl

/-- Either all strings are delivered, or the table is too small. -/
def Result (calls : Nat) (d : LzwDecoder) (fits : Prop) (out : List UInt8) : Prop :=
  (fits ∧ d.readAll calls = .ok (some out)) ∨
    (¬ fits ∧ d.readAll calls = .error .indexOutOfBounds)

theorem Result.some {fits fits' : Prop} {s out : List UInt8}
    (hstr : d.readString = .ok (some s, d')) (hfits : fits ↔ fits')
    (hrest : Result calls d' fits' out) : Result (calls + 1) d fits (s ++ out) := by
  rw [Result, hfits, readAll_some hstr]
  rcases hrest with ⟨hyes, hrest⟩ | ⟨hno, hrest⟩
  · rw [hrest]
    exact .inl ⟨hyes, rfl⟩
  · rw [hrest]
    exact .inr ⟨hno, rfl⟩

theorem readAll_spec {init : Nat} {tail : List UInt8} (hlow : 2 ≤ init) (hhigh : init ≤ 8)
    (calls : Nat) :
    ∀ {d : LzwDecoder} {dict : Dict UInt8} {codes : List (Nat × Nat)} {out : List UInt8},
      codes.length ≤ calls → (scheme init).Encodes dict codes out → Represents d init dict →
      d.input.Ahead codes tail →
      (codes.map Prod.snd).IsChain
        (fun code next => code = (scheme init).clearCode → next ≠ code) →
      (dict.previous = none → ∀ code ∈ (codes.map Prod.snd).head?, ¬ IsData init code) →
      Result calls d (Fits init dict (codes.map Prod.snd)) out := by
  have hemp : ∀ run : List Nat, run <:+: [] → (∀ code ∈ run, IsData init code) →
      2 ^ init + 1 + run.length ≤ tableSize := by
    intro run hrun _
    have hsize : 2 ^ init ≤ 2 ^ 8 := Nat.pow_le_pow_right (by decide) hhigh
    have htable : tableSize = 4096 := rfl
    rw [infix_nil.mp hrun, length_nil]
    omega
  induction calls with
  | zero =>
    intro d dict codes out hcalls hencodes
    cases hencodes <;> simp at hcalls
  | succ calls ih =>
    intro d dict codes out hcalls hencodes hrep hahead hsep hstart
    have hnext : (scheme init).nextCode dict ≤ tableSize := nextCode_le hrep
    cases hencodes with
    | eof =>
      rcases readString_eof hrep hahead with ⟨d', hstr⟩
      exact .inl ⟨(fits_special hnext not_isData_eof).mpr hemp, readAll_none hstr⟩
    | data _ hs hrest =>
      rename_i code s codes out
      have hdata : IsData init code := Scheme.string_ne hs
      cases hprev : dict.previous with
      | none => exact absurd hdata (hstart hprev code rfl)
      | some p =>
        by_cases hfull : (scheme init).Full dict
        · have hstr := readString_full hrep hfull hs hahead
          exact .inr ⟨not_fits_full hprev hfull hdata, readAll_error hstr⟩
        · rcases readString_data hrep hprev hfull hs hahead with
            ⟨d', hstr, hrep', hahead'⟩
          exact Result.some hstr (fits_data hprev hfull hdata)
            (ih (by simpa using hcalls) hrest hrep' hahead' hsep.tail nofun)
    | clear _ hrest =>
      have hfits : ∀ codes, Fits init dict ((scheme init).clearCode :: codes) ↔ _ :=
        fun codes => fits_special hnext not_isData_clear
      cases hrest with
      | eof =>
        rcases readString_clear hlow hhigh hrep
          (special_lt_width (nextCode_cleared_le hhigh)).2 hahead with
          ⟨d', -, -, hstr⟩
        rw [if_pos rfl] at hstr
        refine .inl ⟨(hfits _).mpr ?_, readAll_none hstr⟩
        exact ((fits_special (nextCode_cleared_le hhigh) not_isData_eof).mpr hemp).2
      | clear _ _ => simp at hsep
      | data _ hs hrest =>
        rename_i code s codes out
        have hdata : IsData init code := Scheme.string_ne hs
        rcases readString_first hlow hhigh hrep hs hahead with ⟨d', hstr, hrep', hahead'⟩
        exact Result.some hstr ((hfits _).trans (fits_first hdata))
          (ih (by simp at hcalls; omega) hrest hrep' hahead' hsep.tail.tail nofun)

end LzwDecoder

/-- Enough calls of `readString` deliver the bytes, and then the end of the data. -/
def Delivers (source : ByteSource) (out : List UInt8) : Prop :=
  ∃ d, LzwDecoder.new source = .ok d ∧
    ∃ enough, ∀ calls, enough ≤ calls → d.readAll calls = .ok (some out)

section

variable {init : Nat} {codes : List (Nat × Nat)} {out tail : List UInt8}
  {blocks : List (List UInt8)} {source : ByteSource}

theorem LzwDecoder.new_spec (hlow : 2 ≤ init) (hhigh : init ≤ 8)
    (hblocks : ∀ block ∈ blocks, IsBlock block)
    (hpacked : Holds codes (ofBytes blocks.flatten) (8 * blocks.flatten.length))
    (hsrc : source.bytes = .ofNat init :: (encodeBlocks blocks ++ tail)) :
    ∃ d, LzwDecoder.new source = .ok d ∧ Represents d init Dict.cleared ∧
      d.input.Ahead codes tail := by
  have hinit : (UInt8.ofNat init).toNat = init :=
    UInt8.toNat_ofNat_of_lt' (hhigh.trans_lt (by decide))
  rcases LzwInput.readByte_spec hsrc with ⟨source', hbyte, hsrc'⟩
  rcases LzwDecoder.initTable_spec (d := ⟨(UInt8.ofNat init).toNat, 0, 0, 0,
    ⟨fun _ => 0, fun _ => 0, fun _ => 0, fun _ => 0⟩, ⟨[], 0, 0, source'⟩⟩) hinit hlow hhigh with
    ⟨d, htable, hrep, hinput⟩
  refine ⟨d, ?_, hrep, _, _, blocks, ?_, hpacked⟩
  · rw [LzwDecoder.new, hbyte]
    exact htable
  · rw [hinput]
    exact ⟨hblocks, hsrc', Nat.one_pos, by simp, by simp⟩

/-- Codes that can be handled are decoded to what they encode, in whatever blocks they come.
Apart from the first code and from codes in a row that clear the table, these are the only ones
for which this is true. -/
theorem delivers_of_handled (hlow : 2 ≤ init) (hhigh : init ≤ 8)
    (hencodes : (scheme init).Encodes Dict.cleared codes out)
    (hblocks : ∀ block ∈ blocks, IsBlock block)
    (hpacked : Holds codes (ofBytes blocks.flatten) (8 * blocks.flatten.length))
    (hsource : source.bytes = .ofNat init :: (encodeBlocks blocks ++ tail)) :
    (Handled init (codes.map Prod.snd) → Delivers source out) ∧
      ((∀ code ∈ (codes.map Prod.snd).head?, ¬ IsData init code) →
        (codes.map Prod.snd).IsChain
          (fun code next => code = (scheme init).clearCode → next ≠ code) →
        Delivers source out → Handled init (codes.map Prod.snd)) := by
  rcases LzwDecoder.new_spec hlow hhigh hblocks hpacked hsource with ⟨d, hnew, hrep, hahead⟩
  have hresult := fun calls hcalls hseparate hstart =>
    LzwDecoder.readAll_spec hlow hhigh calls hcalls hencodes hrep hahead hseparate hstart
  constructor
  · rintro ⟨hstart, hseparate, hroom⟩
    refine ⟨d, hnew, codes.length, ?_⟩
    intro calls hcalls
    rcases hresult calls hcalls hseparate (fun _ => hstart) with ⟨-, hall⟩ | ⟨hnot, -⟩
    · exact hall
    · exact absurd ⟨fun hne => absurd rfl hne, hroom⟩ hnot
  · rintro hstart hseparate ⟨d', hnew', enough, hall⟩
    rw [hnew] at hnew'
    cases hnew'
    have hcalls := hall (max enough codes.length) (Nat.le_max_left ..)
    rcases hresult _ (Nat.le_max_right ..) hseparate (fun _ => hstart) with
      ⟨hfits, -⟩ | ⟨-, herror⟩
    · exact ⟨hstart, hseparate, hfits.2⟩
    · rw [hcalls] at herror
      exact nomatch herror

end

/-- The code 6 is added to the table when it is read. -/
theorem delivers_repeated :
    Delivers ⟨[2, 1, 0x8c, 1, 0x0b, 0], fun _ => 1, 0⟩ [1, 1, 1] := by
  have hencodes : (scheme 2).Encodes Dict.cleared [(3, 4), (3, 1), (3, 6), (3, 5)] [1, 1, 1] := by
    have heof : (scheme 2).Encodes ⟨[[1, 1]], some [1, 1]⟩ [(3, 5)] [] := .eof _
    have hsix : (scheme 2).Encodes ⟨[], some [1]⟩ [(3, 6), (3, 5)] ([1, 1] ++ []) :=
      .data ⟨[], some [1]⟩ rfl heof
    have hone : (scheme 2).Encodes Dict.cleared [(3, 1), (3, 6), (3, 5)] ([1] ++ [1, 1]) :=
      .data Dict.cleared rfl hsix
    exact .clear Dict.cleared hone
  have hhandled : Handled 2 [4, 1, 6, 5] := by
    refine ⟨?_, by decide, ?_⟩
    · intro code hcode
      cases hcode
      exact LzwDecoder.not_isData_clear
    · intro run hrun _
      have hle : run.length ≤ 4 := hrun.length_le
      have htable : tableSize = 4096 := rfl
      omega
  have hblocks : ∀ block ∈ [[0x8c], [0x0b]], IsBlock block := by
    intro block hblock
    rcases mem_cons.mp hblock with rfl | hblock
    · exact ⟨by decide, by decide⟩
    · rw [mem_singleton.mp hblock]
      exact ⟨by decide, by decide⟩
  have hsource : (ByteSource.mk [2, 1, 0x8c, 1, 0x0b, 0] (fun _ => 1) 0).bytes =
      .ofNat 2 :: (encodeBlocks [[0x8c], [0x0b]] ++ [0]) := rfl
  exact (delivers_of_handled le_rfl (by decide) hencodes hblocks (by decide) hsource).1 hhandled

/-- The table is cleared twice; the second time, the code is taken for the one of a string. -/
theorem cleared_twice :
    (scheme 2).Encodes Dict.cleared [(3, 4), (3, 4), (3, 1), (3, 5)] [1] ∧
      Holds [(3, 4), (3, 4), (3, 1), (3, 5)] (ofBytes [100, 10]) 16 ∧
      ¬ Delivers ⟨[2, 2, 100, 10, 0], fun _ => 255, 0⟩ [1] := by
  refine ⟨?_, by decide, ?_⟩
  · have heof : (scheme 2).Encodes ⟨[], some [1]⟩ [(3, 5)] [] := .eof _
    have hone : (scheme 2).Encodes Dict.cleared [(3, 1), (3, 5)] ([1] ++ []) :=
      .data Dict.cleared rfl heof
    have hclear : (scheme 2).Encodes Dict.cleared [(3, 4), (3, 1), (3, 5)] [1] :=
      .clear Dict.cleared hone
    exact .clear Dict.cleared hclear
  · rintro ⟨d, hnew, enough, hall⟩
    have hrun : ∀ n, (do (← LzwDecoder.new ⟨[2, 2, 100, 10, 0], fun _ => 255, 0⟩).readAll (n + 3)) =
        (.ok (some [0, 1]) : Except LzwFailure (Option (List UInt8))) := fun n => rfl
    have hresult := hrun enough
    rw [hnew] at hresult
    have heq := (hall (enough + 3) (Nat.le_add_right ..)).symm.trans hresult
    exact absurd heq (by decide)

end OpenJfx.Iio.Gif
