import OpenJfx.Css.BitSet
import OpenJfx.Java.Arrays
import OpenJfx.Java.Ints

namespace OpenJfx.Css

open Data Java.Arrays Java.Ints List

namespace BitSet

/-- `hasNext` moves it to the next member, and `next` gives the member that was found last. -/
structure Iterator where
  next : Int
  element : Int
  index : Int
  deriving DecidableEq

namespace Iterator

def start : Iterator := ⟨-1, 0, -1⟩

/-- `(bit & bits[element]) == bit`; a shift by `next` uses its lowest six bits. -/
def found (bits : List Word) (it : Iterator) : Outcome Bool := do
  let mask ← load bits it.element
  let bit := 1#64 <<< (it.next % 64).toNat
  pure (bit &&& mask == bit)

/-- The beginning of a turn of the loop of `hasNext`: the next bit, and whether there is a word for
it. -/
def move (bits : List Word) (it : Iterator) : Iterator × Bool :=
  let next := int32 (it.next + 1)
  if 64 ≤ next then
    let element := int32 (it.element + 1)
    if element < (bits.length : Int) then (⟨0, element, it.index⟩, true)
    else (⟨next, element, it.index⟩, false)
  else (⟨next, it.element, it.index⟩, true)

def scan (bits : List Word) : Nat → Iterator → Outcome (Bool × Iterator)
  | 0, it => .ok (false, it)
  | turns + 1, it =>
    match it.move bits with
    | (it, false) => .ok (false, it)
    | (it, true) => do
      if ← it.found bits then
        pure (true, { it with index := int32 (64 * it.element + it.next) })
      else scan bits turns it

def hasNext (bits : List Word) (it : Iterator) : Outcome (Bool × Iterator) :=
  if bits.length = 0 then .ok (false, it) else it.scan bits (64 * bits.length + 1)

end Iterator

/-- `getT(index)`: the instance with that index of all there are, or `null`. -/
def getT {T : Type} (instances : List T) (index : Int) : Option T :=
  if 0 ≤ index ∧ index < instances.length then instances[index.toNat]? else none

inductive IteratorCall where
  | hasNext
  | next
  deriving DecidableEq

inductive Reply (T : Type) where
  | more (b : Bool)
  | item (t : Option T)
  deriving DecidableEq

section Replies

variable {T : Type} (bits : List Word) (instances : List T)

def replies : List IteratorCall → Iterator → Outcome (List (Reply T))
  | [], _ => .ok []
  | .hasNext :: calls, it => do
    let (more, it) ← it.hasNext bits
    let rest ← replies calls it
    pure (.more more :: rest)
  | .next :: calls, it => do
    let rest ← replies calls it
    pure (.item (getT instances it.index) :: rest)

end Replies

/-- What an iterator should return that has still these members before it. -/
def expected {T : Type} (instances : List T) : List IteratorCall → List Nat → List (Reply T)
  | [], _ => []
  | .hasNext :: calls, rest => .more (decide (rest ≠ [])) :: expected instances calls rest
  | .next :: calls, [] => .item none :: expected instances calls []
  | .next :: calls, i :: rest => .item (getT instances i) :: expected instances calls rest

def membersFrom (bits : List Word) (u : Nat) : List Nat :=
  (List.range' u (64 * bits.length - u)).filter fun i => (WordSet.word bits (i / 64)).getLsbD
    (i % 64)

def sortedMembers (s : BitSet) : List Nat := membersFrom s.bits 0

section Scanning

open WordSet

variable {bits : List Word}

theorem mem_membersFrom {u i : Nat} : i ∈ membersFrom bits u ↔ u ≤ i ∧ i ∈ members bits := by
  rw [membersFrom, mem_filter, mem_range'_1]
  constructor
  · rintro ⟨⟨hle, -⟩, hbit⟩
    exact ⟨hle, hbit⟩
  · rintro ⟨hle, hmem⟩
    have hlt := div_lt_of_mem hmem
    exact ⟨⟨hle, by omega⟩, hmem⟩

theorem membersFrom_of_le {u : Nat} (h : 64 * bits.length ≤ u) : membersFrom bits u = [] := by
  rw [membersFrom, Nat.sub_eq_zero_of_le h, range'_zero, filter_nil]

theorem membersFrom_of_lt {u : Nat} (h : u < 64 * bits.length) :
    membersFrom bits u = if (word bits (u / 64)).getLsbD (u % 64) then
      u :: membersFrom bits (u + 1) else membersFrom bits (u + 1) := by
  have hlen : 64 * bits.length - u = 64 * bits.length - (u + 1) + 1 := by omega
  rw [membersFrom, hlen, range'_succ, filter_cons]
  rfl

theorem nodup_membersFrom (u : Nat) : (membersFrom bits u).Nodup :=
  List.Nodup.filter _ (nodup_range' 1)

/-- The iterator has been moved over the bits before `u`. -/
structure At (u : Nat) (it : Iterator) : Prop where
  position_eq : 64 * it.element + it.next + 1 = u
  next_lt : it.next < 64
  next_ge : -1 ≤ it.next
  next_nonneg : 0 < u → 0 ≤ it.next
  element_nonneg : 0 ≤ it.element

theorem at_start : At 0 .start := by
  constructor <;> decide

variable {it : Iterator}

theorem found_eq {u : Nat} (h : u < 64 * bits.length) (hpos : 64 * it.element + it.next = u)
    (hnext : 0 ≤ it.next) (hnext' : it.next < 64) :
    it.found bits = .ok ((word bits (u / 64)).getLsbD (u % 64)) := by
  have helem : it.element = ((u / 64 : Nat) : Int) := by omega
  have hbit : (it.next % 64).toNat = u % 64 := by omega
  have hlt : u / 64 < bits.length := by omega
  have hmod : u % 64 < 64 := Nat.mod_lt u (by decide)
  have hword := word_eq_of_getElem? (getElem?_eq_getElem hlt)
  have hfound : (1#64 <<< (u % 64) &&& bits[u / 64] == 1#64 <<< (u % 64)) =
      bits[u / 64].getLsbD (u % 64) := by
    rw [Bool.eq_iff_iff, beq_iff_eq, BitVec.and_comm]
    exact and_one_shiftLeft_eq_iff _ hmod
  rw [Iterator.found, helem, load_natCast _ _ hlt, hbit, hword, ← hfound]
  rfl

theorem move_of_lt (hbits : bits.length < 2 ^ 31) {u : Nat} (h : At u it)
    (hu : u < 64 * bits.length) :
    ∃ it', it.move bits = (it', true) ∧ 64 * it'.element + it'.next = u ∧ 0 ≤ it'.next ∧
      it'.next < 64 ∧ it'.index = it.index := by
  obtain ⟨hposition, hlt, hge, hnn, helem⟩ := h
  have hnext : int32 (it.next + 1) = it.next + 1 := by apply int32_eq <;> omega
  have helem' : int32 (it.element + 1) = it.element + 1 := by apply int32_eq <;> omega
  rw [Iterator.move]
  simp only [hnext]
  split_ifs with hend hword
  · exact ⟨_, rfl, by dsimp only; omega, le_rfl, by dsimp only; omega, rfl⟩
  · omega
  · exact ⟨_, rfl, by dsimp only; omega, by dsimp only; omega, by dsimp only; omega, rfl⟩

theorem move_of_end (hbits : bits.length < 2 ^ 31) (hpos : 0 < bits.length)
    (h : At (64 * bits.length) it) :
    it.move bits = (⟨64, bits.length, it.index⟩, false) := by
  obtain ⟨hposition, hlt, hge, hnn, helem⟩ := h
  have hnext : it.next = 63 := by omega
  have helem' : it.element = bits.length - 1 := by omega
  have hint : int32 (63 + 1) = 64 := by decide
  have hint' : int32 ((bits.length : Int) - 1 + 1) = bits.length := by
    rw [Int.sub_add_cancel]
    apply int32_eq <;> omega
  rw [Iterator.move, hnext, helem']
  simp only [hint, hint']
  rw [if_pos (by decide), if_neg (by omega)]

theorem scan_spec (hbits : bits.length < 2 ^ 31) (hpos : 0 < bits.length) (turns : Nat) :
    ∀ (u : Nat) (it : Iterator), At u it → u ≤ 64 * bits.length → 64 * bits.length < u + turns →
      match membersFrom bits u with
      | [] => it.scan bits turns = .ok (false, ⟨64, bits.length, it.index⟩)
      | i :: rest => ∃ it', it.scan bits turns = .ok (true, it') ∧ it'.index = int32 i ∧
          At (i + 1) it' ∧ i < 64 * bits.length ∧ membersFrom bits (i + 1) = rest := by
  induction turns with
  | zero =>
    omega
  | succ turns ih =>
    intro u it hat hle hturns
    rcases Nat.lt_or_eq_of_le hle with hlt | rfl
    · obtain ⟨it₁, hmove, hposition, hnext, hnext', hidx⟩ := move_of_lt hbits hat hlt
      have hat₁ : At (u + 1) it₁ := ⟨by omega, hnext', by omega, fun _ => hnext, by omega⟩
      rw [Iterator.scan, hmove, membersFrom_of_lt hlt]
      simp only [found_eq hlt hposition hnext hnext', ok_bind]
      split_ifs with hbit
      · exact ⟨_, rfl, by rw [hposition], ⟨hat₁.1, hat₁.2, hat₁.3, hat₁.4, hat₁.5⟩, hlt, rfl⟩
      · have hrest := ih (u + 1) it₁ hat₁ hlt (by omega)
        rwa [hidx] at hrest
    · rw [membersFrom_of_le le_rfl, Iterator.scan, move_of_end hbits hpos hat]

/-- The fields `next` and `element` can count `q` calls that have found nothing. -/
def Fits (bits : List Word) (q : Nat) : Prop := bits = [] ∨ q + max 64 bits.length ≤ 2 ^ 31

/-- The iterator has still the members `rest` before it, and `q` calls have found nothing. -/
def Tracks (bits : List Word) (rest : List Nat) (q : Nat) (it : Iterator) : Prop :=
  (bits = [] ∧ rest = []) ∨
    (q = 0 ∧ ∃ u, At u it ∧ u ≤ 64 * bits.length ∧ membersFrom bits u = rest) ∨
    (0 < q ∧ rest = [] ∧ it.next = 63 + q ∧ it.element = (bits.length : Int) - 1 + q ∧
      q + max 64 bits.length ≤ 2 ^ 31)

theorem Tracks.fits (hbits : bits.length < 2 ^ 31) {rest : List Nat} {q : Nat}
    (h : Tracks bits rest q it) : Fits bits q := by
  rcases h with ⟨hnil, -⟩ | ⟨rfl, -⟩ | ⟨-, -, -, -, hfits⟩
  · exact .inl hnil
  · exact .inr (by omega)
  · exact .inr hfits

theorem Fits.of_le {q q' : Nat} (h : Fits bits q') (hle : q ≤ q') : Fits bits q := by
  rcases h with hnil | hfits
  · exact .inl hnil
  · exact .inr (by omega)

theorem hasNext_cons (hbits : bits.length < 2 ^ 31) {i q : Nat} {rest : List Nat}
    (h : Tracks bits (i :: rest) q it) :
    ∃ it', it.hasNext bits = .ok (true, it') ∧ it'.index = int32 i ∧ Tracks bits rest 0 it' := by
  rcases h with ⟨-, hnil⟩ | ⟨rfl, u, hat, hle, hrest⟩ | ⟨-, hnil, -⟩
  · cases hnil
  · have hpos : 0 < bits.length := by
      by_contra hzero
      rw [membersFrom_of_le (by omega)] at hrest
      cases hrest
    have hscan := scan_spec hbits hpos (64 * bits.length + 1) u it hat hle (by omega)
    rw [hrest] at hscan
    obtain ⟨it', hscan, hidx, hat', hlt, hrest'⟩ := hscan
    refine ⟨it', ?_, hidx, .inr (.inl ⟨rfl, i + 1, hat', hlt, hrest'⟩)⟩
    rw [Iterator.hasNext, if_neg (by omega), hscan]
  · cases hnil

/-- A call that finds nothing moves the iterator on, until one of its fields has become too
large. -/
theorem hasNext_nil (hbits : bits.length < 2 ^ 31) {q : Nat} (h : Tracks bits [] q it)
    (hfits : Fits bits (q + 1)) :
    ∃ it', it.hasNext bits = .ok (false, it') ∧ it'.index = it.index ∧
      Tracks bits [] (q + 1) it' := by
  rcases h with ⟨hnil, -⟩ | ⟨rfl, u, hat, hle, hrest⟩ | ⟨hq, -, hnext, helem, -⟩
  · refine ⟨it, ?_, rfl, .inl ⟨hnil, rfl⟩⟩
    rw [hnil]
    rfl
  · rcases Nat.eq_zero_or_pos bits.length with hzero | hpos
    · refine ⟨it, ?_, rfl, .inl ⟨length_eq_zero_iff.mp hzero, rfl⟩⟩
      rw [Iterator.hasNext, if_pos hzero]
    · have hscan := scan_spec hbits hpos (64 * bits.length + 1) u it hat hle (by omega)
      rw [hrest] at hscan
      refine ⟨⟨64, bits.length, it.index⟩, ?_, rfl,
        .inr (.inr ⟨Nat.one_pos, rfl, rfl, ?_, by omega⟩)⟩
      · rw [Iterator.hasNext, if_neg (by omega), hscan]
      · dsimp only
        omega
  · rcases hfits with hnil | hfits
    · refine ⟨it, ?_, rfl, .inl ⟨hnil, rfl⟩⟩
      rw [hnil]
      rfl
    · have hmove : it.move bits = (⟨64 + q, bits.length + q, it.index⟩, false) := by
        have hint : int32 (63 + (q : Int) + 1) = 64 + q := by
          rw [int32_eq] <;> omega
        have hint' : int32 ((bits.length : Int) - 1 + q + 1) = bits.length + q := by
          rw [int32_eq] <;> omega
        rw [Iterator.move, hnext, helem]
        simp only [hint, hint']
        rw [if_pos (by omega), if_neg (by omega)]
      rcases Nat.eq_zero_or_pos bits.length with hzero | hpos
      · refine ⟨it, ?_, rfl, .inl ⟨length_eq_zero_iff.mp hzero, rfl⟩⟩
        rw [Iterator.hasNext, if_pos hzero]
      · refine ⟨⟨64 + q, bits.length + q, it.index⟩, ?_, rfl,
          .inr (.inr ⟨Nat.succ_pos q, rfl, ?_, ?_, hfits⟩)⟩
        · rw [Iterator.hasNext, if_neg (by omega), Iterator.scan, hmove]
        · dsimp only
          omega
        · dsimp only
          omega

theorem hasNext_overflow (hbits : bits.length < 2 ^ 31) {q : Nat} (h : Tracks bits [] q it)
    (hfits : ¬ Fits bits (q + 1)) :
    it.hasNext bits = .error .indexOutOfBounds := by
  have hne : bits ≠ [] := fun hnil => hfits (.inl hnil)
  have hlarge : ¬ q + 1 + max 64 bits.length ≤ 2 ^ 31 := fun hle => hfits (.inr hle)
  have hpos := length_pos_iff.mpr hne
  rcases h with ⟨hnil, -⟩ | ⟨rfl, -⟩ | ⟨hq, -, hnext, helem, hq'⟩
  · exact absurd hnil hne
  · omega
  · have hmove : ∃ it', it.move bits = (it', true) ∧
        (it'.element < 0 ∨ (bits.length : Int) ≤ it'.element) := by
      have hmin : int32 (2 ^ 31) = -2 ^ 31 := by decide
      rw [Iterator.move, hnext, helem]
      rcases Nat.lt_or_ge (64 + q) (2 ^ 31) with hlt | hge
      · have hint : int32 (63 + (q : Int) + 1) = 64 + q := by
          rw [int32_eq] <;> omega
        have hsum : (bits.length : Int) - 1 + q + 1 = 2 ^ 31 := by omega
        simp only [hsum]
        rw [if_pos (by omega)]
        exact ⟨_, rfl, .inl (by dsimp only; omega)⟩
      · have hsum : 63 + (q : Int) + 1 = 2 ^ 31 := by omega
        simp only [hsum]
        exact ⟨_, rfl, .inr (by dsimp only; omega)⟩
    obtain ⟨it', hmove, hout⟩ := hmove
    have hload : load bits it'.element = .error .indexOutOfBounds := by
      rw [load]
      split_ifs with hnn
      · rw [getElem?_eq_none (by omega)]
      · rfl
    rw [Iterator.hasNext, if_neg (by omega), Iterator.scan, hmove]
    simp only [Iterator.found, hload]
    rfl

theorem tracks_start (bits : List Word) : Tracks bits (membersFrom bits 0) 0 .start :=
  .inr (.inl ⟨rfl, 0, at_start, Nat.zero_le _, rfl⟩)

end Scanning

end BitSet

end OpenJfx.Css

namespace OpenJfx.Css

open Data Data.WordSet Java.Arrays Java.Ints List

namespace BitSet

variable {T : Type}

/-- Every member has its instance. -/
structure Registered (s : BitSet) (instances : List T) : Prop where
  nodup : instances.Nodup
  lt : ∀ i ∈ members s.bits, i < instances.length
  instances_lt : instances.length < 2 ^ 31
  bits_lt : s.bits.length < 2 ^ 31

/-- `hasNext` and `next` in turn, `m` times, and then `t` times `hasNext`. -/
def alternating (m t : Nat) : List IteratorCall :=
  (List.replicate m [IteratorCall.hasNext, IteratorCall.next]).flatten ++
    List.replicate t IteratorCall.hasNext

/-- Calls of an iterator with `n` members before it. As long as there is a next member, every call
of `hasNext` at the end takes one away. -/
def InTurn (n : Nat) (fits : Nat → Prop) (calls : List IteratorCall) : Prop :=
  ∃ m t, calls = alternating m t ∧ (m + t ≤ n ∨ (m = n ∧ fits t))

section InTurn

variable {n : Nat} {fits : Nat → Prop} {calls : List IteratorCall}

theorem alternating_succ (m t : Nat) :
    alternating (m + 1) t = .hasNext :: .next :: alternating m t := by
  rfl

theorem alternating_zero_succ (t : Nat) : alternating 0 (t + 1) = .hasNext :: alternating 0 t := by
  rfl

theorem next_ne_alternating (t : Nat) : IteratorCall.next :: calls ≠ alternating 0 t := by
  intro hcalls
  cases t with
  | zero => cases hcalls
  | succ t =>
    cases hcalls

theorem exists_alternating_hasNext {j : Nat} :
    (∃ t, IteratorCall.hasNext :: calls = alternating 0 t ∧ j + t ≤ n) ↔
      ∃ t, calls = alternating 0 t ∧ j + 1 + t ≤ n := by
  constructor
  · rintro ⟨t, hcalls, hle⟩
    cases t with
    | zero => cases hcalls
    | succ t =>
      rw [alternating_zero_succ, List.cons.injEq] at hcalls
      exact ⟨t, hcalls.2, by omega⟩
  · rintro ⟨t, rfl, hle⟩
    exact ⟨t + 1, (alternating_zero_succ t).symm, by omega⟩

theorem inTurn_nil (n : Nat) (fits : Nat → Prop) : InTurn n fits [] :=
  ⟨0, 0, rfl, .inl (Nat.zero_le n)⟩

theorem not_inTurn_next : ¬ InTurn n fits (.next :: calls) := by
  rintro ⟨m, t, hcalls, -⟩
  cases m with
  | succ m =>
    cases hcalls
  | zero => exact next_ne_alternating t hcalls

theorem inTurn_zero_hasNext (hfits : ∀ t t', t ≤ t' → fits t' → fits t) :
    InTurn 0 fits (.hasNext :: calls) ↔ fits 1 ∧ InTurn 0 (fun t => fits (t + 1)) calls := by
  constructor
  · rintro ⟨m, t, hcalls, hle⟩
    obtain rfl : m = 0 := by omega
    cases t with
    | zero => cases hcalls
    | succ t =>
      rw [alternating_zero_succ, List.cons.injEq] at hcalls
      have hfit : fits (t + 1) := by
        rcases hle with hle | ⟨-, hfit⟩
        · omega
        · exact hfit
      exact ⟨hfits 1 (t + 1) (by omega) hfit, 0, t, hcalls.2, .inr ⟨rfl, hfit⟩⟩
  · rintro ⟨hone, m, t, rfl, hle⟩
    obtain rfl : m = 0 := by omega
    refine ⟨0, t + 1, (alternating_zero_succ t).symm, .inr ⟨rfl, ?_⟩⟩
    rcases hle with hle | ⟨-, hfit⟩
    · obtain rfl : t = 0 := by omega
      exact hone
    · exact hfit

theorem inTurn_succ_hasNext :
    InTurn (n + 1) fits (.hasNext :: calls) ↔
      (∃ t, calls = alternating 0 t ∧ t ≤ n) ∨
        ∃ calls', calls = .next :: calls' ∧ InTurn n fits calls' := by
  constructor
  · rintro ⟨m, t, hcalls, hle⟩
    cases m with
    | succ m =>
      rw [alternating_succ, List.cons.injEq] at hcalls
      refine .inr ⟨_, hcalls.2, m, t, rfl, ?_⟩
      rcases hle with hle | ⟨heq, hfits⟩
      · exact .inl (by omega)
      · exact .inr ⟨by omega, hfits⟩
    | zero =>
      cases t with
      | zero => cases hcalls
      | succ t =>
        rw [alternating_zero_succ, List.cons.injEq] at hcalls
        exact .inl ⟨t, hcalls.2, by omega⟩
  · rintro (⟨t, rfl, hle⟩ | ⟨calls', rfl, m, t, rfl, hle⟩)
    · exact ⟨0, t + 1, (alternating_zero_succ t).symm, .inl (by omega)⟩
    · refine ⟨m + 1, t, (alternating_succ m t).symm, ?_⟩
      rcases hle with hle | ⟨rfl, hfits⟩
      · exact .inl (by omega)
      · exact .inr ⟨rfl, hfits⟩

end InTurn

section Agreement

variable {s : BitSet} {instances : List T}

def Agrees (s : BitSet) (instances : List T) (calls : List IteratorCall) (it : Iterator)
    (rest : List Nat) : Prop :=
  replies s.bits instances calls it = .ok (expected instances calls rest)

variable {i : Nat}

theorem getT_eq (hi : i < instances.length) :
    getT instances i = some instances[i] := by
  rw [getT, if_pos (by omega), Int.toNat_natCast, getElem?_eq_getElem hi]

theorem getT_inj (hs : Registered s instances) {j : Nat} (hi : i ∈ members s.bits)
    (hj : j ∈ members s.bits) (h : getT instances i = getT instances j) : i = j := by
  rw [getT_eq (hs.lt i hi), getT_eq (hs.lt j hj), Option.some.injEq] at h
  exact hs.nodup.getElem_inj_iff.mp h

theorem index_eq (hs : Registered s instances) (hi : i ∈ members s.bits) :
    int32 i = i := by
  have := hs.lt i hi
  have := hs.instances_lt
  apply int32_eq <;> omega

variable {calls : List IteratorCall} {it : Iterator} {rest : List Nat}

theorem agrees_hasNext {it' : Iterator} {more : Bool} (h : it.hasNext s.bits = .ok (more, it')) :
    Agrees s instances (.hasNext :: calls) it rest ↔
      more = decide (rest ≠ []) ∧ Agrees s instances calls it' rest := by
  rw [Agrees, replies, h, ok_bind, expected]
  rcases hreplies : replies s.bits instances calls it' with e | ts
  · simp only [Agrees, hreplies, error_bind, reduceCtorEq, and_false]
  · simp only [Agrees, hreplies, ok_bind, pure_eq_ok, Except.ok.injEq, List.cons.injEq,
      Reply.more.injEq]

theorem not_agrees_hasNext (instances : List T) (calls : List IteratorCall) {e : Failure}
    (rest : List Nat) (h : it.hasNext s.bits = .error e) :
    ¬ Agrees s instances (.hasNext :: calls) it rest := by
  intro hagrees
  rw [Agrees, replies, h] at hagrees
  cases hagrees

theorem agrees_next_nil :
    Agrees s instances (.next :: calls) it [] ↔
      getT instances it.index = none ∧ Agrees s instances calls it [] := by
  rw [Agrees, replies, expected]
  rcases hreplies : replies s.bits instances calls it with e | ts
  · simp only [Agrees, hreplies, error_bind, reduceCtorEq, and_false]
  · simp only [Agrees, hreplies, ok_bind, pure_eq_ok, Except.ok.injEq, List.cons.injEq,
      Reply.item.injEq]

theorem agrees_next_cons :
    Agrees s instances (.next :: calls) it (i :: rest) ↔
      getT instances it.index = getT instances i ∧ Agrees s instances calls it rest := by
  rw [Agrees, replies, expected]
  rcases hreplies : replies s.bits instances calls it with e | ts
  · simp only [Agrees, hreplies, error_bind, reduceCtorEq, and_false]
  · simp only [Agrees, hreplies, ok_bind, pure_eq_ok, Except.ok.injEq, List.cons.injEq,
      Reply.item.injEq]

theorem agrees_empty_iff (hs : Registered s instances) (calls : List IteratorCall) :
    ∀ (it : Iterator) (q : Nat), Tracks s.bits [] q it → it.index = -1 →
      (Agrees s instances calls it [] ↔ Fits s.bits (q + calls.count .hasNext)) := by
  induction calls with
  | nil =>
    intro it q htracks _
    exact ⟨fun _ => htracks.fits hs.bits_lt, fun _ => rfl⟩
  | cons call calls ih =>
    intro it q htracks hidx
    cases call with
    | next =>
      have hnone : getT instances it.index = none := by
        rw [getT, if_neg (by omega)]
      rw [agrees_next_nil, ih it q htracks hidx]
      exact and_iff_right hnone
    | hasNext =>
      have hcnt : q + (IteratorCall.hasNext :: calls).count .hasNext =
          q + 1 + calls.count .hasNext := by
        rw [count_cons_self]
        omega
      rw [hcnt]
      by_cases hfits : Fits s.bits (q + 1)
      · obtain ⟨it', hhasNext, hidx', htracks'⟩ := hasNext_nil hs.bits_lt htracks hfits
        rw [agrees_hasNext hhasNext, ih it' (q + 1) htracks' (hidx'.trans hidx)]
        exact and_iff_right rfl
      · have hoverflow := not_agrees_hasNext instances calls []
          (hasNext_overflow hs.bits_lt htracks hfits)
        exact ⟨fun h => absurd h hoverflow, fun h => absurd (h.of_le (by omega)) hfits⟩

/-- The member that was found last is not the next one of `rest`. -/
def Stale (instances : List T) (it : Iterator) : List Nat → Prop
  | [] => getT instances it.index ≠ none
  | i :: _ => getT instances it.index ≠ getT instances i

/-- What is before an iterator that has answered all calls correctly. -/
structure Ahead (s : BitSet) (rest : List Nat) : Prop where
  nodup : rest.Nodup
  mem : ∀ i ∈ rest, i ∈ members s.bits

theorem Ahead.tail (h : Ahead s (i :: rest)) : Ahead s rest :=
  ⟨(nodup_cons.mp h.nodup).2, fun j hj => h.mem j (mem_cons_of_mem i hj)⟩

theorem Tracks.eq_zero {bits : List Word} {q : Nat} (h : Tracks bits (i :: rest) q it) : q = 0 := by
  rcases h with ⟨-, hnil⟩ | ⟨hq, -⟩ | ⟨-, hnil, -⟩
  · cases hnil
  · exact hq
  · cases hnil

theorem Fits.anti {bits : List Word} (q : Nat) :
    ∀ t t', t ≤ t' → Fits bits (q + t') → Fits bits (q + t) :=
  fun _ _ hle h => h.of_le (Nat.add_le_add_left hle q)

theorem stale_of_ahead (hs : Registered s instances) (hahead : Ahead s (i :: rest))
    (hidx : it.index = i) : Stale instances it rest := by
  have hi := hahead.mem i mem_cons_self
  cases rest with
  | nil =>
    rw [Stale, hidx, getT_eq (hs.lt i hi)]
    exact Option.some_ne_none _
  | cons i' rest =>
    rw [Stale, hidx]
    intro heq
    have hi' := hahead.mem i' (mem_cons_of_mem i mem_cons_self)
    have hnotin := (nodup_cons.mp hahead.nodup).1
    rw [getT_inj hs hi hi' heq] at hnotin
    exact hnotin mem_cons_self

theorem getT_eq_head_iff (hs : Registered s instances) {j k : Nat} (hahead : Ahead s (i :: rest))
    (hk : (i :: rest)[j]? = some k) :
    getT instances k = getT instances i ↔ j = 0 := by
  constructor
  · intro heq
    have hki := getT_inj hs (hahead.mem k (mem_of_getElem? hk))
      (hahead.mem i mem_cons_self) heq
    obtain ⟨hlt, hget⟩ := List.getElem?_eq_some_iff.mp hk
    have hzero : (i :: rest)[0] = i := rfl
    rw [hki, ← hzero] at hget
    exact hahead.nodup.getElem_inj_iff.mp hget
  · rintro rfl
    cases hk
    rfl

theorem agrees_iff_inTurn (hs : Registered s instances) (calls : List IteratorCall) :
    (∀ (it : Iterator) (q : Nat) (rest : List Nat), Tracks s.bits rest q it → Ahead s rest →
      Stale instances it rest →
      (Agrees s instances calls it rest ↔
        InTurn rest.length (fun t => Fits s.bits (q + t)) calls)) ∧
    ∀ (it : Iterator) (i j k : Nat) (rest : List Nat), Ahead s (i :: rest) →
      (i :: rest)[j]? = some k → it.index = k → Tracks s.bits (rest.drop j) 0 it →
      (Agrees s instances calls it (i :: rest) ↔
        (∃ t, calls = alternating 0 t ∧ j + t ≤ rest.length) ∨
          (j = 0 ∧ ∃ calls', calls = .next :: calls' ∧
            InTurn rest.length (fun t => Fits s.bits (0 + t)) calls')) := by
  induction calls with
  | nil =>
    refine ⟨fun it q rest _ _ _ => ⟨fun _ => inTurn_nil _ _, fun _ => rfl⟩, ?_⟩
    intro it i j k rest _ hk _ _
    have hj : j < (i :: rest).length := (List.getElem?_eq_some_iff.mp hk).1
    rw [length_cons] at hj
    exact ⟨fun _ => .inl ⟨0, rfl, by omega⟩, fun _ => rfl⟩
  | cons call calls ih =>
    obtain ⟨ihA, ihB⟩ := ih
    constructor
    · intro it q rest htracks hahead hstale
      cases call with
      | next =>
        refine ⟨fun hagrees => ?_, fun hturn => absurd hturn not_inTurn_next⟩
        cases rest with
        | nil => exact absurd (agrees_next_nil.mp hagrees).1 hstale
        | cons i rest => exact absurd (agrees_next_cons.mp hagrees).1 hstale
      | hasNext =>
        cases rest with
        | nil =>
          rw [length_nil, inTurn_zero_hasNext (Fits.anti q)]
          by_cases hfits : Fits s.bits (q + 1)
          · obtain ⟨it', hhasNext, hidx, htracks'⟩ :=
              hasNext_nil hs.bits_lt htracks hfits
            have hstale' : Stale instances it' [] := by
              rw [Stale, hidx]
              exact hstale
            have hiff := ihA it' (q + 1) [] htracks' hahead hstale'
            have hsum : ∀ t, q + 1 + t = q + (t + 1) := fun t => by omega
            simp only [length_nil, hsum] at hiff
            rw [agrees_hasNext hhasNext, hiff]
            simp only [ne_eq, not_true_eq_false, decide_false, hfits]
          · have hoverflow : ¬ Agrees s instances (.hasNext :: calls) it [] :=
              not_agrees_hasNext instances calls _ (hasNext_overflow hs.bits_lt htracks hfits)
            exact ⟨fun h => absurd h hoverflow, fun h => absurd h.1 hfits⟩
        | cons i rest =>
          obtain rfl := htracks.eq_zero
          obtain ⟨it', hhasNext, hidx, htracks'⟩ := hasNext_cons hs.bits_lt htracks
          rw [index_eq hs (hahead.mem i mem_cons_self)] at hidx
          have hiff := ihB it' i 0 i rest hahead rfl hidx htracks'
          rw [agrees_hasNext hhasNext, hiff, length_cons, inTurn_succ_hasNext]
          simp only [ne_eq, reduceCtorEq, not_false_eq_true, decide_true, true_and,
            Nat.zero_add]
    · intro it i j k rest hahead hk hidx htracks
      cases call with
      | next =>
        have hno : ¬ ∃ t, IteratorCall.next :: calls = alternating 0 t ∧ j + t ≤ rest.length :=
          fun ⟨t, hcalls, _⟩ => next_ne_alternating t hcalls
        rw [or_iff_right hno, agrees_next_cons, hidx, getT_eq_head_iff hs hahead hk]
        apply and_congr_right
        rintro rfl
        cases hk
        rw [ihA it 0 rest htracks hahead.tail (stale_of_ahead hs hahead hidx)]
        constructor
        · exact fun hturn => ⟨calls, rfl, hturn⟩
        · rintro ⟨calls', hcalls, hturn⟩
          rw [List.cons.injEq] at hcalls
          rwa [hcalls.2]
      | hasNext =>
        have hno : ¬ (j = 0 ∧ ∃ calls', IteratorCall.hasNext :: calls = .next :: calls' ∧
            InTurn rest.length (fun t => Fits s.bits (0 + t)) calls') := by
          rintro ⟨-, calls', hcalls, -⟩
          cases hcalls
        rw [or_iff_left hno, exists_alternating_hasNext]
        rcases hdrop : rest.drop j with _ | ⟨k', rest'⟩
        · -- All members have been passed: the answer is `false`, but it should be `true`.
          rw [hdrop] at htracks
          have hlen := drop_eq_nil_iff.mp hdrop
          have hfits : Fits s.bits (0 + 1) := by
            have := hs.bits_lt
            exact .inr (by omega)
          obtain ⟨it', hhasNext, -, -⟩ := hasNext_nil hs.bits_lt htracks hfits
          rw [agrees_hasNext hhasNext]
          constructor
          · rintro ⟨hmore, -⟩
            cases hmore
          · rintro ⟨t, -, hle⟩
            omega
        · rw [hdrop] at htracks
          obtain ⟨it', hhasNext, hidx', htracks'⟩ := hasNext_cons hs.bits_lt htracks
          have hk' : rest[j]? = some k' := by
            rw [← Nat.add_zero j, ← getElem?_drop, hdrop]
            rfl
          have hk'_mem := hahead.mem k' (mem_cons_of_mem i (mem_of_getElem? hk'))
          rw [index_eq hs hk'_mem] at hidx'
          have hdrop' : rest.drop (j + 1) = rest' := by
            rw [← drop_drop, hdrop]
            rfl
          have hiff := ihB it' i (j + 1) k' rest hahead hk' hidx' (hdrop' ▸ htracks')
          rw [agrees_hasNext hhasNext, hiff]
          simp only [ne_eq, reduceCtorEq, not_false_eq_true, decide_true, true_and,
            Nat.succ_ne_zero, false_and, or_false]

def UsedInTurn (s : BitSet) (calls : List IteratorCall) : Prop :=
  (sortedMembers s = [] ∧ Fits s.bits (calls.count .hasNext)) ∨
    InTurn (sortedMembers s).length (Fits s.bits) calls

theorem agrees_start_iff (hs : Registered s instances) (calls : List IteratorCall) :
    Agrees s instances calls .start (sortedMembers s) ↔ UsedInTurn s calls := by
  have htracks := tracks_start s.bits
  have hahead : Ahead s (sortedMembers s) :=
    ⟨nodup_membersFrom 0, fun i hi => (mem_membersFrom.mp hi).2⟩
  rw [UsedInTurn]
  rw [sortedMembers] at hahead ⊢
  rcases hmembers : membersFrom s.bits 0 with _ | ⟨i, rest⟩
  · rw [hmembers] at htracks
    rw [agrees_empty_iff hs calls .start 0 htracks rfl, Nat.zero_add]
    constructor
    · exact fun hfits => .inl ⟨rfl, hfits⟩
    · rintro (⟨-, hfits⟩ | ⟨m, t, rfl, hle⟩)
      · exact hfits
      · obtain rfl : m = 0 := by
          rw [length_nil] at hle
          omega
        have hcnt : (alternating 0 t).count .hasNext = t := count_replicate_self
        rw [hcnt]
        rcases hle with hle | ⟨-, hfits⟩
        · rw [length_nil] at hle
          obtain rfl : t = 0 := by omega
          exact htracks.fits hs.bits_lt
        · exact hfits
  · rw [hmembers] at htracks hahead
    have hi := hahead.mem i mem_cons_self
    have hstale : Stale instances .start (i :: rest) := by
      rw [Stale, getT_eq (hs.lt i hi)]
      exact fun h => (Option.some_ne_none _ h.symm).elim
    have hiff := (agrees_iff_inTurn hs calls).1 .start 0 (i :: rest) htracks hahead hstale
    simp only [Nat.zero_add] at hiff
    rw [hiff]
    simp only [reduceCtorEq, false_and, false_or]

end Agreement

end BitSet

end OpenJfx.Css
