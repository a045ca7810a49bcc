import OpenJfx.Data.WordSet

namespace OpenJfx.Css

open Data

/-- A `long`. -/
abbrev Word := BitVec 64

/-- The words of the set. The listeners are left out. -/
structure BitSet where
  bits : List Word
  deriving DecidableEq

namespace BitSet

def new : BitSet := ⟨[]⟩

def size (s : BitSet) : Nat :=
  WordSet.size s.bits

def isEmpty (s : BitSet) : Bool :=
  s.bits.all fun mask => mask == 0

/-- The end of the operations that may leave an empty set. -/
def replaceBits (s : BitSet) (bits : List Word) (modified : Bool) : BitSet :=
  if modified then
    if bits.all (fun mask => mask == 0) then ⟨[]⟩ else ⟨bits⟩
  else s

section Element

variable {T : Type} (getIndex : T → Nat)

def element (t : T) : Nat :=
  getIndex t / 64

def bit (t : T) : Word :=
  1#64 <<< (getIndex t % 64)

/-- `add(t)`; no element stands for `null`. -/
def add (s : BitSet) : Option T → BitSet × Bool
  | none => (s, false)
  | some t =>
    let element := element getIndex t
    let bits := s.bits ++ List.replicate (element + 1 - s.bits.length) 0
    let temp := WordSet.word bits element
    (⟨bits.set element (temp ||| bit getIndex t)⟩, (temp ||| bit getIndex t) != temp)

def remove (s : BitSet) : Option T → BitSet × Bool
  | none => (s, false)
  | some t =>
    let element := element getIndex t
    if element ≥ s.bits.length then (s, false)
    else
      let temp := WordSet.word s.bits element
      let bits := s.bits.set element (temp &&& ~~~ bit getIndex t)
      let modified := (temp &&& ~~~ bit getIndex t) != temp
      (s.replaceBits bits modified, modified)

def contains (s : BitSet) : Option T → Bool
  | none => false
  | some t =>
    element getIndex t < s.bits.length &&
      (WordSet.word s.bits (element getIndex t) &&& bit getIndex t) == bit getIndex t

end Element

/-- `containsAll(c)`; no argument stands for `null` and for a collection of another
class. -/
def containsAll (s : BitSet) : Option BitSet → Bool
  | none => false
  | some other =>
    if s.bits.length = 0 ∧ other.bits.length = 0 then true
    else if s.bits.length < other.bits.length then false
    else (s.bits.zip other.bits).all fun (mask, mask') => (mask &&& mask') == mask'

/-- The loop of `addAll`: the union, and whether it differs from the first operand. -/
def union : List Word → List Word → List Word × Bool
  | maskOne, [] => (maskOne, false)
  | [], maskTwo => (maskTwo, true)
  | m :: maskOne, m' :: maskTwo =>
    let (rest, modified) := union maskOne maskTwo
    ((m ||| m') :: rest, (m ||| m') != m || modified)

def addAll (s : BitSet) : Option BitSet → BitSet × Bool
  | none => (s, false)
  | some other =>
    let (bits, modified) := union s.bits other.bits
    (if modified then ⟨bits⟩ else s, modified)

def clear (_ : BitSet) : BitSet := ⟨[]⟩

/-- The loop of `retainAll` and `removeAll` over the words that both operands have,
with the operation `op` on words. -/
def combine (op : Word → Word → Word) (maskOne maskTwo : List Word) : List Word :=
  List.zipWith op maskOne maskTwo

def changes (op : Word → Word → Word) (maskOne maskTwo : List Word) : Bool :=
  (maskOne.zip maskTwo).any fun (m, m') => op m m' != m

def retainAll (s : BitSet) : Option BitSet → BitSet × Bool
  | none => (s.clear, true)
  | some other =>
    let max := if s.bits.length < other.bits.length then s.bits.length else other.bits.length
    let modified := decide (s.bits.length > max) ||
      changes (· &&& ·) s.bits other.bits
    (s.replaceBits (combine (· &&& ·) s.bits other.bits) modified, modified)

def removeAll (s : BitSet) : Option BitSet → BitSet × Bool
  | none => (s, false)
  | some other =>
    let modified := changes (fun m m' => m &&& ~~~ m') s.bits other.bits
    (s.replaceBits (combine (fun m m' => m &&& ~~~ m') s.bits other.bits) modified, modified)

/-- `hashCode()`, in `int` arithmetic. -/
def hashCode (s : BitSet) : BitVec 32 :=
  s.bits.foldl (fun hash (mask : Word) => 71 * hash + (mask ^^^ (mask >>> 32)).setWidth 32) 7

/-- `equals(obj)`; no argument stands for `null` and for an object of another class. -/
def equals (s : BitSet) : Option BitSet → Bool
  | none => false
  | some other =>
    if s.bits.length ≠ other.bits.length then false
    else (s.bits.zip other.bits).all fun (m0, m1) => m0 == m1

open List
open Data.WordSet

/-- The word array has no zero word at its end, and its members are `S`. -/
structure IsSet (s : BitSet) (S : Finset Nat) : Prop where
  trimmed : Trimmed s.bits
  mem_iff : ∀ i, i ∈ members s.bits ↔ i ∈ S

/-- `C` reaches as many words as `S`. -/
def Below (S C : Finset Nat) : Prop :=
  ∀ i ∈ S, ∃ j ∈ C, i / 64 ≤ j / 64

instance (S C : Finset Nat) : Decidable (Below S C) :=
  inferInstanceAs (Decidable (∀ i ∈ S, ∃ j ∈ C, i / 64 ≤ j / 64))

section Words

theorem getLsbD_one_shiftLeft {k : Nat} (hk : k < 64) (j : Nat) :
    (1#64 <<< k).getLsbD j = decide (k = j) := by
  rw [← BitVec.twoPow_eq, BitVec.getLsbD_twoPow, decide_eq_true hk, Bool.true_and]

theorem and_one_shiftLeft_eq_iff (x : Word) {k : Nat} (hk : k < 64) :
    (x &&& 1#64 <<< k) = 1#64 <<< k ↔ x.getLsbD k = true := by
  constructor
  · intro heq
    have hbit := congrArg (fun y : Word => y.getLsbD k) heq
    simpa only [BitVec.getLsbD_and, getLsbD_one_shiftLeft hk, decide_true, Bool.and_true] using hbit
  · intro hbit
    rw [← BitVec.twoPow_eq, BitVec.and_twoPow, if_pos hbit]

theorem getLsbD_or_one_shiftLeft (x : Word) {k : Nat} (hk : k < 64) (j : Nat) :
    (x ||| 1#64 <<< k).getLsbD j = true ↔ j = k ∨ x.getLsbD j = true := by
  rw [BitVec.getLsbD_or, getLsbD_one_shiftLeft hk, Bool.or_eq_true, decide_eq_true_eq, or_comm,
    eq_comm]

theorem getLsbD_and_not_one_shiftLeft (x : Word) {k j : Nat} (hk : k < 64) (hj : j < 64) :
    (x &&& ~~~ (1#64 <<< k)).getLsbD j = true ↔ j ≠ k ∧ x.getLsbD j = true := by
  rw [BitVec.getLsbD_and, BitVec.getLsbD_not, getLsbD_one_shiftLeft hk, decide_eq_true hj,
    Bool.true_and, Bool.and_eq_true, Bool.not_eq_true', decide_eq_false_iff_not, and_comm, ne_comm]

end Words

theorem IsSet.replaceBits {s : BitSet} {S S' : Finset Nat} (h : IsSet s S) {bits : List Word}
    {modified : Bool} (hbits : ∀ i, i ∈ members bits ↔ i ∈ S') (hsame : modified = false → S' = S)
    (hlast : modified = true → S' = ∅ ∨ ∀ n, n < bits.length → ∃ i ∈ S', n ≤ i / 64) :
    IsSet (s.replaceBits bits modified) S' := by
  rw [BitSet.replaceBits]
  cases modified with
  | false =>
    rw [hsame rfl]
    exact h
  | true =>
    rw [if_pos rfl]
    by_cases hzero : (bits.all fun mask => mask == 0) = true
    · rw [if_pos hzero]
      rw [all_zero_iff] at hzero
      refine ⟨trimmed_nil, fun i => ?_⟩
      rw [← hbits, hzero, members_nil]
    · rw [if_neg hzero]
      refine ⟨?_, hbits⟩
      rcases hlast rfl with rfl | hlast
      · refine absurd (all_zero_iff.mpr (Set.eq_empty_of_forall_notMem fun i hi => ?_)) hzero
        exact absurd ((hbits i).mp hi) (Finset.notMem_empty i)
      · refine trimmed_of_exists fun n hn => ?_
        obtain ⟨i, hi, hle⟩ := hlast n hn
        exact ⟨i, (hbits i).mpr hi, hle⟩

theorem IsSet.lt_length_iff {s : BitSet} {S : Finset Nat} (h : IsSet s S) (n : Nat) :
    n < s.bits.length ↔ ∃ i ∈ S, n ≤ i / 64 := by
  rw [h.trimmed.lt_length_iff]
  simp only [h.mem_iff]

theorem IsSet.exists_of_below {s : BitSet} {S S' : Finset Nat} (h : IsSet s S)
    (hbelow : Below S S') {n : Nat} (hn : n < s.bits.length) : ∃ i ∈ S', n ≤ i / 64 := by
  obtain ⟨i, hi, hle⟩ := (h.lt_length_iff n).mp hn
  obtain ⟨j, hj, hij⟩ := hbelow i hi
  exact ⟨j, hj, hle.trans hij⟩

theorem IsSet.length_le_of_below {s c : BitSet} {S C : Finset Nat} (h : IsSet s S) (hc : IsSet c C)
    (hbelow : Below S C) : s.bits.length ≤ c.bits.length := by
  refine h.trimmed.length_le fun i hi => ?_
  obtain ⟨j, hj, hij⟩ := hbelow i ((h.mem_iff i).mp hi)
  exact ⟨j, (hc.mem_iff j).mpr hj, hij⟩

theorem below_of_subset {S C : Finset Nat} (h : S ⊆ C) : Below S C :=
  fun i hi => ⟨i, h hi, Nat.le_refl _⟩

section Element

variable {T : Type} (getIndex : T → Nat)

theorem contains_iff (s : BitSet) (t : T) :
    s.contains getIndex (some t) = true ↔ getIndex t ∈ members s.bits := by
  have hk : getIndex t % 64 < 64 := Nat.mod_lt _ (by decide)
  rw [contains, Bool.and_eq_true, decide_eq_true_eq, beq_iff_eq, bit,
    and_one_shiftLeft_eq_iff _ hk]
  constructor
  · exact fun h => h.2
  · exact fun h => ⟨div_lt_of_mem h, h⟩

theorem word_set (ws : List Word) {n : Nat} (hn : n < ws.length) (x : Word) (m : Nat) :
    word (ws.set n x) m = if n = m then x else word ws m := by
  rw [word, getElem?_set]
  split_ifs with heq
  · rfl
  · rfl

theorem mem_members_set {ws : List Word} {n : Nat} (hn : n < ws.length) (x : Word) (i : Nat) :
    i ∈ members (ws.set n x) ↔
      if n = i / 64 then x.getLsbD (i % 64) = true else i ∈ members ws := by
  rw [mem_members, word_set ws hn]
  split_ifs <;> rfl

theorem word_append_zeros (ws : List Word) (k n : Nat) :
    word (ws ++ List.replicate k 0) n = word ws n := by
  rw [word, word]
  by_cases hn : n < ws.length
  · rw [getElem?_append_left hn]
  · rw [getElem?_append_right (Nat.not_lt.mp hn), getElem?_replicate,
      getElem?_eq_none (Nat.not_lt.mp hn)]
    split_ifs <;> rfl

theorem members_append_zeros (ws : List Word) (k : Nat) :
    members (ws ++ List.replicate k 0) = members ws := by
  ext i
  rw [mem_members, mem_members, word_append_zeros]

theorem eq_iff_div_mod_eq {i j : Nat} : i = j ↔ j / 64 = i / 64 ∧ i % 64 = j % 64 := by
  omega

theorem mem_members_add (s : BitSet) (t : T) (i : Nat) :
    i ∈ members (s.add getIndex (some t)).1.bits ↔ i = getIndex t ∨ i ∈ members s.bits := by
  have hk : getIndex t % 64 < 64 := Nat.mod_lt _ (by decide)
  have hlen : getIndex t / 64 <
      (s.bits ++ List.replicate (getIndex t / 64 + 1 - s.bits.length) 0).length := by
    rw [length_append, length_replicate]
    omega
  rw [add, element, mem_members_set hlen, word_append_zeros, bit]
  split_ifs with heq
  · rw [getLsbD_or_one_shiftLeft _ hk, mem_members, heq, eq_iff_div_mod_eq (i := i)]
    simp only [heq, true_and]
  · rw [members_append_zeros, or_iff_right]
    rintro rfl
    exact heq rfl

theorem add_modified_iff (s : BitSet) (t : T) :
    (s.add getIndex (some t)).2 = true ↔ getIndex t ∉ members s.bits := by
  have hk : getIndex t % 64 < 64 := Nat.mod_lt _ (by decide)
  rw [add, element, word_append_zeros, bit, bne_iff_ne, mem_members, not_iff_not]
  constructor
  · intro heq
    rw [← heq, getLsbD_or_one_shiftLeft _ hk]
    exact .inl rfl
  · intro hmem
    refine BitVec.eq_of_getLsbD_eq fun j _ => Bool.eq_iff_iff.mpr ?_
    rw [getLsbD_or_one_shiftLeft _ hk, or_iff_right_of_imp]
    rintro rfl
    exact hmem

variable {s : BitSet}

theorem add_isSet {S : Finset Nat} (h : IsSet s S) (t : T) :
    IsSet (s.add getIndex (some t)).1 (insert (getIndex t) S) := by
  have hmem : ∀ i, i ∈ members (s.add getIndex (some t)).1.bits ↔ i ∈ insert (getIndex t) S :=
    fun i => by rw [mem_members_add, h.mem_iff, Finset.mem_insert]
  refine ⟨trimmed_of_exists fun n hn => ?_, hmem⟩
  by_cases hold : n < s.bits.length
  · obtain ⟨i, hi, hle⟩ := (h.lt_length_iff n).mp hold
    exact ⟨i, (hmem i).mpr (Finset.mem_insert_of_mem hi), hle⟩
  · refine ⟨getIndex t, (hmem _).mpr (Finset.mem_insert_self _ _), ?_⟩
    rw [add, element, length_set, length_append, length_replicate] at hn
    omega

theorem exists_isSet (h : Trimmed s.bits) : ∃ S, IsSet s S := by
  refine ⟨(finite_members s.bits).toFinset, h, fun i => ?_⟩
  rw [Set.Finite.mem_toFinset]

theorem add_trimmed (h : Trimmed s.bits) (t : T) :
    Trimmed (s.add getIndex (some t)).1.bits := by
  rcases exists_isSet h with ⟨S, hS⟩
  exact (add_isSet getIndex hS t).trimmed

theorem mem_members_clear_bit (s : BitSet) (t : T) (h : getIndex t / 64 < s.bits.length) (i : Nat) :
    i ∈ members (s.bits.set (getIndex t / 64)
        (word s.bits (getIndex t / 64) &&& ~~~ bit getIndex t)) ↔
      i ≠ getIndex t ∧ i ∈ members s.bits := by
  have hk : getIndex t % 64 < 64 := Nat.mod_lt _ (by decide)
  rw [mem_members_set h, bit]
  split_ifs with heq
  · rw [getLsbD_and_not_one_shiftLeft _ hk (Nat.mod_lt _ (by decide)), mem_members, heq, ne_eq,
      ne_eq, eq_iff_div_mod_eq (i := i)]
    simp only [heq, true_and]
  · rw [and_iff_right]
    rintro rfl
    exact heq rfl

theorem clear_bit_ne_iff (s : BitSet) (t : T) :
    ((word s.bits (getIndex t / 64) &&& ~~~ bit getIndex t) !=
      word s.bits (getIndex t / 64)) = true ↔ getIndex t ∈ members s.bits := by
  have hk : getIndex t % 64 < 64 := Nat.mod_lt _ (by decide)
  rw [bne_iff_ne, bit, mem_members, ← not_iff_not, not_not]
  constructor
  · intro heq hmem
    rw [← heq, getLsbD_and_not_one_shiftLeft _ hk hk] at hmem
    exact hmem.1 rfl
  · intro hmem
    refine BitVec.eq_of_getLsbD_eq fun j hj => Bool.eq_iff_iff.mpr ?_
    rw [getLsbD_and_not_one_shiftLeft _ hk hj, and_iff_right_of_imp]
    rintro hbit rfl
    exact hmem hbit

theorem remove_modified_iff (s : BitSet) (t : T) :
    (s.remove getIndex (some t)).2 = true ↔ getIndex t ∈ members s.bits := by
  rw [remove, element]
  by_cases hlen : getIndex t / 64 ≥ s.bits.length
  · rw [if_pos hlen]
    refine ⟨fun h => absurd h Bool.false_ne_true, fun hi => ?_⟩
    exact absurd (div_lt_of_mem hi) (Nat.not_lt.mpr hlen)
  · rw [if_neg hlen]
    exact clear_bit_ne_iff getIndex s t

theorem remove_isSet {S : Finset Nat} (h : IsSet s S) (t : T)
    (hkeeps : S.erase (getIndex t) = ∅ ∨ Below S (S.erase (getIndex t))) :
    IsSet (s.remove getIndex (some t)).1 (S.erase (getIndex t)) := by
  rw [remove, element]
  by_cases hlen : getIndex t / 64 ≥ s.bits.length
  · have hnot : getIndex t ∉ S := by
      rw [← h.mem_iff]
      exact fun hi => absurd (div_lt_of_mem hi) (Nat.not_lt.mpr hlen)
    rw [if_pos hlen, Finset.erase_eq_of_notMem hnot]
    exact h
  · rw [if_neg hlen]
    refine h.replaceBits (fun i => ?_) (fun hsame => ?_) fun _ =>
      hkeeps.imp_right fun hbelow n hn => ?_
    · rw [mem_members_clear_bit getIndex s t (Nat.not_le.mp hlen), h.mem_iff, Finset.mem_erase]
    · refine Finset.erase_eq_of_notMem fun hi => ?_
      rw [← h.mem_iff, ← clear_bit_ne_iff] at hi
      rw [hi] at hsame
      exact absurd hsame (by decide)
    · rw [length_set] at hn
      exact h.exists_of_below hbelow hn

end Element

section Bulk

theorem word_union (ms ms' : List Word) (n : Nat) :
    word (union ms ms').1 n = word ms n ||| word ms' n := by
  induction ms, ms' using union.induct generalizing n with
  | case1 ms => simp [union]
  | case2 ms' hne => simp [union]
  | case3 m ms m' ms' rest modified hrest ih =>
    rw [union, hrest]
    rw [hrest] at ih
    cases n with
    | zero => rfl
    | succ n => rw [word_cons_succ, word_cons_succ, word_cons_succ, ih]

theorem length_union (ms ms' : List Word) :
    (union ms ms').1.length = max ms.length ms'.length := by
  induction ms, ms' using union.induct with
  | case1 ms => rw [union, length_nil, Nat.max_zero]
  | case2 ms' hne =>
    rw [union, length_nil, Nat.zero_max]
    exact hne
  | case3 m ms m' ms' rest modified hrest ih =>
    rw [union, hrest, length_cons, length_cons, length_cons]
    rw [hrest] at ih
    rw [ih, Nat.succ_max_succ]

theorem union_modified_iff (ms ms' : List Word) :
    (union ms ms').2 = true ↔
      ms.length < ms'.length ∨ ∃ n, word ms n ||| word ms' n ≠ word ms n := by
  induction ms, ms' using union.induct with
  | case1 ms => simp [union]
  | case2 ms' hne =>
    have hpos : 0 < ms'.length := length_pos_iff.mpr hne
    simp [union, hpos]
  | case3 m ms m' ms' rest modified hrest ih =>
    rw [hrest] at ih
    rw [union, hrest, Bool.or_eq_true, bne_iff_ne, ih, length_cons, length_cons,
      Nat.add_lt_add_iff_right, or_left_comm]
    refine or_congr_right ?_
    constructor
    · rintro (hne | ⟨n, hne⟩)
      · exact ⟨0, hne⟩
      · exact ⟨n + 1, hne⟩
    · rintro ⟨n, hne⟩
      cases n with
      | zero => exact .inl hne
      | succ n => exact .inr ⟨n, hne⟩

variable {ms ms' : List Word} {n : Nat}

theorem word_combine (op : Word → Word → Word) (hn : n < ms.length) (hn' : n < ms'.length) :
    word (combine op ms ms') n = op (word ms n) (word ms' n) := by
  rw [word, combine, getElem?_zipWith, word, word, getElem?_eq_getElem hn,
    getElem?_eq_getElem hn']
  rfl

theorem word_combine_of_le (op : Word → Word → Word) (hn : ms.length ≤ n ∨ ms'.length ≤ n) :
    word (combine op ms ms') n = 0 := by
  refine word_of_length_le ?_
  rw [combine, length_zipWith]
  omega

theorem word_combine_and (ms ms' : List Word) (n : Nat) :
    word (combine (· &&& ·) ms ms') n = word ms n &&& word ms' n := by
  by_cases hn : ms.length ≤ n
  · rw [word_combine_of_le _ (.inl hn), word_of_length_le hn]
    exact BitVec.zero_and.symm
  · by_cases hn' : ms'.length ≤ n
    · rw [word_combine_of_le _ (.inr hn'), word_of_length_le hn']
      exact BitVec.and_zero.symm
    · rw [word_combine _ (Nat.not_le.mp hn) (Nat.not_le.mp hn')]

theorem word_combine_and_not (h : ms.length ≤ ms'.length) (n : Nat) :
    word (combine (fun m m' => m &&& ~~~ m') ms ms') n = word ms n &&& ~~~ word ms' n := by
  by_cases hn : ms.length ≤ n
  · rw [word_combine_of_le _ (.inl hn), word_of_length_le hn]
    exact BitVec.zero_and.symm
  · rw [word_combine _ (Nat.not_le.mp hn) (Nat.lt_of_lt_of_le (Nat.not_le.mp hn) h)]

theorem zip_any_iff (p : Word × Word → Bool) (ms ms' : List Word) :
    (ms.zip ms').any p = true ↔
      ∃ n, n < ms.length ∧ n < ms'.length ∧ p (word ms n, word ms' n) = true := by
  rw [any_eq_true]
  constructor
  · rintro ⟨⟨m, m'⟩, hmem, hp⟩
    obtain ⟨n, hn⟩ := getElem?_of_mem hmem
    obtain ⟨hm, hm'⟩ := getElem?_zip_eq_some.mp hn
    refine ⟨n, (List.getElem?_eq_some_iff.mp hm).1, (List.getElem?_eq_some_iff.mp hm').1, ?_⟩
    rw [word_eq_of_getElem? hm, word_eq_of_getElem? hm']
    exact hp
  · rintro ⟨n, hn, hn', hp⟩
    rw [word_eq_of_getElem? (getElem?_eq_getElem hn),
      word_eq_of_getElem? (getElem?_eq_getElem hn')] at hp
    refine ⟨(ms[n], ms'[n]), mem_of_getElem? (i := n) ?_, hp⟩
    rw [getElem?_zip_eq_some]
    exact ⟨getElem?_eq_getElem hn, getElem?_eq_getElem hn'⟩

theorem changes_iff (op : Word → Word → Word) (ms ms' : List Word) :
    changes op ms ms' = true ↔ ∃ n, n < ms.length ∧ n < ms'.length ∧
      op (word ms n) (word ms' n) ≠ word ms n := by
  rw [changes, zip_any_iff]
  simp only [bne_iff_ne]

theorem zip_all_iff (p : Word × Word → Bool) (ms ms' : List Word) :
    (ms.zip ms').all p = true ↔
      ∀ n, n < ms.length → n < ms'.length → p (word ms n, word ms' n) = true := by
  rw [all_eq_not_any_not, Bool.not_eq_true', ← Bool.not_eq_true, zip_any_iff]
  simp only [not_exists, not_and, Bool.not_eq_true', Bool.not_eq_false]

variable {s c : BitSet} {S C : Finset Nat}

theorem IsSet.subset_iff (h : IsSet s S) (hc : IsSet c C) :
    members c.bits ⊆ members s.bits ↔ C ⊆ S := by
  constructor
  · exact fun hsub i hi => (h.mem_iff i).mp (hsub ((hc.mem_iff i).mpr hi))
  · exact fun hsub i hi => (h.mem_iff i).mpr (hsub ((hc.mem_iff i).mp hi))

theorem or_eq_left_iff (x y : Word) : x ||| y = x ↔ x &&& y = y := by
  constructor
  · intro h
    rw [← h]
    refine BitVec.eq_of_getLsbD_eq fun j _ => ?_
    rw [BitVec.getLsbD_and, BitVec.getLsbD_or]
    cases x.getLsbD j <;> cases y.getLsbD j <;> rfl
  · intro h
    rw [← h]
    refine BitVec.eq_of_getLsbD_eq fun j _ => ?_
    rw [BitVec.getLsbD_or, BitVec.getLsbD_and]
    cases x.getLsbD j <;> cases y.getLsbD j <;> rfl

theorem addAll_modified_iff (h : IsSet s S) (hc : IsSet c C) :
    (s.addAll (some c)).2 = true ↔ ¬ C ⊆ S := by
  show (union s.bits c.bits).2 = true ↔ _
  rw [union_modified_iff, ← h.subset_iff hc, members_subset_iff, not_forall]
  simp only [ne_eq, or_eq_left_iff]
  refine or_iff_right_of_imp fun hlt => ?_
  by_contra hnone
  rw [not_exists] at hnone
  have hsub := (h.subset_iff hc).mp (members_subset_iff.mpr fun n => not_not.mp (hnone n))
  exact absurd (hc.length_le_of_below h (below_of_subset hsub)) (Nat.not_le.mpr hlt)

theorem addAll_isSet (h : IsSet s S) (hc : IsSet c C) : IsSet (s.addAll (some c)).1 (S ∪ C) := by
  have hmem : ∀ i, i ∈ members (union s.bits c.bits).1 ↔ i ∈ S ∪ C := by
    intro i
    rw [mem_members, word_union, BitVec.getLsbD_or, Bool.or_eq_true, Finset.mem_union, ← h.mem_iff,
      ← hc.mem_iff, mem_members, mem_members]
  show IsSet (if (s.addAll (some c)).2 then ⟨(union s.bits c.bits).1⟩ else s) (S ∪ C)
  by_cases hmod : (s.addAll (some c)).2 = true
  · rw [if_pos hmod]
    refine ⟨trimmed_of_exists fun n hn => ?_, hmem⟩
    rw [length_union, lt_max_iff, h.lt_length_iff, hc.lt_length_iff] at hn
    rcases hn with ⟨i, hi, hle⟩ | ⟨i, hi, hle⟩
    · exact ⟨i, (hmem i).mpr (Finset.mem_union_left _ hi), hle⟩
    · exact ⟨i, (hmem i).mpr (Finset.mem_union_right _ hi), hle⟩
  · rw [if_neg hmod]
    rw [addAll_modified_iff h hc, not_not] at hmod
    rw [Finset.union_eq_left.mpr hmod]
    exact h

theorem retainAll_modified_iff (h : IsSet s S) (hc : IsSet c C) :
    (s.retainAll (some c)).2 = true ↔ ¬ S ⊆ C := by
  have hmax : (if s.bits.length < c.bits.length then s.bits.length else c.bits.length) <
      s.bits.length ↔ c.bits.length < s.bits.length := by
    split_ifs <;> omega
  show (decide _ || changes _ s.bits c.bits) = true ↔ _
  rw [Bool.or_eq_true, decide_eq_true_eq, gt_iff_lt, hmax, changes_iff, ← hc.subset_iff h,
    members_subset_iff, not_forall]
  constructor
  · rintro (hlt | ⟨n, -, -, hne⟩)
    · by_contra hnone
      rw [not_exists] at hnone
      have hsub := (hc.subset_iff h).mp (members_subset_iff.mpr fun n => not_not.mp (hnone n))
      exact absurd (h.length_le_of_below hc (below_of_subset hsub)) (Nat.not_le.mpr hlt)
    · exact ⟨n, fun heq => hne (by rw [BitVec.and_comm, heq])⟩
  · rintro ⟨n, hne⟩
    by_cases hlt : c.bits.length < s.bits.length
    · exact .inl hlt
    · have hn : n < s.bits.length := by
        by_contra hle
        rw [word_of_length_le (Nat.not_lt.mp hle)] at hne
        exact hne BitVec.and_zero
      exact .inr ⟨n, hn, Nat.lt_of_lt_of_le hn (Nat.not_lt.mp hlt), fun heq =>
        hne (by rw [BitVec.and_comm, heq])⟩

theorem retainAll_isSet (h : IsSet s S) (hc : IsSet c C)
    (hkeeps : S ∩ C = ∅ ∨ Below S (S ∩ C) ∨ Below C (S ∩ C)) :
    IsSet (s.retainAll (some c)).1 (S ∩ C) := by
  refine h.replaceBits (fun i => ?_) (fun hsame => ?_) fun _ =>
    hkeeps.imp_right fun hbelow n hn => ?_
  · rw [Finset.mem_inter, ← h.mem_iff, ← hc.mem_iff, mem_members, mem_members, mem_members]
    rw [word_combine_and, BitVec.getLsbD_and, Bool.and_eq_true]
  · have hmod : ¬ (s.retainAll (some c)).2 = true := Bool.eq_false_iff.mp hsame
    rw [retainAll_modified_iff h hc, not_not] at hmod
    exact Finset.inter_eq_left.mpr hmod
  · rw [combine, length_zipWith, lt_min_iff] at hn
    rcases hbelow with hbelow | hbelow
    · exact h.exists_of_below hbelow hn.1
    · exact hc.exists_of_below hbelow hn.2

theorem getLsbD_and_not (x y : Word) (k : Nat) :
    (x &&& ~~~ y).getLsbD k = true ↔ x.getLsbD k = true ∧ ¬ y.getLsbD k = true := by
  rw [BitVec.getLsbD_and, BitVec.getLsbD_not, Bool.and_eq_true, Bool.and_eq_true,
    Bool.not_eq_true', Bool.not_eq_true, decide_eq_true_eq]
  constructor
  · exact fun h => ⟨h.1, h.2.2⟩
  · exact fun h => ⟨h.1, BitVec.lt_of_getLsbD h.1, h.2⟩

theorem removeAll_modified_iff (h : IsSet s S) (hc : IsSet c C) :
    (s.removeAll (some c)).2 = true ↔ ¬ Disjoint S C := by
  show changes (fun m m' => m &&& ~~~ m') s.bits c.bits = true ↔ _
  rw [changes_iff, Finset.not_disjoint_iff]
  constructor
  · rintro ⟨n, -, -, hne⟩
    by_contra hnone
    refine hne (BitVec.eq_of_getLsbD_eq fun k hk => Bool.eq_iff_iff.mpr ?_)
    rw [getLsbD_and_not, and_iff_left_of_imp]
    intro hs hc'
    rw [← mem_members_iff hk] at hs hc'
    exact hnone ⟨64 * n + k, (h.mem_iff _).mp hs, (hc.mem_iff _).mp hc'⟩
  · rintro ⟨i, hi, hi'⟩
    rw [← h.mem_iff] at hi
    rw [← hc.mem_iff] at hi'
    refine ⟨i / 64, div_lt_of_mem hi, div_lt_of_mem hi', fun heq => ?_⟩
    rw [mem_members, ← heq, getLsbD_and_not] at hi
    exact hi.2 hi'

theorem removeAll_isSet (h : IsSet s S) (hc : IsSet c C)
    (hkeeps : Disjoint S C ∨ S ⊆ C ∨ Below S C ∧ Below S (S \ C)) :
    IsSet (s.removeAll (some c)).1 (S \ C) := by
  by_cases hdisj : Disjoint S C
  · have hmod : (s.removeAll (some c)).2 = false := by
      rw [← Bool.not_eq_true, removeAll_modified_iff h hc, not_not]
      exact hdisj
    show IsSet (s.replaceBits _ (s.removeAll (some c)).2) (S \ C)
    rw [hmod, Finset.sdiff_eq_self_of_disjoint hdisj]
    exact h
  · have hkeeps' : Below S C ∧ (S \ C = ∅ ∨ Below S (S \ C)) := by
      rcases hkeeps with hd | hsub | ⟨hbelow, hlast⟩
      · exact absurd hd hdisj
      · exact ⟨below_of_subset hsub, .inl (Finset.sdiff_eq_empty_iff_subset.mpr hsub)⟩
      · exact ⟨hbelow, .inr hlast⟩
    obtain ⟨hbelow, hlast⟩ := hkeeps'
    refine h.replaceBits (fun i => ?_) (fun hsame => ?_) fun _ =>
      hlast.imp_right fun hlast n hn => ?_
    · rw [mem_members, word_combine_and_not (h.length_le_of_below hc hbelow), getLsbD_and_not,
        Finset.mem_sdiff, ← h.mem_iff, ← hc.mem_iff, mem_members, mem_members]
    · exact absurd ((removeAll_modified_iff h hc).mpr hdisj) (Bool.eq_false_iff.mp hsame)
    · rw [combine, length_zipWith, lt_min_iff] at hn
      exact h.exists_of_below hlast hn.1

end Bulk

section Observers

variable {s c : BitSet} {S C : Finset Nat}

theorem IsSet.isEmpty_iff (h : IsSet s S) : s.isEmpty = true ↔ S = ∅ := by
  rw [isEmpty, all_zero_iff, Set.eq_empty_iff_forall_notMem, Finset.eq_empty_iff_forall_notMem]
  simp only [h.mem_iff]

theorem size_pos_iff (s : BitSet) : s.size > 0 ↔ (members s.bits).Nonempty := by
  rw [size, size_eq_ncard (by decide), gt_iff_lt, Set.ncard_pos (finite_members s.bits)]

theorem IsSet.size_eq (h : IsSet s S) : s.size = S.card := by
  have hmembers : members s.bits = S := by
    ext i
    rw [h.mem_iff, Finset.mem_coe]
  rw [size, size_eq_ncard (by decide), hmembers, Set.ncard_coe_finset]

theorem containsAll_iff_subset (hc : Trimmed c.bits) :
    s.containsAll (some c) = true ↔ members c.bits ⊆ members s.bits := by
  rw [containsAll]
  by_cases hboth : s.bits.length = 0 ∧ c.bits.length = 0
  · rw [if_pos hboth, eq_nil_of_length_eq_zero hboth.2, members_nil]
    exact ⟨fun _ => Set.empty_subset _, fun _ => rfl⟩
  · rw [if_neg hboth]
    by_cases hlt : s.bits.length < c.bits.length
    · rw [if_pos hlt]
      refine ⟨fun hfalse => absurd hfalse Bool.false_ne_true, fun hsub => ?_⟩
      have hle := hc.length_le fun i hi => ⟨i, hsub hi, Nat.le_refl _⟩
      exact absurd hle (Nat.not_le.mpr hlt)
    · rw [if_neg hlt, zip_all_iff, members_subset_iff]
      simp only [beq_iff_eq]
      constructor
      · intro hall n
        by_cases hn : n < c.bits.length
        · exact hall n (Nat.lt_of_lt_of_le hn (Nat.not_lt.mp hlt)) hn
        · rw [word_of_length_le (Nat.not_lt.mp hn)]
          exact BitVec.and_zero
      · exact fun hall n _ _ => hall n

theorem IsSet.containsAll_iff (h : IsSet s S) (hc : IsSet c C) :
    s.containsAll (some c) = true ↔ C ⊆ S :=
  (containsAll_iff_subset hc.trimmed).trans (h.subset_iff hc)

theorem equals_iff (s c : BitSet) : s.equals (some c) = true ↔ s = c := by
  rw [equals]
  by_cases hlen : s.bits.length = c.bits.length
  · rw [if_neg (not_not.mpr hlen), zip_all_iff]
    simp only [beq_iff_eq]
    constructor
    · intro hall
      rw [BitSet.mk.injEq]
      refine ext_getElem hlen fun n hn hn' => ?_
      have heq := hall n hn hn'
      rwa [word_eq_of_getElem? (getElem?_eq_getElem hn),
        word_eq_of_getElem? (getElem?_eq_getElem hn')] at heq
    · rintro rfl n - -
      rfl
  · rw [if_pos hlen]
    refine ⟨fun hfalse => absurd hfalse Bool.false_ne_true, ?_⟩
    rintro rfl
    exact absurd rfl hlen

theorem IsSet.eq_iff (h : IsSet s S) (hc : IsSet c C) : s = c ↔ S = C := by
  constructor
  · rintro rfl
    ext i
    rw [← h.mem_iff, ← hc.mem_iff]
  · rintro rfl
    rw [BitSet.mk.injEq]
    refine h.trimmed.eq_of_members_eq hc.trimmed ?_
    ext i
    exact (h.mem_iff i).trans (hc.mem_iff i).symm

end Observers

end BitSet

end OpenJfx.Css
