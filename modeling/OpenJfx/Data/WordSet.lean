import Mathlib.Data.Set.Card
import Mathlib.Data.Nat.Count

/-!
Sets of natural numbers as lists of words: bit `k` of word `n` stands for the
number `n * w + k`. Without a zero word at the end the list is determined by the
set.
-/

namespace OpenJfx.Data.WordSet

open List

variable {w : Nat}

def word (ws : List (BitVec w)) (n : Nat) : BitVec w :=
  ws[n]?.getD 0

def members (ws : List (BitVec w)) : Set Nat :=
  { i | (word ws (i / w)).getLsbD (i % w) = true }

variable {ws : List (BitVec w)} {i : Nat}

theorem mem_members :
    i ∈ members ws ↔ (word ws (i / w)).getLsbD (i % w) = true :=
  Iff.rfl

@[simp] theorem word_nil (n : Nat) : word ([] : List (BitVec w)) n = 0 := rfl

@[simp] theorem word_cons_zero (x : BitVec w) (ws : List (BitVec w)) : word (x :: ws) 0 = x := rfl

@[simp] theorem word_cons_succ (x : BitVec w) (ws : List (BitVec w)) (n : Nat) :
    word (x :: ws) (n + 1) = word ws n := by
  rw [word, getElem?_cons_succ, word]

theorem word_of_length_le {n : Nat} (h : ws.length ≤ n) : word ws n = 0 := by
  rw [word, getElem?_eq_none h]
  rfl

theorem word_eq_of_getElem? {n : Nat} {x : BitVec w} (h : ws[n]? = some x) :
    word ws n = x := by
  rw [word, h]
  rfl

theorem mem_members_iff {n k : Nat} (hk : k < w) :
    w * n + k ∈ members ws ↔ (word ws n).getLsbD k = true := by
  have hw : 0 < w := Nat.lt_of_le_of_lt (Nat.zero_le k) hk
  rw [mem_members, Nat.mul_add_div hw, Nat.mul_add_mod, Nat.div_eq_of_lt hk, Nat.mod_eq_of_lt hk,
    Nat.add_zero]

@[simp] theorem members_nil : members ([] : List (BitVec w)) = ∅ := by
  ext i
  simp [mem_members]

variable {vs : List (BitVec w)}

theorem word_eq_of_members_eq (h : members ws = members vs) (n : Nat) :
    word ws n = word vs n := by
  refine BitVec.eq_of_getLsbD_eq fun k hk => ?_
  have hmem := Set.ext_iff.mp h (w * n + k)
  rw [mem_members_iff hk, mem_members_iff hk] at hmem
  exact Bool.eq_iff_iff.mpr hmem

theorem exists_mem_of_word_ne_zero {n : Nat} (h : word ws n ≠ 0) :
    ∃ i ∈ members ws, i / w = n := by
  by_contra hnone
  refine h (BitVec.eq_of_getLsbD_eq fun k hk => ?_)
  have hw : 0 < w := Nat.lt_of_le_of_lt (Nat.zero_le k) hk
  have hnot : w * n + k ∉ members ws := by
    intro hmem
    refine hnone ⟨w * n + k, hmem, ?_⟩
    rw [Nat.mul_add_div hw, Nat.div_eq_of_lt hk, Nat.add_zero]
  rw [mem_members_iff hk, Bool.not_eq_true] at hnot
  rw [hnot]
  exact BitVec.getLsbD_zero.symm

theorem div_lt_of_mem (h : i ∈ members ws) :
    i / w < ws.length := by
  by_contra hle
  rw [mem_members, word_of_length_le (Nat.not_lt.mp hle)] at h
  simp at h

theorem members_subset_iff :
    members vs ⊆ members ws ↔ ∀ n, word ws n &&& word vs n = word vs n := by
  constructor
  · intro h n
    refine BitVec.eq_of_getLsbD_eq fun k hk => ?_
    have hmem := @h (w * n + k)
    rw [mem_members_iff hk, mem_members_iff hk] at hmem
    rw [BitVec.getLsbD_and]
    cases hv : (word vs n).getLsbD k with
    | false => rw [Bool.and_false]
    | true => rw [hmem hv, Bool.and_true]
  · intro h i hi
    rw [mem_members] at hi ⊢
    rw [← h, BitVec.getLsbD_and, Bool.and_eq_true] at hi
    exact hi.1

def Trimmed (ws : List (BitVec w)) : Prop :=
  ∀ n, n + 1 = ws.length → word ws n ≠ 0

theorem trimmed_nil : Trimmed ([] : List (BitVec w)) :=
  fun n h => absurd h (Nat.succ_ne_zero n)

theorem Trimmed.lt_length_iff (h : Trimmed ws) (n : Nat) :
    n < ws.length ↔ ∃ i ∈ members ws, n ≤ i / w := by
  constructor
  · intro hn
    obtain ⟨last, hlast⟩ := Nat.exists_eq_succ_of_ne_zero (Nat.ne_of_gt (Nat.zero_lt_of_lt hn))
    obtain ⟨i, hi, hdiv⟩ := exists_mem_of_word_ne_zero (h last hlast.symm)
    exact ⟨i, hi, by omega⟩
  · rintro ⟨i, hi, hle⟩
    exact Nat.lt_of_le_of_lt hle (div_lt_of_mem hi)

theorem Trimmed.length_le (h : Trimmed ws)
    (hsub : ∀ i ∈ members ws, ∃ j ∈ members vs, i / w ≤ j / w) : ws.length ≤ vs.length := by
  by_contra hlt
  obtain ⟨i, hi, hle⟩ := (h.lt_length_iff vs.length).mp (Nat.not_le.mp hlt)
  obtain ⟨j, hj, hij⟩ := hsub i hi
  exact absurd (div_lt_of_mem hj) (Nat.not_lt.mpr (hle.trans hij))

theorem Trimmed.eq_of_members_eq (hw : Trimmed ws) (hv : Trimmed vs) (h : members ws = members vs) :
    ws = vs := by
  have hlen : ws.length = vs.length := by
    apply Nat.le_antisymm
    · exact hw.length_le fun i hi => ⟨i, h ▸ hi, Nat.le_refl _⟩
    · exact hv.length_le fun i hi => ⟨i, h ▸ hi, Nat.le_refl _⟩
  refine ext_getElem hlen fun n hn hn' => ?_
  have heq := word_eq_of_members_eq h n
  rwa [word_eq_of_getElem? (getElem?_eq_getElem hn),
    word_eq_of_getElem? (getElem?_eq_getElem hn')] at heq

theorem trimmed_of_exists (h : ∀ n, n < ws.length → ∃ i ∈ members ws, n ≤ i / w) : Trimmed ws := by
  intro n hn hzero
  obtain ⟨i, hi, hle⟩ := h n (by omega)
  have hlt := div_lt_of_mem hi
  obtain rfl : n = i / w := by omega
  rw [mem_members, hzero] at hi
  simp at hi

theorem all_zero_iff :
    (ws.all fun mask => mask == 0) = true ↔ members ws = ∅ := by
  rw [all_eq_true]
  constructor
  · intro h
    refine Set.eq_empty_of_forall_notMem fun i hi => ?_
    have hlt := div_lt_of_mem hi
    have hzero := h _ (getElem_mem hlt)
    rw [mem_members, word_eq_of_getElem? (getElem?_eq_getElem hlt), beq_iff_eq.mp hzero] at hi
    simp at hi
  · intro h x hx
    rw [beq_iff_eq]
    obtain ⟨n, hn⟩ := getElem?_of_mem hx
    by_contra hne
    rw [← word_eq_of_getElem? hn] at hne
    obtain ⟨i, hi, -⟩ := exists_mem_of_word_ne_zero hne
    rw [h] at hi
    exact hi

section Size

def bitCount (x : BitVec w) : Nat :=
  (List.range w).countP fun k => x.getLsbD k

def size (ws : List (BitVec w)) : Nat :=
  (ws.map bitCount).sum

theorem ncard_bits (x : BitVec w) : { k | x.getLsbD k = true }.ncard = bitCount x := by
  have hset : { k | x.getLsbD k = true } =
      ↑((List.range w).filter fun k => x.getLsbD k).toFinset := by
    ext k
    simp only [coe_toFinset, mem_filter, mem_range]
    exact ⟨fun h => ⟨BitVec.lt_of_getLsbD h, h⟩, fun h => h.2⟩
  rw [hset, Set.ncard_coe_finset, toFinset_card_of_nodup (nodup_range.filter _),
    bitCount, countP_eq_length_filter]

theorem finite_bits (x : BitVec w) : { k | x.getLsbD k = true }.Finite :=
  (Set.finite_lt_nat w).subset fun _ h => BitVec.lt_of_getLsbD h

theorem members_cons (hw : 0 < w) (x : BitVec w) (ws : List (BitVec w)) :
    members (x :: ws) = { k | x.getLsbD k = true } ∪ (· + w) '' members ws := by
  ext i
  simp only [Set.mem_union, Set.mem_ofPred_eq, Set.mem_image]
  by_cases hlt : i < w
  · have hnone : ¬ ∃ j ∈ members ws, j + w = i := by
      rintro ⟨j, -, rfl⟩
      omega
    rw [mem_members, Nat.div_eq_of_lt hlt, Nat.mod_eq_of_lt hlt, word_cons_zero, or_iff_left hnone]
  · obtain ⟨j, rfl⟩ := Nat.exists_eq_add_of_le' (Nat.not_lt.mp hlt)
    have hnone : ¬ x.getLsbD (j + w) = true := fun h => hlt (BitVec.lt_of_getLsbD h)
    rw [mem_members, Nat.add_div_right j hw, Nat.add_mod_right, or_iff_right hnone]
    constructor
    · exact fun h => ⟨j, h, rfl⟩
    · rintro ⟨k, hk, heq⟩
      obtain rfl := Nat.add_right_cancel heq
      exact hk

theorem finite_members (ws : List (BitVec w)) : (members ws).Finite := by
  rcases Nat.eq_zero_or_pos w with rfl | hw
  · refine Set.Finite.subset Set.finite_empty fun i hi => ?_
    rw [mem_members] at hi
    simp at hi
  · induction ws with
    | nil => rw [members_nil]; exact Set.finite_empty
    | cons x ws ih =>
      rw [members_cons hw]
      exact (finite_bits x).union (ih.image _)

theorem size_eq_ncard (hw : 0 < w) (ws : List (BitVec w)) : size ws = (members ws).ncard := by
  induction ws with
  | nil => rw [members_nil, Set.ncard_empty, size, map_nil, sum_nil]
  | cons x ws ih =>
    have hdisj : Disjoint { k | x.getLsbD k = true } ((· + w) '' members ws) := by
      rw [Set.disjoint_left]
      rintro k hk ⟨j, -, rfl⟩
      exact absurd (BitVec.lt_of_getLsbD hk) (Nat.not_lt.mpr (Nat.le_add_left w j))
    rw [members_cons hw,
      Set.ncard_union_eq hdisj (finite_bits x) ((finite_members ws).image _),
      Set.ncard_image_of_injective _ (add_left_injective w), ncard_bits, ← ih, size, size,
      map_cons, sum_cons]

end Size

end OpenJfx.Data.WordSet
