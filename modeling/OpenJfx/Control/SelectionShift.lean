import OpenJfx.Control.SelectionEvents
import OpenJfx.Collections.ShiftedPositions
import OpenJfx.Data.Loop

/-!
What `doShift` does to the selected indices: those that the shift reaches are moved, and those that
stand where others could have been moved to are lost.
-/

namespace OpenJfx.Control

open Data Java.Arrays Java.BitSets Java.BitSets.BitSet Collections.ShiftedPositions List

namespace MultipleSelectionModelBase

open SelectedIndicesList

def Noted (capacity idx : Nat) (perm : List Int) : Prop :=
  idx ≤ capacity ∧ ∃ entries : List Int, entries.length = idx ∧ (∀ e ∈ entries, -1 < e) ∧
    perm = entries ++ List.replicate (capacity - idx) (-1)

theorem noted_replicate (capacity : Nat) : Noted capacity 0 (List.replicate capacity (-1)) :=
  ⟨Nat.zero_le capacity, [], rfl, by simp, rfl⟩

variable {capacity idx : Nat} {perm : List Int}

theorem Noted.countP_eq (h : Noted capacity idx perm) :
    perm.countP (-1 < ·) = idx := by
  rcases h with ⟨-, entries, rfl, hentries, rfl⟩
  rw [countP_append, countP_replicate]
  exact countP_eq_length.mpr fun e he => decide_eq_true (hentries e he)

theorem Noted.store_ok (h : Noted capacity idx perm) (hlt : idx < capacity) (entry : Nat) :
    ∃ perm', store perm idx (entry : Int) = .ok perm' ∧ Noted capacity (idx + 1) perm' := by
  rcases h with ⟨-, entries, rfl, hentries, rfl⟩
  have hfree : capacity - entries.length = capacity - (entries.length + 1) + 1 := by omega
  refine ⟨entries ++ (entry : Int) :: List.replicate (capacity - (entries.length + 1)) (-1),
    ?_, hlt,
    entries ++ [(entry : Int)], ?_, ?_, ?_⟩
  · rw [hfree, replicate_succ]
    exact store_append entries _ _ _
  · rw [length_append, length_singleton]
  · intro e he
    rcases mem_append.mp he with he | he
    · exact hentries e he
    · rw [mem_singleton.mp he]
      omega
  · rw [append_assoc, singleton_append]

/-- A call of `move`. -/
structure BitMove where
  clearIndex : Nat
  setIndex : Nat
  entry : Nat

/-- The capacity after some bits were set one after another. -/
def reserve (words : Nat) (indices : List Nat) : Nat :=
  indices.foldl (fun words i => ensureCapacity words (i / 64 + 1)) words

theorem clear_of_atomic {s : SelectedIndicesList} (h : 0 < s.atomicityCount) (i : Nat) :
    s.clear i = .ok { s with bitset := s.bitset.clear i } := by
  rcases Decidable.em (i ∈ s.elements) with hmem | hmem
  · have hsel : s.isSelected i = true := decide_eq_true hmem
    rw [SelectedIndicesList.clear, if_pos hsel]
    exact report_of_atomic (s := { s with bitset := s.bitset.clear i }) h _
  · have hsame : s.bitset.clear i = s.bitset := by
      apply BitSet.eq_of_bits
      · apply filter_eq_self.mpr
        intro j hj
        exact decide_eq_true fun heq => hmem (heq ▸ hj)
      · rfl
    rw [clear_eq_of_notMem hmem, hsame]

variable {itemCount i : Nat}

theorem set_eq_of_atomic {s : SelectedIndicesList} (h : 0 < s.atomicityCount)
    (hvalid : i < itemCount) :
    s.set itemCount i = .ok { s with bitset := s.bitset.set i } := by
  have hidx : IsValidIndex itemCount i := ⟨Int.natCast_nonneg _, Int.ofNat_lt.mpr hvalid⟩
  rw [SelectedIndicesList.set]
  split
  case isTrue => exact report_of_atomic (s := { s with bitset := s.bitset.set i }) h _
  case isFalse hnot =>
    have hmem : i ∈ s.elements := by
      by_contra hmem
      exact hnot ⟨hidx, decide_eq_false hmem⟩
    have hsame : s.bitset.set i = s.bitset := by
      apply BitSet.eq_of_bits
      · apply bits_eq_of_mem_iff (s.bitset.set i).sorted s.bitset.sorted
        intro j
        rw [BitSet.mem_set]
        exact ⟨fun hj => hj.elim id fun heq => heq ▸ hmem, .inl⟩
      · have hfits := s.bitset.fits i hmem
        exact ensureCapacity_of_le (by omega)
    rw [hsame]
    rfl

def BitMove.apply (b : BitMove) (s : BitSet) : BitSet :=
  if b.clearIndex ∈ s.bits then (s.clear b.clearIndex).set b.setIndex
  else (s.clear b.clearIndex).clear b.setIndex

theorem move_spec {s : Shifting} {b : BitMove} (hatomic : 0 < s.selectedIndices.atomicityCount)
    (hnoted : Noted capacity s.idx s.perm) (hsel : b.clearIndex ∈ s.selectedIndices.elements →
      b.setIndex < itemCount ∧ s.idx < capacity) :
    ∃ perm idx, s.move itemCount b.clearIndex b.setIndex b.entry =
        .ok ⟨{ s.selectedIndices with bitset := b.apply s.selectedIndices.bitset }, perm, idx⟩ ∧
      Noted capacity idx perm ∧
      idx = s.idx + [b].countP (·.clearIndex ∈ s.selectedIndices.elements) := by
  have hget : s.selectedIndices.isSelected b.clearIndex =
      decide (b.clearIndex ∈ s.selectedIndices.elements) := rfl
  rw [Shifting.move, hget, clear_of_atomic hatomic, ok_bind, BitMove.apply]
  rcases Decidable.em (b.clearIndex ∈ s.selectedIndices.elements) with hmem | hmem
  · rcases hsel hmem with ⟨hvalid, hlt⟩
    rcases hnoted.store_ok hlt b.entry with ⟨perm, hstore, hnoted'⟩
    refine ⟨perm, s.idx + 1, ?_, hnoted', ?_⟩
    · rw [decide_eq_true hmem, setTo, if_pos rfl, set_eq_of_atomic (by exact hatomic) hvalid,
        ok_bind, if_pos rfl, hstore, if_pos (by exact hmem)]
      rfl
    · rw [countP_cons_of_pos (by exact decide_eq_true hmem), countP_nil]
  · refine ⟨s.perm, s.idx, ?_, hnoted, ?_⟩
    · rw [decide_eq_false hmem, setTo, if_neg Bool.false_ne_true,
        clear_of_atomic (by exact hatomic), if_neg (by exact hmem)]
      rfl
    · rw [countP_cons_of_neg (by simpa using hmem), countP_nil, Nat.add_zero]

namespace BitMove

/-- What a later move may not touch after an earlier one. -/
def Apart (b b' : BitMove) : Prop :=
  b'.clearIndex ≠ b.clearIndex ∧ b'.clearIndex ≠ b.setIndex ∧ b'.setIndex ≠ b.setIndex

def applyAll (moves : List BitMove) (s : BitSet) : BitSet := moves.foldl (fun s b => b.apply s) s

variable {moves : List BitMove} {s : BitSet} {j : Nat}

theorem mem_apply {b : BitMove} :
    j ∈ (b.apply s).bits ↔ b.setIndex = j ∧ b.clearIndex ∈ s.bits ∨
      j ∈ s.bits ∧ j ≠ b.clearIndex ∧ j ≠ b.setIndex := by
  rw [BitMove.apply]
  split
  case isTrue hmem =>
    rw [BitSet.mem_set, mem_clear]
    constructor
    · rintro (⟨hj, hclear⟩ | rfl)
      · rcases Decidable.em (b.setIndex = j) with rfl | hset
        · exact .inl ⟨rfl, hmem⟩
        · exact .inr ⟨hj, hclear, fun heq => hset heq.symm⟩
      · exact .inl ⟨rfl, hmem⟩
    · rintro (⟨rfl, -⟩ | ⟨hj, hclear, -⟩)
      · exact .inr rfl
      · exact .inl ⟨hj, hclear⟩
  case isFalse hmem =>
    rw [mem_clear, mem_clear, and_assoc]
    constructor
    · exact .inr
    · rintro (⟨-, hclear⟩ | hj)
      · exact absurd hclear hmem
      · exact hj

theorem mem_apply_of_apart {b b' : BitMove} (hapart : b.Apart b') :
    b'.clearIndex ∈ (b.apply s).bits ↔ b'.clearIndex ∈ s.bits := by
  rw [mem_apply]
  constructor
  · rintro (⟨heq, -⟩ | ⟨hmem, -⟩)
    · exact absurd heq.symm hapart.2.1
    · exact hmem
  · exact fun hmem => .inr ⟨hmem, hapart.1, hapart.2.1⟩

theorem mem_applyAll (hapart : moves.Pairwise Apart) :
    j ∈ (applyAll moves s).bits ↔ (∃ b ∈ moves, b.setIndex = j ∧ b.clearIndex ∈ s.bits) ∨
      j ∈ s.bits ∧ ∀ b ∈ moves, j ≠ b.clearIndex ∧ j ≠ b.setIndex := by
  induction moves generalizing s with
  | nil => simp [applyAll]
  | cons b moves ih =>
    rcases pairwise_cons.mp hapart with ⟨hfst, hrest⟩
    rw [applyAll, foldl_cons, ← applyAll,
      ih hrest, mem_apply]
    constructor
    · rintro (⟨b', hb', hset, hmem⟩ | ⟨⟨hset, hmem⟩ | ⟨hj, hclear, hset⟩, hother⟩)
      · exact .inl ⟨b', mem_cons_of_mem b hb', hset,
          (mem_apply_of_apart (hfst b' hb')).mp hmem⟩
      · exact .inl ⟨b, mem_cons_self, hset, hmem⟩
      · exact .inr ⟨hj, forall_mem_cons.mpr ⟨⟨hclear, hset⟩, hother⟩⟩
    · rintro (⟨b', hb', hset, hmem⟩ | ⟨hj, hother⟩)
      · rcases mem_cons.mp hb' with rfl | hb'
        · refine .inr ⟨.inl ⟨hset, hmem⟩, fun b'' hb'' => ?_⟩
          have hafter := hfst b'' hb''
          rw [← hset]
          exact ⟨hafter.2.1.symm, hafter.2.2.symm⟩
        · exact .inl ⟨b', hb', hset, (mem_apply_of_apart (hfst b' hb')).mpr hmem⟩
      · rcases forall_mem_cons.mp hother with ⟨hhead, htail⟩
        exact .inr ⟨.inr ⟨hj, hhead⟩, htail⟩

def targets (moves : List BitMove) (s : BitSet) : List Nat :=
  (moves.filter (·.clearIndex ∈ s.bits)).map setIndex

theorem words_applyAll (hapart : moves.Pairwise Apart) :
    (applyAll moves s).words = reserve s.words (targets moves s) := by
  induction moves generalizing s with
  | nil => rfl
  | cons b moves ih =>
    rcases pairwise_cons.mp hapart with ⟨hfst, hrest⟩
    have hlater : targets moves (b.apply s) = targets moves s := by
      apply congrArg (List.map setIndex)
      apply filter_congr
      intro b' hb'
      exact decide_eq_decide.mpr (mem_apply_of_apart (hfst b' hb'))
    rw [applyAll, foldl_cons, ← applyAll, ih hrest, hlater, targets, targets, BitMove.apply]
    split
    case isTrue hmem =>
      rw [filter_cons_of_pos (by simpa using hmem)]
      rfl
    case isFalse hmem =>
      rw [filter_cons_of_neg (by simpa using hmem)]
      rfl

end BitMove

theorem reserve_eq {words : Nat} {bits indices : List Nat} (hbits : bits.Pairwise (· < ·))
    (hidxs : ∀ i ∈ indices, i ∈ bits) (hother : ∀ j ∈ bits, j ∈ indices ∨ j < 64 * words)
    (hdown : indices.Pairwise fun i i' => i' ≤ i ∨ i' < 64 * words) :
    reserve words indices = ensureCapacity words (wordsInUse bits) := by
  rcases indices with - | ⟨i, indices⟩
  · rw [ensureCapacity_of_le]
    · rfl
    · exact wordsInUse_le fun j hj => (hother j hj).resolve_left not_mem_nil
  · rcases pairwise_cons.mp hdown with ⟨hfst, -⟩
    have hle := le_ensureCapacity words (i / 64 + 1)
    have hrequired := required_le_ensureCapacity words (i / 64 + 1)
    -- the first index is the highest one that does not fit
    have hrest : reserve (ensureCapacity words (i / 64 + 1)) indices =
        ensureCapacity words (i / 64 + 1) := by
      apply foldl_eq_of_fixed
      intro i' hi'
      apply ensureCapacity_of_le
      rcases hfst i' hi' with hdown | hfits <;> omega
    rw [reserve, foldl_cons, ← reserve, hrest]
    have hmem := lt_wordsInUse hbits (hidxs i mem_cons_self)
    rcases Nat.lt_or_ge words (i / 64 + 1) with hlt | hge
    · have hsame : wordsInUse bits ≤ i / 64 + 1 := by
        apply wordsInUse_le
        intro j hj
        rcases hother j hj with hj | hj
        · rcases mem_cons.mp hj with rfl | hj
          · omega
          · rcases hfst j hj with hdown | hfits <;> omega
        · omega
      rw [show i / 64 + 1 = wordsInUse bits by omega]
    · have hsame : wordsInUse bits ≤ words := by
        apply wordsInUse_le
        intro j hj
        rcases hother j hj with hj | hj
        · rcases mem_cons.mp hj with rfl | hj
          · omega
          · rcases hfst j hj with hdown | hfits <;> omega
        · exact hj
      rw [ensureCapacity_of_le hge, ensureCapacity_of_le hsame]

theorem foldlM_move (itemCount : Nat) {moves : List BitMove} {s : Shifting}
    (hapart : moves.Pairwise BitMove.Apart) (hatomic : 0 < s.selectedIndices.atomicityCount)
    (hnoted : Noted capacity s.idx s.perm)
    (hvalid : ∀ b ∈ moves, b.clearIndex ∈ s.selectedIndices.elements → b.setIndex < itemCount)
    (hcap : s.idx + moves.countP (·.clearIndex ∈ s.selectedIndices.elements) ≤ capacity) :
    ∃ perm idx, moves.foldlM
        (fun (s : Shifting) b => s.move itemCount b.clearIndex b.setIndex b.entry) s =
        .ok ⟨{ s.selectedIndices with
          bitset := BitMove.applyAll moves s.selectedIndices.bitset }, perm, idx⟩ ∧
      Noted capacity idx perm ∧
      idx = s.idx + moves.countP (·.clearIndex ∈ s.selectedIndices.elements) := by
  induction moves generalizing s with
  | nil => exact ⟨s.perm, s.idx, rfl, hnoted, rfl⟩
  | cons b moves ih =>
    rcases pairwise_cons.mp hapart with ⟨hfst, hrest⟩
    rw [← singleton_append, countP_append] at hcap ⊢
    have hsel : b.clearIndex ∈ s.selectedIndices.elements →
        b.setIndex < itemCount ∧ s.idx < capacity := by
      intro hmem
      refine ⟨hvalid b mem_cons_self hmem, ?_⟩
      rw [countP_cons_of_pos (by simpa using hmem)] at hcap
      omega
    rcases move_spec hatomic hnoted hsel with ⟨perm, idx, hok, hnoted', hidx⟩
    have hlater : ∀ b' ∈ moves, (b'.clearIndex ∈ (b.apply s.selectedIndices.bitset).bits ↔
        b'.clearIndex ∈ s.selectedIndices.elements) :=
      fun b' hb' => BitMove.mem_apply_of_apart (hfst b' hb')
    have hcnt : moves.countP (·.clearIndex ∈ (b.apply s.selectedIndices.bitset).bits) =
        moves.countP (·.clearIndex ∈ s.selectedIndices.elements) :=
      countP_congr fun b' hb' => by simpa using hlater b' hb'
    rcases ih (s := ⟨{ s.selectedIndices with
        bitset := b.apply s.selectedIndices.bitset }, perm, idx⟩) hrest hatomic hnoted'
        (fun b' hb' hmem =>
          hvalid b' (mem_cons_of_mem b hb') ((hlater b' hb').mp hmem))
        (by
          change idx + moves.countP (·.clearIndex ∈ (b.apply s.selectedIndices.bitset).bits) ≤ _
          omega) with ⟨perm', idx', hok', hnoted'', hidx'⟩
    refine ⟨perm', idx', ?_, hnoted'', ?_⟩
    · rw [singleton_append, foldlM_cons, hok, ok_bind]
      exact hok'
    · change idx' = idx + moves.countP
        (·.clearIndex ∈ (b.apply s.selectedIndices.bitset).bits) at hidx'
      omega

def shiftPair (s : Shift) : Int × Int := (s.position, s.amount)

def Moves (s : Shift) : Prop := 0 < s.added ∧ s.removed = 0 ∨ s.added = 0 ∧ 0 < s.removed

/-- The loop of the shift goes over the index, unless it ends before. -/
def Reaches (s : Shift) (i : Nat) : Prop :=
  s.position + s.removed ≤ i ∧ (s.removed = 0 ∨ s.removed < i)

/-- The loop does not end before the index. -/
def Within (limit : Nat) (s : Shift) (i : Nat) : Prop :=
  if s.removed = 0 then i < limit else i ≤ limit

/-- The loop of a removal moves the bit of another index there. -/
def Overwrites (limit : Nat) (s : Shift) (i : Nat) : Prop :=
  0 < s.removed ∧ s.position ≤ i ∧ 0 < i ∧ i + s.removed ≤ limit

instance (s : Shift) (i : Nat) : Decidable (Reaches s i) := inferInstanceAs (Decidable (_ ∧ _))

instance (limit : Nat) (s : Shift) (i : Nat) : Decidable (Within limit s i) :=
  inferInstanceAs (Decidable (ite _ _ _))

def target (s : Shift) (i : Nat) : Nat := i + s.added - s.removed

def movesOf (limit : Nat) (s : Shift) : List BitMove :=
  let range := List.range' s.position (limit - s.position)
  if 0 < s.added then range.reverse.map fun i => ⟨i, i + s.added, i + 1⟩
  else (range.filter fun i => ¬(i < s.removed ∨ i + 1 < s.position + s.removed)).map
    fun i => ⟨i + 1, i + 1 - s.removed, i⟩

variable {limit : Nat}

variable {s : Shift}

theorem movesOf_spec (hmoves : Moves s) :
    ∀ b ∈ movesOf limit s, Reaches s b.clearIndex ∧ Within limit s b.clearIndex ∧
      b.setIndex = target s b.clearIndex := by
  intro b hb
  rw [movesOf] at hb
  rw [Reaches, Within, target]
  rcases hmoves with ⟨hadded, hrem⟩ | ⟨hadded, hrem⟩
  · rw [if_pos hadded, mem_map] at hb
    rcases hb with ⟨i, hi, rfl⟩
    rw [mem_reverse, mem_range'_1] at hi
    rw [if_pos hrem]
    dsimp only
    omega
  · rw [if_neg (by omega), mem_map] at hb
    rcases hb with ⟨i, hi, rfl⟩
    rw [mem_filter, mem_range'_1, decide_eq_true_eq] at hi
    rw [if_neg (by omega)]
    dsimp only
    omega

theorem exists_move (hmoves : Moves s) (hreaches : Reaches s i) (hwithin : Within limit s i) :
    ∃ b ∈ movesOf limit s, b.clearIndex = i := by
  rw [Reaches] at hreaches
  rw [Within] at hwithin
  rw [movesOf]
  rcases hmoves with ⟨hadded, hrem⟩ | ⟨hadded, hrem⟩
  · rw [if_pos hrem] at hwithin
    refine ⟨⟨i, i + s.added, i + 1⟩, ?_, rfl⟩
    rw [if_pos hadded, mem_map]
    refine ⟨i, ?_, rfl⟩
    rw [mem_reverse, mem_range'_1]
    omega
  · rw [if_neg (by omega)] at hwithin
    refine ⟨⟨i - 1 + 1, i - 1 + 1 - s.removed, (i - 1 : Nat)⟩, ?_, by dsimp only; omega⟩
    rw [if_neg (by omega), mem_map]
    refine ⟨i - 1, ?_, rfl⟩
    rw [mem_filter, mem_range'_1, decide_eq_true_eq]
    omega

/-- The bits of an insertion are moved from the last one on, those of a removal from the first. -/
theorem pairwise_movesOf (limit : Nat) (hmoves : Moves s) :
    (movesOf limit s).Pairwise fun b b' => b.Apart b' ∧
      (b'.setIndex ≤ b.setIndex ∨ b'.setIndex < b'.clearIndex) := by
  have hrange : (List.range' s.position (limit - s.position)).Pairwise (· < ·) :=
    pairwise_lt_range'
  rw [movesOf]
  rcases hmoves with ⟨hadded, hrem⟩ | ⟨hadded, hrem⟩
  · rw [if_pos hadded, pairwise_map, pairwise_reverse]
    refine hrange.imp fun hlt => ⟨⟨?_, ?_, ?_⟩, .inl ?_⟩ <;> dsimp only <;> omega
  · rw [if_neg (by omega), pairwise_map]
    refine (hrange.filter _).imp_of_mem fun hi hi' hlt => ?_
    rw [mem_filter, decide_eq_true_eq] at hi hi'
    refine ⟨⟨?_, ?_, ?_⟩, .inr ?_⟩ <;> dsimp only <;> omega

theorem countP_movesOf (hmoves : Moves s) {bits : List Nat} (hbits : bits.Pairwise (· < ·))
    (hwithin : ∀ i ∈ bits, Reaches s i → Within limit s i) :
    (movesOf limit s).countP (·.clearIndex ∈ bits) = bits.countP (Reaches s ·) := by
  have hnd : ((movesOf limit s).map BitMove.clearIndex).Nodup :=
    pairwise_map.mpr ((pairwise_movesOf limit hmoves).imp fun h heq => h.1.1 heq.symm)
  have hperm : (((movesOf limit s).map BitMove.clearIndex).filter (· ∈ bits)).Perm
      (bits.filter (Reaches s ·)) := by
    apply (perm_ext_iff_of_nodup (hnd.filter _)
      ((hbits.imp fun hlt => Nat.ne_of_lt hlt).filter _)).mpr
    intro i
    rw [mem_filter, mem_filter, decide_eq_true_eq, decide_eq_true_eq, mem_map]
    constructor
    · rintro ⟨⟨b, hb, rfl⟩, hmem⟩
      exact ⟨hmem, (movesOf_spec hmoves b hb).1⟩
    · rintro ⟨hmem, hreaches⟩
      exact ⟨exists_move hmoves hreaches (hwithin i hmem hreaches), hmem⟩
  have hlen := hperm.length_eq
  rw [← countP_eq_length_filter, ← countP_eq_length_filter, countP_map] at hlen
  exact hlen

theorem mem_applyAll_movesOf (hmoves : Moves s) (bits : BitSet)
    (hwithin : ∀ i ∈ bits.bits, Reaches s i → Within limit s i) (j : Nat) :
    j ∈ (BitMove.applyAll (movesOf limit s) bits).bits ↔
      (∃ i ∈ bits.bits, Reaches s i ∧ target s i = j) ∨
        j ∈ bits.bits ∧ ¬Reaches s j ∧ ¬Overwrites limit s j := by
  rw [BitMove.mem_applyAll ((pairwise_movesOf limit hmoves).imp And.left)]
  apply or_congr
  · constructor
    · rintro ⟨b, hb, hset, hmem⟩
      rcases movesOf_spec hmoves b hb with ⟨hreaches, -, htarget⟩
      exact ⟨b.clearIndex, hmem, hreaches, htarget.symm.trans hset⟩
    · rintro ⟨i, hmem, hreaches, htarget⟩
      rcases exists_move hmoves hreaches (hwithin i hmem hreaches) with ⟨b, hb, rfl⟩
      exact ⟨b, hb, (movesOf_spec hmoves b hb).2.2.trans htarget, hmem⟩
  · apply and_congr_right
    intro hmem
    constructor
    · intro hother
      refine ⟨fun hreaches => ?_, fun hover => ?_⟩
      · rcases exists_move hmoves hreaches (hwithin j hmem hreaches) with ⟨b, hb, hclear⟩
        exact (hother b hb).1 hclear.symm
      · rw [Overwrites] at hover
        have hreaches : Reaches s (j + s.removed) := by
          rw [Reaches]
          omega
        have hin : Within limit s (j + s.removed) := by
          rw [Within, if_neg (by omega)]
          omega
        rcases exists_move hmoves hreaches hin with ⟨b, hb, hclear⟩
        have hset := (movesOf_spec hmoves b hb).2.2
        apply (hother b hb).2
        rw [hset, target]
        rw [Moves] at hmoves
        omega
    · rintro ⟨hreaches, hover⟩ b hb
      rcases movesOf_spec hmoves b hb with ⟨hreached, hin, hset⟩
      refine ⟨fun heq => hreaches (heq ▸ hreached), fun heq => ?_⟩
      rw [target] at hset
      rw [Reaches] at hreached hreaches
      rw [Within] at hin
      rw [Overwrites] at hover
      rcases hmoves with ⟨hadded, hrem⟩ | ⟨hadded, hrem⟩
      · omega
      · rw [if_neg (by omega)] at hin
        omega

theorem words_applyAll_movesOf (hmoves : Moves s) {bits : BitSet}
    (hwithin : ∀ i ∈ bits.bits, Reaches s i → Within limit s i) :
    (BitMove.applyAll (movesOf limit s) bits).words =
      ensureCapacity bits.words (wordsInUse (BitMove.applyAll (movesOf limit s) bits).bits) := by
  have hpairwise := pairwise_movesOf limit hmoves
  have hmem := mem_applyAll_movesOf hmoves bits hwithin
  rw [BitMove.words_applyAll (hpairwise.imp And.left)]
  apply reserve_eq (BitMove.applyAll (movesOf limit s) bits).sorted
  · intro i hi
    rw [BitMove.targets, mem_map] at hi
    rcases hi with ⟨b, hb, rfl⟩
    rw [mem_filter, decide_eq_true_eq] at hb
    rcases movesOf_spec hmoves b hb.1 with ⟨hreaches, -, htarget⟩
    exact (hmem _).mpr (.inl ⟨b.clearIndex, hb.2, hreaches, htarget.symm⟩)
  · intro j hj
    rcases (hmem j).mp hj with ⟨i, hi, hreaches, rfl⟩ | ⟨hj, -⟩
    · rcases exists_move hmoves hreaches (hwithin i hi hreaches) with ⟨b, hb, rfl⟩
      rw [← (movesOf_spec hmoves b hb).2.2]
      refine .inl (mem_map_of_mem (mem_filter.mpr ⟨hb, decide_eq_true hi⟩))
    · exact .inr (bits.fits j hj)
  · rw [BitMove.targets, pairwise_map]
    refine (hpairwise.filter _).imp_of_mem fun _ hb' h => ?_
    rw [mem_filter, decide_eq_true_eq] at hb'
    exact h.2.imp_right fun hlt => hlt.trans (bits.fits _ hb'.2)

theorem doShift_eq {si : SelectedIndicesList} (hmoves : Moves s) (hcnt : perm.countP (-1 < ·) = idx)
    {shifted : Shifting}
    (hok : (movesOf (si.bitsetSize - idx) s).foldlM
      (fun (s : Shifting) b => s.move itemCount b.clearIndex b.setIndex b.entry) ⟨si, perm, idx⟩ =
        .ok shifted)
    (hpos : 0 < s.added → s.position ∉ shifted.selectedIndices.elements) :
    doShift itemCount (si, perm) (shiftPair s) = .ok (shifted.selectedIndices, shifted.perm) := by
  rw [Moves] at hmoves
  have hamount : s.amount = s.added - s.removed := rfl
  rw [movesOf] at hok
  rw [doShift, shiftPair]
  dsimp only
  rw [if_neg (by omega), hcnt, Int.toNat_natCast]
  rcases hmoves with ⟨hadded, hrem⟩ | ⟨hadded, hrem⟩
  · rw [if_pos (by omega), show s.amount.toNat = s.added by omega]
    rw [if_pos hadded, foldlM_map] at hok
    have hentry : ∀ i : Nat, ((i + 1 : Nat) : Int) = i + 1 := fun i => rfl
    simp only [hentry] at hok
    rw [hok, ok_bind, clear_eq_of_notMem (hpos hadded)]
    rfl
  · rw [if_neg (by omega), show (-s.amount).toNat = s.removed by omega]
    rw [if_neg (by omega), foldlM_map, foldlM_filter] at hok
    have hguard : (fun (t : Shifting) (i : Nat) =>
        if i < s.removed ∨ i + 1 < s.position + s.removed then pure t
        else t.move itemCount (i + 1) (i + 1 - s.removed) (i : Int)) =
        fun t i => if decide (¬(i < s.removed ∨ i + 1 < s.position + s.removed)) = true then
          t.move itemCount (i + 1) (i + 1 - s.removed) (i : Int) else pure t := by
      funext t i
      rcases Decidable.em (i < s.removed ∨ i + 1 < s.position + s.removed) with h | h
      · rw [if_pos h, if_neg (by rw [decide_eq_true_eq]; exact not_not_intro h)]
      · rw [if_neg h, if_pos (decide_eq_true h)]
    rw [hguard]
    rw [hok]
    rfl

theorem doShift_spec (si : SelectedIndicesList) (hmoves : Moves s) (hatomic : 0 < si.atomicityCount)
    (hnoted : Noted capacity idx perm)
    (hcarried : ∀ i ∈ si.elements, Reaches s i →
      Within (si.bitsetSize - idx) s i ∧ target s i < itemCount)
    (hcap : idx + si.elements.countP (Reaches s ·) ≤ capacity) :
    ∃ bitset perm', doShift itemCount (si, perm) (shiftPair s) =
        .ok ({ si with bitset }, perm') ∧
      Noted capacity (idx + si.elements.countP (Reaches s ·)) perm' ∧
      (∀ j, j ∈ bitset.bits ↔ (∃ i ∈ si.elements, Reaches s i ∧ target s i = j) ∨
        j ∈ si.elements ∧ ¬Reaches s j ∧ ¬Overwrites (si.bitsetSize - idx) s j) ∧
      bitset.words = ensureCapacity si.bitset.words (wordsInUse bitset.bits) := by
  have hwithin : ∀ i ∈ si.elements, Reaches s i → Within (si.bitsetSize - idx) s i :=
    fun i hi hreaches => (hcarried i hi hreaches).1
  have hmem := mem_applyAll_movesOf hmoves si.bitset hwithin
  have hcnt := countP_movesOf hmoves si.bitset.sorted hwithin
  rcases foldlM_move itemCount (s := ⟨si, perm, idx⟩)
    ((pairwise_movesOf (si.bitsetSize - idx) hmoves).imp And.left) hatomic hnoted
    (by
      intro b hb hsel
      rcases movesOf_spec hmoves b hb with ⟨hreaches, -, htarget⟩
      rw [htarget]
      exact (hcarried _ hsel hreaches).2)
    (by
      change idx + (movesOf _ s).countP (·.clearIndex ∈ si.bitset.bits) ≤ _
      rw [hcnt]
      exact hcap) with ⟨perm', idx', hok, hnoted', hidx⟩
  have hidx' : idx' = idx + si.elements.countP (Reaches s ·) := by
    rw [hidx]
    exact congrArg (idx + ·) hcnt
  subst hidx'
  refine ⟨_, perm', doShift_eq hmoves hnoted.countP_eq hok ?_, hnoted', hmem,
    words_applyAll_movesOf hmoves hwithin⟩
  -- an insertion has moved the bit at its position
  intro hadded hpos
  rcases (hmem s.position).mp hpos with ⟨i, -, hreaches, htarget⟩ | ⟨-, hnot, -⟩
  · rw [Reaches] at hreaches
    rw [target] at htarget
    omega
  · apply hnot
    rw [Reaches]
    rw [Moves] at hmoves
    omega

end MultipleSelectionModelBase

end OpenJfx.Control
