import OpenJfx.Control.SelectedIndicesList
import OpenJfx.Data.Interleaving

namespace OpenJfx.Java.BitSets.BitSet

open List

def nextSetBit (s : BitSet) (fromIndex : Nat) : Int :=
  match s.bits.find? (fromIndex ≤ ·) with
  | some i => i
  | none => -1

def previousSetBit (s : BitSet) (fromIndex : Nat) : Int :=
  match (s.bits.filter (· ≤ fromIndex)).getLast? with
  | some i => i
  | none => -1

section

variable {bits : List Nat}

theorem find?_of_sorted (hbits : bits.Pairwise (· < ·)) (a : Nat) :
    bits.find? (a ≤ ·) = bits[bits.countP (· < a)]? := by
  induction bits with
  | nil => rfl
  | cons b bits ih =>
    rw [pairwise_cons] at hbits
    by_cases hb : a ≤ b
    · have hnone : (b :: bits).countP (· < a) = 0 := by
        rw [countP_eq_zero]
        intro i hi
        have : b ≤ i := (mem_cons.mp hi).elim (fun h => h.ge) fun h => (hbits.1 i h).le
        simpa using hb.trans this
      rw [hnone, find?_cons_of_pos (by simpa using hb), getElem?_cons_zero]
    · rw [find?_cons_of_neg (by simpa using hb), ih hbits.2,
        countP_cons_of_pos (by simpa using hb), getElem?_cons_succ]

theorem filter_of_sorted (hbits : bits.Pairwise (· < ·)) (a : Nat) :
    bits.filter (· ≤ a) = bits.take (bits.countP (· ≤ a)) := by
  induction bits with
  | nil => rfl
  | cons b bits ih =>
    rw [pairwise_cons] at hbits
    by_cases hb : b ≤ a
    · rw [filter_cons_of_pos (by simpa using hb), ih hbits.2,
        countP_cons_of_pos (by simpa using hb), take_succ_cons]
    · have hall : ∀ i ∈ b :: bits, ¬ i ≤ a := by
        intro i hi
        have : b ≤ i := (mem_cons.mp hi).elim (fun h => h.ge) fun h => (hbits.1 i h).le
        omega
      rw [filter_eq_nil_iff.mpr (by simpa using hall),
        countP_eq_zero.mpr (by simpa using hall), take_zero]

theorem countP_getElem (hbits : bits.Pairwise (· < ·)) {index : Nat}
    (hidx : index < bits.length) :
    bits.countP (· < bits[index]) = index ∧ bits.countP (· ≤ bits[index]) = index + 1 := by
  induction bits generalizing index with
  | nil => exact absurd hidx (Nat.not_lt_zero _)
  | cons b bits ih =>
    rw [pairwise_cons] at hbits
    cases index with
    | zero =>
      rw [countP_cons_of_neg (by simp), countP_cons_of_pos (by simp),
        countP_eq_zero, countP_eq_zero.mpr]
      · refine ⟨fun i hi => ?_, rfl⟩
        simpa using (hbits.1 i hi).le
      · intro i hi
        simpa using hbits.1 i hi
    | succ index =>
      have hlt : index < bits.length := Nat.lt_of_succ_lt_succ hidx
      have hb := hbits.1 _ (getElem_mem hlt)
      simp only [getElem_cons_succ]
      rw [countP_cons_of_pos (by simpa using hb),
        countP_cons_of_pos (by simpa using hb.le), (ih hbits.2 hlt).1, (ih hbits.2 hlt).2]
      exact ⟨rfl, rfl⟩

end

section

variable {s : BitSet} {index : Nat}

theorem nextSetBit_eq (hidx : index < s.bits.length) {fromIndex : Nat}
    (h : s.bits.countP (· < fromIndex) = index) :
    s.nextSetBit fromIndex = (s.bits[index] : Nat) := by
  rw [nextSetBit, find?_of_sorted s.sorted, h, getElem?_eq_getElem hidx]

theorem previousSetBit_eq (hidx : index < s.bits.length) {fromIndex : Nat}
    (h : s.bits.countP (· ≤ fromIndex) = index + 1) :
    s.previousSetBit fromIndex = (s.bits[index] : Nat) := by
  rw [previousSetBit, filter_of_sorted s.sorted, getLast?_take, h, if_neg (Nat.succ_ne_zero index),
    Nat.add_sub_cancel, getElem?_eq_getElem hidx, Option.some_or]

theorem getElem?_clear {k : Nat} (hget : s.bits[index]? = some k) {i : Nat} (hlt : k < i) :
    (s.clear i).bits[index]? = some k := by
  change (s.bits.filter (· ≠ i))[index]? = some k
  have hsorted := s.sorted
  generalize s.bits = bits at hget hsorted ⊢
  induction bits generalizing index with
  | nil => cases hget
  | cons b bits ih =>
    rw [pairwise_cons] at hsorted
    cases index with
    | zero =>
      obtain rfl := Option.some.inj hget
      rw [filter_cons_of_pos (by simpa using Nat.ne_of_lt hlt)]
      rfl
    | succ index =>
      have hb := hsorted.1 k (mem_of_getElem? hget)
      rw [filter_cons_of_pos (by simpa using Nat.ne_of_lt (hb.trans hlt))]
      exact ih hget hsorted.2

end

end OpenJfx.Java.BitSets.BitSet

namespace OpenJfx.Control

open Data Java.BitSets List

/-- `lastGetValue` is never below `-1`. -/
structure CachedIndices where
  bitset : BitSet
  lastGetIndex : Int
  lastGetValue : Int

namespace CachedIndices

def new : CachedIndices := ⟨.new, -1, -1⟩

def size (s : CachedIndices) : Nat := s.bitset.cardinality

def isSelected (s : CachedIndices) (index : Nat) : Bool := s.bitset.get index

def reset (s : CachedIndices) : CachedIndices :=
  { s with lastGetIndex := -1, lastGetValue := -1 }

/-- The loop of `get`. It ends when the element is found, or after the last one. -/
def search (index : Int) : Nat → CachedIndices → CachedIndices × Int
  | 0, s => (s, -1)
  | fuel + 1, s =>
    if s.lastGetValue ≥ 0 ∨ s.lastGetIndex = index then
      if s.lastGetIndex = index then (s, s.lastGetValue)
      else search index fuel
        { s with
          lastGetIndex := s.lastGetIndex + 1
          lastGetValue := s.bitset.nextSetBit (s.lastGetValue + 1).toNat }
    else (s, -1)

/-- `none` is an `IndexOutOfBoundsException`. -/
def get (s : CachedIndices) (index : Int) : Option (CachedIndices × Int) :=
  let itemCount := s.size
  if index < 0 ∨ index ≥ itemCount then none
  else if index = s.lastGetIndex + 1 ∧ s.lastGetValue < itemCount then
    let value := s.bitset.nextSetBit (s.lastGetValue + 1).toNat
    some ({ s with lastGetIndex := s.lastGetIndex + 1, lastGetValue := value }, value)
  else if index = s.lastGetIndex - 1 ∧ s.lastGetValue > 0 then
    let value := s.bitset.previousSetBit (s.lastGetValue - 1).toNat
    some ({ s with lastGetIndex := s.lastGetIndex - 1, lastGetValue := value }, value)
  else
    some (search index (itemCount + 1)
      { s with lastGetIndex := 0, lastGetValue := s.bitset.nextSetBit 0 })

/-- The loop of `ReadOnlyUnbackedObservableList.indexOf`, with `fuel` elements behind `i`. -/
def indexOfFrom (obj : Nat) : Nat → Int → CachedIndices → CachedIndices × Int
  | 0, _, s => (s, -1)
  | fuel + 1, i, s =>
    match s.get i with
    | some (s, value) => if value = obj then (s, i) else indexOfFrom obj fuel (i + 1) s
    | none => (s, -1)

def indexOf (s : CachedIndices) (obj : Nat) : CachedIndices × Int :=
  indexOfFrom obj s.size 0 s.reset

def set (itemCount : Nat) (s : CachedIndices) (index : Int) : CachedIndices :=
  if SelectedIndicesList.IsValidIndex itemCount index ∧ s.isSelected index.toNat = false then
    (indexOf { s with bitset := s.bitset.set index.toNat } index.toNat).1
  else s

/-- `set(int index, int end, true)`. -/
def setRange (s : CachedIndices) (index span : Nat) : CachedIndices :=
  (indexOf { s with bitset := s.bitset.setRange index span } index).1

def setAll (itemCount : Nat) (s : CachedIndices) (index : Int) (indices : List Int) :
    CachedIndices :=
  if indices = [] then s.set itemCount index
  else
    let newIndices := SelectedIndicesList.sortedNewIndices itemCount ⟨s.bitset, 0, []⟩
      (index :: indices)
    let s := newIndices.foldl (fun s i => s.set itemCount i) s
    match newIndices with
    | startValue :: _ :: _ => (s.indexOf startValue).1
    | _ => s

def clearAll (s : CachedIndices) : CachedIndices := { s with bitset := s.bitset.clearAll }

def clear (s : CachedIndices) (index : Nat) : CachedIndices :=
  if s.isSelected index then { s with bitset := s.bitset.clear index } else s

inductive Call
  | set (itemCount : Nat) (index : Int)
  | setAll (itemCount : Nat) (index : Int) (indices : List Int)
  | setRange (index span : Nat)
  | clear (index : Nat)
  | clearAll
  | get (index : Nat)

def call (s : CachedIndices) : Call → Option CachedIndices
  | .set itemCount index => some (s.set itemCount index)
  | .setAll itemCount index indices => some (s.setAll itemCount index indices)
  | .setRange index span => some (s.setRange index span)
  | .clear index => some (s.clear index)
  | .clearAll => some s.clearAll
  | .get index => (s.get index).map Prod.fst

/-- A `get` within the bounds returns the element at the index. -/
def Right (s : CachedIndices) : Call → Prop
  | .get index =>
    index < s.size → (s.get index).map Prod.snd = s.bitset.bits[index]?.map Int.ofNat
  | _ => True

/-- A `clear` takes away no index up to the one that was found last, but for the only one. -/
def ClearsBehind (s : CachedIndices) : Call → Prop
  | .clear index => s.isSelected index = false ∨ s.lastGetValue < index ∨ s.size = 1
  | _ => True

/-- What was found last is at the index at which it was found. -/
def Cached (s : CachedIndices) : Prop :=
  s.bitset.bits = [] ∨ (s.lastGetIndex = -1 ∧ s.lastGetValue = -1) ∨
    ∃ (index value : Nat), s.bitset.bits[index]? = some value ∧ s.lastGetIndex = index ∧
      s.lastGetValue = value

section

variable {s : CachedIndices} {index : Nat}

theorem search_eq (index fuel : Nat) :
    ∀ {bitset : BitSet} {i : Nat} (hi : i ≤ index) (hidx : index < bitset.bits.length),
      index < fuel + i →
      search index fuel ⟨bitset, i, (bitset.bits[i] : Nat)⟩ =
        (⟨bitset, index, (bitset.bits[index] : Nat)⟩, ((bitset.bits[index] : Nat) : Int)) := by
  induction fuel with
  | zero => exact fun hi _ hfuel => absurd hfuel (by omega)
  | succ fuel ih =>
    intro bitset i hi hidx hfuel
    have hcond : ((bitset.bits[i] : Nat) : Int) ≥ 0 ∨ (i : Int) = index := .inl (by omega)
    rw [search, if_pos hcond]
    split_ifs with heq
    · obtain rfl : i = index := Int.ofNat.inj heq
      rfl
    · have hlt : i < index := by
        simp only [Int.natCast_inj] at heq
        omega
      have hnext : bitset.nextSetBit (((bitset.bits[i] : Nat) : Int) + 1).toNat =
          (bitset.bits[i + 1] : Nat) := by
        refine BitSet.nextSetBit_eq _ ?_
        rw [← (BitSet.countP_getElem bitset.sorted (hi.trans_lt hidx)).2]
        refine countP_congr fun j _ => ?_
        simp only [decide_eq_true_eq]
        omega
      simp only [hnext]
      exact ih hlt hidx (by omega)

/-- A `get` within the bounds returns the right element and keeps it. -/
theorem Cached.get (h : s.Cached) (hidx : index < s.bitset.bits.length) :
    s.get index = some ({ s with
      lastGetIndex := index
      lastGetValue := (s.bitset.bits[index] : Nat) }, Int.ofNat s.bitset.bits[index]) := by
  have hsize : s.size = s.bitset.bits.length := rfl
  simp only [CachedIndices.get]
  rw [if_neg (by omega)]
  split_ifs with hforward hbackward
  · have hcount : s.bitset.bits.countP (· < (s.lastGetValue + 1).toNat) = index := by
      rcases h with h | ⟨hi, hv⟩ | ⟨i, v, hget, hi, hv⟩
      · simp [h] at hidx
      · rw [show index = 0 by omega, countP_eq_zero]
        intro j _
        simp only [decide_eq_true_eq]
        omega
      · obtain ⟨hlt, rfl⟩ := List.getElem?_eq_some_iff.mp hget
        have hcount := (BitSet.countP_getElem s.bitset.sorted hlt).2
        rw [show index = i + 1 by omega, ← hcount]
        refine countP_congr fun j _ => ?_
        simp only [decide_eq_true_eq]
        omega
    rw [BitSet.nextSetBit_eq hidx hcount, hforward.1]
    rfl
  · have hcount : s.bitset.bits.countP (· ≤ (s.lastGetValue - 1).toNat) = index + 1 := by
      rcases h with h | ⟨hi, hv⟩ | ⟨i, v, hget, hi, hv⟩
      · simp [h] at hidx
      · omega
      · obtain ⟨hlt, rfl⟩ := List.getElem?_eq_some_iff.mp hget
        have hcount := (BitSet.countP_getElem s.bitset.sorted hlt).1
        rw [show index + 1 = i by omega, ← hcount]
        refine countP_congr fun j _ => ?_
        simp only [decide_eq_true_eq]
        omega
    rw [BitSet.previousSetBit_eq hidx hcount, hbackward.1]
    rfl
  · rw [BitSet.nextSetBit_eq (by omega : 0 < s.bitset.bits.length) (by simp)]
    exact congrArg some (search_eq index _ (Nat.zero_le _) hidx (by omega))

theorem cached_reset (s : CachedIndices) : s.reset.Cached := .inr (.inl ⟨rfl, rfl⟩)

theorem Cached.indexOfFrom {obj : Nat} (fuel : Nat) : ∀ {s : CachedIndices} (i : Nat), s.Cached →
    (indexOfFrom obj fuel i s).1.Cached ∧ (indexOfFrom obj fuel i s).1.bitset = s.bitset := by
  induction fuel with
  | zero => exact fun _ h => ⟨h, rfl⟩
  | succ fuel ih =>
    intro s i h
    rw [CachedIndices.indexOfFrom]
    by_cases hi : i < s.bitset.bits.length
    · rw [h.get hi]
      dsimp only
      have hkept : Cached { s with
          lastGetIndex := i
          lastGetValue := (s.bitset.bits[i] : Nat) } :=
        .inr (.inr ⟨i, _, getElem?_eq_getElem hi, rfl, rfl⟩)
      split
      · exact ⟨hkept, rfl⟩
      · exact ih (i + 1) hkept
    · have hnone : s.get i = none := by
        simp only [CachedIndices.get]
        exact if_pos (.inr (by simp only [size, BitSet.cardinality]; omega))
      rw [hnone]
      exact ⟨h, rfl⟩

/-- `indexOf` forgets what was found last, and finds elements anew. -/
theorem indexOf_spec (s : CachedIndices) (obj : Nat) :
    (s.indexOf obj).1.Cached ∧ (s.indexOf obj).1.bitset = s.bitset :=
  (cached_reset s).indexOfFrom s.size 0

theorem Cached.set (h : s.Cached) (itemCount : Nat) (index : Int) :
    (s.set itemCount index).Cached := by
  rw [CachedIndices.set]
  split
  · exact (indexOf_spec _ _).1
  · exact h

theorem Cached.setAll (h : s.Cached) (itemCount : Nat) (index : Int) (indices : List Int) :
    (s.setAll itemCount index indices).Cached := by
  rw [CachedIndices.setAll]
  split
  · exact h.set itemCount index
  · generalize SelectedIndicesList.sortedNewIndices itemCount ⟨s.bitset, 0, []⟩
      (index :: indices) = newIndices
    have hall : ∀ (l : List Nat) {s : CachedIndices}, s.Cached →
        (l.foldl (fun s i => s.set itemCount i) s).Cached := by
      intro l
      induction l with
      | nil => exact fun h => h
      | cons i l ih => exact fun h => ih (h.set itemCount i)
    dsimp only
    split
    · exact (indexOf_spec _ _).1
    · exact hall newIndices h

theorem Cached.clear (h : s.Cached) (hbehind : s.ClearsBehind (.clear index)) :
    (s.clear index).Cached := by
  rw [CachedIndices.clear]
  split
  case isFalse => exact h
  case isTrue hselected =>
    rcases hbehind with hnot | hbehind | hone
    · rw [hnot] at hselected
      cases hselected
    · rcases h with h | h | ⟨i, value, hget, hi, hvalue⟩
      · refine .inl ?_
        simp [BitSet.clear, h]
      · exact .inr (.inl h)
      · exact .inr (.inr ⟨i, value, BitSet.getElem?_clear hget (by omega), hi, hvalue⟩)
    · obtain ⟨only, honly⟩ := List.length_eq_one_iff.mp hone
      rw [isSelected, BitSet.get, honly, decide_eq_true_eq, mem_singleton] at hselected
      refine .inl ?_
      simp [BitSet.clear, honly, hselected]

theorem Cached.call {s' : CachedIndices} {c : Call} (h : s.Cached) (hbehind : s.ClearsBehind c)
    (hcall : s.call c = some s') : s'.Cached := by
  cases c with
  | set itemCount index => exact Option.some.inj hcall ▸ h.set itemCount index
  | setAll itemCount index indices => exact Option.some.inj hcall ▸ h.setAll itemCount index indices
  | setRange index span => exact Option.some.inj hcall ▸ (indexOf_spec _ _).1
  | clear index => exact Option.some.inj hcall ▸ h.clear hbehind
  | clearAll => exact Option.some.inj hcall ▸ .inl rfl
  | get index =>
    by_cases hidx : index < s.bitset.bits.length
    · rw [CachedIndices.call, h.get hidx] at hcall
      exact Option.some.inj hcall ▸ .inr (.inr ⟨index, _, getElem?_eq_getElem hidx, rfl, rfl⟩)
    · have hnone : s.get index = none := by
        simp only [CachedIndices.get]
        exact if_pos (.inr (by simp only [size, BitSet.cardinality]; omega))
      rw [CachedIndices.call, hnone] at hcall
      cases hcall

theorem Cached.right (h : s.Cached) (c : Call) : s.Right c := by
  cases c with
  | get index =>
    intro hidx
    rw [h.get hidx, getElem?_eq_getElem hidx]
    rfl
  | _ => trivial

/-- In every run in which no `clear` reaches the index that was found last, every `get` returns the
element at its index. -/
theorem gets_right_of_clearsBehind (calls : List Call)
    (hbehind : EachStep call ClearsBehind new calls) : EachStep call Right new calls := by
  have hkept : ∀ (calls : List Call) {s : CachedIndices}, s.Cached →
      EachStep call ClearsBehind s calls → EachStep call Right s calls := by
    intro calls
    induction calls with
    | nil => exact fun _ _ => trivial
    | cons c calls ih =>
      rintro s h ⟨hc, hcalls⟩
      exact ⟨h.right c, fun s' hcall => ih (h.call hc hcall) (hcalls s' hcall)⟩
  exact hkept calls (cached_reset new) hbehind

/-- The second element is cleared while the first one is what was found last. -/
theorem gets_right_clear_behind :
    EachStep call Right new [.setAll 6 1 [3, 5], .get 0, .clear 3, .get 1] := by
  apply gets_right_of_clearsBehind
  refine ⟨trivial, fun s hs => ⟨trivial, fun s' hs' =>
    ⟨?_, fun _ _ => ⟨trivial, fun _ _ => trivial⟩⟩⟩⟩
  obtain rfl := Option.some.inj hs
  obtain rfl := Option.some.inj hs'
  exact .inr (.inl (by decide))

/-- The fourth call looks for the first of three elements from the second one, which is not set
any more. -/
theorem not_gets_right :
    ¬ EachStep call Right new [.setAll 6 1 [3, 5], .get 0, .get 1, .clear 1, .get 0] := by
  intro h
  have hlast := ((((h.2 _ rfl).2 _ rfl).2 _ rfl).2 _ rfl).1 (by decide)
  exact absurd hlast (by decide)

end

end CachedIndices

end OpenJfx.Control
