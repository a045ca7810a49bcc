import Mathlib.Data.List.Infix
import Mathlib.Algebra.Order.Ring.Int

/-!
Arrays of fixed length with checked accesses. An array is the list of its
slots; reading, writing and block copies fail exactly when the runtime would
throw. The specification lemmas describe the initial segment in use, so that
what lies beyond it never has to be named.
-/

namespace OpenJfx.Java.Arrays

open List

/-- The exceptions a modelled method can end with. -/
inductive Failure
  | nullPointer
  | indexOutOfBounds
  | illegalState (message : String)
  | concurrentModification
  | noSuchElement
  deriving DecidableEq

/-- The outcome of a call: its value, or the exception it throws. -/
abbrev Outcome := Except Failure

variable {α : Type}

@[simp] theorem ok_bind {β : Type} (value : α) (f : α → Outcome β) :
    (Except.ok value : Outcome α) >>= f = f value := rfl

@[simp] theorem error_bind {β : Type} (failure : Failure) (f : α → Outcome β) :
    (Except.error failure : Outcome α) >>= f = .error failure := rfl

@[simp] theorem pure_eq_ok (value : α) : (pure value : Outcome α) = .ok value := rfl

def load (array : List α) (index : Int) : Outcome α :=
  if 0 ≤ index then
    match array[index.toNat]? with
    | some value => .ok value
    | none => .error .indexOutOfBounds
  else .error .indexOutOfBounds

def store (array : List α) (index : Int) (value : α) : Outcome (List α) :=
  if 0 ≤ index ∧ index < array.length then
    .ok (array.set index.toNat value)
  else .error .indexOutOfBounds

/-- `System.arraycopy(src, srcPos, dest, destPos, length)`; the two arrays may
be the same, the copy then behaves as if made through a temporary array. -/
def arraycopy (src : List α) (srcPos : Int) (dest : List α) (destPos length : Int) :
    Outcome (List α) :=
  if 0 ≤ srcPos ∧ 0 ≤ destPos ∧ 0 ≤ length ∧ srcPos + length ≤ src.length ∧
      destPos + length ≤ dest.length then
    .ok (dest.take destPos.toNat ++ (src.drop srcPos.toNat).take length.toNat ++
      dest.drop (destPos + length).toNat)
  else .error .indexOutOfBounds

/-- `Arrays.copyOf(array, newLength)`: cut off or padded with `zero`. -/
def copyOf (zero : α) (array : List α) (newLength : Nat) : List α :=
  array.take newLength ++ List.replicate (newLength - array.length) zero

/-- A new array of `newCapacity` slots that takes over the first `count` ones. -/
def grown (zero : α) (array : List α) (count newCapacity : Nat) : Outcome (List α) :=
  if 0 < count then arraycopy array 0 (List.replicate newCapacity zero) 0 count
  else .ok (List.replicate newCapacity zero)

/-- `(size + factor - 1) & ~(factor - 1)` for a power of two: the least multiple
of `factor` that is not below `size`. -/
def roundUp (factor size : Nat) : Nat := (size + factor - 1) / factor * factor

/-- The largest `size` for which `size * 3 / 2 + 1` is computed without overflow. -/
def maxTripled : Nat := 715827882

theorem le_roundUp {factor : Nat} (h : 0 < factor) (size : Nat) : size ≤ roundUp factor size := by
  have hdiv := Nat.div_add_mod (size + factor - 1) factor
  have hmod := Nat.mod_lt (size + factor - 1) h
  rw [Nat.mul_comm] at hdiv
  rw [roundUp]
  omega

@[simp] theorem load_natCast (array : List α) (index : Nat) (h : index < array.length) :
    load array (index : Int) = .ok array[index] := by
  simp [load, h]

variable {array : List α} {index : Nat} {value : α}

theorem load_eq_ok (h : array[index]? = some value) :
    load array (index : Int) = .ok value := by
  simp [load, h]

theorem store_eq_set (value : α) (h : index < array.length) :
    store array (index : Int) value = .ok (array.set index value) := by
  rw [store, if_pos (by omega), Int.toNat_natCast]

theorem load_append (front rest : List α) (x : α) :
    load (front ++ x :: rest) (front.length : Int) = .ok x :=
  load_eq_ok (by simp)

theorem store_append (front rest : List α) (old x : α) :
    store (front ++ old :: rest) (front.length : Int) x = .ok (front ++ x :: rest) := by
  rw [store_eq_set _ (by simp)]
  simp

theorem grown_spec (zero : α) {count newCapacity : Nat} (h : count ≤ array.length)
    (hcap : count ≤ newCapacity) :
    ∃ array', grown zero array count newCapacity = .ok array' ∧ array'.length = newCapacity ∧
      ∀ i, i < count → array'[i]? = array[i]? := by
  rw [grown]
  by_cases hcnt : 0 < count
  · refine ⟨_, by rw [if_pos hcnt, arraycopy, if_pos (by simp; omega)], ?_, ?_⟩
    · simp only [length_append, length_take, length_drop, length_replicate]
      omega
    · intro i hi
      have hlen : i < (array.take count).length := by
        rw [length_take]
        omega
      rw [Int.toNat_zero, take_zero, nil_append, drop_zero, Int.toNat_natCast,
        getElem?_append_left hlen, getElem?_take_of_lt hi]
  · exact ⟨_, if_neg hcnt, by simp, fun i hi => absurd hi (by omega)⟩

@[simp] theorem length_copyOf (zero : α) (array : List α) (newLength : Nat) :
    (copyOf zero array newLength).length = newLength := by
  simp only [copyOf, length_append, length_take, length_replicate]
  omega

variable {before after : List α}

theorem load_used (h : before ++ value :: after <+: array) :
    load array (before.length : Int) = .ok value := by
  obtain ⟨rest, rfl⟩ := h
  simp [load]

theorem store_used {old : α} (value : α) (h : before ++ old :: after <+: array) :
    ∃ array', store array (before.length : Int) value = .ok array' ∧
      before ++ value :: after <+: array' ∧ array'.length = array.length := by
  obtain ⟨rest, rfl⟩ := h
  refine ⟨before ++ value :: after ++ rest, ?_, prefix_append _ _, by simp⟩
  have hlt : (before.length : Int) < ((before ++ old :: after ++ rest).length : Nat) := by
    simp only [length_append, length_cons]
    omega
  rw [store, if_pos ⟨by omega, hlt⟩]
  simp

theorem store_end {used : List α} (value : α) (h : used <+: array)
    (hlt : used.length < array.length) :
    ∃ array', store array (used.length : Int) value = .ok array' ∧
      used ++ [value] <+: array' ∧ array'.length = array.length := by
  obtain ⟨rest, rfl⟩ := h
  rcases rest with _ | ⟨old, rest⟩
  · simp at hlt
  · have hold : used ++ [old] <+: used ++ old :: rest := ⟨rest, by simp⟩
    exact store_used value hold

theorem arraycopy_append (front block rest front' old rest' : List α)
    (h : old.length = block.length) :
    arraycopy (front ++ (block ++ rest)) (front.length : Nat) (front' ++ (old ++ rest'))
      (front'.length : Nat) (block.length : Nat) = .ok (front' ++ (block ++ rest')) := by
  have htake : (front' ++ (old ++ rest')).take front'.length = front' := by simp
  have hblock : ((front ++ (block ++ rest)).drop front.length).take block.length = block := by simp
  have hdrop : (front' ++ (old ++ rest')).drop (front'.length + block.length) = rest' := by
    rw [← h, ← length_append, ← append_assoc, drop_left]
  have hsum : ((front'.length : Int) + (block.length : Int)).toNat =
      front'.length + block.length := by omega
  rw [arraycopy, if_pos (by simp only [length_append]; omega), hsum]
  simp only [Int.toNat_natCast]
  rw [htake, hblock, hdrop, append_assoc]

theorem arraycopy_spec {src dest : List α} {srcPos destPos length : Nat}
    (hsrc : srcPos + length ≤ src.length) (hdest : destPos + length ≤ dest.length) :
    ∃ dest', arraycopy src srcPos dest destPos length = .ok dest' ∧ dest'.length = dest.length ∧
      ∀ i, dest'[i]? = if destPos ≤ i ∧ i < destPos + length then src[srcPos + (i - destPos)]?
        else dest[i]? := by
  have hfront : (dest.take destPos).length = destPos := by
    rw [length_take]
    omega
  have hmid : ((src.drop srcPos).take length).length = length := by
    rw [length_take, length_drop]
    omega
  have hsum : ((destPos : Int) + (length : Int)).toNat = destPos + length := by omega
  refine ⟨_, by rw [arraycopy, if_pos (by omega), hsum, Int.toNat_natCast, Int.toNat_natCast,
    Int.toNat_natCast], ?_, ?_⟩
  · rw [length_append, length_append, hfront, hmid, length_drop]
    omega
  · intro i
    rw [append_assoc]
    split_ifs with hi
    · rw [getElem?_append_right (by omega), getElem?_append_left (by omega), hfront,
        getElem?_take_of_lt (by omega), getElem?_drop]
    · rcases Nat.lt_or_ge i destPos with hlt | hge
      · rw [getElem?_append_left (by omega), getElem?_take_of_lt hlt]
      · rw [getElem?_append_right (by omega), getElem?_append_right (by omega), hfront,
          hmid, getElem?_drop]
        congr 1
        omega

theorem arraycopy_left {gap : List α} (h : before ++ gap ++ after <+: array) :
    ∃ array', arraycopy array (before.length + gap.length : Nat) array (before.length : Nat)
        (after.length : Nat) = .ok array' ∧
      before ++ after <+: array' ∧ array'.length = array.length := by
  obtain ⟨rest, rfl⟩ := h
  have hbound : 0 ≤ ((before.length + gap.length : Nat) : Int) ∧ 0 ≤ ((before.length : Nat) : Int) ∧
      0 ≤ ((after.length : Nat) : Int) ∧
      ((before.length + gap.length : Nat) : Int) + (after.length : Nat) ≤
        ((before ++ gap ++ after ++ rest).length : Nat) ∧
      ((before.length : Nat) : Int) + (after.length : Nat) ≤
        ((before ++ gap ++ after ++ rest).length : Nat) := by
    simp only [length_append]
    omega
  refine ⟨_, if_pos hbound, ?_, ?_⟩
  · have htake : (before ++ gap ++ after ++ rest).take before.length = before := by simp
    have hmid : ((before ++ gap ++ after ++ rest).drop (before.length + gap.length)).take
        after.length = after := by
      have : before.length + gap.length = (before ++ gap).length := by simp
      rw [this, append_assoc (before ++ gap), drop_left, take_left]
    rw [Int.toNat_natCast, Int.toNat_natCast, Int.toNat_natCast, htake, hmid]
    exact prefix_append _ _
  · simp only [length_append, length_take, length_drop]
    omega

theorem arraycopy_right (count : Nat) (h : before ++ after <+: array)
    (hroom : before.length + after.length + count ≤ array.length) :
    ∃ array' gap, arraycopy array (before.length : Nat) array (before.length + count : Nat)
        (after.length : Nat) = .ok array' ∧ gap.length = count ∧
      before ++ gap ++ after <+: array' ∧ array'.length = array.length := by
  obtain ⟨rest, rfl⟩ := h
  have hbound : 0 ≤ ((before.length : Nat) : Int) ∧ 0 ≤ ((before.length + count : Nat) : Int) ∧
      0 ≤ ((after.length : Nat) : Int) ∧
      ((before.length : Nat) : Int) + (after.length : Nat) ≤
        ((before ++ after ++ rest).length : Nat) ∧
      ((before.length + count : Nat) : Int) + (after.length : Nat) ≤
        ((before ++ after ++ rest).length : Nat) := by
    omega
  refine ⟨_, (after ++ rest).take count, if_pos hbound, ?_, ?_, ?_⟩
  · simp only [length_append] at hroom
    simp only [length_take, length_append]
    omega
  · have htake : (before ++ after ++ rest).take (before.length + count) =
        before ++ (after ++ rest).take count := by
      rw [append_assoc, take_length_add_append]
    have hmid : ((before ++ after ++ rest).drop before.length).take after.length = after := by
      rw [append_assoc, drop_left, take_left]
    rw [Int.toNat_natCast, Int.toNat_natCast, Int.toNat_natCast, htake, hmid]
    exact prefix_append _ _
  · simp only [length_append] at hroom
    simp only [length_append, length_take, length_drop]
    omega

end OpenJfx.Java.Arrays

-- calls that change a state, also where they throw
namespace OpenJfx.Java.Actions

variable {ε σ α β : Type} {s s' : σ}

theorem bind_ok {x : EStateM ε σ α} {f : α → EStateM ε σ β} {value : α}
    (h : x.run s = .ok value s') : (x >>= f).run s = (f value).run s' := by
  rw [EStateM.run_bind, h]

theorem bind_error {x : EStateM ε σ α} {f : α → EStateM ε σ β} {e : ε}
    (h : x.run s = .error e s') : (x >>= f).run s = .error e s' := by
  rw [EStateM.run_bind, h]

def stateAfter : EStateM.Result ε σ α → σ
  | .ok _ s | .error _ s => s

def thrown : EStateM.Result ε σ α → Option ε
  | .ok _ _ => none
  | .error e _ => some e

end OpenJfx.Java.Actions
