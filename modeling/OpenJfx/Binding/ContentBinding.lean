import OpenJfx.Collections.ListChange

namespace OpenJfx.Binding.ContentBinding

open Java.Arrays Collections.ListChange List

variable {E : Type}

def checkedSubList (l : List E) (fromIdx toIdx : Int) : Outcome (List E) :=
  if 0 ≤ fromIdx ∧ fromIdx ≤ toIdx ∧ toIdx ≤ l.length then .ok (subList l fromIdx toIdx)
  else .error .indexOutOfBounds

def clearRange (l : List E) (fromIdx toIdx : Int) : Outcome (List E) :=
  if 0 ≤ fromIdx ∧ fromIdx ≤ toIdx ∧ toIdx ≤ l.length then
    .ok (l.take fromIdx.toNat ++ l.drop toIdx.toNat)
  else .error .indexOutOfBounds

def addAllAt (l : List E) (index : Int) (block : List E) : Outcome (List E) :=
  if 0 ≤ index ∧ index ≤ l.length then
    .ok (l.take index.toNat ++ block ++ l.drop index.toNat)
  else .error .indexOutOfBounds

def clearRemoved (target : List E) (c : SubChange E) : Outcome (List E) :=
  if c.wasRemoved then clearRange target c.fromIdx (c.fromIdx + c.getRemovedSize)
  else .ok target

/-- The body of the loop in `ListContentBinding.onChanged`. -/
def applySubChange (source target : List E) (c : SubChange E) : Outcome (List E) :=
  if c.wasPermutated then do
    let target ← clearRange target c.fromIdx c.toIdx
    let block ← checkedSubList source c.fromIdx c.toIdx
    addAllAt target c.fromIdx block
  else do
    let target ← clearRemoved target c
    if c.wasAdded then do
      let added ← checkedSubList source c.fromIdx c.toIdx
      addAllAt target c.fromIdx added
    else .ok target

/-- Applied to the target while only the final source list is at hand. The weak references are
taken to be alive. -/
def onChanged (source : List E) (changes : List (SubChange E)) (target : List E) :
    Outcome (List E) :=
  changes.foldlM (applySubChange source) target

/-- An index of the list before the add/remove sub-changes at which one of them
deletes an element; `offset` is how far the indexes have moved so far. -/
def DeletedAt (offset : Int) : List (SubChange E) → Int → Prop
  | [], _ => False
  | c :: cs, i =>
    c.fromIdx + offset ≤ i ∧ i < c.fromIdx + offset + c.getRemovedSize ∨
      DeletedAt (offset + c.getRemovedSize - (c.toIdx - c.fromIdx)) cs i

variable {p : Int} {cs : List (SubChange E)} {before after : List E}

theorem not_deletedAt_of_lt (h : Aligned p cs before after) (offset i : Int) (hi : i < p + offset) :
    ¬ DeletedAt offset cs i := by
  induction h generalizing offset with
  | nil => exact id
  | cons kept added hfrom hto _ ih =>
    rintro (⟨hge, -⟩ | hlater)
    · omega
    · exact ih _ (by omega) hlater

variable {c : SubChange E}

theorem wasAdded_eq (hperm : c.perm = []) (hupd : c.updated = false) :
    c.wasAdded = decide (c.fromIdx < c.toIdx) := by
  simp [SubChange.wasAdded, SubChange.wasPermutated, SubChange.wasUpdated, hperm, hupd]

theorem clearRemoved_eq (front dropped rest : List E) (hfrom : c.fromIdx = front.length)
    (hdropped : dropped.length = c.getRemoved.length) :
    clearRemoved (front ++ dropped ++ rest) c = .ok (front ++ rest) := by
  by_cases hrem : c.getRemoved = []
  · have hnil : dropped = [] := eq_nil_of_length_eq_zero (by simp [hdropped, hrem])
    simp [clearRemoved, SubChange.wasRemoved, hrem, hnil]
  · have hstop : (c.fromIdx + c.getRemovedSize).toNat = (front ++ dropped).length := by
      simp only [SubChange.getRemovedSize, length_append]
      omega
    rw [clearRemoved, if_pos (by simp [SubChange.wasRemoved, hrem]), clearRange, if_pos (by
      simp only [SubChange.getRemovedSize, length_append]
      omega), hstop, drop_left, append_assoc, hfrom, Int.toNat_natCast, take_left]

theorem addAllAt_eq (front block rest : List E) {index : Int} (hidx : index = front.length) :
    addAllAt (front ++ rest) index block = .ok (front ++ block ++ rest) := by
  rw [addAllAt, if_pos (by simp only [length_append]; omega), hidx, Int.toNat_natCast,
    take_left, drop_left]

theorem applySubChange_addRemove (hperm : c.perm = []) (hupd : c.updated = false)
    (front front' dropped added rest after : List E) (hfrom : c.fromIdx = front.length)
    (hto : c.toIdx = c.fromIdx + added.length) (hfront' : front'.length = front.length)
    (hdropped : dropped.length = c.getRemoved.length) :
    applySubChange (front ++ added ++ after) (front' ++ dropped ++ rest) c =
      .ok (front' ++ added ++ rest) := by
  rw [applySubChange, if_neg (by simp [SubChange.wasPermutated, hperm]),
    clearRemoved_eq front' dropped rest (by omega) hdropped, ok_bind, wasAdded_eq hperm hupd]
  by_cases hadded : c.fromIdx < c.toIdx
  · rw [if_pos (by simpa using hadded), checkedSubList, if_pos (by
      simp only [length_append]
      omega), subList_append front added after hfrom hto, ok_bind,
      addAllAt_eq front' added rest (by omega)]
  · have hnil : added = [] := eq_nil_of_length_eq_zero (by omega)
    simp [hadded, hnil]

theorem agreesOutside_cons {kept kept' dropped rest : List E}
    (htail : Aligned c.toIdx cs before after) (offset : Int) (hfrom : c.fromIdx = p + kept.length)
    (hkept : kept'.length = kept.length) (hdropped : dropped.length = c.getRemoved.length)
    (hrest : rest.length = before.length) :
    (kept' = kept ∧ ∀ i : Nat, i < before.length →
        ¬ DeletedAt (offset + c.getRemovedSize - (c.toIdx - c.fromIdx)) cs
          (c.toIdx + (offset + c.getRemovedSize - (c.toIdx - c.fromIdx)) + i) →
        rest[i]? = before[i]?) ↔
      ∀ i : Nat, i < (kept ++ c.getRemoved ++ before).length →
        ¬ DeletedAt offset (c :: cs) (p + offset + i) →
        (kept' ++ dropped ++ rest)[i]? = (kept ++ c.getRemoved ++ before)[i]? := by
  have hsize : (c.getRemovedSize : Int) = c.getRemoved.length := rfl
  constructor
  · rintro ⟨rfl, hall⟩ i hi hkeep
    simp only [DeletedAt, not_or] at hkeep
    obtain ⟨hout, hlater⟩ := hkeep
    simp only [length_append] at hi
    by_cases hfront : i < kept'.length
    · rw [append_assoc, append_assoc, getElem?_append_left hfront,
        getElem?_append_left hfront]
    · have := hall (i - kept'.length - c.getRemoved.length) (by omega) (by
        intro hdel
        refine hlater ?_
        convert hdel using 1
        omega)
      rw [getElem?_append_right (by simp only [length_append]; omega),
        getElem?_append_right (by simp only [length_append]; omega)]
      simpa only [length_append, hdropped, Nat.sub_sub] using this
  · intro hall
    refine ⟨?_, ?_⟩
    · refine ext_getElem? fun i => ?_
      by_cases hi : i < kept.length
      · have := hall i (by simp only [length_append]; omega) (by
          rintro (⟨hge, -⟩ | hdel)
          · omega
          · exact not_deletedAt_of_lt htail _ _ (by omega) hdel)
        rwa [append_assoc, append_assoc, getElem?_append_left (by omega),
          getElem?_append_left hi] at this
      · rw [getElem?_eq_none (by omega), getElem?_eq_none (by omega)]
    · intro i hi hkeep
      have := hall (kept.length + c.getRemoved.length + i)
        (by simp only [length_append]; omega) (by
          rintro (⟨-, hlt⟩ | hdel)
          · omega
          · refine hkeep ?_
            convert hdel using 1
            omega)
      rw [getElem?_append_right (by simp only [length_append]; omega),
        getElem?_append_right (by simp only [length_append]; omega)] at this
      simpa only [length_append, hdropped, hkept, Nat.add_sub_cancel_left] using this

theorem onChanged_addRemoves (h : Aligned p cs before after) (har : AddRemoves cs) :
    ∀ (offset : Int) (done done' target : List E), (done.length : Int) = p →
      done'.length = done.length → target.length = before.length →
      ∃ result, onChanged (done ++ after) cs (done' ++ target) = .ok (done' ++ result) ∧
        (result = after ↔ ∀ i : Nat, i < before.length →
          ¬ DeletedAt offset cs (p + offset + i) → target[i]? = before[i]?) := by
  induction h with
  | nil p kept =>
    intro offset done done' target _ _ hlen
    refine ⟨target, rfl, ?_⟩
    constructor
    · rintro rfl i _ _
      rfl
    · intro hall
      refine ext_getElem? fun i => ?_
      by_cases hi : i < kept.length
      · exact hall i hi id
      · rw [getElem?_eq_none (by omega), getElem?_eq_none (by omega)]
  | @cons p c cs kept added before after hfrom hto htail ih =>
    intro offset done done' target hdone hdone' hlen
    obtain ⟨-, hperm, hupd⟩ := har c (by simp)
    simp only [length_append] at hlen
    obtain ⟨kept', dropped, rest, rfl, hkept', hdropped, hrest⟩ :
        ∃ kept' dropped rest, target = kept' ++ dropped ++ rest ∧ kept'.length = kept.length ∧
          dropped.length = c.getRemoved.length ∧ rest.length = before.length := by
      refine ⟨target.take kept.length, (target.drop kept.length).take c.getRemoved.length,
        (target.drop kept.length).drop c.getRemoved.length, ?_, ?_, ?_, ?_⟩
      · rw [append_assoc, take_append_drop, take_append_drop]
      · rw [length_take]
        omega
      · rw [length_take, length_drop]
        omega
      · rw [length_drop, length_drop]
        omega
    have hstep := applySubChange_addRemove hperm hupd (done ++ kept) (done' ++ kept') dropped
      added rest after (by simp only [length_append]; omega) hto
      (by simp only [length_append]; omega) hdropped
    obtain ⟨result, hrun, hiff⟩ := ih (fun d hd => har d (by simp [hd]))
      (offset + c.getRemovedSize - (c.toIdx - c.fromIdx)) (done ++ kept ++ added)
      (done' ++ kept' ++ added) rest (by simp only [length_append]; omega)
      (by simp only [length_append]; omega) hrest
    refine ⟨kept' ++ added ++ result, ?_, ?_⟩
    · simp only [onChanged, foldlM_cons, ← append_assoc] at hrun ⊢
      rw [hstep, ok_bind, hrun]
    · have hsplit : kept' ++ added ++ result = kept ++ added ++ after ↔
          kept' = kept ∧ result = after := by
        rw [append_assoc, append_assoc]
        constructor
        · intro heq
          obtain ⟨hk, hr⟩ := append_inj heq hkept'
          exact ⟨hk, append_cancel_left hr⟩
        · rintro ⟨rfl, rfl⟩
          rfl
      rw [hsplit, hiff]
      exact agreesOutside_cons htail offset hfrom hkept' hdropped hrest

theorem onChanged_updates {source : List E}
    (h : ∀ c ∈ cs, c.updated = true ∧ c.perm = [] ∧ c.getRemoved = []) (target : List E) :
    onChanged source cs target = .ok target := by
  induction cs with
  | nil => rfl
  | cons c cs ih =>
    obtain ⟨hupd, hperm, hrem⟩ := h c (by simp)
    have hstep : applySubChange source target c = .ok target := by
      simp [applySubChange, clearRemoved, SubChange.wasPermutated, SubChange.wasRemoved,
        SubChange.wasAdded, SubChange.wasUpdated, hperm, hrem, hupd]
    simp only [onChanged, foldlM_cons, hstep]
    exact ih fun d hd => h d (by simp [hd])

theorem applySubChange_permutation {source target : List E} (hc : c.IsPermutation target.length) :
    applySubChange source target c =
      if c.toIdx ≤ source.length then
        .ok (target.take c.fromIdx.toNat ++ subList source c.fromIdx c.toIdx ++
          target.drop c.toIdx.toNat)
      else .error .indexOutOfBounds := by
  have h₁ := hc.fromIdx_nonneg
  have h₂ := hc.fromIdx_lt
  have h₃ := hc.toIdx_le
  have hperm : c.wasPermutated = true := by
    have := hc.length_perm
    simp only [SubChange.wasPermutated, bne_iff_ne]
    omega
  rw [applySubChange, if_pos hperm, clearRange, if_pos ⟨h₁, Int.le_of_lt h₂, h₃⟩, ok_bind,
    checkedSubList]
  by_cases hto : c.toIdx ≤ source.length
  · have hfront : c.fromIdx = (target.take c.fromIdx.toNat).length := by
      rw [length_take]
      omega
    rw [if_pos ⟨h₁, Int.le_of_lt h₂, hto⟩, if_pos hto, ok_bind, addAllAt_eq _ _ _ hfront]
  · rw [if_neg (fun h => hto h.2.2), if_neg hto, error_bind]

theorem getElem?_copied {source target : List E} {fromIdx toIdx : Int} (h₁ : 0 ≤ fromIdx)
    (h₂ : fromIdx < toIdx) (h₃ : toIdx ≤ target.length) (h₄ : toIdx ≤ source.length) (i : Nat) :
    (target.take fromIdx.toNat ++ subList source fromIdx toIdx ++ target.drop toIdx.toNat)[i]? =
      if fromIdx ≤ i ∧ i < toIdx then source[i]? else target[i]? := by
  have hsub := length_subList source h₁ h₄
  by_cases hin : fromIdx ≤ i ∧ i < toIdx
  · rw [if_pos hin, append_assoc, getElem?_append_right (by rw [length_take]; omega),
      length_take, getElem?_append_left (by rw [hsub]; omega), subList,
      getElem?_take_of_lt (by omega), getElem?_drop]
    congr 1
    omega
  · rw [if_neg hin]
    by_cases hlt : (i : Int) < fromIdx
    · rw [append_assoc, getElem?_append_left (by rw [length_take]; omega),
        getElem?_take_of_lt (by omega)]
    · rw [getElem?_append_right (by rw [length_append, length_take, hsub]; omega),
        length_append, length_take, hsub, getElem?_drop]
      congr 1
      omega

/-- The permuted range lies in the final list too, and each of its elements that
is not deleted afterwards stands at the same index there. -/
def PermutedStay (parts : ChangeParts E) (middle after : List E) : Prop :=
  ∀ c ∈ parts.permutation, c.toIdx ≤ after.length ∧
    ∀ i : Nat, c.fromIdx ≤ i → (i : Int) < c.toIdx →
      ¬ DeletedAt 0 parts.addRemoves i → after[i]? = middle[i]?

theorem onChanged_eq_iff {parts : ChangeParts E} {middle : List E}
    (h : parts.WellFormed before middle after) :
    onChanged after parts.changes before = .ok after ↔ PermutedStay parts middle after := by
  have haligned := aligned_of_replays h.separate h.replays
  -- Add/remove and update sub-changes from any target that the permutation may leave.
  have hrest : ∀ target : List E, target.length = middle.length →
      (onChanged after (parts.addRemoves ++ parts.updates) target = .ok after ↔
        ∀ i : Nat, i < middle.length → ¬ DeletedAt 0 parts.addRemoves i →
          target[i]? = middle[i]?) := by
    intro target hlen
    obtain ⟨result, hrun, hiff⟩ :=
      onChanged_addRemoves haligned h.addRemoves 0 [] [] target rfl rfl hlen
    simp only [onChanged, nil_append, Int.zero_add] at hrun hiff
    have hupd : onChanged after parts.updates result = .ok result :=
      onChanged_updates (fun c hc =>
        ⟨(h.updates c hc).1, (h.updates c hc).2.1, (h.updates c hc).2.2.1⟩) result
    rw [onChanged, foldlM_append, hrun, ok_bind]
    rw [onChanged] at hupd
    rw [hupd, Except.ok.injEq, hiff]
  have hperms := h.permutes
  rw [ChangeParts.changes, append_assoc]
  rcases hp : parts.permutation with _ | c
  · rw [hp] at hperms
    subst hperms
    simp [hrest, PermutedStay, hp]
  · rw [hp] at hperms
    obtain ⟨hc, hlen, hmoved⟩ := hperms
    simp only [PermutedStay, hp, Option.mem_def, Option.some.injEq, forall_eq',
      Option.toList_some, singleton_append, onChanged, foldlM_cons,
      applySubChange_permutation hc]
    by_cases hto : c.toIdx ≤ after.length
    · rw [if_pos hto, ok_bind]
      have hcopied := getElem?_copied hc.fromIdx_nonneg hc.fromIdx_lt hc.toIdx_le hto
      have hsub := length_subList after hc.fromIdx_nonneg hto
      have hout : ∀ i : Nat, ¬ (c.fromIdx ≤ i ∧ (i : Int) < c.toIdx) → i < before.length →
          before[i]? = middle[i]? := by
        intro i hi hlt
        have := hmoved i hlt
        rw [SubChange.newIndex, if_neg hi] at this
        exact this.symm
      have := hc.fromIdx_nonneg
      have := hc.fromIdx_lt
      have := hc.toIdx_le
      refine (hrest _ ?_).trans ?_
      · simp only [length_append, length_take, length_drop, hsub]
        omega
      · simp only [hcopied, hto, true_and]
        constructor
        · intro hall i hge hlt hkeep
          have := hall i (by omega) hkeep
          rwa [if_pos ⟨hge, hlt⟩] at this
        · intro hall i hi hkeep
          by_cases hin : c.fromIdx ≤ i ∧ (i : Int) < c.toIdx
          · rw [if_pos hin]
            exact hall i hin.1 hin.2 hkeep
          · rw [if_neg hin]
            exact hout i hin (by omega)
    · simp [hto]

end OpenJfx.Binding.ContentBinding

namespace OpenJfx.Binding.BidirectionalContentBinding

open Java.Arrays Collections.ListChange Binding.ContentBinding

variable {E : Type}

/-- The listener of a `BidirectionalContentBinding` is registered with both lists, so each edit
that it makes on one of them calls it again. -/
inductive Side
  | list1
  | list2

def Side.other : Side → Side
  | .list1 => .list2
  | .list2 => .list1

/-- The two lists and the guard of the binding. -/
structure Lists (E : Type) where
  list1 : List E
  list2 : List E
  updating : Bool

namespace Lists

def get (b : Lists E) : Side → List E
  | .list1 => b.list1
  | .list2 => b.list2

def set (b : Lists E) (side : Side) (l : List E) : Lists E :=
  match side with
  | .list1 => { b with list1 := l }
  | .list2 => { b with list2 := l }

@[simp] theorem get_set (b : Lists E) (side : Side) (l : List E) : (b.set side l).get side = l := by
  cases side <;> rfl

@[simp] theorem get_set_other (b : Lists E) (side : Side) (l : List E) :
    (b.set side.other l).get side = b.get side := by
  cases side <;> rfl

@[simp] theorem set_updating (b : Lists E) (side : Side) (l : List E) :
    (b.set side l).updating = b.updating := by
  cases side <;> rfl

@[simp] theorem set_set (b : Lists E) (side : Side) (l l' : List E) :
    (b.set side l).set side l' = b.set side l' := by
  cases side <;> rfl

@[simp] theorem set_get (b : Lists E) (side : Side) : b.set side (b.get side) = b := by
  cases side <;> rfl

end Lists

abbrev Notify (E : Type) := Side → List (SubChange E) → Lists E → Outcome (Lists E)

/-- `list.remove(fromIdx, toIdx)`, which fires one change when anything is removed. -/
def removeRange (notify : Notify E) (side : Side) (fromIdx toIdx : Int) (b : Lists E) :
    Outcome (Lists E) := do
  let l ← clearRange (b.get side) fromIdx toIdx
  if fromIdx < toIdx then
    notify side [⟨fromIdx, fromIdx, some (subList (b.get side) fromIdx toIdx), [], false⟩]
      (b.set side l)
  else .ok (b.set side l)

/-- `list.addAll(index, block)`, which fires one change when anything is added. -/
def addAll (notify : Notify E) (side : Side) (index : Int) (block : List E) (b : Lists E) :
    Outcome (Lists E) := do
  let l ← addAllAt (b.get side) index block
  if block.isEmpty then .ok (b.set side l)
  else notify side [⟨index, index + block.length, some [], [], false⟩] (b.set side l)

def removeRemoved (notify : Notify E) (side : Side) (c : SubChange E) (b : Lists E) :
    Outcome (Lists E) :=
  if c.wasRemoved then removeRange notify side c.fromIdx (c.fromIdx + c.getRemovedSize) b
  else .ok b

def forwardSubChange (notify : Notify E) (changed : Side) (b : Lists E) (c : SubChange E) :
    Outcome (Lists E) :=
  if c.wasPermutated then do
    let b ← removeRange notify changed.other c.fromIdx c.toIdx b
    let block ← checkedSubList (b.get changed) c.fromIdx c.toIdx
    addAll notify changed.other c.fromIdx block b
  else do
    let b ← removeRemoved notify changed.other c b
    if c.wasAdded then do
      let added ← checkedSubList (b.get changed) c.fromIdx c.toIdx
      addAll notify changed.other c.fromIdx added b
    else .ok b

def onChanged (notify : Notify E) (changed : Side) (changes : List (SubChange E)) (b : Lists E) :
    Outcome (Lists E) :=
  if b.updating then .ok b
  else do
    let b ← changes.foldlM (forwardSubChange notify changed) { b with updating := true }
    .ok { b with updating := false }

/-- The listener as both lists call it, up to a depth of nested notifications. -/
def notifyNested : Nat → Notify E
  | 0 => fun _ _ _ => .error (.illegalState "stack overflow")
  | depth + 1 => onChanged (notifyNested depth)

theorem onChanged_updating (notify : Notify E) (side : Side) (changes : List (SubChange E))
    {b : Lists E} (h : b.updating = true) : onChanged notify side changes b = .ok b := by
  rw [onChanged, if_pos h]

section Quiet

variable {notify : Notify E}
  (hquiet : ∀ (side : Side) (changes : List (SubChange E)) (b : Lists E),
    b.updating = true → notify side changes b = .ok b)

include hquiet

theorem removeRange_eq (side : Side) (fromIdx toIdx : Int) {b : Lists E}
    (hb : b.updating = true) :
    removeRange notify side fromIdx toIdx b =
      (clearRange (b.get side) fromIdx toIdx).map (b.set side) := by
  rw [removeRange]
  rcases clearRange (b.get side) fromIdx toIdx with failure | l
  · rfl
  · rw [ok_bind, hquiet _ _ _ (by simpa using hb), ite_self]
    rfl

theorem addAll_eq (side : Side) (index : Int) (block : List E) {b : Lists E}
    (hb : b.updating = true) :
    addAll notify side index block b = (addAllAt (b.get side) index block).map (b.set side) := by
  rw [addAll]
  rcases addAllAt (b.get side) index block with failure | l
  · rfl
  · rw [ok_bind, hquiet _ _ _ (by simpa using hb), ite_self]
    rfl

/-- While the nested calls do nothing, the loop does to the other list what the
unidirectional binding does to its target. -/
theorem forwardSubChange_eq (changed : Side) {b : Lists E} (hb : b.updating = true)
    (c : SubChange E) :
    forwardSubChange notify changed b c =
      (applySubChange (b.get changed) (b.get changed.other) c).map (b.set changed.other) := by
  have hcopy : ∀ b' : Lists E, b'.updating = true → b'.get changed = b.get changed →
      b'.set changed.other = b.set changed.other →
      (do
        let block ← checkedSubList (b'.get changed) c.fromIdx c.toIdx
        addAll notify changed.other c.fromIdx block b') =
      (do
        let block ← checkedSubList (b.get changed) c.fromIdx c.toIdx
        addAllAt (b'.get changed.other) c.fromIdx block : Outcome (List E)).map
          (b.set changed.other) := by
    intro b' hb' hget hset
    rw [hget]
    rcases checkedSubList (b.get changed) c.fromIdx c.toIdx with failure | block
    · rfl
    · rw [ok_bind, ok_bind, addAll_eq hquiet _ _ _ hb', hset]
  rw [forwardSubChange, applySubChange]
  by_cases hperm : c.wasPermutated
  · rw [if_pos hperm, if_pos hperm, removeRange_eq hquiet _ _ _ hb]
    rcases clearRange (b.get changed.other) c.fromIdx c.toIdx with failure | l
    · rfl
    · have := hcopy (b.set changed.other l) (by simpa using hb) (by simp) (by
        funext l'
        simp)
      rw [Lists.get_set] at this
      exact this
  · have hrem : removeRemoved notify changed.other c b =
        (clearRemoved (b.get changed.other) c).map (b.set changed.other) := by
      rw [removeRemoved, clearRemoved]
      by_cases hr : c.wasRemoved
      · rw [if_pos hr, if_pos hr, removeRange_eq hquiet _ _ _ hb]
      · rw [if_neg hr, if_neg hr]
        simp [Except.map]
    rw [if_neg hperm, if_neg hperm, hrem]
    rcases clearRemoved (b.get changed.other) c with failure | l
    · rfl
    · by_cases hadded : c.wasAdded
      · have := hcopy (b.set changed.other l) (by simpa using hb) (by simp) (by
          funext l'
          simp)
        rw [Lists.get_set] at this
        simp only [hadded]
        exact this
      · simp only [hadded]
        rfl

theorem foldlM_forwardSubChange (changed : Side) (changes : List (SubChange E)) {b : Lists E}
    (hb : b.updating = true) :
    changes.foldlM (forwardSubChange notify changed) b =
      (ContentBinding.onChanged (b.get changed) changes (b.get changed.other)).map
        (b.set changed.other) := by
  induction changes generalizing b with
  | nil => simp [ContentBinding.onChanged, Except.map, pure, Except.pure]
  | cons c changes ih =>
    rw [ContentBinding.onChanged, List.foldlM_cons, List.foldlM_cons,
      forwardSubChange_eq hquiet changed hb c]
    rcases applySubChange (b.get changed) (b.get changed.other) c with failure | l
    · rfl
    · refine (ih (b := b.set changed.other l) (by simpa using hb)).trans ?_
      have hset : (b.set changed.other l).set changed.other = b.set changed.other := by
        funext l'
        simp
      rw [Lists.get_set, Lists.get_set_other, hset]
      rfl

end Quiet

def stale (changed : Side) (source target : List E) : Lists E :=
  match changed with
  | .list1 => ⟨source, target, false⟩
  | .list2 => ⟨target, source, false⟩

theorem notifyNested_stale (depth : Nat) (changed : Side) (changes : List (SubChange E))
    (source target : List E) :
    notifyNested (depth + 2) changed changes (stale changed source target) =
      (ContentBinding.onChanged source changes target).map (stale changed source) := by
  have hquiet := fun side changes (b : Lists E) (h : b.updating = true) =>
    onChanged_updating (notifyNested depth) side changes h
  rw [notifyNested, onChanged, notifyNested, foldlM_forwardSubChange hquiet changed changes rfl]
  cases changed with
  | list1 | list2 =>
    simp only [Lists.get, stale, Side.other]
    rcases ContentBinding.onChanged source changes target with failure | l <;> rfl

/-- A change of `source` from `before` to `after` reaches the bound list, through
either kind of binding and from either side, and the calls that the edits of the
bound list cause leave both lists alone. -/
structure Mirrors (changes : List (SubChange E)) (before after : List E) : Prop where
  content : ContentBinding.onChanged after changes before = .ok after
  bidirectional : ∀ (depth : Nat) (changed : Side),
    notifyNested (depth + 2) changed changes (stale changed after before) =
      .ok (stale changed after after)
  echo : ∀ (depth : Nat) (side : Side) (echoed : List (SubChange E)) (b : Lists E),
    b.updating = true → notifyNested (depth + 1) side echoed b = .ok b

theorem mirrors_iff_permutedStay {parts : ChangeParts E} {before middle after : List E}
    (h : parts.WellFormed before middle after) :
    Mirrors parts.changes before after ↔ PermutedStay parts middle after := by
  rw [← onChanged_eq_iff h]
  constructor
  · intro hmirrors
    exact hmirrors.content
  · intro hcontent
    refine ⟨hcontent, ?_, ?_⟩
    · intro depth changed
      rw [notifyNested_stale, hcontent]
      rfl
    · intro depth side echoed b hb
      exact onChanged_updating (notifyNested depth) side echoed hb

/-- A permutation of three elements followed by an addition at the end. -/
theorem mirrors_permutation_then_append :
    (⟨some ⟨0, 3, none, [2, 1, 0], false⟩, [⟨3, 4, some [], [], false⟩], []⟩ :
        ChangeParts Nat).WellFormed [1, 2, 3] [3, 2, 1] [3, 2, 1, 9] ∧
      Mirrors [⟨0, 3, none, [2, 1, 0], false⟩, ⟨3, 4, some [], [], false⟩]
        [1, 2, 3] [3, 2, 1, 9] := by
  have hwf : (⟨some ⟨0, 3, none, [2, 1, 0], false⟩, [⟨3, 4, some [], [], false⟩], []⟩ :
      ChangeParts Nat).WellFormed [1, 2, 3] [3, 2, 1] [3, 2, 1, 9] := by
    refine ⟨⟨⟨by decide, by decide, by decide, rfl, by decide, by decide, rfl, rfl⟩, rfl,
      by decide⟩, by simp [AddRemoves], by simp [Separate], by decide, by simp⟩
  refine ⟨hwf, (mirrors_iff_permutedStay hwf).mpr ?_⟩
  intro c hc
  obtain rfl : _ = c := Option.some.inj hc
  refine ⟨by decide, ?_⟩
  intro i _ hi _
  obtain rfl | rfl | rfl : i = 0 ∨ i = 1 ∨ i = 2 := by simp only at hi; omega
  · rfl
  · rfl
  · rfl

/-- With the addition in front of the permuted range the copy is taken from the
wrong place: the bound list ends as `[9, 9, 3, 2]`. -/
theorem not_mirrors_permutation_then_prepend :
    (⟨some ⟨0, 3, none, [2, 1, 0], false⟩, [⟨0, 1, some [], [], false⟩], []⟩ :
        ChangeParts Nat).WellFormed [1, 2, 3] [3, 2, 1] [9, 3, 2, 1] ∧
      ¬ Mirrors [⟨0, 3, none, [2, 1, 0], false⟩, ⟨0, 1, some [], [], false⟩]
        [1, 2, 3] [9, 3, 2, 1] := by
  refine ⟨?_, ?_⟩
  · refine ⟨⟨⟨by decide, by decide, by decide, rfl, by decide, by decide, rfl, rfl⟩, rfl,
      by decide⟩, by simp [AddRemoves], by simp [Separate], by decide, by simp⟩
  · intro hmirrors
    have hresult : ContentBinding.onChanged [9, 3, 2, 1]
        [⟨0, 3, none, [2, 1, 0], false⟩, ⟨0, 1, some [], [], false⟩] [1, 2, 3] =
          .ok [9, 9, 3, 2] := by rfl
    have := hmirrors.content.symm.trans hresult
    exact absurd this (by decide)

end OpenJfx.Binding.BidirectionalContentBinding
