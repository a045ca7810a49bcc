import OpenJfx.Collections.ShiftedPositions
import Mathlib.Algebra.Order.BigOperators.Group.List

namespace OpenJfx.Control

open Collections.ListChange Collections.ShiftedPositions

variable {T : Type}

structure ListViewFocusModel (T : Type) where
  focusedIndex : Int
  focusedItem : Option T
  itemCount : Nat

namespace ListViewFocusModel

def getModelItem (m : ListViewFocusModel T) (items : List (Option T)) (index : Int) : Option T :=
  if index < 0 ∨ index ≥ m.itemCount then none else items[index.toNat]?.join

def setFocusedIndex (items : List (Option T)) (m : ListViewFocusModel T) (value : Int) :
    ListViewFocusModel T :=
  if m.focusedIndex = value then m
  else { m with focusedIndex := value, focusedItem := m.getModelItem items value }

def focus (items : List (Option T)) (m : ListViewFocusModel T) (index : Int) :
    ListViewFocusModel T :=
  if index < 0 ∨ index ≥ m.itemCount then m.setFocusedIndex items (-1)
  else
    let oldFocusIndex := m.focusedIndex
    let m := m.setFocusedIndex items index
    if oldFocusIndex = index then { m with focusedItem := m.getModelItem items index } else m

def updateItemCount (items : List (Option T)) (m : ListViewFocusModel T) :
    ListViewFocusModel T :=
  { m with itemCount := items.length }

variable [DecidableEq T]

def updateDefaultFocus (items : List (Option T)) (m : ListViewFocusModel T) :
    ListViewFocusModel T :=
  let found := if m.focusedItem = none then none else items.idxOf? m.focusedItem
  m.focus items (match found with
    | some index => index
    | none => if 0 < items.length then 0 else -1)

/-- The list holds `items` now. The second loop leaves nothing for the first one. -/
def itemsContentListener (items : List (Option T)) (changes : List (SubChange (Option T)))
    (m : ListViewFocusModel T) : ListViewFocusModel T :=
  let m := m.updateItemCount items
  match changes with
  | [] => m
  | c :: _ =>
    if (c.wasAdded ∧ c.wasRemoved) ∨ c.getAddedSize = m.itemCount then m.updateDefaultFocus items
    else if m.focusedIndex = -1 ∨ c.fromIdx > m.focusedIndex then m
    else
      let added := changes.any SubChange.wasAdded
      let removed := changes.any SubChange.wasRemoved
      let addedSize := (changes.map SubChange.getAddedSize).sum
      let removedSize := (changes.map fun c => (c.getRemovedSize : Int)).sum
      if added ∧ !removed then
        m.focus items (min (m.itemCount - 1) (m.focusedIndex + addedSize))
      else if !added ∧ removed then m.focus items (max 0 (m.focusedIndex - removedSize))
      else m

omit [DecidableEq T] in
theorem focus_focusedIndex (items : List (Option T)) (m : ListViewFocusModel T) {index : Int}
    (h : 0 ≤ index) (hlt : index < m.itemCount) : (m.focus items index).focusedIndex = index := by
  rw [focus, if_neg (by omega), setFocusedIndex]
  dsimp only
  split_ifs with heq
  · exact heq
  · rfl

end ListViewFocusModel

section

variable {α : Type} (p : α → Prop) [DecidablePred p] (f : α → Int)

/-- Of positive numbers, the sum of some is that of all exactly when no other one is left. -/
theorem sum_filter_eq_iff {l : List α} (h : ∀ x ∈ l, 0 < f x) :
    0 ≤ ((l.filter p).map f).sum ∧ ((l.filter p).map f).sum ≤ (l.map f).sum ∧
      (((l.filter p).map f).sum = (l.map f).sum ↔ ∀ x ∈ l, p x) := by
  induction l with
  | nil => simp
  | cons x l ih =>
    obtain ⟨hnn, hle, hiff⟩ := ih fun y hy => h y (List.mem_cons_of_mem x hy)
    have hpos := h x List.mem_cons_self
    by_cases hx : p x
    · rw [List.filter_cons_of_pos (by simpa using hx), List.forall_mem_cons]
      simp only [List.map_cons, List.sum_cons, ← hiff, hx, true_and]
      omega
    · rw [List.filter_cons_of_neg (by simpa using hx), List.forall_mem_cons]
      simp only [List.map_cons, List.sum_cons, hx, false_and, iff_false]
      omega

end

namespace ListViewFocusModel

variable {items newItems : List (Option T)} {changes : List (SubChange (Option T))}

theorem sum_amount_shiftsOf {p : Int} (h : Aligned p changes items newItems) (delta : Int) :
    ((shiftsOf delta changes).map Shift.amount).sum =
      (changes.map fun c => c.toIdx - c.fromIdx).sum -
        (changes.map fun c => (c.getRemovedSize : Int)).sum ∧
    (newItems.length : Int) = items.length + ((shiftsOf delta changes).map Shift.amount).sum := by
  induction h generalizing delta with
  | nil => simp [shiftsOf]
  | @cons p c cs kept added before after hfrom hto htail ih =>
    have hih := ih (delta + (c.toIdx - c.fromIdx) - c.getRemovedSize)
    have hrem : c.getRemovedSize = c.getRemoved.length := rfl
    simp only [shiftsOf, List.map_cons, List.sum_cons, Shift.amount, List.length_append]
    omega

theorem wasAdded_eq {c : SubChange (Option T)} (h : IsPure c) :
    c.wasAdded = c.getRemoved.isEmpty ∧ c.wasRemoved = !c.getRemoved.isEmpty ∧
      c.getAddedSize = c.toIdx - c.fromIdx := by
  have hadded : c.wasAdded = decide (c.fromIdx < c.toIdx) := by
    rw [SubChange.wasAdded, SubChange.wasPermutated, SubChange.wasUpdated, h.1, h.2.1]
    rfl
  refine ⟨?_, rfl, ?_⟩
  · rcases h.2.2 with ⟨hrem, hlt⟩ | ⟨hrem, heq⟩
    · simp [hadded, hrem, hlt]
    · simp [hadded, hrem, heq]
  · rw [SubChange.getAddedSize, hadded]
    rcases h.2.2 with ⟨-, hlt⟩ | ⟨-, heq⟩
    · simp [hlt]
    · simp [heq]

/-- Insertions only, or removals only. -/
def SameKind (changes : List (SubChange (Option T))) : Prop :=
  (∀ c ∈ changes, IsPure c ∧ c.getRemoved = []) ∨ ∀ c ∈ changes, IsPure c ∧ c.getRemoved ≠ []

theorem amount_pos (hfrom : ∀ c ∈ changes, 0 ≤ c.fromIdx) (delta : Int) :
    ((∀ c ∈ changes, IsPure c ∧ c.getRemoved = []) →
      ∀ s ∈ shiftsOf delta changes, 0 < s.amount) ∧
    ((∀ c ∈ changes, IsPure c ∧ c.getRemoved ≠ []) →
      ∀ s ∈ shiftsOf delta changes, 0 < -s.amount) := by
  induction changes generalizing delta with
  | nil => simp [shiftsOf]
  | cons c changes ih =>
    rw [List.forall_mem_cons] at hfrom
    have hrest := ih hfrom.2 (delta + (c.toIdx - c.fromIdx) - c.getRemovedSize)
    simp only [shiftsOf, List.forall_mem_cons, Shift.amount]
    constructor
    · rintro ⟨⟨hpure, hrem⟩, hall⟩
      have hsize : c.getRemovedSize = 0 := congrArg List.length hrem
      have hlt := (hpure.2.2.resolve_right fun h => h.1 hrem).2
      exact ⟨by omega, hrest.1 hall⟩
    · rintro ⟨⟨hpure, hrem⟩, hall⟩
      have hsize : 0 < c.getRemovedSize := List.length_pos_iff.mpr hrem
      have heq := (hpure.2.2.resolve_left fun h => hrem h.1).2
      exact ⟨by omega, hrest.2 hall⟩

variable [DecidableEq T] {m : ListViewFocusModel T} {i : Nat} {item : Option T}

theorem itemsContentListener_eq {c : SubChange (Option T)}
    (haligned : Aligned 0 (c :: changes) items newItems) (hkind : SameKind (c :: changes))
    (hlt : i < items.length) (hnew : 0 < newItems.length) (hfocused : m.focusedIndex = i) :
    (m.itemsContentListener newItems (c :: changes)).focusedIndex =
      if i < c.fromIdx then (i : Int)
      else max 0 (i + ((shiftsOf 0 (c :: changes)).map Shift.amount).sum) := by
  obtain ⟨hsum, hlen⟩ := sum_amount_shiftsOf haligned 0
  generalize ((shiftsOf 0 (c :: changes)).map Shift.amount).sum = total at hsum hlen ⊢
  have hpure : ∀ d ∈ c :: changes, IsPure d := fun d hd =>
    hkind.elim (fun h => (h d hd).1) fun h => (h d hd).1
  have hadded : (c :: changes).map SubChange.getAddedSize =
      (c :: changes).map fun d => d.toIdx - d.fromIdx :=
    List.map_congr_left fun d hd => (wasAdded_eq (hpure d hd)).2.2
  have hc := wasAdded_eq (hpure c List.mem_cons_self)
  have hfocus : ∀ index : Int, 0 ≤ index → index < newItems.length →
      ((m.updateItemCount newItems).focus newItems index).focusedIndex = index :=
    fun index h h' => focus_focusedIndex newItems _ h h'
  simp only [itemsContentListener, hadded]
  simp only [updateItemCount, hfocused] at hfocus ⊢
  rcases hkind with hkind | hkind
  · have hemp : c.getRemoved.isEmpty = true := by simp [(hkind c List.mem_cons_self).2]
    have hany : (c :: changes).any SubChange.wasAdded = true := by
      rw [List.any_cons, hc.1, hemp, Bool.true_or]
    have hnone : (c :: changes).any SubChange.wasRemoved = false := by
      rw [List.any_eq_false]
      intro d hd
      simp [(wasAdded_eq (hpure d hd)).2.1, (hkind d hd).2]
    have hzero : ((c :: changes).map fun d => (d.getRemovedSize : Int)).sum = 0 := by
      refine List.sum_eq_zero fun x hx => ?_
      obtain ⟨d, hd, rfl⟩ := List.mem_map.mp hx
      simp [SubChange.getRemovedSize, (hkind d hd).2]
    have hrest : 0 ≤ (changes.map fun d => d.toIdx - d.fromIdx).sum := by
      refine List.sum_nonneg fun x hx => ?_
      obtain ⟨d, hd, rfl⟩ := List.mem_map.mp hx
      have := (hpure d (List.mem_cons_of_mem c hd)).2.2
      omega
    have hfst := (hpure c List.mem_cons_self).2.2
    have hle : c.toIdx - c.fromIdx ≤ ((c :: changes).map fun d => d.toIdx - d.fromIdx).sum := by
      rw [List.map_cons, List.sum_cons]
      omega
    have hwhole : ¬ ((c.wasAdded ∧ c.wasRemoved) ∨ c.getAddedSize = (newItems.length : Int)) := by
      rw [hc.2.1, hemp]
      simp only [Bool.not_true, Bool.false_eq_true, and_false, false_or]
      omega
    rw [if_neg hwhole, hany, hnone]
    simp only [Bool.not_false, and_self, if_true]
    by_cases hbehind : (i : Int) < c.fromIdx
    · rw [if_pos (.inr hbehind), if_pos hbehind]
    · rw [if_neg (by omega), if_neg hbehind, hfocus _ (by omega) (by omega)]
      omega
  · have hemp : c.getRemoved.isEmpty = false := by simp [(hkind c List.mem_cons_self).2]
    have hnone : (c :: changes).any SubChange.wasAdded = false := by
      rw [List.any_eq_false]
      intro d hd
      simp [(wasAdded_eq (hpure d hd)).1, (hkind d hd).2]
    have hany : (c :: changes).any SubChange.wasRemoved = true := by
      rw [List.any_cons, hc.2.1, hemp, Bool.not_false, Bool.true_or]
    have hzero : ((c :: changes).map fun d => d.toIdx - d.fromIdx).sum = 0 := by
      refine List.sum_eq_zero fun x hx => ?_
      obtain ⟨d, hd, rfl⟩ := List.mem_map.mp hx
      have := (hpure d hd).2.2.resolve_left fun h => (hkind d hd).2 h.1
      omega
    have hfst := (hpure c List.mem_cons_self).2.2.resolve_left fun h =>
      (hkind c List.mem_cons_self).2 h.1
    have hwhole : ¬ ((c.wasAdded ∧ c.wasRemoved) ∨ c.getAddedSize = (newItems.length : Int)) := by
      rw [hc.1, hemp]
      simp only [Bool.false_eq_true, false_and, false_or]
      omega
    rw [if_neg hwhole, hany, hnone]
    simp only [Bool.false_eq_true, false_and, Bool.not_false, and_self, if_true, if_false, hsum]
    by_cases hbehind : (i : Int) < c.fromIdx
    · rw [if_pos (.inr hbehind), if_pos hbehind]
    · rw [if_neg (by omega), if_neg hbehind, hfocus _ (by omega) (by omega)]
      omega

/-- The focus stays on its item exactly when the first sub-change lies behind the item, all lie
before it, or it is the first item of the list afterwards. -/
theorem itemsContentListener_iff (haligned : Aligned 0 changes items newItems)
    (hkind : SameKind changes) (hitem : items[i]? = some item)
    (hkept : ∀ c ∈ changes, item ∉ c.getRemoved) (hfocused : m.focusedIndex = i) :
    newItems[newPosition (shiftsOf 0 changes) i]? = some item ∧
      ((m.itemsContentListener newItems changes).focusedIndex =
          newPosition (shiftsOf 0 changes) i ↔
        (∀ c ∈ changes.head?, i < c.fromIdx) ∨ (∀ s ∈ shiftsOf 0 changes, s.actual ≤ i) ∨
          newPosition (shiftsOf 0 changes) i = 0) := by
  obtain ⟨-, htotal, t, hnew, hafter⟩ := newPosition_spec haligned
    (show (0 : Int) = (0 : Nat) + 0 from rfl) hitem hkept
  simp only [Nat.zero_add, Int.natCast_zero, Int.zero_add] at htotal hnew
  rw [← hnew] at hafter
  refine ⟨hafter, ?_⟩
  rcases changes with _ | ⟨c, changes⟩
  · simp [itemsContentListener, updateItemCount, hfocused, shiftsOf, newPosition]
  · have hlt := (List.getElem?_eq_some_iff.mp hitem).1
    have hlt' := (List.getElem?_eq_some_iff.mp hafter).1
    rw [itemsContentListener_eq haligned hkind hlt (by omega) hfocused]
    have hfrom : ∀ d ∈ c :: changes, 0 ≤ d.fromIdx := fun d hd => (haligned.bounds d hd).1
    have hc := hfrom c List.mem_cons_self
    have hamounts := amount_pos hfrom 0
    simp only [List.head?_cons, Option.mem_some_iff, forall_eq']
    by_cases hbehind : (i : Int) < c.fromIdx
    · -- the actual positions are not below that of the first sub-change
      have hall : ∀ s ∈ shiftsOf 0 (c :: changes), i < s.actual := by
        cases haligned with
        | @cons _ _ _ kept added before after hfirst hto htail =>
          have hremoved : c.getRemovedSize = c.getRemoved.length := rfl
          have hstart : c.toIdx = ((kept.length + c.getRemovedSize : Nat) : Int) +
              (0 + (c.toIdx - c.fromIdx) - c.getRemovedSize) := by
            push_cast
            omega
          have hle := le_actual htail hstart
          simp only [shiftsOf, List.forall_mem_cons]
          refine ⟨by omega, fun s hs => ?_⟩
          have := hle s hs
          omega
      rw [if_pos hbehind, (newPosition_of_lt hall).1]
      simp [hbehind]
    · have hfirst : ∃ s ∈ shiftsOf 0 (c :: changes), s.actual ≤ i :=
        ⟨_, List.mem_cons_self, by dsimp only; omega⟩
      rw [if_neg hbehind, or_iff_right hbehind]
      have hpart : totalShift Shift.actual (shiftsOf 0 (c :: changes)) i =
          (((shiftsOf 0 (c :: changes)).filter (·.actual ≤ i)).map Shift.amount).sum := by
        simp only [totalShift, Int.ofNat_le]
      rw [hpart] at htotal
      rcases hkind with hkind | hkind
      · obtain ⟨hnonneg, hle, hiff⟩ := sum_filter_eq_iff (fun s : Shift => s.actual ≤ i)
          Shift.amount (hamounts.1 hkind)
        have hpos : 0 < (((shiftsOf 0 (c :: changes)).filter (·.actual ≤ i)).map
            Shift.amount).sum := by
          obtain ⟨s, hs, hle⟩ := hfirst
          have hmem : s ∈ (shiftsOf 0 (c :: changes)).filter (·.actual ≤ i) :=
            List.mem_filter.mpr ⟨hs, by simpa using hle⟩
          refine List.sum_pos _ (fun x hx => ?_) (by simpa using List.ne_nil_of_mem hmem)
          obtain ⟨s', hs', rfl⟩ := List.mem_map.mp hx
          exact hamounts.1 hkind s' (List.mem_of_mem_filter hs')
        rw [← hiff, htotal]
        omega
      · obtain ⟨hnonneg, hle, hiff⟩ := sum_filter_eq_iff (fun s : Shift => s.actual ≤ i)
          (fun s => -s.amount) (hamounts.2 hkind)
        have hneg : ∀ l :
          List Shift, (l.map fun s => -s.amount).sum = -(l.map Shift.amount).sum := by
          intro l
          rw [List.sum_neg, List.map_map]
          rfl
        rw [hneg, hneg] at hiff hle
        rw [hneg] at hnonneg
        rw [← hiff, htotal]
        omega

theorem focus_insertion :
    (itemsContentListener [some 0, some 1, some 2] [⟨0, 1, some [], [], false⟩]
      ⟨1, some 2, 2⟩).focusedIndex = 2 :=
  (itemsContentListener_iff (.cons [] [some 0] rfl rfl (.nil 1 [some 1, some 2]))
    (.inl (by decide)) (show [some 1, some 2][1]? = some (some 2) from rfl) (by decide)
    rfl).2.mpr (by decide)

theorem not_focus_insertions :
    Aligned 0 [⟨0, 1, some [], [], false⟩, ⟨3, 4, some [], [], false⟩] [some 1, some 2]
        [some 0, some 1, some 2, some 3] ∧
      (itemsContentListener [some 0, some 1, some 2, some 3]
        [⟨0, 1, some [], [], false⟩, ⟨3, 4, some [], [], false⟩] ⟨0, some 1, 2⟩).focusedIndex = 2 :=
  ⟨.cons [] [some 0] rfl rfl (.cons [some 1, some 2] [some 3] rfl rfl (.nil 4 [])), by decide⟩

end ListViewFocusModel

end OpenJfx.Control
