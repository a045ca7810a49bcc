import OpenJfx.Collections.ListChange

namespace OpenJfx.Collections.ShiftedPositions

open Collections.ListChange List

variable {E : Type}

/-- An insertion or a removal of elements. The reported position counts what the shifts of lower
positions have added and removed, the actual one does not. -/
structure Shift where
  position : Nat
  actual : Nat
  added : Nat
  removed : Nat

def Shift.amount (s : Shift) : Int := s.added - s.removed

/-- The index of an element behind the actual position changes. -/
def Shift.move (s : Shift) (i : Nat) : Nat :=
  if s.actual ≤ i then i + s.added - s.removed else i

def newPosition (shifts : List Shift) (i : Nat) : Nat := shifts.foldr Shift.move i

/-- The shifts of sub-changes. What comes next has been moved by `delta` before. -/
def shiftsOf : Int → List (SubChange E) → List Shift
  | _, [] => []
  | delta, c :: cs =>
    ⟨c.fromIdx.toNat, (c.fromIdx - delta).toNat, (c.toIdx - c.fromIdx).toNat,
        c.getRemovedSize⟩ ::
      shiftsOf (delta + (c.toIdx - c.fromIdx) - c.getRemovedSize) cs

/-- Nothing but an insertion, or nothing but a removal. -/
def IsPure (c : SubChange E) : Prop :=
  c.perm = [] ∧ c.updated = false ∧
    (c.getRemoved = [] ∧ c.fromIdx < c.toIdx ∨ c.getRemoved ≠ [] ∧ c.fromIdx = c.toIdx)

instance [DecidableEq E] (c : SubChange E) : Decidable (IsPure c) :=
  inferInstanceAs (Decidable (_ ∧ _))

def Spared : List Shift → Nat → Prop
  | [], _ => True
  | s :: higher, i =>
    Spared higher i ∧
      (s.actual ≤ newPosition higher i → s.actual + s.removed ≤ newPosition higher i)

theorem newPosition_cons (s : Shift) (higher : List Shift) (i : Nat) :
    newPosition (s :: higher) i = s.move (newPosition higher i) := rfl

variable {shifts : List Shift}

theorem newPosition_lt {i j : Nat} (hi : Spared shifts i) (hj : Spared shifts j) (hlt : i < j) :
    newPosition shifts i < newPosition shifts j := by
  induction shifts with
  | nil => exact hlt
  | cons s higher ih =>
    have hhigher := ih hi.1 hj.1
    have hi' := hi.2
    have hj' := hj.2
    rw [newPosition_cons, newPosition_cons, Shift.move, Shift.move]
    split <;> split <;> omega

variable {p delta : Int} {cs : List (SubChange E)} {before after : List E} {o t : Nat}

theorem le_actual (h : Aligned p cs before after) (hp : p = o + delta) :
    ∀ s ∈ shiftsOf delta cs, o ≤ s.actual := by
  induction h generalizing o delta with
  | nil => simp [shiftsOf]
  | @cons p c cs kept added before after hfrom hto htail ih =>
    intro s hs
    rcases mem_cons.mp hs with rfl | hs
    · dsimp only
      omega
    · have hstart : c.toIdx = ((o + kept.length + c.getRemovedSize : Nat) : Int) +
          (delta + (c.toIdx - c.fromIdx) - c.getRemovedSize) := by
        omega
      have hle := ih hstart s hs
      omega

theorem newPosition_of_lt {i : Nat} (h : ∀ s ∈ shifts, i < s.actual) :
    newPosition shifts i = i ∧ Spared shifts i := by
  induction shifts with
  | nil => exact ⟨rfl, trivial⟩
  | cons s higher ih =>
    rcases ih fun s' hs' => h s' (mem_cons_of_mem s hs') with ⟨hsame, hspared⟩
    have hlt := h s mem_cons_self
    rw [newPosition_cons, Shift.move, hsame, if_neg (by omega)]
    refine ⟨rfl, hspared, ?_⟩
    omega

def totalShift (position : Shift → Nat) (shifts : List Shift) (i : Int) : Int :=
  ((shifts.filter (position · ≤ i)).map Shift.amount).sum

theorem totalShift_of_lt {position : Shift → Nat} {i : Int} (h : ∀ s ∈ shifts, i < position s) :
    totalShift position shifts i = 0 := by
  have hnone : shifts.filter (position · ≤ i) = [] := by
    apply filter_eq_nil_iff.mpr
    intro s hs
    have hlt := h s hs
    rw [decide_eq_true_eq]
    omega
  rw [totalShift, hnone]
  rfl

theorem newPosition_spec (h : Aligned p cs before after) (hp : p = o + delta) {item : E}
    (hitem : before[t]? = some item) (hkept : ∀ c ∈ cs, item ∉ c.getRemoved) :
    Spared (shiftsOf delta cs) (o + t) ∧
      (newPosition (shiftsOf delta cs) (o + t) : Int) =
        o + t + totalShift Shift.actual (shiftsOf delta cs) (o + t) ∧
      ∃ t', newPosition (shiftsOf delta cs) (o + t) = o + t' ∧ after[t']? = some item := by
  induction h generalizing o delta t with
  | nil p kept =>
    refine ⟨trivial, ?_, t, rfl, hitem⟩
    simp [shiftsOf, newPosition, totalShift]
  | @cons p c cs kept added before after hfrom hto htail ih =>
    have hrem : c.getRemovedSize = c.getRemoved.length := rfl
    have hstart : c.toIdx = ((o + kept.length + c.getRemovedSize : Nat) : Int) +
        (delta + (c.toIdx - c.fromIdx) - c.getRemovedSize) := by
      omega
    have hactual : ∀ s ∈ shiftsOf (delta + (c.toIdx - c.fromIdx) - c.getRemovedSize) cs,
        o + kept.length + c.getRemovedSize ≤ s.actual := le_actual htail hstart
    have hhead : (c.fromIdx - delta).toNat = o + kept.length := by omega
    have hadded : (c.toIdx - c.fromIdx).toNat = added.length := by omega
    rw [shiftsOf, hhead, hadded]
    rcases Nat.lt_or_ge t kept.length with hlt | hge
    · -- the element stands before the sub-change
      have hbelow : ∀ s ∈ (⟨c.fromIdx.toNat, o + kept.length, added.length,
          c.getRemovedSize⟩ : Shift) ::
            shiftsOf (delta + (c.toIdx - c.fromIdx) - c.getRemovedSize) cs,
          o + t < s.actual := by
        intro s hs
        rcases mem_cons.mp hs with rfl | hs
        · exact Nat.add_lt_add_left hlt o
        · have hle := hactual s hs
          omega
      rcases newPosition_of_lt hbelow with ⟨hsame, hspared⟩
      refine ⟨hspared, ?_, t, hsame, ?_⟩
      · rw [hsame, totalShift_of_lt fun s hs => by exact_mod_cast hbelow s hs]
        omega
      · rw [append_assoc, getElem?_append_left hlt] at hitem ⊢
        exact hitem
    · rw [append_assoc, getElem?_append_right hge] at hitem
      rcases Nat.lt_or_ge (t - kept.length) c.getRemoved.length with hlt | hge'
      · rw [getElem?_append_left hlt] at hitem
        exact absurd (mem_of_getElem? hitem) (hkept c mem_cons_self)
      · rw [getElem?_append_right hge'] at hitem
        rcases ih hstart hitem fun d hd => hkept d (mem_cons_of_mem c hd) with
          ⟨hspared, htotal, t', hnew, hafter⟩
        have hidx : o + kept.length + c.getRemovedSize +
            (t - kept.length - c.getRemoved.length) = o + t := by omega
        have hidx' : ((o + kept.length + c.getRemovedSize : Nat) : Int) +
            (t - kept.length - c.getRemoved.length : Nat) = o + t := by omega
        rw [hidx] at hspared hnew htotal
        rw [hidx'] at htotal
        refine ⟨⟨hspared, ?_⟩, ?_, kept.length + added.length + t', ?_, ?_⟩
        · dsimp only
          omega
        · have hcnt : ((o + kept.length : Nat) : Int) ≤ (o : Int) + t := by omega
          rw [totalShift, filter_cons_of_pos (by simpa using hcnt), map_cons,
            sum_cons, ← totalShift, newPosition_cons, Shift.move, Shift.amount]
          dsimp only
          rw [if_pos (by omega)]
          omega
        · rw [newPosition_cons, hnew, Shift.move]
          dsimp only
          rw [if_pos (by omega)]
          omega
        · rw [append_assoc, getElem?_append_right (by omega),
            getElem?_append_right (by omega)]
          rw [show kept.length + added.length + t' - kept.length - added.length = t' by omega]
          exact hafter

end OpenJfx.Collections.ShiftedPositions
