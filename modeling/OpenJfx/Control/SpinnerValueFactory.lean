import OpenJfx.Java.Ints

namespace OpenJfx.Control.Spinner

open Java.Ints

/-- What `wrapValue` throws. -/
inductive Thrown where
  | runtimeException

def wrapValue (value min max : Int) : Except Thrown Int :=
  if max = 0 then .error .runtimeException
  else
    let r := value.tmod max
    if r > min ∧ max < min then .ok (int32 (int32 (r + max) - min))
    else if r < min ∧ max > min then .ok (int32 (int32 (r + max) - min))
    else .ok r

structure IntegerSpinnerValueFactory where
  min : Int
  max : Int
  amountToStepBy : Int
  wrapAround : Bool
  value : Int

namespace IntegerSpinnerValueFactory

def clamp (f : IntegerSpinnerValueFactory) (n : Int) : Int :=
  if n < f.min then f.min else if n > f.max then f.max else n

/-- The value is set, and the listener that the constructor adds sets it anew if it is out of
range. -/
def setValue (f : IntegerSpinnerValueFactory) (newValue : Int) : IntegerSpinnerValueFactory :=
  { f with value := f.clamp newValue }

/-- What the two methods do once the new value is known. -/
def moveTo (f : IntegerSpinnerValueFactory) (newIndex : Int) (inside : Bool) (carry edge : Int) :
    Except Thrown IntegerSpinnerValueFactory :=
  if inside then .ok (f.setValue newIndex)
  else if f.wrapAround then
    (wrapValue newIndex f.min f.max).map fun r => f.setValue (int32 (r + carry))
  else .ok (f.setValue edge)

def decrement (f : IntegerSpinnerValueFactory) (steps : Int) :
    Except Thrown IntegerSpinnerValueFactory :=
  let newIndex := int32 (f.value - int32 (steps * f.amountToStepBy))
  f.moveTo newIndex (newIndex ≥ f.min) 1 f.min

def increment (f : IntegerSpinnerValueFactory) (steps : Int) :
    Except Thrown IntegerSpinnerValueFactory :=
  let newIndex := int32 (f.value + int32 (steps * f.amountToStepBy))
  f.moveTo newIndex (newIndex ≤ f.max) (-1) f.max

/-- The numbers are ints, and the value lies in the range. -/
structure Valid (f : IntegerSpinnerValueFactory) : Prop where
  le_min : -2 ^ 31 ≤ f.min
  min_le : f.min ≤ f.value
  le_max : f.value ≤ f.max
  max_lt : f.max < 2 ^ 31

def count (f : IntegerSpinnerValueFactory) : Int := f.max - f.min + 1

/-- Where a step to `t` should lead. -/
def destination (f : IntegerSpinnerValueFactory) (t : Int) : Int :=
  if f.wrapAround then f.min + (t - f.min) % f.count else f.clamp t

/-- The remainder of a number by `max`, moved up by the range if it lies below it. -/
def remainder (f : IntegerSpinnerValueFactory) (n : Int) : Int :=
  if n.tmod f.max < f.min ∧ f.min < f.max then n.tmod f.max + f.max - f.min else n.tmod f.max

/-- When a step upwards wraps to its destination. The number `w` is what `t` becomes as an int, and
its quotient by `max` is how often `wrapValue` goes around. -/
def IncrementWraps (f : IntegerSpinnerValueFactory) (t w : Int) : Prop :=
  if w < f.min then f.count ∣ t - f.min
  else if w ≤ f.max then f.count ∣ t - w
  else
    f.max ≠ 0 ∧
      if f.max < 0 then f.count ∣ t - f.max
      else if f.min < w.tmod f.max then f.count ∣ t - w + w.tdiv f.max * f.max + 1
      else if w.tmod f.max = f.min then f.count ∣ t - w + w.tdiv f.max * f.max
      else if 2 * f.min < w.tmod f.max + f.max then f.count ∣ t - w + w.tdiv f.max * f.max + 2
      else f.count ∣ t - f.min

def DecrementWraps (f : IntegerSpinnerValueFactory) (t w : Int) : Prop :=
  if f.max < w then f.count ∣ t - f.max
  else if f.min ≤ w then f.count ∣ t - w
  else
    f.max ≠ 0 ∧
      if f.max < 0 then f.count ∣ t - f.max
      else if f.min ≤ w.tmod f.max then f.count ∣ t - w + w.tdiv f.max * f.max - 1
      else if 2 * f.min ≤ w.tmod f.max + f.max + 1 then f.count ∣ t - w + w.tdiv f.max * f.max
      else f.count ∣ t - f.min

def IncrementMeets (f : IntegerSpinnerValueFactory) (steps : Int) : Prop :=
  let t := f.value + steps * f.amountToStepBy
  t ≤ f.max ∨
    if f.wrapAround then f.IncrementWraps t (int32 t) else f.max ≤ int32 t ∨ f.min = f.max

def DecrementMeets (f : IntegerSpinnerValueFactory) (steps : Int) : Prop :=
  let t := f.value - steps * f.amountToStepBy
  f.min ≤ t ∨
    if f.wrapAround then f.DecrementWraps t (int32 t) else int32 t ≤ f.min ∨ f.min = f.max

/-- When a step to `t` that leaves the range upwards (`carry` is `-1` and `edge` is `max`) or
downwards leads to its destination. The number `w` is what `t` becomes as an int; `inside` says
that it is not on the far side of the edge. -/
def Lands (f : IntegerSpinnerValueFactory) (t w : Int) (inside : Prop) (carry edge : Int) : Prop :=
  if f.wrapAround then
    inside ∧ f.count ∣ t - f.clamp w ∨
      ¬inside ∧ f.max ≠ 0 ∧ f.count ∣ t - f.clamp (f.remainder w + carry)
  else inside → f.clamp w = edge

variable {f : IntegerSpinnerValueFactory}

theorem min_le_max (hf : f.Valid) : f.min ≤ f.max := Int.le_trans hf.min_le hf.le_max

theorem clamp_eq {n : Int} (hlow : f.min ≤ n) (hhigh : n ≤ f.max) : f.clamp n = n := by
  rw [clamp, if_neg (by omega), if_neg (by omega)]

theorem clamp_mem (hf : f.Valid) (n : Int) : f.min ≤ f.clamp n ∧ f.clamp n ≤ f.max := by
  have hle := min_le_max hf
  rw [clamp]
  split_ifs <;> omega

theorem clamp_of_le {n : Int} (hf : f.Valid) (h : f.max ≤ n) : f.clamp n = f.max := by
  have hle := min_le_max hf
  rw [clamp]
  split_ifs <;> omega

theorem clamp_of_ge {n : Int} (h : n ≤ f.min) (hf : f.Valid) : f.clamp n = f.min := by
  have hle := min_le_max hf
  rw [clamp]
  split_ifs <;> omega

/-- In either direction, the destination is a value of the range. -/
theorem destination_mem (hf : f.Valid) (t : Int) :
    f.min ≤ f.destination t ∧ f.destination t ≤ f.max := by
  have hle := min_le_max hf
  have hcnt : 0 < f.count := by
    rw [count]
    omega
  rw [destination]
  split
  · have hnn := Int.emod_nonneg (t - f.min) (Int.ne_of_gt hcnt)
    have hlt := Int.emod_lt_of_pos (t - f.min) hcnt
    rw [count] at hlt ⊢
    rw [count] at hnn
    omega
  · exact clamp_mem hf t

theorem eq_wrapped_iff {x : Int} (hlow : f.min ≤ x) (hhigh : x ≤ f.max) (t : Int) :
    x = f.min + (t - f.min) % f.count ↔ f.count ∣ t - x := by
  have hmod : (x - f.min) % f.count = x - f.min :=
    Int.emod_eq_of_lt (by omega) (by rw [count]; omega)
  have hsub : t - f.min - (x - f.min) = t - x := by omega
  rw [Int.dvd_iff_emod_eq_zero, ← hsub, ← Int.emod_eq_emod_iff_emod_sub_eq_zero]
  omega

theorem tmod_bounds (m w : Int) :
    (0 < m → -m < w.tmod m ∧ w.tmod m < m) ∧
      (m < 0 → m < w.tmod m ∧ w.tmod m < -m ∧ (w ≤ 0 → w.tmod m ≤ 0)) := by
  refine ⟨fun hpos => ⟨Int.lt_tmod_of_pos w hpos, Int.tmod_lt_of_pos w hpos⟩, fun hneg => ?_⟩
  have hlow := Int.lt_tmod_of_pos w (show 0 < -m by omega)
  have hhigh := Int.tmod_lt_of_pos w (show 0 < -m by omega)
  rw [Int.tmod_neg] at hlow hhigh
  refine ⟨by omega, hhigh, fun hw => ?_⟩
  have hnn := Int.tmod_nonneg m (show 0 ≤ -w by omega)
  rw [Int.neg_tmod] at hnn
  omega

theorem remainder_bounds (hf : f.Valid) (hmax : f.max ≠ 0) (w : Int) :
    -2 ^ 31 < f.remainder w ∧ f.remainder w < 2 ^ 31 ∧
      (w < f.min → f.remainder w < 2 ^ 31 - 1) := by
  have hle := min_le_max hf
  have hlow := hf.le_min
  have hhigh := hf.max_lt
  obtain ⟨hpos, hneg⟩ := tmod_bounds f.max w
  rw [remainder]
  split_ifs <;> omega

theorem wrapValue_eq (hf : f.Valid) (hmax : f.max ≠ 0) (w : Int) :
    wrapValue w f.min f.max = .ok (f.remainder w) := by
  have hle := min_le_max hf
  have hhigh := hf.max_lt
  obtain ⟨hpos, hneg⟩ := tmod_bounds f.max w
  rw [wrapValue, if_neg hmax, remainder]
  simp only [if_neg (show ¬(w.tmod f.max > f.min ∧ f.max < f.min) by omega)]
  by_cases hbelow : w.tmod f.max < f.min ∧ f.min < f.max
  · have hback : int32 (int32 (w.tmod f.max + f.max) - f.min) = w.tmod f.max + f.max - f.min := by
      rw [int32_int32_sub]
      exact int32_eq (by omega) (by omega)
    rw [if_pos hbelow, if_pos hbelow, hback]
  · rw [if_neg hbelow, if_neg hbelow]

/-- A step upwards or downwards that ends at `w` on the int number line. -/
theorem moveTo_eq_iff (hf : f.Valid) {t w carry edge : Int} {inside : Prop} [Decidable inside]
    (hcarry : ¬inside → f.max ≠ 0 → int32 (f.remainder w + carry) = f.remainder w + carry)
    (hedge : f.clamp t = edge) :
    f.moveTo w inside carry edge = .ok { f with value := f.destination t } ↔
      f.Lands t w inside carry edge := by
  have hval : ∀ x, Except.ok (f.setValue x) =
      (.ok { f with value := f.destination t } : Except Thrown _) ↔
        f.clamp x = f.destination t := by
    simp [setValue]
  have hwrapped : ∀ x, f.wrapAround = true →
      (f.clamp x = f.destination t ↔ f.count ∣ t - f.clamp x) := by
    intro x hwrap
    obtain ⟨hlow, hhigh⟩ := clamp_mem hf x
    rw [destination, if_pos hwrap, eq_wrapped_iff hlow hhigh]
  rw [moveTo, Lands]
  by_cases hin : inside
  · rw [decide_eq_true hin, if_pos rfl, hval]
    by_cases hwrap : f.wrapAround = true
    · simp only [hwrap, if_true, hin, true_and, not_true_eq_false, false_and, or_false, hwrapped w]
    · rw [if_neg hwrap, destination, if_neg hwrap, hedge]
      exact ⟨fun h _ => h, fun h => h hin⟩
  · rw [decide_eq_false hin, if_neg Bool.false_ne_true]
    by_cases hwrap : f.wrapAround = true
    · simp only [if_pos hwrap, hin, false_and, false_or, not_false_eq_true, true_and]
      by_cases hmax : f.max = 0
      · simp [wrapValue, hmax, Except.map]
      · rw [wrapValue_eq hf hmax, Except.map, hcarry hin hmax, hval, hwrapped _ hwrap,
          and_iff_right hmax]
    · have hstays : f.clamp edge = edge := by
        obtain ⟨hlow, hhigh⟩ := clamp_mem hf t
        rw [← hedge, clamp_eq hlow hhigh]
      rw [if_neg hwrap, if_neg hwrap, hval, destination, if_neg hwrap, hedge, hstays]
      exact ⟨fun _ h => absurd h hin, fun _ => rfl⟩

theorem dvd_iff_of_sub_eq {n a b : Int} (k : Int) (h : a = b + n * k) : n ∣ a ↔ n ∣ b := by
  rw [h]
  exact Int.dvd_add_left (Int.dvd_mul_right n k)

theorem lands_up_iff (hf : f.Valid) (t w : Int) :
    f.Lands t w (w ≤ f.max) (-1) f.max ↔
      if f.wrapAround then f.IncrementWraps t w else f.max ≤ w ∨ f.min = f.max := by
  have hle := min_le_max hf
  rw [Lands]
  split
  case isFalse =>
    rw [clamp]
    split_ifs <;> omega
  rw [IncrementWraps]
  by_cases hlow : w < f.min
  · have hin : w ≤ f.max := by omega
    simp only [hlow, hin, clamp_of_ge (Int.le_of_lt hlow) hf, if_true, true_and, not_true_eq_false,
      false_and, or_false]
  by_cases hin : w ≤ f.max
  · simp only [hlow, hin, clamp_eq (Int.not_lt.mp hlow) hin, if_true, if_false, true_and,
      not_true_eq_false, false_and, or_false]
  simp only [hlow, hin, if_false, false_and, false_or, not_false_eq_true, true_and]
  refine and_congr_right fun hmax => ?_
  obtain ⟨hpos, hneg⟩ := tmod_bounds f.max w
  have hsplit := Int.tdiv_mul_add_tmod w f.max
  generalize w.tdiv f.max * f.max = laps at hsplit ⊢
  rw [remainder]
  by_cases hminus : f.max < 0
  · rw [if_pos hminus, if_neg (by omega), clamp_of_le hf (by omega)]
  have hnn := Int.tmod_nonneg f.max (show 0 ≤ w by omega)
  rw [if_neg hminus]
  split_ifs with hlift habove heq hroom habove heq hroom
  · omega
  · omega
  · rw [clamp_eq (by omega) (by omega)]
    exact dvd_iff_of_sub_eq (-1) (by rw [count]; omega)
  · rw [clamp_of_ge (by omega) hf]
  · rw [clamp_eq (by omega) (by omega)]
    exact dvd_iff_of_sub_eq 0 (by omega)
  · rw [clamp_of_ge (by omega) hf]
    exact dvd_iff_of_sub_eq 0 (by omega)
  all_goals
    have hone : f.count = 1 := by
      rw [count]
      omega
    simp [hone]

theorem lands_down_iff (hf : f.Valid) (t w : Int) :
    f.Lands t w (w ≥ f.min) 1 f.min ↔
      if f.wrapAround then f.DecrementWraps t w else w ≤ f.min ∨ f.min = f.max := by
  have hle := min_le_max hf
  rw [Lands]
  split
  case isFalse =>
    rw [clamp]
    split_ifs <;> omega
  rw [DecrementWraps]
  by_cases hhigh : f.max < w
  · have hin : w ≥ f.min := by omega
    simp only [hhigh, hin, clamp_of_le hf (Int.le_of_lt hhigh), if_true, true_and,
      not_true_eq_false, false_and, or_false]
  by_cases hin : f.min ≤ w
  · simp only [hhigh, ge_iff_le, hin, clamp_eq hin (Int.not_lt.mp hhigh), if_true, if_false,
      true_and, not_true_eq_false, false_and, or_false]
  simp only [hhigh, ge_iff_le, hin, if_false, false_and, false_or, not_false_eq_true, true_and]
  refine and_congr_right fun hmax => ?_
  obtain ⟨hpos, hneg⟩ := tmod_bounds f.max w
  have hsplit := Int.tdiv_mul_add_tmod w f.max
  generalize w.tdiv f.max * f.max = laps at hsplit ⊢
  rw [remainder]
  by_cases hminus : f.max < 0
  · rw [if_pos hminus, if_neg (by omega), clamp_of_le hf (by omega)]
  rw [if_neg hminus]
  split_ifs with hlift habove hroom habove hroom
  · omega
  · rw [clamp_eq (by omega) (by omega)]
    exact dvd_iff_of_sub_eq (-1) (by rw [count]; omega)
  · rw [clamp_of_ge (by omega) hf]
  · rw [clamp_eq (by omega) (by omega)]
    exact dvd_iff_of_sub_eq 0 (by omega)
  all_goals
    have hone : f.count = 1 := by
      rw [count]
      omega
    simp [hone]

theorem moveTo_inside {t carry edge : Int} {inside : Prop} [Decidable inside]
    (hin : inside) (hlow : f.min ≤ t) (hhigh : t ≤ f.max) :
    f.moveTo t inside carry edge = .ok { f with value := f.destination t } := by
  have hdestination : f.destination t = t := by
    rw [destination]
    split
    · refine ((eq_wrapped_iff hlow hhigh t).mpr ?_).symm
      rw [Int.sub_self]
      exact Int.dvd_zero _
    · exact clamp_eq hlow hhigh
  rw [moveTo, decide_eq_true hin, if_pos rfl, setValue, clamp_eq hlow hhigh, hdestination]

/-- A step leads where it should, which is in the range, exactly if its condition is met. -/
theorem steps_right_iff (hf : f.Valid) {steps : Int} (hsteps : 0 ≤ steps)
    (hamount : 0 ≤ f.amountToStepBy) :
    (∀ t, f.min ≤ f.destination t ∧ f.destination t ≤ f.max) ∧
    (f.increment steps = .ok { f with
        value := f.destination (f.value + steps * f.amountToStepBy) } ↔ f.IncrementMeets steps) ∧
      (f.decrement steps = .ok { f with
        value := f.destination (f.value - steps * f.amountToStepBy) } ↔
          f.DecrementMeets steps) := by
  have hle := min_le_max hf
  have hvalue := hf.min_le
  have hvalue' := hf.le_max
  have hlow := hf.le_min
  have hhigh := hf.max_lt
  have hdistance := Int.mul_nonneg hsteps hamount
  refine ⟨destination_mem hf, ?_, ?_⟩
  · rw [increment, int32_add_int32, IncrementMeets]
    generalize ht : f.value + steps * f.amountToStepBy = t
    by_cases hin : t ≤ f.max
    · rw [int32_eq (by omega) (by omega)]
      exact iff_of_true (moveTo_inside hin (by omega) hin) (.inl hin)
    · rw [or_iff_right hin]
      refine (moveTo_eq_iff hf (fun _ hmax => ?_) (clamp_of_le hf (by omega))).trans
        (lands_up_iff hf t _)
      have hbounds := remainder_bounds hf hmax (int32 t)
      exact int32_eq (by omega) (by omega)
  · rw [decrement, int32_sub_int32, DecrementMeets]
    generalize ht : f.value - steps * f.amountToStepBy = t
    by_cases hin : f.min ≤ t
    · rw [int32_eq (by omega) (by omega)]
      exact iff_of_true (moveTo_inside hin hin (by omega)) (.inl hin)
    · rw [or_iff_right hin]
      refine (moveTo_eq_iff hf (fun hout hmax => ?_) (clamp_of_ge (by omega) hf)).trans
        (lands_down_iff hf t _)
      have hbounds := (remainder_bounds hf hmax (int32 t)).2.2 (by omega)
      have hbounds' := (remainder_bounds hf hmax (int32 t)).1
      exact int32_eq (by omega) (by omega)

/-- The hours of a clock, at twelve. -/
def hours : IntegerSpinnerValueFactory := ⟨1, 12, 1, true, 12⟩

theorem valid_hours : hours.Valid := ⟨by decide, by decide, by decide, by decide⟩

theorem steps_right_hours :
    hours.increment 1 = .ok { hours with value := 1 } ∧
      (hours.increment 1 = .ok { hours with value := hours.destination 13 } ↔
        hours.IncrementMeets 1) :=
  ⟨rfl, (steps_right_iff valid_hours (by decide) (by decide)).2.1⟩

/-- Two hours after twelve it is two o'clock. -/
theorem not_increment_hours :
    ¬ hours.increment 2 = .ok { hours with value := hours.destination (12 + 2 * 1) } := by
  have hone : hours.increment 2 = .ok { hours with value := 1 } := rfl
  rw [hone]
  intro h
  exact absurd (congrArg value (Except.ok.inj h)) (by decide)

end IntegerSpinnerValueFactory

end OpenJfx.Control.Spinner
