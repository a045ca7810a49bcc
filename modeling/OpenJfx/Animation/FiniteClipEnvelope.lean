import OpenJfx.Java.Ints
import Mathlib.Data.List.Basic
import Mathlib.Tactic.Ring
import Mathlib.Data.List.Count
import Mathlib.Tactic.Linarith

namespace OpenJfx.Animation

open Java.Ints

/-- The calls of `AnimationAccessor`. -/
inductive Call
  | playTo (pos cycleTicks : Int)
  | jumpTo (pos cycleTicks : Int)
  | setCurrentRate (currentRate : ℚ)
  | finished
  deriving DecidableEq

/-- `Animation.Status` -/
inductive Status
  | paused | running | stopped
  deriving DecidableEq

/-- Plays a clip a given number of times. Of the finite rates only the sign matters here; the
rounded product of the current tick and the rate is given to `timePulse`. -/
structure FiniteClipEnvelope where
  rate : ℚ
  cycleTicks : Int
  deltaTicks : Int
  ticks : Int
  currentRate : ℚ
  autoReverse : Bool
  cycleCount : Int
  totalTicks : Int
  pos : Int
  calls : List Call

namespace FiniteClipEnvelope

def new (rate : ℚ) (autoReverse : Bool) (cycleCount cycleTicks : Int) : FiniteClipEnvelope where
  rate := rate
  cycleTicks := cycleTicks
  deltaTicks := 0
  ticks := 0
  currentRate := 1
  autoReverse := autoReverse
  cycleCount := cycleCount
  totalTicks := int64 (cycleCount * cycleTicks)
  pos := 0
  calls := []

def playTo (e : FiniteClipEnvelope) : FiniteClipEnvelope :=
  { e with calls := e.calls ++ [.playTo e.pos e.cycleTicks] }

def jump (e : FiniteClipEnvelope) : FiniteClipEnvelope :=
  { e with calls := e.calls ++ [.jumpTo e.pos e.cycleTicks] }

def setCurrentRate (e : FiniteClipEnvelope) (currentRate : ℚ) : FiniteClipEnvelope :=
  { e with currentRate := currentRate, calls := e.calls ++ [.setCurrentRate currentRate] }

def calculateCurrentRate (e : FiniteClipEnvelope) : ℚ :=
  if !e.autoReverse then e.rate
  else if decide (e.ticks.tmod (int64 (2 * e.cycleTicks)) < e.cycleTicks) = decide (0 < e.rate) then
    e.rate
  else -e.rate

def start (e : FiniteClipEnvelope) : FiniteClipEnvelope :=
  { e.setCurrentRate e.calculateCurrentRate with deltaTicks := e.ticks }

def checkBounds (value bound : Int) : Int := max 0 (min value bound)

def finishCycle (e : FiniteClipEnvelope) : FiniteClipEnvelope :=
  { e with pos := if 0 < e.currentRate then e.cycleTicks else 0 }.playTo

def nextCycle (e : FiniteClipEnvelope) : FiniteClipEnvelope :=
  if e.autoReverse then e.setCurrentRate (-e.currentRate)
  else { e with pos := if 0 < e.currentRate then 0 else e.cycleTicks }.jump

/-- The loop of `timePulse`, with what is left of the overall delta. Every round but the first
takes a whole cycle off it. -/
def playCycles (reachedEnd : Bool) :
    Nat → Int → Int → FiniteClipEnvelope → FiniteClipEnvelope × Int
  | 0, overallDelta, _, e => (e, overallDelta)
  | fuel + 1, overallDelta, cycleDelta, e =>
    if cycleDelta ≤ overallDelta then
      let left := if 0 < cycleDelta then overallDelta - cycleDelta else overallDelta
      let e := if 0 < cycleDelta then e.finishCycle else e
      let e := if !reachedEnd || decide (0 < left) then e.nextCycle else e
      playCycles reachedEnd fuel left e.cycleTicks e
    else (e, overallDelta)

/-- The part of `timePulse` behind the loop. -/
def finishPulse (reachedEnd : Bool) (e : FiniteClipEnvelope) (overallDelta : Int) :
    FiniteClipEnvelope :=
  let e := if decide (0 < overallDelta) && !reachedEnd then
      { e with
        pos := e.pos + if 0 < e.currentRate then overallDelta else -overallDelta }.playTo
    else e
  if reachedEnd then { e with calls := e.calls ++ [.finished] } else e

/-- The part of `timePulse` after the new tick count is set. -/
def advance (e : FiniteClipEnvelope) (oldTicks : Int) : FiniteClipEnvelope :=
  let reachedEnd := decide (e.totalTicks ≤ e.ticks)
  let overallDelta := e.ticks - oldTicks
  if overallDelta = 0 then e
  else
    let cycleDelta := if 0 < e.currentRate then e.cycleTicks - e.pos else e.pos
    match playCycles reachedEnd ((overallDelta / e.cycleTicks).toNat + 2) overallDelta
        cycleDelta e with
    | (e, left) => finishPulse reachedEnd e left

/-- `timePulse(currentTick)`, where `elapsed` is `Math.round(currentTick * Math.abs(rate))`. -/
def timePulse (e : FiniteClipEnvelope) (elapsed : Int) : FiniteClipEnvelope :=
  if e.cycleTicks = 0 then e
  else
    { e with ticks := checkBounds (int64 (e.deltaTicks + elapsed)) e.totalTicks }.advance e.ticks

/-- The ticks that `jumpTo(newTicks)` goes to. -/
def target (e : FiniteClipEnvelope) (newTicks : Int) : Int :=
  checkBounds (if e.rate < 0 then int64 (e.totalTicks - newTicks) else newTicks) e.totalTicks

/-- `setCurrentRate` where the animation is running. -/
def toggle (status : Status) (e : FiniteClipEnvelope) (rate : ℚ) : FiniteClipEnvelope :=
  if status = .running then e.setCurrentRate rate else e

/-- The part of `jumpTo` for ticks that have changed. -/
def place (status : Status) (e : FiniteClipEnvelope) : FiniteClipEnvelope :=
  if e.autoReverse then
    let forward := decide (e.ticks.tmod (int64 (2 * e.cycleTicks)) < e.cycleTicks)
    if forward = decide (0 < e.rate) then
      { e with pos := e.ticks.tmod e.cycleTicks }.toggle status |e.rate|
    else
      { e with pos := int64 (e.cycleTicks - e.ticks.tmod e.cycleTicks) }.toggle status (-|e.rate|)
  else
    let pos := e.ticks.tmod e.cycleTicks
    let pos := if e.rate < 0 then int64 (e.cycleTicks - pos) else pos
    { e with pos := if pos = 0 ∧ 0 < e.ticks then e.cycleTicks else pos }

/-- `jumpTo(newTicks)`, made between two pulses, where there is none to abort. -/
def jumpTo (status : Status) (e : FiniteClipEnvelope) (newTicks : Int) : FiniteClipEnvelope :=
  if e.cycleTicks = 0 then e
  else
    let delta := int64 (e.target newTicks - e.ticks)
    let e := { e with ticks := e.target newTicks }
    if delta = 0 then e
    else ({ e with deltaTicks := int64 (e.deltaTicks + delta) }.place status).jump

section

variable (status : Status) (e : FiniteClipEnvelope) (newTicks : Int)

theorem calculateCurrentRate_toggle (rate : ℚ) :
    (e.toggle status rate).calculateCurrentRate = e.calculateCurrentRate := by
  rw [toggle]
  split <;> rfl

theorem calculateCurrentRate_place :
    (e.place status).calculateCurrentRate = e.calculateCurrentRate := by
  rw [place]
  split
  · dsimp only
    split <;> exact calculateCurrentRate_toggle ..
  · rfl

/-- The rate at the ticks that a jump goes to does not depend on the status. -/
theorem calculateCurrentRate_jumpTo (hcycle : e.cycleTicks ≠ 0) :
    (e.jumpTo status newTicks).calculateCurrentRate =
      { e with ticks := e.target newTicks }.calculateCurrentRate := by
  rw [jumpTo, if_neg hcycle]
  dsimp only
  split
  · rfl
  · exact calculateCurrentRate_place ..

theorem place_running (hauto : e.autoReverse = true) :
    (e.place .running).currentRate =
      if decide (e.ticks.tmod (int64 (2 * e.cycleTicks)) < e.cycleTicks) = decide (0 < e.rate)
      then |e.rate| else -|e.rate| := by
  rw [place, if_pos hauto]
  dsimp only
  split <;> rfl

end

/-- Where the rate is negative, the two directions are opposite. -/
theorem place_currentRate_iff (e : FiniteClipEnvelope) (hauto : e.autoReverse = true)
    (hrate : e.rate ≠ 0) :
    (e.place .running).currentRate = e.calculateCurrentRate ↔ 0 < e.rate := by
  rw [place_running e hauto, calculateCurrentRate, hauto, Bool.not_true,
    if_neg Bool.false_ne_true]
  rcases lt_or_gt_of_ne hrate with hneg | hpos
  · have hne : -e.rate ≠ e.rate := fun heq => hrate (by linarith)
    rw [abs_of_neg hneg, neg_neg, iff_false_right hneg.le.not_gt]
    split_ifs
    · exact hne
    · exact hne.symm
  · rw [abs_of_pos hpos]
    exact iff_of_true rfl hpos

/-- The rate that a jump of a running animation sets is the one that `start` would set there
exactly if the rate is positive. -/
theorem jumpTo_currentRate_iff (e : FiniteClipEnvelope) (newTicks : Int)
    (hauto : e.autoReverse = true) (hcycle : 0 < e.cycleTicks) (hrate : e.rate ≠ 0)
    (hmoves : int64 (e.target newTicks - e.ticks) ≠ 0) :
    ((e.jumpTo .running newTicks).currentRate =
        (e.jumpTo .running newTicks).calculateCurrentRate ↔ 0 < e.rate) ∧
      ∀ status, (e.jumpTo status newTicks).start.currentRate =
        (e.jumpTo .running newTicks).calculateCurrentRate := by
  have hstart := fun status => calculateCurrentRate_jumpTo status e newTicks hcycle.ne'
  refine ⟨?_, fun status => (hstart status).trans (hstart .running).symm⟩
  rw [hstart, jumpTo, if_neg hcycle.ne']
  rw [if_neg hmoves]
  exact place_currentRate_iff _ hauto hrate

def jumping (rate : ℚ) : FiniteClipEnvelope := new rate true 2 10

theorem jumpTo_currentRate_forwards :
    (((jumping 1).jumpTo .running 5).currentRate =
        ((jumping 1).jumpTo .running 5).calculateCurrentRate ↔ 0 < (jumping 1).rate) ∧
      ∀ status, ((jumping 1).jumpTo status 5).start.currentRate =
        ((jumping 1).jumpTo .running 5).calculateCurrentRate :=
  jumpTo_currentRate_iff (jumping 1) 5 rfl (by decide) one_ne_zero (by decide)

theorem jumpTo_currentRate_backwards :
    int64 ((jumping (-1)).target 5 - (jumping (-1)).ticks) ≠ 0 ∧
      ((jumping (-1)).jumpTo .running 5).currentRate ≠
        ((jumping (-1)).jumpTo .running 5).calculateCurrentRate := by
  decide

open List

/-- The cycles are counted from zero, and with automatic reversal the odd ones run backwards. -/
def forward (autoReverse : Bool) (cycle : Int) : Bool := !autoReverse || decide (cycle % 2 = 0)

def posIn (cycleTicks : Int) (autoReverse : Bool) (cycle x : Int) : Int :=
  if forward autoReverse cycle then x else cycleTicks - x

def rateIn (rate : ℚ) (autoReverse : Bool) (cycle : Int) : ℚ :=
  if forward autoReverse cycle then rate else -rate

def playing (e : FiniteClipEnvelope) (cycle x : Int) (calls : List Call) : FiniteClipEnvelope :=
  { e with
    pos := posIn e.cycleTicks e.autoReverse cycle x
    currentRate := rateIn e.rate e.autoReverse cycle
    calls := calls }

def isBoundary (cycleTicks : Int) : Call → Bool
  | .playTo pos _ => decide (pos = 0) || decide (pos = cycleTicks)
  | .jumpTo _ _ | .setCurrentRate _ | .finished => false

def boundaries (cycleTicks : Int) (calls : List Call) : List Call :=
  calls.filter (isBoundary cycleTicks)

@[simp] theorem boundaries_append (cycleTicks : Int) (calls rest : List Call) :
    boundaries cycleTicks (calls ++ rest) =
      boundaries cycleTicks calls ++ boundaries cycleTicks rest :=
  filter_append _ _

def ends (e : FiniteClipEnvelope) (cycle : Int) (n : Nat) : List Call :=
  (List.range n).map fun i : Nat =>
    .playTo (posIn e.cycleTicks e.autoReverse (cycle + i) e.cycleTicks) e.cycleTicks

section

variable {e : FiniteClipEnvelope} {cycle x : Int} {calls : List Call}

theorem currentRate_pos_iff (hrate : 0 < e.rate) :
    0 < (e.playing cycle x calls).currentRate ↔ forward e.autoReverse cycle = true := by
  simp only [playing, rateIn]
  split
  · rename_i hforward
    exact iff_of_true hrate hforward
  · rename_i hbackward
    refine iff_of_false ?_ hbackward
    linarith

theorem forward_succ (cycle : Int) (autoReverse : Bool) :
    forward autoReverse (cycle + 1) =
      if autoReverse then !forward autoReverse cycle else true := by
  cases autoReverse with
  | false => rfl
  | true =>
    simp only [forward, Bool.not_true, Bool.false_or, if_true, ← decide_not, decide_eq_decide]
    omega

theorem cycleDelta_eq (hrate : 0 < e.rate) :
    (if 0 < (e.playing cycle x calls).currentRate then
      e.cycleTicks - (e.playing cycle x calls).pos else (e.playing cycle x calls).pos) =
      e.cycleTicks - x := by
  simp only [currentRate_pos_iff hrate]
  simp only [playing, posIn]
  split <;> rfl

theorem finishCycle_playing (hrate : 0 < e.rate) :
    (e.playing cycle x calls).finishCycle =
      e.playing cycle e.cycleTicks (calls ++ ends e cycle 1) := by
  have hpos : (if 0 < (e.playing cycle x calls).currentRate then e.cycleTicks else 0) =
      posIn e.cycleTicks e.autoReverse cycle e.cycleTicks := by
    simp only [currentRate_pos_iff hrate, posIn, Int.sub_self]
  rw [finishCycle]
  simp only [playing] at hpos ⊢
  simp only [hpos, playTo, ends, range_one, map_cons, map_nil, Nat.cast_zero,
    Int.add_zero]

theorem nextCycle_playing (hrate : 0 < e.rate) (cycle : Int) (calls : List Call) :
    ∃ call, (e.playing cycle e.cycleTicks calls).nextCycle =
        e.playing (cycle + 1) 0 (calls ++ [call]) ∧
      isBoundary e.cycleTicks call = false ∧ call ≠ .finished := by
  have hsucc := forward_succ cycle e.autoReverse
  cases hauto : e.autoReverse with
  | true =>
    refine ⟨.setCurrentRate (-rateIn e.rate e.autoReverse cycle), ?_, rfl, nofun⟩
    rw [nextCycle, setCurrentRate]
    rw [hauto] at hsucc
    simp only [playing, posIn, rateIn, hauto, hsucc]
    cases forward true cycle <;> simp
  | false =>
    refine ⟨.jumpTo 0 e.cycleTicks, ?_, rfl, nofun⟩
    have hreverse : ¬ (e.playing cycle e.cycleTicks calls).autoReverse = true := by
      simp [playing, hauto]
    have hforward : 0 < (e.playing cycle e.cycleTicks calls).currentRate := by
      rw [currentRate_pos_iff hrate, hauto]
      rfl
    rw [nextCycle, if_neg hreverse]
    simp only [hforward, jump]
    simp only [playing, posIn, rateIn, hauto, forward, Bool.not_false, Bool.true_or, if_true]

theorem ends_succ (e : FiniteClipEnvelope) (cycle : Int) (n : Nat) :
    ends e cycle (n + 1) = ends e cycle 1 ++ ends e (cycle + 1) n := by
  have hshift : ∀ i : Nat, cycle + ((i + 1 : Nat) : Int) = cycle + 1 + i := by
    omega
  rw [ends, ends, ends, range_succ_eq_map, map_cons, map_map, range_one]
  simp only [map_cons, map_nil, singleton_append, Function.comp_def, hshift]

theorem boundaries_ends (e : FiniteClipEnvelope) (cycle : Int) (n : Nat) :
    boundaries e.cycleTicks (ends e cycle n) = ends e cycle n := by
  refine filter_eq_self.mpr ?_
  intro call hcall
  obtain ⟨i, -, rfl⟩ := mem_map.mp hcall
  simp only [isBoundary, posIn]
  split <;> simp

theorem finished_notMem_ends (e : FiniteClipEnvelope) (cycle : Int) (n : Nat) :
    Call.finished ∉ ends e cycle n := by
  intro hmem
  obtain ⟨i, -, hi⟩ := mem_map.mp hmem
  cases hi

theorem playCycles_spec (hrate : 0 < e.rate) {y : Int} (hy : 0 ≤ y) (hyc : y < e.cycleTicks)
    (n : Nat) :
    ∀ (fuel : Nat) (cycle x : Int) (calls : List Call), n < fuel → 0 ≤ x → x < e.cycleTicks →
      ∃ calls', playCycles false fuel (e.cycleTicks * n + y - x) (e.cycleTicks - x)
          (e.playing cycle x calls) =
          (e.playing (cycle + n) (if n = 0 then x else 0) (calls ++ calls'),
            if n = 0 then y - x else y) ∧
        boundaries e.cycleTicks calls' = ends e cycle n ∧ Call.finished ∉ calls' := by
  induction n with
  | zero =>
    intro fuel cycle x calls hfuel hx hxc
    obtain ⟨fuel, rfl⟩ := Nat.exists_eq_add_of_lt hfuel
    refine ⟨[], ?_, rfl, by simp⟩
    rw [playCycles, if_neg (by simp only [Nat.cast_zero, Int.mul_zero]; omega)]
    simp
  | succ n ih =>
    intro fuel cycle x calls hfuel hx hxc
    obtain ⟨fuel, rfl⟩ : ∃ rest, fuel = rest + 1 := ⟨fuel - 1, by omega⟩
    have hexpand : e.cycleTicks * ((n + 1 : Nat) : Int) = e.cycleTicks * n + e.cycleTicks := by
      push_cast
      ring
    have hnn : 0 ≤ e.cycleTicks * (n : Int) := Int.mul_nonneg (by omega) (by omega)
    have hleft : e.cycleTicks * ((n + 1 : Nat) : Int) + y - x - (e.cycleTicks - x) =
        e.cycleTicks * n + y - 0 := by
      omega
    obtain ⟨call, hnext, hcall, hnot⟩ := nextCycle_playing hrate cycle
      (calls ++ ends e cycle 1)
    obtain ⟨calls', hrun, hbound, hfinished⟩ := ih fuel (cycle + 1) 0
      (calls ++ ends e cycle 1 ++ [call]) (by omega) le_rfl (by omega)
    refine ⟨ends e cycle 1 ++ [call] ++ calls', ?_, ?_, ?_⟩
    · rw [playCycles, if_pos (by omega)]
      simp only [if_pos (show 0 < e.cycleTicks - x by omega), hleft, finishCycle_playing hrate,
        Bool.not_false, Bool.true_or, if_true, hnext]
      have hticks : (e.playing (cycle + 1) 0 (calls ++ ends e cycle 1 ++ [call])).cycleTicks =
          e.cycleTicks - 0 := by
        rw [Int.sub_zero]
        rfl
      rw [hticks, hrun]
      have hcycle : cycle + 1 + (n : Int) = cycle + ((n + 1 : Nat) : Int) := by omega
      simp only [hcycle]
      simp
    · rw [boundaries_append, boundaries_append, boundaries_ends, hbound, ends_succ e cycle n]
      simp [boundaries, hcall]
    · simp only [mem_append, mem_singleton, not_or]
      exact ⟨⟨finished_notMem_ends e cycle 1, hnot.symm⟩, hfinished⟩

theorem playCycles_reachedEnd (hrate : 0 < e.rate) (n : Nat) :
    ∀ (fuel : Nat) (cycle x : Int) (calls : List Call), n + 1 < fuel → 0 ≤ x →
      x < e.cycleTicks →
      ∃ calls', playCycles true fuel (e.cycleTicks * ((n + 1 : Nat) : Int) - x)
          (e.cycleTicks - x) (e.playing cycle x calls) =
          (e.playing (cycle + n) e.cycleTicks (calls ++ calls'), 0) ∧
        boundaries e.cycleTicks calls' = ends e cycle (n + 1) ∧ Call.finished ∉ calls' := by
  induction n with
  | zero =>
    intro fuel cycle x calls hfuel hx hxc
    obtain ⟨fuel, rfl⟩ : ∃ rest, fuel = rest + 2 := ⟨fuel - 2, by omega⟩
    refine ⟨ends e cycle 1, ?_, boundaries_ends e cycle 1, finished_notMem_ends e cycle 1⟩
    rw [Nat.cast_one, Int.mul_one, playCycles, if_pos le_rfl]
    simp only [if_pos (show 0 < e.cycleTicks - x by omega), Int.sub_self,
      finishCycle_playing hrate, Bool.not_true, Int.lt_irrefl, decide_false, Bool.or_self,
      Bool.false_eq_true, if_false]
    have hticks : (e.playing cycle e.cycleTicks (calls ++ ends e cycle 1)).cycleTicks =
        e.cycleTicks := rfl
    rw [playCycles, if_neg (by omega)]
    simp
  | succ n ih =>
    intro fuel cycle x calls hfuel hx hxc
    obtain ⟨fuel, rfl⟩ : ∃ rest, fuel = rest + 1 := ⟨fuel - 1, by omega⟩
    have hexpand : e.cycleTicks * ((n + 1 + 1 : Nat) : Int) =
        e.cycleTicks * ((n + 1 : Nat) : Int) + e.cycleTicks := by
      push_cast
      ring
    have hpos : 0 < e.cycleTicks * ((n + 1 : Nat) : Int) := Int.mul_pos (by omega) (by omega)
    have hleft : e.cycleTicks * ((n + 1 + 1 : Nat) : Int) - x - (e.cycleTicks - x) =
        e.cycleTicks * ((n + 1 : Nat) : Int) - 0 := by
      omega
    obtain ⟨call, hnext, hcall, hnot⟩ := nextCycle_playing hrate cycle
      (calls ++ ends e cycle 1)
    obtain ⟨calls', hrun, hbound, hfinished⟩ := ih fuel (cycle + 1) 0
      (calls ++ ends e cycle 1 ++ [call]) (by omega) le_rfl (by omega)
    refine ⟨ends e cycle 1 ++ [call] ++ calls', ?_, ?_, ?_⟩
    · rw [playCycles, if_pos (by omega)]
      simp only [if_pos (show 0 < e.cycleTicks - x by omega), hleft, finishCycle_playing hrate,
        Bool.not_true, Bool.false_or, decide_eq_true_eq,
        if_pos (show 0 < e.cycleTicks * ((n + 1 : Nat) : Int) - 0 by omega), hnext]
      have hticks : (e.playing (cycle + 1) 0 (calls ++ ends e cycle 1 ++ [call])).cycleTicks =
          e.cycleTicks - 0 := by
        rw [Int.sub_zero]
        rfl
      rw [hticks, hrun]
      have hcycle : cycle + 1 + (n : Int) = cycle + ((n + 1 : Nat) : Int) := by omega
      simp only [hcycle, append_assoc]
    · rw [boundaries_append, boundaries_append, boundaries_ends, hbound,
        ends_succ e cycle (n + 1)]
      simp [boundaries, hcall]
    · simp only [mem_append, mem_singleton, not_or]
      exact ⟨⟨finished_notMem_ends e cycle 1, hnot.symm⟩, hfinished⟩

theorem finishPulse_playing (cycle : Int) (calls : List Call) (hrate : 0 < e.rate) {left : Int}
    (hx : 0 ≤ x) (hleft : 0 ≤ left) (hend : x + left < e.cycleTicks) :
    ∃ calls', finishPulse false (e.playing cycle x calls) left =
        e.playing cycle (x + left) (calls ++ calls') ∧
      boundaries e.cycleTicks calls' = [] ∧ Call.finished ∉ calls' := by
  rcases hleft.eq_or_lt with rfl | hpos
  · exact ⟨[], by simp [finishPulse], rfl, by simp⟩
  · refine ⟨[.playTo (posIn e.cycleTicks e.autoReverse cycle (x + left)) e.cycleTicks], ?_, ?_,
      by simp⟩
    · have hmoved : (e.playing cycle x calls).pos +
          (if 0 < (e.playing cycle x calls).currentRate then left else -left) =
          posIn e.cycleTicks e.autoReverse cycle (x + left) := by
        simp only [currentRate_pos_iff hrate]
        simp only [playing, posIn]
        split <;> omega
      simp only [finishPulse, hpos, hmoved]
      rfl
    · have hinside : ¬ posIn e.cycleTicks e.autoReverse cycle (x + left) = 0 ∧
          ¬ posIn e.cycleTicks e.autoReverse cycle (x + left) = e.cycleTicks := by
        simp only [posIn]
        split <;> omega
      simp [boundaries, isBoundary, hinside]

end

def cycleAt (cycleCount cycleTicks ticks : Int) : Int :=
  if ticks = cycleCount * cycleTicks then cycleCount - 1 else ticks / cycleTicks

def stateAt (e : FiniteClipEnvelope) (ticks : Int) (calls : List Call) : FiniteClipEnvelope :=
  { e with ticks := ticks }.playing (cycleAt e.cycleCount e.cycleTicks ticks)
    (ticks - e.cycleTicks * cycleAt e.cycleCount e.cycleTicks ticks) calls

section

variable {e : FiniteClipEnvelope} {t t' : Int}

theorem cycleAt_of_lt (h : t < e.cycleCount * e.cycleTicks) :
    cycleAt e.cycleCount e.cycleTicks t = t / e.cycleTicks ∧
      t - e.cycleTicks * cycleAt e.cycleCount e.cycleTicks t = t % e.cycleTicks := by
  have hcycle : cycleAt e.cycleCount e.cycleTicks t = t / e.cycleTicks := by
    rw [cycleAt, if_neg (by omega)]
  refine ⟨hcycle, ?_⟩
  have hdiv := Int.mul_ediv_add_emod t e.cycleTicks
  rw [hcycle]
  omega

/-- A started envelope whose length does not overflow. -/
structure Playable (e : FiniteClipEnvelope) : Prop where
  rate_pos : 0 < e.rate
  cycleTicks_pos : 0 < e.cycleTicks
  totalTicks_eq : e.totalTicks = e.cycleCount * e.cycleTicks
  totalTicks_lt : e.cycleCount * e.cycleTicks < 2 ^ 63
  deltaTicks_eq : e.deltaTicks = 0

theorem checkBounds_eq (h : Playable e) (ht' : 0 ≤ t')
    (hend : t' ≤ e.cycleCount * e.cycleTicks) :
    checkBounds (int64 (e.deltaTicks + t')) e.totalTicks = t' := by
  have hlt := h.totalTicks_lt
  rw [h.deltaTicks_eq, int64_eq (by omega) (by omega), h.totalTicks_eq, checkBounds]
  omega

theorem timePulse_of_same (hticks : e.cycleTicks ≠ 0)
    (hsame : checkBounds (int64 (e.deltaTicks + t)) e.totalTicks = e.ticks) :
    e.timePulse t = e := by
  rw [timePulse, if_neg hticks, hsame, advance]
  rw [if_pos (Int.sub_self _)]

theorem timePulse_playing (h : Playable e) (ht' : 0 ≤ t') (hne : t ≠ t')
    (hend : t' ≤ e.cycleCount * e.cycleTicks) (cycle x : Int) (calls : List Call) :
    ({ e with ticks := t }.playing cycle x calls).timePulse t' =
      finishPulse (decide (e.cycleCount * e.cycleTicks ≤ t'))
        (playCycles (decide (e.cycleCount * e.cycleTicks ≤ t'))
          (((t' - t) / e.cycleTicks).toNat + 2) (t' - t) (e.cycleTicks - x)
          ({ e with ticks := t' }.playing cycle x calls)).1
        (playCycles (decide (e.cycleCount * e.cycleTicks ≤ t'))
          (((t' - t) / e.cycleTicks).toNat + 2) (t' - t) (e.cycleTicks - x)
          ({ e with ticks := t' }.playing cycle x calls)).2 := by
  have hc := h.cycleTicks_pos
  have hbounds := checkBounds_eq h ht' hend
  have hcycleDelta : (if 0 < ({ e with ticks := t' }.playing cycle x calls).currentRate then
      ({ e with ticks := t' }.playing cycle x calls).cycleTicks -
        ({ e with ticks := t' }.playing cycle x calls).pos
      else ({ e with ticks := t' }.playing cycle x calls).pos) = e.cycleTicks - x :=
    cycleDelta_eq h.rate_pos
  have hset : ({ e with ticks := t }.playing cycle x calls).timePulse t' =
      ({ e with ticks := t' }.playing cycle x calls).advance t := by
    have hticks : ¬ ({ e with ticks := t }.playing cycle x calls).cycleTicks = 0 := by
      change ¬ e.cycleTicks = 0
      omega
    rw [timePulse, if_neg hticks]
    change ({ e with ticks := checkBounds (int64 (e.deltaTicks + t')) e.totalTicks }.playing cycle x
      calls).advance t = _
    rw [hbounds]
  have hdelta : ¬ ({ e with ticks := t' }.playing cycle x calls).ticks - t = 0 := by
    change ¬ t' - t = 0
    omega
  rw [hset, advance]
  rw [if_neg hdelta, hcycleDelta, ← h.totalTicks_eq]
  rfl

theorem timePulse_later (h : Playable e) (ht : 0 ≤ t) (hlt : t < t')
    (hend : t' < e.cycleCount * e.cycleTicks) (calls : List Call) :
    ∃ calls', (e.stateAt t calls).timePulse t' = e.stateAt t' (calls ++ calls') ∧
      boundaries e.cycleTicks calls' =
        ends e (t / e.cycleTicks) (t' / e.cycleTicks - t / e.cycleTicks).toNat ∧
      Call.finished ∉ calls' := by
  have hc := h.cycleTicks_pos
  obtain ⟨hcycle, hoff⟩ := cycleAt_of_lt (e := e) (t := t) (by omega)
  obtain ⟨hcycle', hoff'⟩ := cycleAt_of_lt (e := e) (t := t') hend
  have hx := Int.emod_nonneg t (show e.cycleTicks ≠ 0 by omega)
  have hxc := Int.emod_lt_of_pos t hc
  have hy := Int.emod_nonneg t' (show e.cycleTicks ≠ 0 by omega)
  have hyc := Int.emod_lt_of_pos t' hc
  have hdiv := Int.mul_ediv_add_emod t e.cycleTicks
  have hdiv' := Int.mul_ediv_add_emod t' e.cycleTicks
  have hmono : t / e.cycleTicks ≤ t' / e.cycleTicks := Int.ediv_le_ediv hc (by omega)
  obtain ⟨n, hn⟩ : ∃ n : Nat, t' / e.cycleTicks = t / e.cycleTicks + n :=
    ⟨(t' / e.cycleTicks - t / e.cycleTicks).toNat, by omega⟩
  have hexpand : e.cycleTicks * (t' / e.cycleTicks) =
      e.cycleTicks * (t / e.cycleTicks) + e.cycleTicks * n := by
    rw [hn]
    ring
  have hdelta : t' - t = e.cycleTicks * n + t' % e.cycleTicks - t % e.cycleTicks := by omega
  have hfuel : n < ((t' - t) / e.cycleTicks).toNat + 2 := by
    have hle : ((n : Int) - 1) * e.cycleTicks ≤ t' - t := by
      have hring : ((n : Int) - 1) * e.cycleTicks = e.cycleTicks * n - e.cycleTicks := by ring
      omega
    have := (Int.le_ediv_iff_mul_le hc).mpr hle
    omega
  obtain ⟨calls₁, hloop, hbound₁, hfinished₁⟩ := playCycles_spec (e := { e with ticks := t' })
    h.rate_pos hy hyc n _ (t / e.cycleTicks) (t % e.cycleTicks) calls hfuel hx hxc
  have hstart : 0 ≤ (if n = 0 then t % e.cycleTicks else 0) ∧
      (if n = 0 then t % e.cycleTicks else 0) +
        (if n = 0 then t' % e.cycleTicks - t % e.cycleTicks else t' % e.cycleTicks) =
        t' % e.cycleTicks := by
    split <;> omega
  have hleft : 0 ≤ (if n = 0 then t' % e.cycleTicks - t % e.cycleTicks else t' % e.cycleTicks) := by
    split
    · rename_i hzero
      rw [hzero] at hdelta
      omega
    · exact hy
  obtain ⟨calls₂, hpulse, hbound₂, hfinished₂⟩ := finishPulse_playing (e := { e with ticks := t' })
    (t / e.cycleTicks + n) (calls ++ calls₁) h.rate_pos hstart.1 hleft
    (by rw [hstart.2]; exact hyc)
  refine ⟨calls₁ ++ calls₂, ?_, ?_, ?_⟩
  · rw [stateAt, stateAt, hoff, hoff', hcycle, hcycle',
      timePulse_playing h (by omega) (by omega) (by omega), decide_eq_false (by omega)]
    rw [← hdelta] at hloop
    rw [hloop, hpulse, hstart.2, ← hn, append_assoc]
  · rw [boundaries_append, hbound₁, hbound₂, append_nil, hn,
      show t / e.cycleTicks + (n : Int) - t / e.cycleTicks = n by omega, Int.toNat_natCast]
    rfl
  · rw [mem_append]
    rintro (hmem | hmem)
    · exact hfinished₁ hmem
    · exact hfinished₂ hmem

theorem timePulse_reachesEnd (h : Playable e) (ht : 0 ≤ t)
    (hlt : t < e.cycleCount * e.cycleTicks) (calls : List Call) :
    ∃ calls', (e.stateAt t calls).timePulse (e.cycleCount * e.cycleTicks) =
        e.stateAt (e.cycleCount * e.cycleTicks) (calls ++ calls') ∧
      boundaries e.cycleTicks calls' =
        ends e (t / e.cycleTicks) (e.cycleCount - t / e.cycleTicks).toNat ∧
      calls'.count Call.finished = 1 := by
  have hc := h.cycleTicks_pos
  obtain ⟨hcycle, hoff⟩ := cycleAt_of_lt hlt
  have hx := Int.emod_nonneg t (show e.cycleTicks ≠ 0 by omega)
  have hxc := Int.emod_lt_of_pos t hc
  have hdiv := Int.mul_ediv_add_emod t e.cycleTicks
  have hmore : t / e.cycleTicks < e.cycleCount := Int.ediv_lt_of_lt_mul hc hlt
  obtain ⟨n, hn⟩ : ∃ n : Nat, e.cycleCount = t / e.cycleTicks + ((n + 1 : Nat) : Int) :=
    ⟨(e.cycleCount - t / e.cycleTicks - 1).toNat, by omega⟩
  have hexpand : e.cycleCount * e.cycleTicks =
      e.cycleTicks * (t / e.cycleTicks) + e.cycleTicks * ((n + 1 : Nat) : Int) := by
    rw [hn]
    ring
  have hdelta : e.cycleCount * e.cycleTicks - t =
      e.cycleTicks * ((n + 1 : Nat) : Int) - t % e.cycleTicks := by
    omega
  have hfuel : n + 1 < ((e.cycleCount * e.cycleTicks - t) / e.cycleTicks).toNat + 2 := by
    have hle : (n : Int) * e.cycleTicks ≤ e.cycleCount * e.cycleTicks - t := by
      have hring :
        e.cycleTicks * ((n + 1 : Nat) : Int) = (n : Int) * e.cycleTicks + e.cycleTicks := by
        push_cast
        ring
      omega
    have := (Int.le_ediv_iff_mul_le hc).mpr hle
    omega
  obtain ⟨calls₁, hloop, hbound₁, hfinished₁⟩ := playCycles_reachedEnd
    (e := { e with ticks := e.cycleCount * e.cycleTicks }) h.rate_pos n _ (t / e.cycleTicks)
    (t % e.cycleTicks) calls hfuel hx hxc
  have hlast : cycleAt e.cycleCount e.cycleTicks (e.cycleCount * e.cycleTicks) =
      t / e.cycleTicks + n := by
    rw [cycleAt]
    omega
  have hlastOffset : e.cycleCount * e.cycleTicks - e.cycleTicks * (t / e.cycleTicks + n) =
      e.cycleTicks := by
    rw [hexpand]
    push_cast
    ring
  refine ⟨calls₁ ++ [.finished], ?_, ?_, ?_⟩
  · have hnn : 0 ≤ e.cycleCount * e.cycleTicks := by omega
    rw [stateAt, stateAt, hoff, hcycle, hlast, hlastOffset,
      timePulse_playing h hnn (by omega) le_rfl, decide_eq_true le_rfl]
    rw [← hdelta] at hloop
    rw [hloop]
    simp [finishPulse, playing]
  · have hsub : (e.cycleCount - t / e.cycleTicks).toNat = n + 1 := by omega
    rw [boundaries_append, hbound₁, hsub]
    exact append_nil _
  · rw [count_append, count_eq_zero_of_not_mem hfinished₁]
    rfl

theorem ends_add (e : FiniteClipEnvelope) (cycle : Int) (m n : Nat) :
    ends e cycle (m + n) = ends e cycle m ++ ends e (cycle + m) n := by
  induction m generalizing cycle with
  | zero => simp [ends]
  | succ m ih =>
    have hcycle : cycle + 1 + (m : Int) = cycle + ((m + 1 : Nat) : Int) := by omega
    rw [Nat.add_right_comm, ends_succ e cycle (m + n), ih, ends_succ e cycle m, hcycle,
      append_assoc]

theorem timePulse_stateAt (h : Playable e) (ht : 0 ≤ t) (hle : t ≤ t')
    (hend : t' ≤ e.cycleCount * e.cycleTicks) (calls : List Call) :
    ∃ calls', (e.stateAt t calls).timePulse t' = e.stateAt t' (calls ++ calls') ∧
      boundaries e.cycleTicks calls' =
        ends e (t / e.cycleTicks) (t' / e.cycleTicks - t / e.cycleTicks).toNat ∧
      calls'.count Call.finished =
        if t < e.cycleCount * e.cycleTicks ∧ t' = e.cycleCount * e.cycleTicks then 1 else 0 := by
  have hc := h.cycleTicks_pos
  rcases hle.eq_or_lt with rfl | hlt
  · refine ⟨[], ?_, by simp [ends, boundaries], ?_⟩
    · rw [append_nil]
      refine timePulse_of_same ?_ ?_
      · change e.cycleTicks ≠ 0
        omega
      · exact (checkBounds_eq h ht hend :)
    · rw [if_neg (by omega)]
      rfl
  · rcases hend.eq_or_lt with rfl | hend
    · obtain ⟨calls', hpulse, hbound, hcnt⟩ := timePulse_reachesEnd h ht hlt calls
      refine ⟨calls', hpulse, ?_, ?_⟩
      · rwa [Int.mul_ediv_cancel _ (by omega)]
      · rw [hcnt, if_pos ⟨hlt, rfl⟩]
    · obtain ⟨calls', hpulse, hbound, hfinished⟩ := timePulse_later h ht hlt hend calls
      refine ⟨calls', hpulse, hbound, ?_⟩
      rw [count_eq_zero_of_not_mem hfinished, if_neg (by omega)]

theorem foldl_timePulse (h : Playable e) (ts : List Int) :
    ∀ (t : Int) (calls : List Call), 0 ≤ t → t ≤ e.cycleCount * e.cycleTicks →
      (t :: ts).Pairwise (· ≤ ·) → (∀ u ∈ ts, u ≤ e.cycleCount * e.cycleTicks) →
      ∃ calls', ts.foldl timePulse (e.stateAt t calls) =
          e.stateAt (ts.getLastD t) (calls ++ calls') ∧
        boundaries e.cycleTicks calls' = ends e (t / e.cycleTicks)
          (ts.getLastD t / e.cycleTicks - t / e.cycleTicks).toNat ∧
        calls'.count Call.finished = if t < e.cycleCount * e.cycleTicks ∧
          ts.getLastD t = e.cycleCount * e.cycleTicks then 1 else 0 := by
  have hc := h.cycleTicks_pos
  induction ts with
  | nil =>
    intro t calls ht hend _ _
    refine ⟨[], by simp, by simp [ends, boundaries], ?_⟩
    rw [getLastD_nil, if_neg (by omega)]
    rfl
  | cons u ts ih =>
    intro t calls ht hend hsort hbounded
    obtain ⟨hfst, hrest⟩ := pairwise_cons.mp hsort
    have htu := hfst u (by simp)
    have hu := hbounded u (by simp)
    have hlast : u ≤ ts.getLastD u ∧ ts.getLastD u ≤ e.cycleCount * e.cycleTicks := by
      rcases eq_nil_or_concat ts with rfl | ⟨front, last, rfl⟩
      · exact ⟨le_rfl, hu⟩
      · rw [concat_eq_append, getLastD_concat]
        refine ⟨(pairwise_cons.mp hrest).1 last (by simp), hbounded last (by simp)⟩
    obtain ⟨calls₁, hpulse, hbound₁, hcnt₁⟩ := timePulse_stateAt h ht htu hu calls
    obtain ⟨calls₂, hrun, hbound₂, hcnt₂⟩ := ih u (calls ++ calls₁) (by omega) hu hrest
      (fun v hv => hbounded v (by simp [hv]))
    refine ⟨calls₁ ++ calls₂, ?_, ?_, ?_⟩
    · rw [foldl_cons, hpulse, hrun, getLastD_cons, append_assoc]
    · have hm : t / e.cycleTicks ≤ u / e.cycleTicks := Int.ediv_le_ediv hc htu
      have hm' : u / e.cycleTicks ≤ ts.getLastD u / e.cycleTicks := Int.ediv_le_ediv hc hlast.1
      have hsum : (ts.getLastD u / e.cycleTicks - t / e.cycleTicks).toNat =
          (u / e.cycleTicks - t / e.cycleTicks).toNat +
            (ts.getLastD u / e.cycleTicks - u / e.cycleTicks).toNat := by
        omega
      have hstart : t / e.cycleTicks + ((u / e.cycleTicks - t / e.cycleTicks).toNat : Int) =
          u / e.cycleTicks := by
        omega
      rw [boundaries_append, hbound₁, hbound₂, getLastD_cons, hsum, ends_add, hstart]
    · rw [count_append, hcnt₁, hcnt₂, getLastD_cons]
      split_ifs <;> omega

end

/-- The pulses `ts` and then one to `t` have the effect of a single pulse to `t`: they end in the
same place, at the position that the time asks for, and have played to the same cycle ends; the
animation is finished once, when the end has been reached. -/
def SlicingIrrelevant (rate : ℚ) (autoReverse : Bool) (cycleCount cycleTicks : Int) (ts : List Int)
    (t : Int) : Prop :=
  let started := (new rate autoReverse cycleCount cycleTicks).start
  let sliced := (ts ++ [t]).foldl timePulse started
  let single := started.timePulse t
  sliced.pos = single.pos ∧ sliced.ticks = single.ticks ∧
    sliced.currentRate = single.currentRate ∧
    boundaries cycleTicks sliced.calls = boundaries cycleTicks single.calls ∧
    (t % cycleTicks ≠ 0 →
      sliced.pos = if autoReverse ∧ t / cycleTicks % 2 = 1 then cycleTicks - t % cycleTicks
        else t % cycleTicks) ∧
    sliced.calls.count Call.finished = if t = cycleCount * cycleTicks then 1 else 0

instance (rate : ℚ) (autoReverse : Bool) (cycleCount cycleTicks : Int) (ts : List Int) (t : Int) :
    Decidable (SlicingIrrelevant rate autoReverse cycleCount cycleTicks ts t) :=
  inferInstanceAs (Decidable (_ ∧ _))

/-- Tick counts that never go back, up to the end of the animation. -/
def Targets (cycleCount cycleTicks : Int) (ts : List Int) : Prop :=
  ts.Pairwise (· ≤ ·) ∧ ∀ t ∈ ts, 0 ≤ t ∧ t ≤ cycleCount * cycleTicks ∧ t < 2 ^ 63

section

variable {rate : ℚ} {autoReverse : Bool} {cycleCount cycleTicks : Int}

theorem start_new (autoReverse : Bool) (cycleCount : Int) (hrate : 0 < rate)
    (hticks : 0 < cycleTicks) :
    (new rate autoReverse cycleCount cycleTicks).start =
      { new rate autoReverse cycleCount cycleTicks with
        currentRate := rate
        calls := [.setCurrentRate rate] } := by
  have hcur : (new rate autoReverse cycleCount cycleTicks).calculateCurrentRate = rate := by
    simp [calculateCurrentRate, new, hrate, hticks]
  rw [start, hcur]
  rfl

theorem start_stateAt (hrate : 0 < rate) (hticks : 0 < cycleTicks) (hcnt : 0 < cycleCount) :
    (new rate autoReverse cycleCount cycleTicks).start =
      (new rate autoReverse cycleCount cycleTicks).stateAt 0 [.setCurrentRate rate] := by
  have hpos : 0 < cycleCount * cycleTicks := Int.mul_pos hcnt hticks
  have hcycle : cycleAt cycleCount cycleTicks 0 = 0 := by
    rw [cycleAt, if_neg (by omega), Int.zero_ediv]
  rw [start_new autoReverse cycleCount hrate hticks, stateAt]
  simp only [new, hcycle, playing, posIn, rateIn, forward]
  simp

theorem playable_new (autoReverse : Bool) (hrate : 0 < rate) (hticks : 0 < cycleTicks)
    (hcnt : 0 < cycleCount) (hfits : cycleCount * cycleTicks < 2 ^ 63) :
    Playable (new rate autoReverse cycleCount cycleTicks) := by
  have hpos : 0 < cycleCount * cycleTicks := Int.mul_pos hcnt hticks
  exact ⟨hrate, hticks, int64_eq (by omega) hfits, hfits, rfl⟩

theorem pos_stateAt {e : FiniteClipEnvelope} {t : Int} (ht : 0 ≤ t)
    (hend : t ≤ e.cycleCount * e.cycleTicks) (hinside : t % e.cycleTicks ≠ 0) (calls : List Call) :
    (e.stateAt t calls).pos =
      if e.autoReverse ∧ t / e.cycleTicks % 2 = 1 then e.cycleTicks - t % e.cycleTicks
      else t % e.cycleTicks := by
  have hlt : t < e.cycleCount * e.cycleTicks := by
    refine lt_of_le_of_ne hend ?_
    rintro rfl
    exact hinside (Int.mul_emod_left _ _)
  obtain ⟨hcycle, hoff⟩ := cycleAt_of_lt hlt
  change posIn e.cycleTicks e.autoReverse _ _ = _
  rw [posIn]
  have hparity : forward e.autoReverse (t / e.cycleTicks) = true ↔
      ¬ (e.autoReverse = true ∧ t / e.cycleTicks % 2 = 1) := by
    simp only [forward, Bool.or_eq_true, Bool.not_eq_true', decide_eq_true_eq, not_and,
      ← Bool.not_eq_true]
    constructor
    · rintro (hauto | heven) hauto'
      · exact absurd hauto' hauto
      · omega
    · intro hodd
      rcases Bool.eq_false_or_eq_true e.autoReverse with hauto | hauto
      · have := hodd hauto
        omega
      · exact .inl (by simp [hauto])
  split <;> simp_all

theorem slicingIrrelevant_of_fits (hrate : 0 < rate) (hticks : 0 < cycleTicks)
    (hcnt : 0 < cycleCount) (hfits : cycleCount * cycleTicks < 2 ^ 63) {ts : List Int} {t : Int}
    (htargets : Targets cycleCount cycleTicks (ts ++ [t])) :
    SlicingIrrelevant rate autoReverse cycleCount cycleTicks ts t := by
  have hplayable := playable_new autoReverse hrate hticks hcnt hfits
  have hpos : 0 < cycleCount * cycleTicks := Int.mul_pos hcnt hticks
  obtain ⟨hsort, hbounds⟩ := htargets
  obtain ⟨ht, hend, -⟩ := hbounds t (by simp)
  have hsort' : (0 :: (ts ++ [t])).Pairwise (· ≤ ·) :=
    pairwise_cons.mpr ⟨fun u hu => (hbounds u hu).1, hsort⟩
  obtain ⟨calls₁, hrun, hbound₁, hcnt₁⟩ := foldl_timePulse hplayable (ts ++ [t]) 0
    [.setCurrentRate rate] le_rfl hpos.le hsort' (fun u hu => (hbounds u hu).2.1)
  obtain ⟨calls₂, hpulse, hbound₂, -⟩ := timePulse_stateAt hplayable le_rfl ht hend
    [.setCurrentRate rate]
  rw [getLastD_concat] at hrun hbound₁ hcnt₁
  rw [SlicingIrrelevant, start_stateAt hrate hticks hcnt, hrun, hpulse]
  refine ⟨rfl, rfl, rfl, ?_, ?_, ?_⟩
  · change boundaries cycleTicks ([Call.setCurrentRate rate] ++ calls₁) =
      boundaries cycleTicks ([Call.setCurrentRate rate] ++ calls₂)
    rw [boundaries_append]
    exact congrArg _ (hbound₁.trans hbound₂.symm)
  · intro hinside
    exact pos_stateAt (e := new rate autoReverse cycleCount cycleTicks) ht hend hinside _
  · change ([Call.setCurrentRate rate] ++ calls₁).count Call.finished = _
    rw [count_append, hcnt₁]
    have hstarted : 0 < cycleCount * cycleTicks := hpos
    simp [new, hstarted]

theorem finished_mem_timePulse {e : FiniteClipEnvelope} {t : Int} (hticks : e.cycleTicks ≠ 0)
    (hend : checkBounds (int64 (e.deltaTicks + t)) e.totalTicks = e.totalTicks)
    (hmoved : e.totalTicks ≠ e.ticks) : Call.finished ∈ (e.timePulse t).calls := by
  rw [timePulse, if_neg hticks, hend, advance]
  dsimp only
  rw [if_neg (by omega)]
  simp [finishPulse]

/-- When the length of the animation wraps around, some pulse fails to move it or finishes it
too early. -/
theorem not_slicingIrrelevant_of_overflow (autoReverse : Bool) (hrate : 0 < rate)
    (hticks : 1 < cycleTicks) (hoverflow : 2 ^ 63 ≤ cycleCount * cycleTicks) :
    ∃ t, Targets cycleCount cycleTicks [t] ∧
      ¬ SlicingIrrelevant rate autoReverse cycleCount cycleTicks [] t := by
  have hlt := int64_lt (cycleCount * cycleTicks)
  have hstart := start_new autoReverse cycleCount hrate (show 0 < cycleTicks by omega)
  rcases Int.lt_or_le 0 (int64 (cycleCount * cycleTicks)) with htotal | htotal
  · -- the clip is taken to be shorter than it is
    refine ⟨int64 (cycleCount * cycleTicks), ⟨by simp, by simp; omega⟩, ?_⟩
    rintro ⟨-, -, -, -, -, hfinished⟩
    rw [if_neg (by omega), count_eq_zero] at hfinished
    refine hfinished (finished_mem_timePulse ?_ ?_ ?_)
    · change cycleTicks ≠ 0
      omega
    · change checkBounds (int64 (0 + int64 (cycleCount * cycleTicks)))
        (int64 (cycleCount * cycleTicks))
        = int64 (cycleCount * cycleTicks)
      rw [Int.zero_add, int64_eq (n := int64 (cycleCount * cycleTicks)) (by omega) hlt, checkBounds]
      omega
    · change int64 (cycleCount * cycleTicks) ≠ 0
      omega
  · refine ⟨1, ⟨by simp, by simp; omega⟩, ?_⟩
    rintro ⟨-, -, -, -, hpos, -⟩
    have hone : (1 : Int) % cycleTicks = 1 := Int.emod_eq_of_lt (by omega) hticks
    have hzero : (1 : Int) / cycleTicks = 0 := Int.ediv_eq_zero_of_lt (by omega) hticks
    have hbounds : checkBounds (int64 (0 + 1)) (int64 (cycleCount * cycleTicks)) = 0 := by
      rw [checkBounds]
      omega
    have hstay : (new rate autoReverse cycleCount cycleTicks).start.timePulse 1 =
        (new rate autoReverse cycleCount cycleTicks).start := by
      refine timePulse_of_same ?_ ?_
      · change cycleTicks ≠ 0
        omega
      · exact hbounds
    have hzeroPos : (new rate autoReverse cycleCount cycleTicks).start.pos = 0 := by
      rfl
    have hmoved := hpos (by omega)
    rw [nil_append, foldl_cons, foldl_nil, hstay, hzeroPos, hone, hzero]
      at hmoved
    simp at hmoved

/-- The way in which the time is sliced does not matter, for any pulses, exactly when the length
of the animation can be counted in ticks. -/
theorem slicingIrrelevant_iff (rate : ℚ) (autoReverse : Bool) (cycleCount cycleTicks : Int)
    (hrate : 0 < rate) (hticks : 0 < cycleTicks) (hcount : 2 ≤ cycleCount)
    (hint : cycleCount < 2 ^ 31) :
    (∀ ts t, Targets cycleCount cycleTicks (ts ++ [t]) →
      SlicingIrrelevant rate autoReverse cycleCount cycleTicks ts t) ↔
      cycleCount * cycleTicks < 2 ^ 63 := by
  constructor
  · intro hall
    by_contra hoverflow
    have hlong : 1 < cycleTicks := by
      rcases Int.lt_or_le 1 cycleTicks with hlong | hshort
      · exact hlong
      · obtain rfl : cycleTicks = 1 := by omega
        omega
    have hlarge : 2 ^ 63 ≤ cycleCount * cycleTicks := by omega
    obtain ⟨t, htargets, hfails⟩ :=
      not_slicingIrrelevant_of_overflow autoReverse hrate hlong hlarge
    exact hfails (hall [] t htargets)
  · intro hfits ts t htargets
    exact slicingIrrelevant_of_fits hrate hticks (by omega) hfits htargets

/-- Three cycles of ten ticks that run forth and back, in two pulses. -/
theorem slicingIrrelevant_iff_ten_ticks :
    SlicingIrrelevant 1 true 3 10 [7, 20] 25 ∧ (3 : Int) * 10 < 2 ^ 63 := by
  have hfits : (3 : Int) * 10 < 2 ^ 63 := by decide
  refine ⟨(slicingIrrelevant_iff 1 true 3 10 rfl (by decide) (by decide) (by decide)).mpr hfits
    [7, 20] 25 ?_, hfits⟩
  simp [Targets]

/-- Five cycles of `2 ^ 62 + 1024` ticks are taken to be `2 ^ 62 + 5120` ticks long. -/
theorem finished_too_early :
    Targets 5 (2 ^ 62 + 1024) [2 ^ 62 + 6144] ∧
      ¬ SlicingIrrelevant 1 false 5 (2 ^ 62 + 1024) [] (2 ^ 62 + 6144) := by
  refine ⟨by simp [Targets], ?_⟩
  decide

end

end FiniteClipEnvelope

end OpenJfx.Animation
