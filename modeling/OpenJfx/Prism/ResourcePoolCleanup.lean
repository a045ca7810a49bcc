import OpenJfx.Java.Ints
import OpenJfx.Prism.BaseResourcePool

namespace OpenJfx.Java.Ints

theorem int64_neg {n : Int} (hlarge : 2 ^ 63 ≤ n) (hlt : n < 2 ^ 64) : int64 n < 0 := by
  rw [int64, Int.bmod_def]
  split_ifs <;> omega

end OpenJfx.Java.Ints

namespace OpenJfx.Prism.ResourcePool

open Java.Ints
open Prism.BaseResourcePool (stageTester)

/-- A node of the list. A pass finds it gone from the pass `goneFrom` on. -/
structure Node where
  resource : ManagedResource
  size : Nat
  goneFrom : Option Nat

/-- A pool without a parent. The calls of `free` are left out, as is what is printed. -/
structure Pool where
  managedSize : Int
  origTarget : Int
  curTarget : Int
  maxSize : Int
  linked : List Node

def Node.isGone (n : Node) (pass : Nat) : Bool := n.goneFrom.any (· ≤ pass)

def recordFree (managedSize size : Int) : Except PoolException Int :=
  let managedSize := int64 (managedSize - size)
  if managedSize < 0 then throw .negativeAmount else return managedSize

/-- The loop of `cleanup(predicate)`: the nodes that are kept, and the size that is left. -/
def prune (pass : Nat) (predicate : ManagedResource → Bool) :
    List Node → Int → Except PoolException (List Node × Int)
  | [], managedSize => return ([], managedSize)
  | cur :: rest, managedSize => do
    if cur.isGone pass then
      let managedSize ← recordFree managedSize cur.size
      prune pass predicate rest managedSize
    else if !cur.resource.permanent && !cur.resource.isLocked && predicate cur.resource then
      let managedSize ← recordFree managedSize cur.size
      prune pass predicate rest managedSize
    else
      let (kept, managedSize) ← prune pass predicate rest managedSize
      return (cur :: kept, managedSize)

namespace Pool

def cleanupPass (p : Pool) (pass : Nat) (predicate : ManagedResource → Bool) :
    Except PoolException Pool := do
  let (linked, managedSize) ← prune pass predicate p.linked p.managedSize
  return { p with linked := linked, managedSize := managedSize }

def setTarget (p : Pool) (newTarget : Int) : Except PoolException Pool :=
  if newTarget > p.maxSize then throw .illegalTarget
  else if newTarget < p.origTarget then throw .illegalTarget
  else return { p with curTarget := newTarget }

/-- The passes before the target grows, where the first one only unlinks. -/
def stages (wanted : Int) : List Nat → Pool → Except PoolException (Bool × Pool)
  | [], p => return (false, p)
  | stage :: rest, p => do
    let p ← p.cleanupPass stage (stageTester stage)
    if int64 (p.managedSize + wanted) ≤ p.curTarget then return (true, p)
    else stages wanted rest p

/-- The loop over `pruneLastChance`. -/
def lastChance (needed : Int) : List Nat → Pool → Except PoolException (Bool × Pool)
  | [], p => return (false, p)
  | pass :: rest, p => do
    let p ← p.cleanupPass pass (stageTester pass)
    if int64 (p.managedSize + needed) ≤ p.maxSize then
      if int64 (p.managedSize + needed) > p.curTarget then
        let p ← p.setTarget (int64 (p.managedSize + needed))
        return (true, p)
      else return (true, p)
    else lastChance needed rest p

/-- What follows the stages. -/
def growTarget (needed wanted : Int) (p : Pool) : Except PoolException (Bool × Pool) := do
  let rem := int64 (p.maxSize - p.managedSize)
  let wanted := if wanted > rem then needed else wanted
  if wanted ≤ rem then
    let grow := (int64 (p.maxSize - p.origTarget)).tdiv 32
    let grow := if grow < wanted then wanted else if grow > rem then rem else grow
    let p ← p.setTarget (int64 (p.managedSize + grow))
    return (true, p)
  else lastChance needed [7, 8] p

def cleanup (p : Pool) (needed : Int) : Except PoolException (Bool × Pool) := do
  if int64 (p.managedSize + needed) ≤ p.curTarget then return (true, p)
  else
    let wanted := p.curTarget.tdiv 16
    let wanted := if wanted < needed then needed else wanted
    let (enough, p) ← stages wanted [0, 1, 2, 3, 4, 5, 6] p
    if enough then return (true, p) else growTarget needed wanted p

def total (nodes : List Node) : Int := (nodes.map fun n => (n.size : Int)).sum

/-- The sizes add up to what has been recorded, and the three bounds are in order. -/
structure Balanced (p : Pool) : Prop where
  books : p.managedSize = total p.linked
  fits : p.managedSize < 2 ^ 63
  orig : 0 ≤ p.origTarget
  target : p.origTarget ≤ p.curTarget
  max : p.curTarget ≤ p.maxSize
  max_lt : p.maxSize < 2 ^ 63

/-- No exception, a target between its bounds, and room for what is needed if that is returned. -/
def Keeps (needed : Int) (p : Pool) : Except PoolException (Bool × Pool) → Prop
  | .error _ => False
  | .ok (enough, p') =>
    p'.origTarget = p.origTarget ∧ p'.maxSize = p.maxSize ∧ p.origTarget ≤ p'.curTarget ∧
      p'.curTarget ≤ p.maxSize ∧ (enough = true → p'.managedSize + needed ≤ p'.curTarget)

def reaches (pass : Nat) (n : Node) : Bool :=
  n.isGone pass ||
    (!n.resource.permanent && !n.resource.isLocked && stageTester pass n.resource)

def after (p : Pool) (passes : List Nat) : Pool :=
  let linked := p.linked.filter fun n => passes.all fun pass => !reaches pass n
  { p with linked := linked, managedSize := total linked }

/-- The sums do not overflow, and the target does not grow to less than its first value. -/
def HasRoom (p : Pool) (needed : Int) : Prop :=
  let wanted := max needed (p.curTarget / 16)
  let used₀ := (p.after [0]).managedSize
  let used := (p.after [0, 1, 2, 3, 4, 5, 6]).managedSize
  p.managedSize + needed ≤ p.curTarget ∨
    p.managedSize + needed < 2 ^ 63 ∧
      if 2 ^ 63 ≤ used₀ + wanted then used₀ + needed ≤ p.curTarget
      else ¬ (used + needed ≤ p.maxSize ∧ p.maxSize < used + p.curTarget / 16 ∧
        used + max needed ((p.maxSize - p.origTarget) / 32) < p.origTarget)

theorem total_cons (n : Node) (nodes : List Node) : total (n :: nodes) = n.size + total nodes := by
  rfl

theorem total_nonneg (nodes : List Node) : 0 ≤ total nodes := by
  induction nodes with
  | nil => rfl
  | cons n nodes ih =>
    rw [total_cons]
    omega

theorem total_filter_le (f : Node → Bool) (nodes : List Node) :
    total (nodes.filter f) ≤ total nodes := by
  induction nodes with
  | nil => rfl
  | cons n nodes ih =>
    rw [List.filter_cons, total_cons]
    split_ifs
    · rw [total_cons]
      omega
    · omega

theorem recordFree_eq {managedSize size : Int} (h : 0 ≤ managedSize - size)
    (hlt : managedSize - size < 2 ^ 63) :
    recordFree managedSize size = .ok (managedSize - size) := by
  rw [recordFree, int64_eq (by omega) hlt, if_neg (by omega)]
  rfl

theorem prune_eq (pass : Nat) (nodes : List Node) :
    ∀ kept : Int, 0 ≤ kept → kept + total nodes < 2 ^ 63 →
      prune pass (stageTester pass) nodes (kept + total nodes) =
        .ok (nodes.filter fun n => !reaches pass n,
          kept + total (nodes.filter fun n => !reaches pass n)) := by
  induction nodes with
  | nil => exact fun kept _ _ => rfl
  | cons n nodes ih =>
    intro kept hkept hlt
    have hnn := total_nonneg nodes
    rw [total_cons] at hlt ⊢
    have hfree : recordFree (kept + (n.size + total nodes)) n.size = .ok (kept + total nodes) := by
      rw [recordFree_eq (by omega) (by omega)]
      congr 1
      omega
    rw [prune, List.filter_cons, reaches, hfree]
    by_cases hgone : n.isGone pass = true
    · rw [if_pos hgone, hgone, Bool.true_or, if_neg (by simp)]
      exact ih kept hkept (by omega)
    · rw [if_neg hgone, Bool.eq_false_iff.mpr hgone, Bool.false_or]
      by_cases hpruned : (!n.resource.permanent && !n.resource.isLocked &&
          stageTester pass n.resource) = true
      · rw [if_pos hpruned, hpruned, if_neg (by simp)]
        exact ih kept hkept (by omega)
      · rw [if_neg hpruned, Bool.eq_false_iff.mpr hpruned, if_pos (by simp), ← Int.add_assoc,
          ih (kept + n.size) (by omega) (by omega), total_cons, ← Int.add_assoc]
        rfl

section

variable {p : Pool} {needed wanted : Int}

theorem Balanced.after (h : p.Balanced) (passes : List Nat) :
    (p.after passes).Balanced ∧ (p.after passes).managedSize ≤ p.managedSize := by
  have hle := total_filter_le (fun n => passes.all fun pass => !reaches pass n) p.linked
  rw [← h.books] at hle
  exact ⟨⟨rfl, lt_of_le_of_lt hle h.fits, h.orig, h.target, h.max, h.max_lt⟩, hle⟩

theorem Balanced.nonneg (h : p.Balanced) : 0 ≤ p.managedSize := h.books ▸ total_nonneg p.linked

theorem after_after (p : Pool) (passes later : List Nat) :
    (p.after passes).after later = p.after (passes ++ later) := by
  simp only [Pool.after, List.filter_filter, List.all_append, Bool.and_comm]

theorem after_nil (h : p.Balanced) : p.after [] = p := by
  simp only [Pool.after, List.all_nil, List.filter_true, ← h.books]

theorem cleanupPass_eq (h : p.Balanced) (pass : Nat) :
    p.cleanupPass pass (stageTester pass) = .ok (p.after [pass]) := by
  have hprune := prune_eq pass p.linked 0 le_rfl (by rw [Int.zero_add, ← h.books]; exact h.fits)
  rw [Int.zero_add, Int.zero_add, ← h.books] at hprune
  rw [cleanupPass, hprune]
  simp only [Pool.after, List.all_cons, List.all_nil, Bool.and_true]
  rfl

theorem stages_cons (h : p.Balanced) (wanted : Int) (pass : Nat) (passes : List Nat) :
    stages wanted (pass :: passes) p =
      if int64 ((p.after [pass]).managedSize + wanted) ≤ p.curTarget then .ok (true, p.after [pass])
      else stages wanted passes (p.after [pass]) := by
  rw [stages, cleanupPass_eq h]
  rfl

theorem stages_spec (hwanted : 0 ≤ wanted) (passes : List Nat) :
    ∀ {p : Pool}, p.Balanced → p.managedSize + wanted < 2 ^ 63 →
      (∃ before, stages wanted passes p = .ok (true, p.after before) ∧
        (p.after before).managedSize + wanted ≤ p.curTarget ∧
        (p.after passes).managedSize ≤ (p.after before).managedSize) ∨
      stages wanted passes p = .ok (false, p.after passes) ∧
        (passes ≠ [] → p.curTarget < (p.after passes).managedSize + wanted) := by
  induction passes with
  | nil =>
    intro p h _
    exact .inr ⟨by rw [stages, after_nil h]; rfl, fun hne => absurd rfl hne⟩
  | cons pass passes ih =>
    intro p h hlt
    obtain ⟨hafter, hle⟩ := h.after [pass]
    have hnn := hafter.nonneg
    have hsum : int64 ((p.after [pass]).managedSize + wanted) =
        (p.after [pass]).managedSize + wanted := int64_eq (by omega) (by omega)
    rw [stages_cons h, hsum]
    have hlast := (hafter.after passes).2
    rw [after_after] at hlast
    split_ifs with henough
    · exact .inl ⟨[pass], rfl, henough, hlast⟩
    · rcases ih hafter (by omega) with ⟨before, hrun, henough', hless⟩ | ⟨hrun, hmore⟩
      · rw [after_after] at hrun henough' hless
        rw [after_after] at hless
        exact .inl ⟨pass :: before, hrun, henough', hless⟩
      · rw [after_after] at hrun hmore
        refine .inr ⟨hrun, fun _ => ?_⟩
        rcases passes with _ | ⟨pass', passes⟩
        · exact not_le.mp henough
        · exact hmore (List.cons_ne_nil _ _)

theorem keeps_setTarget {newTarget : Int}
    (hle : newTarget ≤ p.maxSize) (henough : p.managedSize + needed ≤ newTarget) :
    Keeps needed p (do let p ← p.setTarget newTarget; return (true, p)) ↔
      p.origTarget ≤ newTarget := by
  rw [setTarget, if_neg (not_lt.mpr hle)]
  split_ifs with hlow
  · exact iff_of_false id (not_le.mpr hlow)
  · have hlow := not_lt.mp hlow
    exact iff_of_true ⟨rfl, rfl, hlow, hle, fun _ => henough⟩ hlow

theorem keeps_same (h : p.Balanced) {enough : Bool}
    (henough : enough = true → p.managedSize + needed ≤ p.curTarget) :
    Keeps needed p (.ok (enough, p)) :=
  ⟨rfl, rfl, h.target, h.max, henough⟩

theorem lastChance_keeps (hneeded : 0 ≤ needed) (passes : List Nat) :
    ∀ {p : Pool}, p.Balanced → p.managedSize + needed < 2 ^ 63 →
      Keeps needed p (lastChance needed passes p) := by
  induction passes with
  | nil =>
    intro p h _
    exact keeps_same h nofun
  | cons pass passes ih =>
    intro p h hlt
    obtain ⟨hafter, hle⟩ := h.after [pass]
    have hnn := hafter.nonneg
    have hsum : int64 ((p.after [pass]).managedSize + needed) =
        (p.after [pass]).managedSize + needed := int64_eq (by omega) (by omega)
    rw [lastChance, cleanupPass_eq h]
    change Keeps needed (p.after [pass])
      (if int64 ((p.after [pass]).managedSize + needed) ≤ (p.after [pass]).maxSize then _ else _)
    rw [hsum]
    have htarget := hafter.target
    split_ifs with hmax hgrow
    · exact (keeps_setTarget hmax le_rfl).mpr (by omega)
    · exact keeps_same hafter fun _ => not_lt.mp hgrow
    · exact ih hafter (by omega)

theorem growTarget_keeps_iff (hneeded : 0 ≤ needed) (h : p.Balanced)
    (hwanted : wanted = max needed (p.curTarget / 16)) (hlt : p.managedSize + wanted < 2 ^ 63)
    (hmore : p.curTarget < p.managedSize + wanted) :
    Keeps needed p (growTarget needed wanted p) ↔
      ¬ (p.managedSize + needed ≤ p.maxSize ∧ p.maxSize < p.managedSize + p.curTarget / 16 ∧
        p.managedSize + max needed ((p.maxSize - p.origTarget) / 32) < p.origTarget) := by
  have hnn := h.nonneg
  have hbalanced := h
  obtain ⟨-, hfits, horig, htarget, hmax, hmaxlt⟩ := h
  rw [growTarget, int64_eq (by omega) (by omega), int64_eq (by omega) (by omega),
    Int.tdiv_eq_ediv_of_nonneg (by omega)]
  generalize hshare : (p.maxSize - p.origTarget) / 32 = share
  have hroom : ∀ grow : Int, grow ≤ p.maxSize - p.managedSize → needed ≤ grow →
      (Keeps needed p (do
        let p ← p.setTarget (int64 (p.managedSize + grow))
        return (true, p)) ↔ p.origTarget ≤ p.managedSize + grow) := by
    intro grow hle hge
    rw [int64_eq (by omega) (by omega)]
    exact keeps_setTarget (by omega) (by omega)
  by_cases hrem : wanted > p.maxSize - p.managedSize
  · rw [if_pos hrem]
    by_cases hfit : needed ≤ p.maxSize - p.managedSize
    · rw [if_pos hfit, hroom _ (by split_ifs <;> omega) (by split_ifs <;> omega)]
      split_ifs <;> omega
    · rw [if_neg hfit]
      refine iff_of_true ?_ (by omega)
      exact lastChance_keeps hneeded _ hbalanced (by omega)
  · rw [if_neg hrem, if_pos (not_lt.mp hrem),
      hroom _ (by split_ifs <;> omega) (by split_ifs <;> omega)]
    split_ifs <;> omega

/-- For every pool, the cleanup keeps the bounds and returns `true` only with enough room exactly
when no sum overflows and the target need not grow to less than its first value. -/
theorem cleanup_keeps_iff (h : p.Balanced) (hneeded : 0 ≤ needed) (hlt : needed < 2 ^ 63) :
    Keeps needed p (p.cleanup needed) ↔ p.HasRoom needed := by
  have hnonneg := h.nonneg
  have hfits := h.fits
  have horig := h.orig
  have htarget := h.target
  have hmax := h.max
  have hmaxlt := h.max_lt
  have hwanted : (if p.curTarget.tdiv 16 < needed then needed else p.curTarget.tdiv 16) =
      max needed (p.curTarget / 16) := by
    rw [Int.tdiv_eq_ediv_of_nonneg (by omega)]
    split_ifs <;> omega
  rw [cleanup, HasRoom]
  dsimp only
  rw [hwanted]
  generalize hw : max needed (p.curTarget / 16) = wanted
  by_cases hoverflow : 2 ^ 63 ≤ p.managedSize + needed
  · have hwrap := int64_neg hoverflow (by omega)
    rw [if_pos (by omega)]
    refine iff_of_false ?_ (by omega)
    rintro ⟨-, -, -, -, henough⟩
    have := henough rfl
    omega
  rw [int64_eq (by omega) (by omega)]
  by_cases hroom : p.managedSize + needed ≤ p.curTarget
  · rw [if_pos hroom]
    exact iff_of_true (keeps_same h fun _ => hroom) (.inl hroom)
  rw [if_neg hroom, or_iff_right hroom, and_iff_right (by omega)]
  obtain ⟨hafter, hle⟩ := h.after [0]
  have hnonneg₀ := hafter.nonneg
  rw [stages_cons h]
  by_cases hfirst : 2 ^ 63 ≤ (p.after [0]).managedSize + wanted
  · have hwrap := int64_neg hfirst (by omega)
    rw [if_pos (by omega), if_pos hfirst]
    constructor
    · rintro ⟨-, -, -, -, henough⟩
      exact henough rfl
    · exact fun henough => keeps_same hafter fun _ => henough
  rw [if_neg hfirst, int64_eq (by omega) (by omega)]
  have hsplit : (p.after [0]).after [1, 2, 3, 4, 5, 6] = p.after [0, 1, 2, 3, 4, 5, 6] :=
    after_after p [0] [1, 2, 3, 4, 5, 6]
  obtain ⟨hbalanced, hlast⟩ := hafter.after [1, 2, 3, 4, 5, 6]
  rw [hsplit] at hbalanced hlast
  by_cases henough : (p.after [0]).managedSize + wanted ≤ p.curTarget
  · rw [if_pos henough]
    refine iff_of_true (keeps_same hafter fun _ => ?_) (by omega)
    change _ ≤ p.curTarget
    omega
  · rw [if_neg henough]
    rcases stages_spec (show 0 ≤ wanted by omega) [1, 2, 3, 4, 5, 6] hafter (by omega) with
      ⟨before, hrun, henough', hless⟩ | ⟨hrun, hmore⟩
    · rw [hrun]
      rw [hsplit] at hless
      refine iff_of_true (keeps_same (hafter.after before).1 fun _ => ?_) ?_
      · change _ ≤ p.curTarget
        change _ ≤ p.curTarget at henough'
        omega
      · change _ ≤ p.curTarget at henough'
        omega
    · rw [hrun, hsplit]
      rw [hsplit] at hmore
      have hsum : (p.after [0, 1, 2, 3, 4, 5, 6]).managedSize + wanted < 2 ^ 63 := by omega
      exact growTarget_keeps_iff hneeded hbalanced hw.symm hsum (hmore (List.cons_ne_nil _ _))

end

instance (p : Pool) (needed : Int) : Decidable (p.HasRoom needed) :=
  inferInstanceAs (Decidable (_ ∨ _ ∧ ite _ _ _))

/-- A pool that may grow, with a locked resource. -/
def growing : Pool := ⟨90, 100, 100, 1600, [⟨.new, 90, none⟩]⟩

theorem cleanup_growing : Keeps 50 growing (growing.cleanup 50) :=
  (cleanup_keeps_iff ⟨rfl, by decide, by decide, by decide, by decide, by decide⟩ (by decide)
    (by decide)).mpr (by decide)

/-- A pool with no space to grow, with a locked resource and an old one. -/
def full : Pool :=
  ⟨1595, 1600, 1600, 1600,
    [⟨.new, 1520, none⟩, ⟨{ ManagedResource.new with lockcount := 0, age := 1024 }, 75, none⟩]⟩

theorem not_keeps_full :
    full.Balanced ∧ full.cleanup 10 = .error .illegalTarget ∧
      ¬ Keeps 10 full (full.cleanup 10) := by
  have hrun : full.cleanup 10 = .error .illegalTarget := rfl
  exact ⟨⟨rfl, by decide, by decide, by decide, by decide, by decide⟩, hrun, by rw [hrun]; exact id⟩

end Pool

end OpenJfx.Prism.ResourcePool
