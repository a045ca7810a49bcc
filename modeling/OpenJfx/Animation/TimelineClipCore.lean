import OpenJfx.Java.Arrays
import Mathlib

namespace OpenJfx.Animation

open Java.Arrays List

/-- An `onFinished` handler, which may call `abort()`. -/
structure Handler where
  aborts : Bool

/-- The constructor of `KeyFrame` refuses a time that is less than zero. -/
structure KeyFrame (T : Type) [LinearOrder T] [Zero T] where
  time : T
  onFinished : Option Handler
  time_nonneg : 0 ≤ time

/-- A key frame of the sorted array, by its handler, and its entry in `keyFrameTicks`. -/
structure Frame where
  onFinished : Option Handler
  ticks : Int

/-- Visits the key frames of a timeline, of which only the handlers matter here. What the
handlers throw is caught. -/
structure TimelineClipCore where
  frames : List Frame
  canSkipFrames : Bool
  aborted : Bool
  lastKF : Int
  curTicks : Int
  /-- The invoked handlers, by the index of the key frame, and the current ticks then. -/
  invoked : List (Nat × Int)

namespace TimelineClipCore

def new : TimelineClipCore := ⟨[], true, false, -1, 0, []⟩

def setKeyFrames {T : Type} [LinearOrder T] [Zero T] (fromDuration : T → Int)
    (keyFrames : List (KeyFrame T)) (c : TimelineClipCore) : TimelineClipCore :=
  let sortedKeyFrames := keyFrames.mergeSort fun kf₁ kf₂ => decide (kf₁.time ≤ kf₂.time)
  { c with
    frames := sortedKeyFrames.map fun kf => ⟨kf.onFinished, fromDuration kf.time⟩
    canSkipFrames := sortedKeyFrames.all fun kf => kf.onFinished.isNone }

def setTime (c : TimelineClipCore) (ticks : Int) : TimelineClipCore := { c with curTicks := ticks }

def visitKeyFrame (c : TimelineClipCore) (kfIndex : Nat) (kf : Frame) : TimelineClipCore :=
  if (kfIndex : Int) ≠ c.lastKF then
    match kf.onFinished with
    | none => { c with lastKF := kfIndex }
    | some onFinished =>
      let c := { c with lastKF := kfIndex }.setTime kf.ticks
      { c with
        invoked := c.invoked ++ [(kfIndex, c.curTicks)]
        aborted := c.aborted || onFinished.aborts }
  else c

def before (forward : Bool) (ticks ticks' : Int) : Bool :=
  if forward then decide (ticks < ticks') else decide (ticks' < ticks)

/-- Both loops of `playTo`, over the key frames from `fromKF` on. -/
def visitKeyFrames (forward : Bool) (ticks : Int) :
    List (Frame × Nat) → TimelineClipCore → TimelineClipCore
  | [], c => c
  | (kf, fi) :: rest, c =>
    if before forward ticks kf.ticks then
      { c with lastKF := if forward then (fi : Int) - 1 else fi + 1 }
    else
      let c := if before forward kf.ticks c.curTicks then c else c.visitKeyFrame fi kf
      if c.aborted then c else visitKeyFrames forward ticks rest c

/-- The key frame at which `playTo` starts. -/
def fromKF (forward : Bool) (c : TimelineClipCore) : Outcome Int :=
  if c.lastKF = -1 then pure (if forward then 0 else (c.frames.length : Int) - 1)
  else do
    let last ← load c.frames c.lastKF
    pure (if before forward c.curTicks last.ticks then c.lastKF
      else if forward then c.lastKF + 1 else c.lastKF - 1)

/-- Whether the time is still to be set behind the loops. -/
def leavesTime (ticks : Int) (c : TimelineClipCore) : Outcome Bool :=
  if c.lastKF = -1 then pure true
  else do
    let last ← load c.frames c.lastKF
    pure (decide (last.ticks ≠ ticks) || last.onFinished.isNone)

def playTo (c : TimelineClipCore) (ticks : Int) : Outcome TimelineClipCore :=
  if c.canSkipFrames then pure { c with lastKF := -1, curTicks := ticks }
  else do
    let c := { c with aborted := false }
    let forward := decide (c.curTicks ≤ ticks)
    let fromKF ← c.fromKF forward
    let c := c.visitKeyFrames forward ticks
      (if forward then c.frames.zipIdx.drop fromKF.toNat
        else (c.frames.zipIdx.take (fromKF + 1).toNat).reverse)
    if c.aborted then pure c
    else do
      let leaves ← c.leavesTime ticks
      pure (if leaves then c.setTime ticks else c)

/-- The handlers of key frames, with the ticks at which they are due. -/
def handlers (frames : List (Frame × Nat)) : List (Nat × Int) :=
  (frames.filter fun kf => kf.1.onFinished.isSome).map fun kf => (kf.2, kf.1.ticks)

/-- The first key frames have been visited, and the time is not beyond the others. -/
structure Playing (visited ahead : List Frame) (c : TimelineClipCore) : Prop where
  frames : c.frames = visited ++ ahead
  skips : c.canSkipFrames = false
  aborted : c.aborted = false
  lastKF : c.lastKF = (visited.length : Int) - 1
  sorted : (visited ++ ahead).Pairwise fun kf kf' => kf.ticks ≤ kf'.ticks
  keeps : ∀ kf ∈ visited ++ ahead, ∀ onFinished ∈ kf.onFinished, onFinished.aborts = false
  curTicks_le : ∀ kf ∈ ahead, c.curTicks ≤ kf.ticks
  le_curTicks : ∀ kf ∈ visited, kf.onFinished.isSome → kf.ticks ≤ c.curTicks
  invoked : c.invoked = handlers visited.zipIdx

variable {visited ahead : List Frame} {kf : Frame} {c : TimelineClipCore} {ticks : Int}

theorem Playing.visitKeyFrame (h : Playing visited (kf :: ahead) c) :
    Playing (visited ++ [kf]) ahead (c.visitKeyFrame visited.length kf) ∧
      ((c.visitKeyFrame visited.length kf).curTicks = c.curTicks ∨
        (c.visitKeyFrame visited.length kf).curTicks = kf.ticks) := by
  have hsplit : visited ++ [kf] ++ ahead = visited ++ kf :: ahead := by rw [append_assoc]; rfl
  have hidx : ((visited.length : Nat) : Int) ≠ c.lastKF := by rw [h.lastKF]; omega
  have hlen : ((visited.length : Nat) : Int) = ((visited ++ [kf]).length : Int) - 1 := by
    rw [length_append, length_singleton]; omega
  have hsort : ∀ kf' ∈ ahead, kf.ticks ≤ kf'.ticks :=
    (pairwise_cons.mp (pairwise_append.mp h.sorted).2.1).1
  have hzip : (visited ++ [kf]).zipIdx = visited.zipIdx ++ [(kf, visited.length)] := by
    rw [zipIdx_append, Nat.zero_add]; rfl
  rw [TimelineClipCore.visitKeyFrame, if_pos hidx]
  split
  case h_1 hnone =>
    refine ⟨⟨hsplit ▸ h.frames, h.skips, h.aborted, hlen, hsplit ▸ h.sorted, hsplit ▸ h.keeps,
      fun kf' hkf' => h.curTicks_le kf' (mem_cons_of_mem _ hkf'), ?_, ?_⟩, .inl rfl⟩
    · intro kf' hkf' hsome
      rcases mem_append.mp hkf' with hkf' | hkf'
      · exact h.le_curTicks kf' hkf' hsome
      · rw [mem_singleton.mp hkf', hnone] at hsome
        exact nomatch hsome
    · rw [hzip, handlers, filter_append, map_append, ← handlers, ← h.invoked]
      simp [hnone]
  case h_2 onFinished hsome =>
    have haborts : onFinished.aborts = false :=
      h.keeps kf (mem_append_right _ (mem_cons_self ..)) onFinished hsome
    refine ⟨⟨hsplit ▸ h.frames, h.skips, ?_, hlen, hsplit ▸ h.sorted, hsplit ▸ h.keeps, hsort,
      ?_, ?_⟩, .inr rfl⟩
    · rw [h.aborted, haborts]
      rfl
    · intro kf' hkf' hsome'
      rcases mem_append.mp hkf' with hkf' | hkf'
      · exact (h.le_curTicks kf' hkf' hsome').trans (h.curTicks_le kf (mem_cons_self ..))
      · exact (mem_singleton.mp hkf' ▸ le_rfl)
    · rw [hzip, handlers, filter_append, map_append, ← handlers, ← h.invoked]
      simp [hsome, setTime]

theorem Playing.visitKeyFrames (h : Playing visited ahead c) (hle : c.curTicks ≤ ticks) :
    ∃ passed rest, ahead = passed ++ rest ∧ (∀ kf ∈ passed, kf.ticks ≤ ticks) ∧
      (∀ kf ∈ rest, ticks < kf.ticks) ∧
      (visitKeyFrames true ticks (ahead.zipIdx visited.length) c).curTicks ≤ ticks ∧
      Playing (visited ++ passed) rest
        (visitKeyFrames true ticks (ahead.zipIdx visited.length) c) := by
  induction ahead generalizing visited c with
  | nil =>
    refine ⟨[], [], rfl, fun _ hkf => absurd hkf not_mem_nil, fun _ hkf => absurd hkf not_mem_nil,
      hle, ?_⟩
    rw [append_nil]
    exact h
  | cons kf ahead ih =>
    have hsort : ∀ kf' ∈ ahead, kf.ticks ≤ kf'.ticks :=
      (pairwise_cons.mp (pairwise_append.mp h.sorted).2.1).1
    rw [zipIdx_cons, TimelineClipCore.visitKeyFrames]
    split
    case isTrue hbef =>
      have hlt : ticks < kf.ticks := of_decide_eq_true hbef
      refine ⟨[], kf :: ahead, rfl, fun _ hkf => absurd hkf not_mem_nil, ?_, hle, ?_⟩
      · intro kf' hkf'
        rcases mem_cons.mp hkf' with rfl | hkf'
        · exact hlt
        · exact hlt.trans_le (hsort kf' hkf')
      · rw [append_nil]
        exact { h with lastKF := rfl }
    case isFalse hbef =>
      have hge : kf.ticks ≤ ticks := not_lt.mp fun hlt => hbef (decide_eq_true hlt)
      have hnot : ¬ before true kf.ticks c.curTicks = true := fun hlt =>
        (h.curTicks_le kf (mem_cons_self ..)).not_gt (of_decide_eq_true hlt)
      obtain ⟨hplaying, htime⟩ := h.visitKeyFrame
      have hle' : (c.visitKeyFrame visited.length kf).curTicks ≤ ticks := by
        rcases htime with htime | htime <;> rw [htime]
        · exact hle
        · exact hge
      obtain ⟨passed, rest, rfl, hpassed, hrest, hcur, hdone⟩ := ih hplaying hle'
      rw [length_append, append_assoc] at hdone
      rw [length_append] at hcur
      rw [if_neg hnot, if_neg (by rw [hplaying.aborted]; exact Bool.false_ne_true)]
      refine ⟨kf :: passed, rest, rfl, ?_, hrest, hcur, hdone⟩
      intro kf' hkf'
      rcases mem_cons.mp hkf' with rfl | hkf'
      · exact hge
      · exact hpassed kf' hkf'

/-- Between two calls, the visited key frames are those that the time has reached. -/
def Stands (visited ahead : List Frame) (c : TimelineClipCore) : Prop :=
  Playing visited ahead c ∧ ∀ kf ∈ visited, kf.ticks ≤ c.curTicks

theorem Playing.load_last (h : Playing visited ahead c) (hlast : c.lastKF ≠ -1) :
    ∃ last ∈ visited, load c.frames c.lastKF = .ok last := by
  have hlt : c.lastKF.toNat < visited.length := by
    have := h.lastKF
    omega
  refine ⟨_, getElem_mem hlt, ?_⟩
  rw [load, if_pos (by have := h.lastKF; omega), h.frames, getElem?_append_left hlt,
    getElem?_eq_getElem hlt]

theorem Stands.fromKF (h : Stands visited ahead c) :
    c.fromKF true = .ok (visited.length : Int) := by
  have hlast := h.1.lastKF
  rw [TimelineClipCore.fromKF]
  split
  · rw [if_pos rfl, pure_eq_ok]
    congr 1
    omega
  case isFalse hne =>
    obtain ⟨last, hmem, hload⟩ := h.1.load_last hne
    have hnot : ¬ before true c.curTicks last.ticks = true := fun hlt =>
      (h.2 last hmem).not_gt (of_decide_eq_true hlt)
    rw [hload, ok_bind, if_neg hnot, if_pos rfl]
    congr 1
    omega

/-- Where the time is not set behind the loop, a handler has been invoked at the ticks. -/
theorem Playing.leavesTime (h : Playing visited ahead c) (hle : c.curTicks ≤ ticks) :
    ∃ leaves, c.leavesTime ticks = .ok leaves ∧ (leaves = false → c.curTicks = ticks) := by
  rw [TimelineClipCore.leavesTime]
  split
  · exact ⟨true, rfl, fun heq => nomatch heq⟩
  case isFalse hne =>
    obtain ⟨last, hmem, hload⟩ := h.load_last hne
    rw [hload]
    refine ⟨_, rfl, fun hleaves => ?_⟩
    rw [Bool.or_eq_false_iff, decide_eq_false_iff_not, not_not, Option.isNone_eq_false_iff]
      at hleaves
    exact le_antisymm hle (hleaves.1 ▸ h.le_curTicks last hmem hleaves.2)

theorem Stands.playTo (h : Stands visited ahead c) (hle : c.curTicks ≤ ticks) :
    ∃ passed rest c', ahead = passed ++ rest ∧ c.playTo ticks = .ok c' ∧
      c'.curTicks = ticks ∧ (∀ kf ∈ rest, ticks < kf.ticks) ∧
      Stands (visited ++ passed) rest c' := by
  have hc : { c with aborted := false } = c := by rw [← h.1.aborted]
  obtain ⟨passed, rest, hahead, hpassed, hrest, hcur, hplaying⟩ := h.1.visitKeyFrames hle
  obtain ⟨leaves, hleaves, htime⟩ := hplaying.leavesTime hcur
  have hdrop : c.frames.zipIdx.drop (visited.length : Int).toNat =
      ahead.zipIdx visited.length := by
    rw [h.1.frames, zipIdx_append, Nat.zero_add]
    exact drop_left' (length_zipIdx ..)
  have hreached : ∀ kf ∈ visited ++ passed, kf.ticks ≤ ticks := fun kf hkf =>
    (mem_append.mp hkf).elim (fun hkf => (h.2 kf hkf).trans hle) (hpassed kf)
  rw [TimelineClipCore.playTo, if_neg (by rw [h.1.skips]; exact Bool.false_ne_true)]
  simp only [hc]
  rw [decide_eq_true hle, h.fromKF, ok_bind, if_pos rfl, hdrop,
    if_neg (by rw [hplaying.aborted]; exact Bool.false_ne_true), hleaves, ok_bind, pure_eq_ok]
  refine ⟨passed, rest, _, hahead, rfl, ?_, hrest, ?_⟩
  · split
    · rfl
    case isFalse hfalse => exact htime (Bool.eq_false_iff.mpr hfalse)
  · split
    · exact ⟨{ hplaying with
        curTicks_le := fun kf hkf => (hrest kf hkf).le
        le_curTicks := fun kf hkf _ => hreached kf hkf }, hreached⟩
    case isFalse hfalse =>
      exact ⟨hplaying, fun kf hkf => (hreached kf hkf).trans
        (htime (Bool.eq_false_iff.mpr hfalse)).ge⟩

theorem Stands.run (times : List Int) (h : Stands visited ahead c)
    (htimes : (c.curTicks :: times ++ [ticks]).Pairwise (· ≤ ·)) :
    ∃ passed rest c', ahead = passed ++ rest ∧
      (times ++ [ticks]).foldlM TimelineClipCore.playTo c = .ok c' ∧ c'.curTicks = ticks ∧
      (∀ kf ∈ rest, ticks < kf.ticks) ∧ Stands (visited ++ passed) rest c' := by
  induction times generalizing visited ahead c with
  | nil =>
    obtain ⟨passed, rest, c', hahead, hplay, htime⟩ :=
      h.playTo (rel_of_pairwise_cons htimes (mem_singleton_self _))
    refine ⟨passed, rest, c', hahead, ?_, htime⟩
    rw [nil_append, foldlM_cons, hplay]
    rfl
  | cons time times ih =>
    obtain ⟨passed, rest, c', rfl, hplay, rfl, -, hstands⟩ :=
      h.playTo (rel_of_pairwise_cons htimes (mem_cons_self ..))
    obtain ⟨passed', rest', c'', rfl, hrun, htime, hrest, hdone⟩ :=
      ih hstands (pairwise_cons.mp htimes).2
    refine ⟨passed ++ passed', rest', c'', (append_assoc ..).symm, ?_, htime, hrest,
      append_assoc .. ▸ hdone⟩
    rw [cons_append, foldlM_cons, hplay]
    exact hrun

section

variable {T : Type} [LinearOrder T] [Zero T] {fromDuration : T → Int}

theorem stands_setKeyFrames (hmono : Monotone fromDuration) (hzero : fromDuration 0 = 0)
    (keyFrames : List (KeyFrame T)) (hsome : ∃ kf ∈ keyFrames, kf.onFinished.isSome)
    (hkeeps : ∀ kf ∈ keyFrames, ∀ onFinished ∈ kf.onFinished, onFinished.aborts = false) :
    Stands [] (new.setKeyFrames fromDuration keyFrames).frames
      (new.setKeyFrames fromDuration keyFrames) := by
  have hperm := mergeSort_perm keyFrames fun kf₁ kf₂ => decide (kf₁.time ≤ kf₂.time)
  have hsort := @pairwise_mergeSort (KeyFrame T) (fun kf₁ kf₂ => decide (kf₁.time ≤ kf₂.time))
    (fun a b c hab hbc => decide_eq_true ((of_decide_eq_true hab).trans (of_decide_eq_true hbc)))
    (fun a b => by simpa using le_total a.time b.time) keyFrames
  refine ⟨⟨rfl, ?_, rfl, rfl, ?_, ?_, ?_, fun _ hkf => absurd hkf not_mem_nil, rfl⟩,
    fun _ hkf => absurd hkf not_mem_nil⟩
  · obtain ⟨kf, hkf, hhandler⟩ := hsome
    rw [setKeyFrames, all_eq_false]
    exact ⟨kf, hperm.mem_iff.mpr hkf, by simpa [Option.isSome_iff_ne_none] using hhandler⟩
  · rw [nil_append, setKeyFrames, pairwise_map]
    exact hsort.imp fun hle => hmono (of_decide_eq_true hle)
  · intro kf hkf
    obtain ⟨kf', hkf', rfl⟩ := mem_map.mp hkf
    exact hkeeps kf' (hperm.mem_iff.mp hkf')
  · intro kf hkf
    obtain ⟨kf', -, rfl⟩ := mem_map.mp hkf
    have hle := hmono kf'.time_nonneg
    rw [hzero] at hle
    exact hle

/-- The handlers of the given key frames that are due up to the ticks, by their place in the order
of the times (where the times are equal, in the given order), and their own ticks. -/
def due (fromDuration : T → Int) (keyFrames : List (KeyFrame T)) (ticks : Int) :
    List (Nat × Int) :=
  ((keyFrames.mergeSort fun kf₁ kf₂ => decide (kf₁.time ≤ kf₂.time)).zipIdx.filter fun kf =>
    kf.1.onFinished.isSome && decide (fromDuration kf.1.time ≤ ticks)).map fun kf =>
      (kf.2, fromDuration kf.1.time)

theorem handlers_setKeyFrames (keyFrames : List (KeyFrame T)) (ticks : Int) :
    handlers ((new.setKeyFrames fromDuration keyFrames).frames.zipIdx.filter fun kf =>
      decide (kf.1.ticks ≤ ticks)) = due fromDuration keyFrames ticks := by
  rw [setKeyFrames, handlers, due, zipIdx_map, filter_map, filter_map, filter_filter, map_map]
  rfl

/-- The handlers of the key frames up to the last of the ticks are invoked, each once and in order,
however the interval is divided. -/
theorem playTo_invokes (hmono : Monotone fromDuration) (hzero : fromDuration 0 = 0)
    (keyFrames : List (KeyFrame T)) (hsome : ∃ kf ∈ keyFrames, kf.onFinished.isSome)
    (hkeeps : ∀ kf ∈ keyFrames, ∀ onFinished ∈ kf.onFinished, onFinished.aborts = false)
    (times : List Int) (ticks : Int) (htimes : (0 :: times ++ [ticks]).Pairwise (· ≤ ·)) :
    ∃ c, (times ++ [ticks]).foldlM playTo (new.setKeyFrames fromDuration keyFrames) = .ok c ∧
      c.curTicks = ticks ∧ c.invoked = due fromDuration keyFrames ticks := by
  obtain ⟨passed, rest, c, hframes, hrun, htime, hrest, hplaying, hreached⟩ :=
    Stands.run times (stands_setKeyFrames hmono hzero keyFrames hsome hkeeps) htimes
  refine ⟨c, hrun, htime, ?_⟩
  rw [hplaying.invoked, nil_append, ← handlers_setKeyFrames, hframes, zipIdx_append,
    filter_append, filter_eq_self.mpr, filter_eq_nil_iff.mpr, append_nil]
  · intro kf hkf hle
    exact (hrest kf.1 (fst_mem_of_mem_zipIdx hkf)).not_ge (of_decide_eq_true hle)
  · intro kf hkf
    exact decide_eq_true (htime ▸ hreached kf.1 (fst_mem_of_mem_zipIdx hkf))

end

/-- Two key frames at the same time and one at the end. -/
def threeKeyFrames : List (KeyFrame Int) :=
  [⟨2, some ⟨false⟩, by decide⟩, ⟨1, some ⟨false⟩, by decide⟩, ⟨1, none, by decide⟩]

theorem playTo_invokes_threeKeyFrames :
    ∃ c, ([6, 6] ++ [20]).foldlM playTo (new.setKeyFrames (6 * ·) threeKeyFrames) = .ok c ∧
      c.curTicks = 20 ∧ c.invoked = due (6 * ·) threeKeyFrames 20 :=
  playTo_invokes (fun _ _ hle => Int.mul_le_mul_of_nonneg_left hle (by decide)) rfl threeKeyFrames
    ⟨_, mem_cons_self .., rfl⟩ (by decide) [6, 6] 20 (by decide)

end TimelineClipCore

end OpenJfx.Animation
