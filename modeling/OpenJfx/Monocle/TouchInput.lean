import OpenJfx.Java.Ints
import Mathlib.Data.List.Sort
import Mathlib.Data.List.Induction

/-!
How touch events are made of the changes of the touch state. The mouse events that are made of it
as well are left out, and so are the gestures that the events are passed to.
-/

namespace OpenJfx.Monocle

open Java.Ints

structure MonocleWindow where
  id : Int
  x : Int
  y : Int
  width : Int
  height : Int
  enabled : Bool
  view : Option Nat
deriving DecidableEq

def MonocleWindow.contains (w : MonocleWindow) (x y : Int) : Bool :=
  x ≥ w.x ∧ y ≥ w.y ∧ x < w.x + w.width ∧ y < w.y + w.height ∧ w.enabled

def getWindowForLocation (windows : List MonocleWindow) (x y : Int) : Option MonocleWindow :=
  windows.reverse.find? fun w => w.contains x y

structure Point where
  id : Int
  x : Int
  y : Int

structure TouchState where
  points : List Point
  primaryID : Int
  window : Option MonocleWindow

namespace TouchState

def new : TouchState := ⟨[], -1, none⟩

def ids (s : TouchState) : List Int := s.points.map Point.id

def getPointForID (s : TouchState) (id : Int) : Option Point :=
  s.points.find? fun p => id = -1 ∨ p.id = id

def getWindow (windows : List MonocleWindow) (s : TouchState) (recalculateCache : Bool)
    (fallback : Option MonocleWindow) : Option MonocleWindow :=
  if recalculateCache then
    if s.primaryID ≥ 0 then
      match s.getPointForID s.primaryID with
      | some p => getWindowForLocation windows p.x p.y
      | none => fallback
    else fallback
  else s.window.or fallback

def assignPrimaryID (s : TouchState) : TouchState :=
  match s.points with
  | [] => { s with primaryID := -1 }
  | first :: _ =>
    if s.primaryID ≤ 0 then { s with primaryID := first.id }
    else if s.primaryID ∈ s.ids then s
    else { s with primaryID := first.id }

def comparePoints (p₁ p₂ : Point) : Int := int32 (p₁.id - p₂.id)

/-- `Arrays.sort` with the comparator of ids is stable. -/
def sortPointsByID (s : TouchState) : TouchState :=
  { s with points := s.points.insertionSort fun p₁ p₂ => comparePoints p₁ p₂ ≤ 0 }

def equalsSorted (s ts : TouchState) : Bool :=
  ts.points.length = s.points.length ∧ ts.primaryID = s.primaryID ∧ ts.window = s.window ∧
    (ts.points.zip s.points).all fun (p₁, p₂) => p₁.x = p₂.x ∧ p₁.y = p₂.y ∧ p₁.id = p₂.id

end TouchState

inductive EventType where
  | pressed
  | moved
  | still
  | released
deriving DecidableEq

structure PointEvent where
  state : EventType
  id : Int
  x : Int
  y : Int
  xAbs : Int
  yAbs : Int
deriving DecidableEq

/-- The calls for one touch event, from its beginning to its end. -/
structure Batch where
  view : Nat
  points : List PointEvent
deriving DecidableEq

structure TouchInput where
  state : TouchState
  /-- The events that are posted to the application thread. -/
  posted : List Batch

namespace TouchInput

def start : TouchInput := ⟨TouchState.new, []⟩

def dispatchPoint (window : MonocleWindow) (state : EventType) (p : Point) : PointEvent :=
  ⟨state, p.id, p.x - window.x, p.y - window.y, p.x, p.y⟩

def postAll (state : TouchState) (eventType : EventType) : List Batch :=
  match state.window with
  | none => []
  | some window =>
    match window.view with
    | none => []
    | some view =>
      match state.points with
      | [] => [⟨view, []⟩]
      | [p] => [⟨view, [dispatchPoint window eventType p]⟩]
      | points => [⟨view, points.map (dispatchPoint window eventType)⟩]

def newPoints (state newState : TouchState) : List Point :=
  newState.points.filter fun p => (state.getPointForID p.id).isNone

def countEvents (state newState : TouchState) : Nat :=
  state.points.length + (newPoints state newState).length

def update (window : MonocleWindow) (newState : TouchState) (oldPoint : Point) : PointEvent :=
  match newState.getPointForID oldPoint.id with
  | some newPoint =>
    if newPoint.x = oldPoint.x ∧ newPoint.y = oldPoint.y then
      dispatchPoint window .still newPoint
    else dispatchPoint window .moved newPoint
  | none => dispatchPoint window .released oldPoint

def postUpdates (window : MonocleWindow) (view : Nat) (state newState : TouchState) : Batch :=
  match countEvents state newState with
  | 0 => ⟨view, []⟩
  | 1 =>
    match state.points with
    | [oldPoint] => ⟨view, [update window newState oldPoint]⟩
    | _ => ⟨view, newState.points.head?.toList.map (dispatchPoint window .pressed)⟩
  | _ =>
    ⟨view, state.points.map (update window newState) ++
      (newPoints state newState).map (dispatchPoint window .pressed)⟩

def viewOf (window : Option MonocleWindow) : Option Nat := window.bind MonocleWindow.view

def batches (state newState : TouchState) : List Batch :=
  if newState.equalsSorted state then []
  else if viewOf newState.window ≠ viewOf state.window then
    postAll state .released ++ postAll newState .pressed
  else
    match newState.window with
    | none => []
    | some window =>
      match window.view with
      | none => []
      | some view => [postUpdates window view state newState]

/-- The new state, as it is compared with the old one. -/
def prepare (windows : List MonocleWindow) (state newState : TouchState) : TouchState :=
  let newState := newState.sortPointsByID.assignPrimaryID
  { newState with window := newState.getWindow windows (state.points = []) state.window }

def setState (windows : List MonocleWindow) (t : TouchInput) (newState : TouchState) :
    TouchInput :=
  let newState := prepare windows t.state newState
  ⟨newState, t.posted ++ batches t.state newState⟩

def run (windows : List MonocleWindow) (states : List TouchState) : TouchInput :=
  states.foldl (setState windows) start

end TouchInput

open List

/-- The events of one finger, from its touch until it is lifted. -/
inductive Session : List EventType → Prop
  | mk (middle : List EventType) (hmiddle : ∀ e ∈ middle, e = .moved ∨ e = .still) :
      Session (.pressed :: middle ++ [.released])

/-- The events of complete sessions, and of one more that is not yet complete if the point is
down. -/
def Follows (events : List EventType) (isDown : Bool) : Prop :=
  ∃ (sessions : List (List EventType)) (middle : List EventType),
    (∀ session ∈ sessions, Session session) ∧ (∀ e ∈ middle, e = .moved ∨ e = .still) ∧
      events = sessions.flatten ++ if isDown then .pressed :: middle else []

variable {events : List EventType}

theorem Follows.press (h : Follows events false) :
    Follows (events ++ [.pressed]) true := by
  rcases h with ⟨sessions, _, hsessions, -, rfl⟩
  refine ⟨sessions, [], hsessions, ?_, ?_⟩
  · simp
  · simp

theorem Follows.keep (h : Follows events true) {e : EventType} (he : e = .moved ∨ e = .still) :
    Follows (events ++ [e]) true := by
  rcases h with ⟨sessions, middle, hsessions, hmiddle, rfl⟩
  refine ⟨sessions, middle ++ [e], hsessions, ?_, ?_⟩
  · intro e' he'
    rcases mem_append.mp he' with hmem | hmem
    · exact hmiddle e' hmem
    · rw [mem_singleton.mp hmem]
      exact he
  · simp

theorem Follows.release (h : Follows events true) :
    Follows (events ++ [.released]) false := by
  rcases h with ⟨sessions, middle, hsessions, hmiddle, rfl⟩
  refine ⟨sessions ++ [.pressed :: middle ++ [.released]], [], ?_, ?_, ?_⟩
  · intro session hsession
    rcases mem_append.mp hsession with hmem | hmem
    · exact hsessions session hmem
    · rw [mem_singleton.mp hmem]
      exact .mk middle hmiddle
  · simp
  · simp

def eventsOf (id : Int) (batches : List Batch) : List EventType :=
  batches.flatMap fun batch =>
    (batch.points.filter fun e => e.id = id).map PointEvent.state

theorem eventsOf_append (id : Int) (first rest : List Batch) :
    eventsOf id (first ++ rest) = eventsOf id first ++ eventsOf id rest :=
  flatMap_append ..

structure ReportsOnce (batch : Batch) (oldIds newIds : List Int) : Prop where
  nodup : (batch.points.map PointEvent.id).Nodup
  mem (id : Int) : id ∈ batch.points.map PointEvent.id ↔ id ∈ oldIds ∨ id ∈ newIds

namespace TouchState

variable {s : TouchState} {id : Int}

theorem isSome_getPointForID (hid : 0 ≤ id) : (s.getPointForID id).isSome ↔ id ∈ s.ids := by
  have hne : id ≠ -1 := by omega
  simp [getPointForID, ids, hne]

theorem getPointForID_eq_none_iff (hid : 0 ≤ id) : s.getPointForID id = none ↔ id ∉ s.ids := by
  rw [← isSome_getPointForID hid, Option.not_isSome_iff_eq_none]

theorem id_of_getPointForID {p : Point} (hid : 0 ≤ id) (h : s.getPointForID id = some p) :
    p.id = id := by
  have hne : id ≠ -1 := by omega
  have hp := find?_some h
  simpa [hne] using hp

theorem ids_sortPointsByID (s : TouchState) : s.sortPointsByID.ids.Perm s.ids :=
  (perm_insertionSort ..).map _

theorem points_assignPrimaryID (s : TouchState) : s.assignPrimaryID.points = s.points := by
  rw [assignPrimaryID]
  split
  · rfl
  · split_ifs <;> rfl

theorem window_assignPrimaryID (s : TouchState) : s.assignPrimaryID.window = s.window := by
  rw [assignPrimaryID]
  split
  · rfl
  · split_ifs <;> rfl

theorem primaryID_mem (hpts : s.points ≠ []) :
    s.assignPrimaryID.primaryID ∈ s.assignPrimaryID.ids := by
  rw [assignPrimaryID]
  split
  · contradiction
  · rename_i first rest hcons
    have hfst : first.id ∈ s.points.map Point.id := by
      rw [hcons]
      exact mem_cons_self ..
    split_ifs with hnone hkept
    · exact hfst
    · exact hkept
    · exact hfst

end TouchState

/-- A state as it is passed to `setState` while a window covers all of its points. -/
structure OnWindow (w : MonocleWindow) (s : TouchState) : Prop where
  distinct : s.ids.Nodup
  inside : ∀ p ∈ s.points, w.contains p.x p.y = true
  cached : s.window = none ∨ s.window = some w

namespace TouchInput

section

variable {w : MonocleWindow} {state newState : TouchState}

theorem ids_prepare (windows : List MonocleWindow) (state newState : TouchState) :
    (prepare windows state newState).ids.Perm newState.ids := by
  change (TouchState.assignPrimaryID _).ids.Perm _
  rw [TouchState.ids, TouchState.points_assignPrimaryID]
  exact newState.ids_sortPointsByID

variable {s : TouchState}

theorem getWindow_empty (windows : List MonocleWindow) (hpts : s.points = [])
    (fallback : Option MonocleWindow) :
    s.assignPrimaryID.getWindow windows true fallback = fallback := by
  simp [TouchState.getWindow, TouchState.assignPrimaryID, hpts]

theorem getWindow_inside (hpts : s.points ≠ []) (hids : ∀ id ∈ s.ids, 0 ≤ id)
    (hinside : ∀ p ∈ s.points, w.contains p.x p.y = true) (fallback : Option MonocleWindow) :
    s.assignPrimaryID.getWindow [w] true fallback = some w := by
  have hprimary := TouchState.primaryID_mem hpts
  have hsame : s.assignPrimaryID.ids = s.ids := by
    rw [TouchState.ids, TouchState.points_assignPrimaryID, TouchState.ids]
  have hpositive : 0 ≤ s.assignPrimaryID.primaryID := hids _ (hsame ▸ hprimary)
  rcases Option.isSome_iff_exists.mp
    ((TouchState.isSome_getPointForID hpositive).mpr hprimary) with ⟨p, hp⟩
  have hmem : p ∈ s.points := by
    rw [← TouchState.points_assignPrimaryID]
    exact mem_of_find?_eq_some hp
  simp [TouchState.getWindow, hpositive, hp, getWindowForLocation, hinside p hmem]

def Seen (w : MonocleWindow) (state : TouchState) : Prop :=
  state.window = some w ∨ state.window = none ∧ state.points = []

theorem window_prepare (hseen : Seen w state) (hnew : OnWindow w newState)
    (hids : ∀ id ∈ newState.ids, 0 ≤ id) :
    (prepare [w] state newState).window =
      if state.window = none ∧ newState.points = [] then none else some w := by
  let sorted := newState.sortPointsByID
  have hperm : sorted.points.Perm newState.points := perm_insertionSort ..
  have hemp : sorted.points = [] ↔ newState.points = [] := by
    rw [← length_eq_zero_iff, hperm.length_eq, length_eq_zero_iff]
  have hsortedIds : ∀ id ∈ sorted.ids, 0 ≤ id := by
    intro id hid
    exact hids id (newState.ids_sortPointsByID.mem_iff.mp hid)
  have hinside : ∀ p ∈ sorted.points, w.contains p.x p.y = true := by
    intro p hp
    exact hnew.inside p (hperm.mem_iff.mp hp)
  change sorted.assignPrimaryID.getWindow [w] (state.points = []) state.window = _
  by_cases hold : state.points = []
  · rw [decide_eq_true hold]
    by_cases hpts : newState.points = []
    · rw [getWindow_empty [w] (hemp.mpr hpts)]
      rcases hseen with hwin | ⟨hwin, -⟩
      · simp [hwin]
      · simp [hwin, hpts]
    · rw [if_neg (fun h => hpts h.2)]
      exact getWindow_inside (fun h => hpts (hemp.mp h)) hsortedIds hinside state.window
  · rw [decide_eq_false hold]
    have hwin : state.window = some w := hseen.resolve_right fun h => hold h.2
    have hcached : sorted.assignPrimaryID.window = newState.window :=
      TouchState.window_assignPrimaryID _
    rw [hwin]
    rcases hnew.cached with hnone | hsome
    · simp [TouchState.getWindow, hcached, hnone]
    · simp [TouchState.getWindow, hcached, hsome]

def report (w : MonocleWindow) (view : Nat) (state newState : TouchState) : Batch :=
  ⟨view, state.points.map (update w newState) ++
    (newPoints state newState).map (dispatchPoint w .pressed)⟩

theorem postAll_eq {view : Nat} (hwin : s.window = some w) (hview : w.view = some view)
    (eventType : EventType) :
    postAll s eventType = [⟨view, s.points.map (dispatchPoint w eventType)⟩] := by
  rw [postAll, hwin]
  simp only [hview]
  split <;> simp_all

theorem newPoints_of_empty (hold : state.points = []) (newState : TouchState) :
    newPoints state newState = newState.points := by
  simp [newPoints, TouchState.getPointForID, hold]

theorem postUpdates_eq (w : MonocleWindow) (view : Nat) (state newState : TouchState) :
    postUpdates w view state newState = report w view state newState := by
  rw [postUpdates, report]
  split
  · rename_i hcnt
    rw [countEvents, Nat.add_eq_zero_iff, length_eq_zero_iff, length_eq_zero_iff]
      at hcnt
    simp [hcnt]
  · rename_i hcnt
    rw [countEvents] at hcnt
    split
    · rename_i oldPoint hold
      have hnone : newPoints state newState = [] := by
        rw [hold] at hcnt
        simpa using hcnt
      simp [hnone, hold]
    · rename_i hold
      rcases hpts : state.points with _ | ⟨first, _ | ⟨second, rest⟩⟩
      · rw [hpts, newPoints_of_empty hpts, length_nil, Nat.zero_add,
          length_eq_one_iff] at hcnt
        rcases hcnt with ⟨q, hq⟩
        simp [newPoints_of_empty hpts, hq]
      · exact absurd hpts (hold first)
      · rw [hpts, length_cons, length_cons] at hcnt
        omega
  · rfl

theorem ids_eq_of_equalsSorted {s ts : TouchState} (h : s.equalsSorted ts = true) :
    s.ids = ts.ids := by
  simp only [TouchState.equalsSorted, decide_eq_true_eq, all_eq_true] at h
  rcases h with ⟨hlen, -, -, hall⟩
  apply ext_getElem
  · simp [TouchState.ids, hlen]
  · intro i hi hi'
    simp only [TouchState.ids, length_map] at hi hi'
    have hpair := hall (ts.points[i], s.points[i]) (mem_iff_getElem.mpr
      ⟨i, by simp [hi, hi'], by simp⟩)
    simpa [TouchState.ids] using hpair.2.2.symm

theorem batches_eq {view : Nat} (hview : w.view = some view) (hseen : Seen w state)
    (hwin : newState.window =
      if state.window = none ∧ newState.points = [] then none else some w) :
    batches state newState = [] ∧ newState.ids = state.ids ∨
      batches state newState = [report w view state newState] := by
  rw [batches]
  split
  · rename_i hequal
    exact .inl ⟨rfl, ids_eq_of_equalsSorted hequal⟩
  · rcases hseen with hold | ⟨hold, hemp⟩
    · right
      simp [hwin, hold, hview, postUpdates_eq]
    · by_cases hpts : newState.points = []
      · left
        simp [hwin, hold, TouchState.ids, hpts, hemp]
      · rw [if_neg (fun h => hpts h.2)] at hwin
        right
        rw [if_pos (by simp [viewOf, hwin, hold, hview]), postAll_eq hwin hview, postAll,
          hold]
        simp [report, hemp, newPoints_of_empty hemp]

end

section

variable {w : MonocleWindow} {view : Nat} {state newState : TouchState}

theorem id_update {p : Point} (hid : 0 ≤ p.id) : (update w newState p).id = p.id := by
  rw [update]
  split
  · rename_i newPoint hfound
    have hsame : newPoint.id = p.id := TouchState.id_of_getPointForID hid hfound
    split <;> exact hsame
  · rfl

theorem ids_newPoints (hnewIds : ∀ id ∈ newState.ids, 0 ≤ id) :
    (newPoints state newState).map Point.id = newState.ids.filter fun id => id ∉ state.ids := by
  change _ = (newState.points.map Point.id).filter _
  rw [filter_map]
  congr 1
  apply filter_congr
  intro p hp
  have hid : 0 ≤ p.id := hnewIds p.id (mem_map_of_mem hp)
  rw [Bool.eq_iff_iff, Option.isNone_iff_eq_none, TouchState.getPointForID_eq_none_iff hid]
  simp

theorem ids_report (hids : ∀ id ∈ state.ids, 0 ≤ id) (hnewIds : ∀ id ∈ newState.ids, 0 ≤ id) :
    (report w view state newState).points.map PointEvent.id =
      state.ids ++ newState.ids.filter fun id => id ∉ state.ids := by
  have hupds : (state.points.map (update w newState)).map PointEvent.id = state.ids := by
    rw [map_map]
    apply map_congr_left
    intro p hp
    exact id_update (hids p.id (mem_map_of_mem hp))
  have hpressed : ((newPoints state newState).map (dispatchPoint w .pressed)).map PointEvent.id =
      (newPoints state newState).map Point.id := by
    rw [map_map]
    rfl
  rw [report, map_append, hupds, hpressed, ids_newPoints hnewIds]

theorem report_once (w : MonocleWindow) (view : Nat) (hids : ∀ id ∈ state.ids, 0 ≤ id)
    (hnewIds : ∀ id ∈ newState.ids, 0 ≤ id)
    (hnd : state.ids.Nodup) (hnewNodup : newState.ids.Nodup) :
    ReportsOnce (report w view state newState) state.ids newState.ids := by
  constructor
  · rw [ids_report hids hnewIds]
    apply hnd.append (hnewNodup.filter _)
    intro id hold hnew
    simp only [mem_filter, decide_eq_true_eq] at hnew
    exact hnew.2 hold
  · intro id
    rw [ids_report hids hnewIds]
    simp only [mem_append, mem_filter, decide_eq_true_eq]
    tauto

theorem state_update_of_mem (w : MonocleWindow) {p : Point} (hid : 0 ≤ p.id)
    (hmem : p.id ∈ newState.ids) :
    (update w newState p).state = .moved ∨ (update w newState p).state = .still := by
  rcases Option.isSome_iff_exists.mp ((TouchState.isSome_getPointForID hid).mpr hmem) with
    ⟨newPoint, hfound⟩
  simp only [update, hfound]
  split
  · exact .inr rfl
  · exact .inl rfl

theorem state_update_of_not_mem (w : MonocleWindow) {p : Point} (hid : 0 ≤ p.id)
    (hmem : p.id ∉ newState.ids) : (update w newState p).state = .released := by
  rw [update, (TouchState.getPointForID_eq_none_iff hid).mpr hmem]
  rfl

theorem filter_id_eq {events : List PointEvent} (hnd : (events.map PointEvent.id).Nodup)
    {e : PointEvent} (he : e ∈ events) : (events.filter fun e' => e'.id = e.id) = [e] := by
  induction events with
  | nil => simp at he
  | cons first events ih =>
    rw [map_cons, nodup_cons] at hnd
    rcases mem_cons.mp he with rfl | hrest
    · have hnone : (events.filter fun e' => e'.id = e.id) = [] := by
        rw [filter_eq_nil_iff]
        intro e' he' hid
        apply hnd.1
        rw [← of_decide_eq_true hid]
        exact mem_map_of_mem he'
      simp [hnone]
    · have hne : first.id ≠ e.id := by
        intro hid
        apply hnd.1
        rw [hid]
        exact mem_map_of_mem hrest
      simp [hne, ih hnd.2 hrest]

theorem eventsOf_singleton {batch : Batch} (hnd : (batch.points.map PointEvent.id).Nodup)
    {e : PointEvent} (he : e ∈ batch.points) : eventsOf e.id [batch] = [e.state] := by
  simp [eventsOf, filter_id_eq hnd he]

theorem eventsOf_eq_nil {batch : Batch} {id : Int}
    (hid : id ∉ batch.points.map PointEvent.id) : eventsOf id [batch] = [] := by
  have hnone : (batch.points.filter fun e => e.id = id) = [] := by
    rw [filter_eq_nil_iff]
    intro e he hsame
    apply hid
    rw [← of_decide_eq_true hsame]
    exact mem_map_of_mem he
  simp [eventsOf, hnone]

theorem follows_report (w : MonocleWindow) (view : Nat) {events : List EventType}
    (hids : ∀ id ∈ state.ids, 0 ≤ id) (hnewIds : ∀ id ∈ newState.ids, 0 ≤ id)
    (hnd : state.ids.Nodup)
    (hnewNodup : newState.ids.Nodup) {id : Int} (h : Follows events (id ∈ state.ids)) :
    Follows (events ++ eventsOf id [report w view state newState]) (id ∈ newState.ids) := by
  have honce := report_once w view hids hnewIds hnd hnewNodup
  by_cases hold : id ∈ state.ids
  · rcases mem_map.mp hold with ⟨p, hp, rfl⟩
    have hpositive := hids p.id hold
    have hmem : update w newState p ∈ (report w view state newState).points :=
      mem_append_left _ (mem_map_of_mem hp)
    have hevents := eventsOf_singleton honce.nodup hmem
    rw [id_update hpositive] at hevents
    rw [hevents]
    rw [decide_eq_true hold] at h
    by_cases hnew : p.id ∈ newState.ids
    · rw [decide_eq_true hnew]
      exact h.keep (state_update_of_mem w hpositive hnew)
    · rw [decide_eq_false hnew, state_update_of_not_mem w hpositive hnew]
      exact h.release
  · rw [decide_eq_false hold] at h
    by_cases hnew : id ∈ newState.ids
    · rcases mem_map.mp hnew with ⟨q, hq, rfl⟩
      have hmem : dispatchPoint w .pressed q ∈ (report w view state newState).points := by
        apply mem_append_right
        apply mem_map_of_mem
        apply mem_filter.mpr
        refine ⟨hq, ?_⟩
        rw [(TouchState.getPointForID_eq_none_iff (hnewIds q.id hnew)).mpr hold]
        rfl
      have hevents := eventsOf_singleton honce.nodup hmem
      change eventsOf q.id _ = [.pressed] at hevents
      rw [hevents, decide_eq_true hnew]
      exact h.press
    · have hnone : id ∉ (report w view state newState).points.map PointEvent.id := by
        rw [honce.mem]
        tauto
      rw [eventsOf_eq_nil hnone, append_nil, decide_eq_false hnew]
      exact h

end

structure Tracks (w : MonocleWindow) (lastIds : List Int) (t : TouchInput) : Prop where
  distinct : t.state.ids.Nodup
  current : t.state.ids.Perm lastIds
  nonneg : ∀ id ∈ t.state.ids, 0 ≤ id
  seen : Seen w t.state
  follows : ∀ id, Follows (eventsOf id t.posted) (id ∈ t.state.ids)

section

variable {w : MonocleWindow} {view : Nat} {t : TouchInput} {lastIds : List Int}
  {newState : TouchState}

theorem tracks_start (w : MonocleWindow) : Tracks w [] start where
  distinct := nodup_nil
  current := List.Perm.nil
  nonneg := by simp [start, TouchState.new, TouchState.ids]
  seen := .inr ⟨rfl, rfl⟩
  follows _ := ⟨[], [], by simp, by simp, rfl⟩

theorem setState_spec (hview : w.view = some view) (h : Tracks w lastIds t)
    (hnew : OnWindow w newState) (hids : ∀ id ∈ newState.ids, 0 ≤ id) :
    Tracks w newState.ids (t.setState [w] newState) ∧
      ∃ added, (t.setState [w] newState).posted = t.posted ++ added ∧
        ∀ batch ∈ added, ReportsOnce batch lastIds newState.ids := by
  let prepared := prepare [w] t.state newState
  have hperm : prepared.ids.Perm newState.ids := ids_prepare [w] t.state newState
  have hpreparedIds : ∀ id ∈ prepared.ids, 0 ≤ id := fun id hid => hids id (hperm.mem_iff.mp hid)
  have hpreparedNodup : prepared.ids.Nodup := hperm.nodup_iff.mpr hnew.distinct
  have hemp : prepared.points = [] ↔ newState.points = [] := by
    have hlen := hperm.length_eq
    rw [TouchState.ids, TouchState.ids, length_map, length_map] at hlen
    rw [← length_eq_zero_iff, hlen, length_eq_zero_iff]
  have hwin : prepared.window =
      if t.state.window = none ∧ prepared.points = [] then none else some w := by
    simp only [hemp]
    exact window_prepare h.seen hnew hids
  have hseen : Seen w prepared := by
    by_cases hnone : t.state.window = none ∧ prepared.points = []
    · rw [if_pos hnone] at hwin
      exact .inr ⟨hwin, hnone.2⟩
    · rw [if_neg hnone] at hwin
      exact .inl hwin
  have hposted := batches_eq hview h.seen hwin
  refine ⟨⟨hpreparedNodup, hperm, hpreparedIds, hseen, ?_⟩, batches t.state prepared, rfl, ?_⟩
  · intro id
    change Follows (eventsOf id (t.posted ++ batches t.state prepared)) (id ∈ prepared.ids)
    rw [eventsOf_append]
    rcases hposted with ⟨hnone, hsame⟩ | hone
    · rw [hnone, hsame]
      exact (append_nil (eventsOf id t.posted)).symm ▸ h.follows id
    · rw [hone]
      exact follows_report w view h.nonneg hpreparedIds h.distinct hpreparedNodup (h.follows id)
  · intro batch hbatch
    rcases hposted with ⟨hnone, -⟩ | hone
    · rw [hnone] at hbatch
      simp at hbatch
    · rw [hone, mem_singleton] at hbatch
      subst hbatch
      have honce := report_once w view h.nonneg hpreparedIds h.distinct hpreparedNodup
      refine ⟨honce.nodup, ?_⟩
      intro id
      rw [honce.mem, h.current.mem_iff, hperm.mem_iff]

def lastIdsOf (states : List TouchState) : List Int := (states.getLast?.map TouchState.ids).getD []

theorem run_concat (windows : List MonocleWindow) (states : List TouchState) (s : TouchState) :
    run windows (states ++ [s]) = (run windows states).setState windows s := by
  simp [run]

theorem tracks_run (hview : w.view = some view) (states : List TouchState)
    (hstates : ∀ s ∈ states, OnWindow w s ∧ ∀ id ∈ s.ids, 0 ≤ id) :
    Tracks w (lastIdsOf states) (run [w] states) := by
  induction states using List.reverseRecOn with
  | nil => exact tracks_start w
  | append_singleton states s ih =>
    have hs := hstates s (by simp)
    have hbef := ih fun s' hs' => hstates s' (mem_append_left _ hs')
    have hlast : lastIdsOf (states ++ [s]) = s.ids := by simp [lastIdsOf]
    rw [run_concat, hlast]
    exact (setState_spec hview hbef hs.1 hs.2).1

end

/-- What is to hold once a further state has been set: for each id, what was posted is a sequence
of sessions, with a session left open exactly if the id is in the new state; and each batch that
was posted for the new state has each id of the old and of the new state once. -/
def Valid (windows : List MonocleWindow) (states : List TouchState) (newState : TouchState) :
    Prop :=
  (∀ id, Follows (eventsOf id (run windows (states ++ [newState])).posted)
    (id ∈ newState.ids)) ∧
  ∃ added, (run windows (states ++ [newState])).posted = (run windows states).posted ++ added ∧
    ∀ batch ∈ added, ReportsOnce batch (lastIdsOf states) newState.ids

/-- As long as no id is negative, touch events form a valid protocol on a window that covers the
screen. -/
theorem valid_of_nonneg {w : MonocleWindow} {view : Nat} (hview : w.view = some view)
    (states : List TouchState) (newState : TouchState)
    (hstates : ∀ s ∈ states ++ [newState], OnWindow w s ∧ ∀ id ∈ s.ids, 0 ≤ id) :
    Valid [w] states newState := by
  have hnew := hstates newState (by simp)
  have hbefore := tracks_run hview states fun s hs => hstates s (mem_append_left _ hs)
  have hspec := setState_spec hview hbefore hnew.1 hnew.2
  rw [Valid, run_concat]
  refine ⟨?_, hspec.2⟩
  intro id
  have hfollows := hspec.1.follows id
  rw [decide_eq_decide.mpr hspec.1.current.mem_iff] at hfollows
  exact hfollows

def screenWindow : MonocleWindow := ⟨1, 0, 0, 640, 480, true, some 1⟩

def oneTouch (id : Int) : TouchState := ⟨[⟨id, 10, 20⟩], -1, none⟩

theorem onWindow_oneTouch (id : Int) : OnWindow screenWindow (oneTouch id) := by
  refine ⟨?_, ?_, .inl rfl⟩
  · simp [oneTouch, TouchState.ids]
  · intro p hp
    rw [mem_singleton.mp hp]
    rfl

theorem valid_of_nonneg_two_touches :
    (∀ s ∈ [oneTouch 1] ++ [oneTouch 2],
      OnWindow screenWindow s ∧ ∀ id ∈ s.ids, 0 ≤ id) ∧
    Valid [screenWindow] [oneTouch 1] (oneTouch 2) := by
  have hstates : ∀ s ∈ [oneTouch 1] ++ [oneTouch 2],
      OnWindow screenWindow s ∧ ∀ id ∈ s.ids, 0 ≤ id := by
    intro s hs
    simp only [cons_append, nil_append, mem_cons, not_mem_nil, or_false] at hs
    rcases hs with rfl | rfl
    · exact ⟨onWindow_oneTouch 1, by decide⟩
    · exact ⟨onWindow_oneTouch 2, by decide⟩
  exact ⟨hstates, valid_of_nonneg rfl [oneTouch 1] (oneTouch 2) hstates⟩

/-- A point with a negative id is no primary point, so that no window is found for it and no event
is posted. -/
theorem negative_id_not_posted :
    ¬(∀ (w : MonocleWindow) (view : Nat) (states : List TouchState) (newState : TouchState),
      w.view = some view → (∀ s ∈ states ++ [newState], OnWindow w s) →
        Valid [w] states newState) ∧
    ¬Valid [screenWindow] [] (oneTouch (-1)) ∧ ¬Valid [screenWindow] [] (oneTouch (-2)) := by
  have hnone : ∀ id, (run [screenWindow] ([] ++ [oneTouch id])).posted = [] →
      ¬Valid [screenWindow] [] (oneTouch id) := by
    rintro id hposted ⟨hfollows, -⟩
    have hdown := hfollows id
    rw [hposted, decide_eq_true (by simp [oneTouch, TouchState.ids])] at hdown
    rcases hdown with ⟨sessions, middle, -, -, hevents⟩
    simp [eventsOf] at hevents
  have hfirst := hnone (-1) (by decide)
  refine ⟨?_, hfirst, hnone (-2) (by decide)⟩
  intro h
  apply hfirst
  apply h screenWindow 1 [] _ rfl
  intro s hs
  rw [nil_append, mem_singleton] at hs
  exact hs ▸ onWindow_oneTouch (-1)

end TouchInput

end OpenJfx.Monocle
