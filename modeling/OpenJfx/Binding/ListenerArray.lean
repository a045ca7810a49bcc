import OpenJfx.Java.Arrays

/-!
The arrays in which the `Generic` helpers of `ListListenerHelper` and
`ExpressionHelper` keep their listeners. The two classes treat both of their
arrays in the same way, so each operation is modelled once. An edit also tells
whether it has put a new array in place of the old one.
-/

namespace OpenJfx.Binding.ListenerArray

open Java.Arrays List

variable {L : Type}

structure Listeners (L : Type) where
  array : Option (List (Option L))
  size : Nat

structure Edited (L : Type) where
  array : List (Option L)
  size : Nat
  copied : Bool

/-- The test of `trim`; a null slot is no listener. -/
def isCollected (wasGarbageCollected : L → Bool) : Option L → Bool
  | some listener => wasGarbageCollected listener
  | none => false

/-- The first loop of `trim`: how far there is nothing to drop. -/
def findCollected (wasGarbageCollected : L → Bool) (listeners : List (Option L)) :
    Nat → Nat → Outcome Nat
  | 0, index => .ok index
  | count + 1, index => do
    let listener ← load listeners index
    if isCollected wasGarbageCollected listener then .ok index
    else findCollected wasGarbageCollected listeners count (index + 1)

/-- The second loop of `trim`: the listeners that stay move up. -/
def moveUp (wasGarbageCollected : L → Bool) :
    Nat → Nat → Nat → List (Option L) → Outcome (Nat × List (Option L))
  | 0, _, index, listeners => .ok (index, listeners)
  | count + 1, src, index, listeners => do
    let listener ← load listeners src
    if isCollected wasGarbageCollected listener then
      moveUp wasGarbageCollected count (src + 1) index listeners
    else do
      let listeners ← store listeners index listener
      moveUp wasGarbageCollected count (src + 1) (index + 1) listeners

/-- The last loop of `trim`. -/
def clearSlots : Nat → Nat → List (Option L) → Outcome (List (Option L))
  | 0, _, listeners => .ok listeners
  | count + 1, index, listeners => do
    let listeners ← store listeners index none
    clearSlots count (index + 1) listeners

def trim (wasGarbageCollected : L → Bool) (size : Nat) (listeners : List (Option L)) :
    Outcome (Nat × List (Option L)) := do
  let index ← findCollected wasGarbageCollected listeners size 0
  if index < size then do
    let (newSize, listeners) ←
      moveUp wasGarbageCollected (size - (index + 1)) (index + 1) index listeners
    let listeners ← clearSlots (size - newSize) newSize listeners
    .ok (newSize, listeners)
  else .ok (size, listeners)

def grownCapacity (oldCapacity : Nat) : Nat := oldCapacity * 3 / 2 + 1

/-- The part of `addListener` that finds room for one more listener. -/
def makeRoom (locked : Bool) (wasGarbageCollected : L → Bool) (size : Nat)
    (listeners : List (Option L)) : Outcome (Edited L) :=
  let oldCapacity := listeners.length
  if locked then
    let newCapacity := if size < oldCapacity then oldCapacity else grownCapacity oldCapacity
    .ok ⟨copyOf none listeners newCapacity, size, true⟩
  else if size = oldCapacity then do
    let (size, listeners) ← trim wasGarbageCollected size listeners
    if size = oldCapacity then
      .ok ⟨copyOf none listeners (grownCapacity oldCapacity), size, true⟩
    else .ok ⟨listeners, size, false⟩
  else .ok ⟨listeners, size, false⟩

def addListener (locked : Bool) (wasGarbageCollected : L → Bool) (l : Listeners L) (listener : L) :
    Outcome (Edited L) :=
  match l.array with
  | none => .ok ⟨[some listener], 1, true⟩
  | some array => do
    let room ← makeRoom locked wasGarbageCollected l.size array
    let array ← store room.array room.size (some listener)
    .ok ⟨array, room.size + 1, room.copied⟩

/-- The search loop of `removeListener`; `listener.equals(null)` is false. -/
def findListener (equals : L → L → Bool) (listener : L) (listeners : List (Option L)) :
    Nat → Nat → Outcome (Option Nat)
  | 0, _ => .ok none
  | count + 1, index => do
    match ← load listeners index with
    | some other =>
      if equals listener other then .ok (some index)
      else findListener equals listener listeners count (index + 1)
    | none => findListener equals listener listeners count (index + 1)

def startShift (locked : Bool) (index : Nat) (oldListeners : List (Option L)) :
    Outcome (List (Option L)) :=
  if locked then arraycopy oldListeners 0 (List.replicate oldListeners.length none) 0 index
  else .ok oldListeners

def shiftRest (size index : Nat) (oldListeners listeners : List (Option L)) :
    Outcome (List (Option L)) :=
  let numMoved : Int := size - index - 1
  if 0 < numMoved then arraycopy oldListeners (index + 1) listeners index numMoved
  else .ok listeners

/-- The part of `removeListener` that takes one of at least two listeners out. -/
def removeAt (locked : Bool) (size index : Nat) (oldListeners : List (Option L)) :
    Outcome (Edited L) := do
  let listeners ← startShift locked index oldListeners
  let listeners ← shiftRest size index oldListeners listeners
  if locked then .ok ⟨listeners, size - 1, true⟩
  else do
    let listeners ← store listeners (size - 1 : Nat) none
    .ok ⟨listeners, size - 1, false⟩

/-- What `removeListener` of a `Generic` helper finds out about one of its arrays. -/
inductive Removal (L : Type)
  | absent
  | onlyOther
  | emptied
  | single (listener : L)
  | edited (listeners : Edited L)

/-- The listener in a slot, as it is handed to a new helper. -/
def listenerAt (listeners : List (Option L)) (index : Int) : Outcome L := do
  match ← load listeners index with
  | some listener => .ok listener
  | none => .error .nullPointer

def removeListener (equals : L → L → Bool) (locked : Bool) (l : Listeners L) (otherSize : Nat)
    (listener : L) : Outcome (Removal L) :=
  match l.array with
  | none => .ok .absent
  | some array => do
    match ← findListener equals listener array l.size 0 with
    | none => .ok .absent
    | some index =>
      if l.size = 1 then
        if otherSize = 1 then .ok .onlyOther else .ok .emptied
      else if l.size = 2 ∧ otherSize = 0 then do
        let remaining ← listenerAt array (1 - index)
        .ok (.single remaining)
      else do
        let listeners ← removeAt locked l.size index array
        .ok (.edited listeners)

theorem findCollected_spec (wasGarbageCollected : L → Bool) (rest : List (Option L))
    (todo : List L) :
    ∀ front : List L, ∃ live dead, todo = live ++ dead ∧
      (∀ x ∈ live, wasGarbageCollected x = false) ∧
      (∀ x ∈ dead.head?, wasGarbageCollected x = true) ∧
      findCollected wasGarbageCollected ((front ++ todo).map some ++ rest) todo.length
        front.length = .ok (front.length + live.length) := by
  induction todo with
  | nil =>
    intro front
    exact ⟨[], [], rfl, by simp, by simp, rfl⟩
  | cons x todo ih =>
    intro front
    have hload : load ((front ++ x :: todo).map some ++ rest) (front.length : Int) =
        .ok (some x) := by
      have := load_append (front.map some) (todo.map some ++ rest) (some x)
      rw [length_map] at this
      simpa only [map_append, map_cons, append_assoc, cons_append] using this
    rw [length_cons, findCollected, hload, ok_bind]
    by_cases hx : wasGarbageCollected x
    · exact ⟨[], x :: todo, rfl, by simp, by simpa using hx, by
        rw [isCollected, if_pos hx, length_nil, Nat.add_zero]⟩
    · obtain ⟨live, dead, rfl, hlive, hdead, hfind⟩ := ih (front ++ [x])
      refine ⟨x :: live, dead, rfl, ?_, hdead, ?_⟩
      · simpa [hx] using hlive
      · rw [isCollected, if_neg hx]
        simpa [Nat.add_assoc, Nat.add_comm 1] using hfind

theorem moveUp_spec (wasGarbageCollected : L → Bool) (rest : List (Option L)) (todo : List L) :
    ∀ (kept : List L) (free : List (Option L)), free ≠ [] →
      ∃ free', moveUp wasGarbageCollected todo.length (kept.length + free.length) kept.length
          (kept.map some ++ free ++ todo.map some ++ rest) =
          .ok ((kept ++ todo.filter (!wasGarbageCollected ·)).length,
            (kept ++ todo.filter (!wasGarbageCollected ·)).map some ++ free' ++ rest) ∧
        (kept ++ todo.filter (!wasGarbageCollected ·)).length + free'.length =
          kept.length + free.length + todo.length := by
  induction todo with
  | nil =>
    intro kept free _
    exact ⟨free, by simp [moveUp], by simp⟩
  | cons x todo ih =>
    intro kept free hfree
    have hload : load (kept.map some ++ free ++ (x :: todo).map some ++ rest)
        ((kept.length + free.length : Nat) : Int) = .ok (some x) := by
      simpa using load_append (kept.map some ++ free) (todo.map some ++ rest) (some x)
    rw [length_cons, moveUp, hload, ok_bind]
    by_cases hx : wasGarbageCollected x
    · obtain ⟨free', hrun, hlen⟩ := ih kept (free ++ [some x]) (by simp)
      refine ⟨free', ?_, ?_⟩
      · rw [isCollected, if_pos hx]
        simpa [hx, Nat.add_assoc] using hrun
      · simp only [length_append, length_cons, length_nil] at hlen ⊢
        simp only [filter_cons, hx, Bool.not_true]
        simp only [Bool.false_eq_true, if_false]
        omega
    · rcases free with _ | ⟨old, free⟩
      · exact absurd rfl hfree
      have hstore : store (kept.map some ++ old :: free ++ (x :: todo).map some ++ rest)
          (kept.length : Int) (some x) =
          .ok ((kept ++ [x]).map some ++ (free ++ [some x]) ++ todo.map some ++ rest) := by
        simpa using store_append (kept.map some) (free ++ some x :: (todo.map some ++ rest)) old
          (some x)
      obtain ⟨free', hrun, hlen⟩ := ih (kept ++ [x]) (free ++ [some x]) (by simp)
      refine ⟨free', ?_, ?_⟩
      · rw [isCollected, if_neg hx, hstore, ok_bind]
        simpa [hx, Nat.add_assoc, Nat.add_comm 1] using hrun
      · simp only [length_append, length_cons, length_nil] at hlen ⊢
        simp only [filter_cons, hx, Bool.not_false, if_true, length_cons]
        omega

theorem clearSlots_spec (front rest : List (Option L)) (free : List (Option L)) :
    clearSlots free.length front.length (front ++ free ++ rest) =
      .ok (front ++ List.replicate free.length none ++ rest) := by
  induction free generalizing front with
  | nil => simp [clearSlots]
  | cons x free ih =>
    have hstore := store_append front (free ++ rest) x none
    rw [length_cons, clearSlots, append_assoc, cons_append, hstore]
    have := ih (front ++ [none])
    simpa [replicate_succ] using this

theorem trim_spec (wasGarbageCollected : L → Bool) (l : List L) (rest : List (Option L)) :
    trim wasGarbageCollected l.length (l.map some ++ rest) =
      .ok ((l.filter (!wasGarbageCollected ·)).length,
        (l.filter (!wasGarbageCollected ·)).map some ++
          List.replicate (l.length - (l.filter (!wasGarbageCollected ·)).length) none ++ rest) := by
  obtain ⟨live, dead, rfl, hlive, hdead, hfind⟩ := findCollected_spec wasGarbageCollected rest l []
  have hfilter : live.filter (!wasGarbageCollected ·) = live :=
    filter_eq_self.mpr fun x hx => by simp [hlive x hx]
  simp only [nil_append, length_nil, Nat.zero_add] at hfind
  rw [trim, hfind, ok_bind, filter_append, hfilter]
  rcases dead with _ | ⟨x, dead⟩
  · simp
  · have hx : wasGarbageCollected x = true := hdead x (by simp)
    obtain ⟨free, hrun, hlen⟩ :=
      moveUp_spec wasGarbageCollected rest dead live [some x] (by simp)
    have hcnt : (live ++ x :: dead).length - (live.length + 1) = dead.length := by
      simp only [length_append, length_cons]
      omega
    have harray : (live ++ x :: dead).map some ++ rest =
        live.map some ++ [some x] ++ dead.map some ++ rest := by simp
    have hkept : (x :: dead).filter (!wasGarbageCollected ·) =
        dead.filter (!wasGarbageCollected ·) := by simp [hx]
    have hfree : (live ++ x :: dead).length -
        (live ++ dead.filter (!wasGarbageCollected ·)).length = free.length := by
      simp only [length_append, length_cons, length_nil] at hlen ⊢
      omega
    rw [length_singleton] at hrun
    rw [if_pos (by simp), hcnt, harray, hrun, ok_bind, hkept]
    have hclear :=
      clearSlots_spec ((live ++ dead.filter (!wasGarbageCollected ·)).map some) rest free
    rw [length_map] at hclear
    simp only [hfree]
    rw [hclear, ok_bind]

theorem lt_grownCapacity (n : Nat) : n < grownCapacity n := by
  rw [grownCapacity]
  omega

theorem copyOf_append (l : List L) (rest : List (Option L)) {newCapacity : Nat}
    (h : l.length < newCapacity) :
    ∃ rest', copyOf none (l.map some ++ rest) newCapacity = l.map some ++ rest' ∧ rest' ≠ [] := by
  refine ⟨rest.take (newCapacity - l.length) ++
    List.replicate (newCapacity - (l.map some ++ rest).length) none, ?_, ?_⟩
  · rw [copyOf, take_append, take_of_length_le (by simpa using h.le), append_assoc,
      length_map]
  · intro hnil
    have hlen := congrArg List.length hnil
    simp only [length_append, length_take, length_replicate, length_map,
      length_nil] at hlen
    omega

theorem makeRoom_spec (locked : Bool) (wasGarbageCollected : L → Bool) (l : List L)
    (rest : List (Option L)) :
    ∃ l' rest' copied, makeRoom locked wasGarbageCollected l.length (l.map some ++ rest) =
        .ok ⟨l'.map some ++ rest', l'.length, copied⟩ ∧ rest' ≠ [] ∧
      (l' = l ∨ l' = l.filter (!wasGarbageCollected ·)) ∧ (locked = true → copied = true) ∧
      (copied = false → l' = l ∧ rest' = rest ∨
        rest = [] ∧ l' = l.filter (!wasGarbageCollected ·) ∧
          rest' = List.replicate (l.length - l'.length) none) := by
  simp only [makeRoom]
  cases locked with
  | true =>
    have hroom : l.length < if l.length < (l.map some ++ rest).length
        then (l.map some ++ rest).length else grownCapacity (l.map some ++ rest).length := by
      have := lt_grownCapacity (l.map some ++ rest).length
      simp only [length_append, length_map] at this ⊢
      split <;> omega
    obtain ⟨rest', hcopy, hrest'⟩ := copyOf_append l rest hroom
    exact ⟨l, rest', true, by rw [if_pos rfl, hcopy], hrest', .inl rfl, fun _ => rfl, by simp⟩
  | false =>
    rw [if_neg (by simp)]
    rcases rest with _ | ⟨slot, rest⟩
    · rw [if_pos (by simp), trim_spec, ok_bind]
      simp only [append_nil, length_map]
      by_cases hfull : (l.filter (!wasGarbageCollected ·)).length = l.length
      · have hself : l.filter (!wasGarbageCollected ·) = l :=
          filter_sublist.eq_of_length hfull
        obtain ⟨rest', hcopy, hrest'⟩ := copyOf_append l [] (lt_grownCapacity l.length)
        refine ⟨l, rest', true, ?_, hrest', .inl rfl, by simp, by simp⟩
        rw [hself]
        simpa using hcopy
      · refine ⟨l.filter (!wasGarbageCollected ·), _, false, by rw [if_neg hfull], ?_, .inr rfl,
          by simp, fun _ => .inr ⟨trivial, rfl, rfl⟩⟩
        have := length_filter_le (!wasGarbageCollected ·) l
        intro hnil
        have hlen := congrArg List.length hnil
        simp only [length_replicate, length_nil] at hlen
        omega
    · rw [if_neg (by simp)]
      exact ⟨l, slot :: rest, false, rfl, by simp, .inl rfl, by simp, fun _ => .inl ⟨rfl, rfl⟩⟩

/-- The listeners `ls` are registered, in this order. -/
def Listeners.Represents (l : Listeners L) (ls : List L) : Prop :=
  l.size = ls.length ∧
    match l.array with
    | none => ls = []
    | some array => ∃ rest, array = ls.map some ++ rest

variable {ls : List L}

theorem split_of_findIdx? {p : L → Bool} {k : Nat} (h : ls.findIdx? p = some k) :
    ∃ front x back, ls = front ++ x :: back ∧ k = front.length ∧ ls.eraseP p = front ++ back := by
  induction ls generalizing k with
  | nil => simp at h
  | cons y ls ih =>
    rw [findIdx?_cons] at h
    by_cases hy : p y
    · rw [if_pos hy] at h
      exact ⟨[], y, ls, rfl, (Option.some.inj h).symm, by simp [hy]⟩
    · rw [if_neg hy] at h
      obtain ⟨k', hk', rfl⟩ := Option.map_eq_some_iff.mp h
      obtain ⟨front, x, back, rfl, rfl, herase⟩ := ih hk'
      exact ⟨y :: front, x, back, rfl, rfl, by simp [hy, herase]⟩

theorem eraseP_of_findIdx? {p : L → Bool} (h : ls.findIdx? p = none) :
    ls.eraseP p = ls := by
  refine eraseP_of_forall_not fun x hx => ?_
  simpa using findIdx?_eq_none_iff.mp h x hx

theorem findListener_spec (equals : L → L → Bool) (listener : L) (rest : List (Option L))
    (todo : List L) :
    ∀ front : List L, findListener equals listener ((front ++ todo).map some ++ rest) todo.length
        front.length = .ok ((todo.findIdx? (equals listener)).map (front.length + ·)) := by
  induction todo with
  | nil =>
    intro front
    rfl
  | cons x todo ih =>
    intro front
    have hload : load ((front ++ x :: todo).map some ++ rest) (front.length : Int) =
        .ok (some x) := by
      have := load_append (front.map some) (todo.map some ++ rest) (some x)
      rw [length_map] at this
      simpa only [map_append, map_cons, append_assoc, cons_append] using this
    rw [length_cons, findListener, hload, ok_bind]
    by_cases hx : equals listener x
    · simp [hx, findIdx?_cons]
    · have := ih (front ++ [x])
      simp only [hx, findIdx?_cons]
      simp only [append_assoc, cons_append, nil_append, length_append,
        length_cons, length_nil] at this
      simp only [Bool.false_eq_true, if_false, this, Option.map_map]
      congr 2
      funext k
      simp only [Function.comp_apply]
      omega

theorem shiftRest_spec (front back : List L) (x : L) (rest free : List (Option L))
    (hfree : free.length = back.length + 1 + rest.length) :
    shiftRest (front ++ x :: back).length front.length ((front ++ x :: back).map some ++ rest)
        (front.map some ++ free) =
      .ok ((front ++ back).map some ++ free.drop back.length) := by
  have hmoved : (((front ++ x :: back).length : Nat) : Int) - front.length - 1 = back.length := by
    simp only [length_append, length_cons]
    omega
  rw [shiftRest]
  simp only [hmoved]
  by_cases hback : 0 < (back.length : Int)
  · have hsrc : ((front ++ x :: back).map some ++ rest).drop ((front.length : Int) + 1).toNat =
        back.map some ++ rest := by
      have hpos : ((front.length : Int) + 1).toNat = (front.map some ++ [some x]).length := by
        simp only [length_append, length_map, length_singleton]
        omega
      have hsplit : (front ++ x :: back).map some ++ rest =
          (front.map some ++ [some x]) ++ (back.map some ++ rest) := by simp
      rw [hpos, hsplit, drop_left]
    have htake : (back.map some ++ rest).take (back.length : Int).toNat = back.map some := by
      simp
    have hdrop : (front.map some ++ free).drop ((front.length : Int) + back.length).toNat =
        free.drop back.length := by
      have hpos : ((front.length : Int) + back.length).toNat =
          (front.map some).length + back.length := by
        rw [length_map]
        omega
      rw [hpos, drop_length_add_append]
    have hfront : (front.map some ++ free).take ((front.length : Int)).toNat = front.map some := by
      simp
    rw [if_pos hback, arraycopy, if_pos (by
      simp only [length_append, length_map, length_cons]
      omega), hsrc, htake, hdrop, hfront, map_append]
  · have hnil : back = [] := eq_nil_of_length_eq_zero (by omega)
    rw [hnil]
    simp

theorem removeAt_spec (locked : Bool) (front back : List L) (x : L) (rest : List (Option L)) :
    ∃ rest', removeAt locked (front ++ x :: back).length front.length
        ((front ++ x :: back).map some ++ rest) =
        .ok ⟨(front ++ back).map some ++ rest', (front ++ back).length, locked⟩ ∧
      (locked = false → rest' = none :: rest) := by
  have hsize : (front ++ x :: back).length - 1 = (front ++ back).length := by
    simp only [length_append, length_cons]
    omega
  cases locked with
  | true =>
    have hstart : startShift true front.length ((front ++ x :: back).map some ++ rest) =
        .ok (front.map some ++ List.replicate (back.length + 1 + rest.length) none) := by
      rw [startShift, if_pos rfl, arraycopy, if_pos (by
        simp only [length_append, length_map, length_replicate]
        omega)]
      have hlen : ((front ++ x :: back).map some ++ rest).length =
          front.length + (back.length + 1 + rest.length) := by
        simp only [length_append, length_map, length_cons]
        omega
      rw [hlen]
      simp
    refine ⟨(List.replicate (back.length + 1 + rest.length) none).drop back.length, ?_, by simp⟩
    rw [removeAt, hstart, ok_bind, shiftRest_spec front back x rest _ (by simp), ok_bind,
      if_pos rfl, hsize]
  | false =>
    have hstart : startShift false front.length ((front ++ x :: back).map some ++ rest) =
        .ok (front.map some ++ (some x :: back.map some ++ rest)) := by
      rw [startShift]
      simp
    obtain ⟨last, hlast⟩ : ∃ last, (some x :: back.map some ++ rest).drop back.length =
        last :: rest := by
      have hdrop := drop_length_sub_one (l := some x :: back.map some) (by simp)
      rw [length_cons, length_map, Nat.add_sub_cancel] at hdrop
      exact ⟨_, by rw [drop_append_of_le_length (by simp), hdrop, singleton_append]⟩
    refine ⟨none :: rest, ?_, fun _ => rfl⟩
    rw [removeAt, hstart, ok_bind, shiftRest_spec front back x rest _ (by simp; omega), ok_bind,
      if_neg (by simp), hsize, hlast]
    have := store_append ((front ++ back).map some) rest last none
    rw [length_map] at this
    rw [this, ok_bind]

theorem addListener_spec (locked : Bool) (wasGarbageCollected : L → Bool) {l : Listeners L}
    (h : l.Represents ls) (listener : L) :
    ∃ ls' rest copied, addListener locked wasGarbageCollected l listener =
        .ok ⟨(ls' ++ [listener]).map some ++ rest, ls'.length + 1, copied⟩ ∧
      (ls' = ls ∨ ls' = ls.filter (!wasGarbageCollected ·)) := by
  obtain ⟨hsize, harray⟩ := h
  rcases hl : l.array with _ | array
  · simp only [hl] at harray
    subst harray
    exact ⟨[], [], true, by simp [addListener, hl], .inl rfl⟩
  · simp only [hl] at harray
    obtain ⟨rest, rfl⟩ := harray
    obtain ⟨ls', rest', copied, hroom, hrest', hls', -, -⟩ :=
      makeRoom_spec locked wasGarbageCollected ls rest
    rcases rest' with _ | ⟨slot, rest'⟩
    · exact absurd rfl hrest'
    refine ⟨ls', rest', copied, ?_, hls'⟩
    have hstore := store_append (ls'.map some) rest' slot (some listener)
    rw [length_map] at hstore
    simp only [addListener, hl, hsize, hroom, ok_bind, hstore]
    simp

/-- What the answer of `removeListener` says about the remaining listeners. -/
def Removal.Leaves (otherSize : Nat) (before after : List L) : Removal L → Prop
  | .absent => after = before
  | .onlyOther => after = [] ∧ otherSize = 1
  | .emptied => after = []
  | .single listener => after = [listener] ∧ otherSize = 0
  | .edited e => e.size = after.length ∧ ∃ rest, e.array = after.map some ++ rest

theorem removeListener_spec (equals : L → L → Bool) (locked : Bool) {l : Listeners L}
    (h : l.Represents ls) (otherSize : Nat) (listener : L) :
    ∃ removal, removeListener equals locked l otherSize listener = .ok removal ∧
      removal.Leaves otherSize ls (ls.eraseP (equals listener)) := by
  obtain ⟨hsize, harray⟩ := h
  rcases hl : l.array with _ | array
  · simp only [hl] at harray
    subst harray
    exact ⟨.absent, by simp [removeListener, hl], rfl⟩
  · simp only [hl] at harray
    obtain ⟨rest, rfl⟩ := harray
    have hfind := findListener_spec equals listener rest ls []
    simp only [nil_append, length_nil, Nat.zero_add, Option.map_id_fun', id_eq] at hfind
    simp only [removeListener, hl, hsize, hfind, ok_bind]
    rcases hidx : ls.findIdx? (equals listener) with _ | index
    · exact ⟨.absent, rfl, eraseP_of_findIdx? hidx⟩
    · obtain ⟨front, x, back, rfl, rfl, herase⟩ := split_of_findIdx? hidx
      simp only [herase]
      by_cases hone : (front ++ x :: back).length = 1
      · have hnil : front ++ back = [] := by
          refine eq_nil_of_length_eq_zero ?_
          simp only [length_append, length_cons] at hone ⊢
          omega
        rw [if_pos hone, hnil]
        by_cases hother : otherSize = 1
        · exact ⟨.onlyOther, if_pos hother, rfl, hother⟩
        · exact ⟨.emptied, if_neg hother, rfl⟩
      · rw [if_neg hone]
        by_cases htwo : (front ++ x :: back).length = 2 ∧ otherSize = 0
        · rw [if_pos htwo]
          simp only [length_append] at htwo
          rcases front with _ | ⟨y, front⟩
          · rcases back with _ | ⟨z, back⟩
            · simp at htwo
            · obtain rfl : back = [] := eq_nil_of_length_eq_zero (by
                simp only [length_cons] at htwo
                omega)
              exact ⟨.single z, rfl, rfl, htwo.2⟩
          · obtain rfl : front = [] := eq_nil_of_length_eq_zero (by
              simp only [length_cons] at htwo
              omega)
            obtain rfl : back = [] := eq_nil_of_length_eq_zero (by
              simp only [length_cons] at htwo
              omega)
            exact ⟨.single y, rfl, rfl, htwo.2⟩
        · obtain ⟨rest', hremove, -⟩ := removeAt_spec locked front back x rest
          refine ⟨.edited _, by rw [if_neg htwo, hremove, ok_bind], rfl, rest', rfl⟩

end OpenJfx.Binding.ListenerArray
