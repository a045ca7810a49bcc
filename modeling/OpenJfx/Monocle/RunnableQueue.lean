import OpenJfx.Java.Arrays

namespace OpenJfx.Monocle

open Java.Arrays List

/-- The runnables that wait for the event thread, in an array that is used as a ring. -/
structure RunnableQueue (R : Type) where
  queue : List (Option R)
  start : Nat
  count : Nat

namespace RunnableQueue

variable {R : Type}

def new : RunnableQueue R := ⟨List.replicate 32 none, 0, 0⟩

def modulo (q : RunnableQueue R) (index : Nat) : Nat :=
  if q.queue.length ≤ index then index - q.queue.length else index

/-- The array is replaced by a larger one when all its slots are in use. -/
def grow (q : RunnableQueue R) : Outcome (RunnableQueue R) := do
  let newQueue := List.replicate (q.queue.length * 3 / 2) none
  let newQueue ← arraycopy q.queue q.start newQueue 0 (q.queue.length - q.start)
  let newQueue ← arraycopy q.queue 0 newQueue (q.queue.length - q.start) q.start
  .ok { q with queue := newQueue, start := 0 }

def postRunnable (q : RunnableQueue R) (r : R) : Outcome (RunnableQueue R) := do
  let q ← if q.count = q.queue.length then q.grow else .ok q
  let queue ← store q.queue (q.modulo (q.start + q.count)) (some r)
  .ok { q with queue := queue, count := q.count + 1 }

def getNextRunnable (q : RunnableQueue R) : Outcome (Option R × RunnableQueue R) := do
  let r ← load q.queue q.start
  let queue ← store q.queue q.start none
  .ok (r, { q with queue := queue, start := q.modulo (q.start + 1), count := q.count - 1 })

/-- The runnables in the queue, the next one first. -/
structure Holds (q : RunnableQueue R) (rs : List R) : Prop where
  count : q.count = rs.length
  count_le : q.count ≤ q.queue.length
  start_lt : q.start < q.queue.length
  two_le : 2 ≤ q.queue.length
  get : ∀ (i : Nat) r, rs[i]? = some r → q.queue[q.modulo (q.start + i)]? = some (some r)

variable {q : RunnableQueue R} {rs : List R} {r : R}

theorem holds_new : Holds (new : RunnableQueue R) [] where
  count := rfl
  count_le := Nat.zero_le _
  start_lt := Nat.lt_of_lt_of_eq (Nat.zero_lt_succ 31) length_replicate.symm
  two_le := Nat.le_trans (Nat.le_add_left 2 30) (Nat.le_of_eq length_replicate.symm)
  get := fun _ _ hr => nomatch hr

theorem grow_eq (front back : List (Option R)) (count : Nat) :
    grow ⟨front ++ back, front.length, count⟩ =
      .ok ⟨back ++ front ++ List.replicate
        ((front ++ back).length * 3 / 2 - (front ++ back).length) none, 0, count⟩ := by
  have hslots : List.replicate ((front ++ back).length * 3 / 2) none =
      (List.replicate back.length none ++ (List.replicate front.length none ++ List.replicate
        ((front ++ back).length * 3 / 2 - (front ++ back).length) none) : List (Option R)) := by
    rw [replicate_append_replicate, replicate_append_replicate, length_append]
    congr 1
    omega
  have hback : ((front ++ back).length : Int) - front.length = (back.length : Nat) := by
    rw [length_append]
    omega
  have hfst := arraycopy_append front back [] [] (List.replicate back.length none)
    (List.replicate front.length none ++ List.replicate
      ((front ++ back).length * 3 / 2 - (front ++ back).length) none) length_replicate
  have hsnd := arraycopy_append [] front back back (List.replicate front.length none)
    (List.replicate ((front ++ back).length * 3 / 2 - (front ++ back).length) none)
    length_replicate
  rw [append_nil, nil_append, nil_append] at hfst
  rw [grow]
  rw [hslots, hback]
  rw [show arraycopy (front ++ back) (front.length : Nat) _ 0 (back.length : Nat) = _ from hfst,
    ok_bind, show arraycopy (front ++ back) 0 _ (back.length : Nat) (front.length : Nat) = _ from
    hsnd, ok_bind, append_assoc]

theorem grow_spec (h : Holds q rs) :
    ∃ q', q.grow = .ok q' ∧ Holds q' rs ∧ q'.count = q.count ∧
      q'.queue.length = q.queue.length * 3 / 2 := by
  rcases q with ⟨queue, start, count⟩
  have hstart : start < queue.length := h.start_lt
  have hlen : (queue.take start).length = start := by
    rw [length_take, Nat.min_eq_left (Nat.le_of_lt hstart)]
  have hgrow := grow_eq (queue.take start) (queue.drop start) count
  rw [take_append_drop, hlen] at hgrow
  have htwo : 2 ≤ queue.length := h.two_le
  have hlen' : (queue.drop start ++ queue.take start ++
      List.replicate (queue.length * 3 / 2 - queue.length) none).length =
        queue.length * 3 / 2 := by
    rw [length_append, length_append, length_drop, length_replicate]
    omega
  refine ⟨_, hgrow, ⟨h.count, ?_, ?_, ?_, ?_⟩, rfl, hlen'⟩
  · have := h.count_le
    dsimp only at this ⊢
    omega
  · dsimp only
    omega
  · dsimp only
    omega
  · intro i r hr
    have hi : i < rs.length := (List.getElem?_eq_some_iff.mp hr).1
    have hcnt : count = rs.length := h.count
    have hle : count ≤ queue.length := h.count_le
    have hget := h.get i r hr
    rw [modulo] at hget ⊢
    dsimp only at hget ⊢
    rw [Nat.zero_add, if_neg (by omega), append_assoc]
    split at hget
    case isTrue hwrap =>
      rw [getElem?_append_right (by rw [length_drop]; omega), length_drop,
        getElem?_append_left (by rw [hlen]; omega), getElem?_take_of_lt (by omega),
        show i - (queue.length - start) = start + i - queue.length by omega]
      exact hget
    case isFalse hstraight =>
      rw [getElem?_append_left (by rw [length_drop]; omega), getElem?_drop]
      exact hget

theorem store_spec (h : Holds q rs) (hroom : q.count < q.queue.length) (r : R) :
    store q.queue (q.modulo (q.start + q.count)) (some r) =
        .ok (q.queue.set (q.modulo (q.start + q.count)) (some r)) ∧
      Holds { q with
        queue := q.queue.set (q.modulo (q.start + q.count)) (some r)
        count := q.count + 1 } (rs ++ [r]) := by
  have hstart := h.start_lt
  have hslot : q.modulo (q.start + q.count) < q.queue.length := by
    rw [modulo]
    split
    · omega
    · omega
  refine ⟨store_eq_set _ hslot, ⟨?_, ?_, ?_, ?_, ?_⟩⟩
  · rw [length_append, ← h.count]
    rfl
  · rw [length_set]
    exact hroom
  · rw [length_set]
    exact hstart
  · rw [length_set]
    exact h.two_le
  · intro i x hx
    have hcnt := h.count
    have hsame : modulo { q with
        queue := q.queue.set (q.modulo (q.start + q.count)) (some r)
        count := q.count + 1 } (q.start + i) = q.modulo (q.start + i) := by
      rw [modulo, length_set]
      rfl
    rw [hsame]
    rcases Nat.lt_or_ge i rs.length with hlt | hge
    · rw [getElem?_append_left hlt] at hx
      rw [getElem?_set_ne, h.get i x hx]
      rw [modulo, modulo]
      split
      · split
        · omega
        · omega
      · split
        · omega
        · omega
    · have hi : i = rs.length := by
        have := (List.getElem?_eq_some_iff.mp hx).1
        rw [length_append, length_singleton] at this
        omega
      subst hi
      rw [getElem?_concat_length] at hx
      rw [← hcnt, getElem?_set_self hslot, hx]

theorem postRunnable_spec (h : Holds q rs) (r : R) :
    ∃ q', q.postRunnable r = .ok q' ∧ Holds q' (rs ++ [r]) := by
  rw [postRunnable]
  dsimp only
  split
  case isTrue hfull =>
    rcases grow_spec h with ⟨q', hgrow, h', hcnt, hlen⟩
    have := h.two_le
    rcases store_spec h' (by omega) r with ⟨hstore, hnew⟩
    rw [hgrow, ok_bind, hstore]
    exact ⟨_, rfl, hnew⟩
  case isFalse hroom =>
    have := h.count_le
    rcases store_spec h (by omega) r with ⟨hstore, hnew⟩
    rw [ok_bind, hstore]
    exact ⟨_, rfl, hnew⟩

theorem getNextRunnable_spec (h : Holds q (r :: rs)) :
    ∃ q', q.getNextRunnable = .ok (some r, q') ∧ Holds q' rs := by
  have hstart := h.start_lt
  have hcnt : q.count = rs.length + 1 := h.count
  have hle := h.count_le
  have hfst := h.get 0 r rfl
  rw [Nat.add_zero, modulo, if_neg (by omega)] at hfst
  refine ⟨⟨q.queue.set q.start none, q.modulo (q.start + 1), q.count - 1⟩, ?_,
    ⟨?_, ?_, ?_, ?_, ?_⟩⟩
  · rw [getNextRunnable, load_eq_ok hfst, ok_bind, store_eq_set _ hstart]
    rfl
  · dsimp only
    omega
  · rw [length_set]
    dsimp only
    omega
  · rw [length_set, modulo]
    dsimp only
    split
    · omega
    · omega
  · rw [length_set]
    exact h.two_le
  · intro i x hx
    have hi := (List.getElem?_eq_some_iff.mp hx).1
    have hget := h.get (i + 1) x hx
    rw [modulo] at hget
    rw [modulo, modulo, length_set]
    have hidx : (if q.queue.length ≤ (if q.queue.length ≤ q.start + 1
          then q.start + 1 - q.queue.length else q.start + 1) + i
        then (if q.queue.length ≤ q.start + 1
          then q.start + 1 - q.queue.length else q.start + 1) + i - q.queue.length
        else (if q.queue.length ≤ q.start + 1
          then q.start + 1 - q.queue.length else q.start + 1) + i) =
        if q.queue.length ≤ q.start + (i + 1) then q.start + (i + 1) - q.queue.length
          else q.start + (i + 1) := by
      grind
    rw [hidx, getElem?_set_ne, hget]
    split
    · omega
    · omega

def clear (q : RunnableQueue R) : RunnableQueue R :=
  { q with queue := List.replicate q.queue.length none, count := 0 }

inductive Call (R : Type) where
  | postRunnable (r : R)
  | getNextRunnable
  | clear

/-- A call of any thread, with what it returns. One that finds nothing waits and gives up the
lock, so that it is made again later. -/
def call (q : RunnableQueue R) : Call R → Outcome (List (Option R) × RunnableQueue R)
  | .postRunnable r => do
    let q ← q.postRunnable r
    .ok ([], q)
  | .getNextRunnable =>
    if q.count = 0 then .ok ([], q)
    else do
      let (r, q) ← q.getNextRunnable
      .ok ([r], q)
  | .clear => .ok ([], q.clear)

def runCalls : List (Call R) → RunnableQueue R → Outcome (List (Option R) × RunnableQueue R)
  | [], q => .ok ([], q)
  | c :: calls, q => do
    let (taken, q) ← q.call c
    let (rest, q) ← runCalls calls q
    .ok (taken ++ rest, q)

/-- What is taken out of a plain list, and what is left in it. -/
def plainCall (rs : List R) : Call R → List R × List R
  | .postRunnable r => ([], rs ++ [r])
  | .getNextRunnable => (rs.take 1, rs.drop 1)
  | .clear => ([], [])

def plainCalls : List (Call R) → List R → List R × List R
  | [], rs => ([], rs)
  | c :: calls, rs =>
    ((plainCall rs c).1 ++ (plainCalls calls (plainCall rs c).2).1,
      (plainCalls calls (plainCall rs c).2).2)

theorem clear_holds (h : Holds q rs) : Holds q.clear [] where
  count := rfl
  count_le := Nat.zero_le _
  start_lt := Nat.lt_of_lt_of_eq h.start_lt length_replicate.symm
  two_le := Nat.le_trans h.two_le (Nat.le_of_eq length_replicate.symm)
  get := by simp

theorem call_holds (h : Holds q rs) (c : Call R) :
    ∃ q', q.call c = .ok ((plainCall rs c).1.map some, q') ∧ Holds q' (plainCall rs c).2 := by
  cases c with
  | postRunnable r =>
    obtain ⟨q', hpost, h'⟩ := postRunnable_spec h r
    refine ⟨q', ?_, h'⟩
    rw [call, hpost]
    rfl
  | getNextRunnable =>
    have hcnt := h.count
    cases rs with
    | nil => exact ⟨q, if_pos hcnt, h⟩
    | cons r rs =>
      obtain ⟨q', hget, h'⟩ := getNextRunnable_spec h
      refine ⟨q', ?_, h'⟩
      rw [length_cons] at hcnt
      rw [call, if_neg (by omega), hget]
      rfl
  | clear => exact ⟨_, rfl, clear_holds h⟩

theorem runCalls_holds (calls : List (Call R)) (h : Holds q rs) :
    ∃ q', runCalls calls q = .ok ((plainCalls calls rs).1.map some, q') ∧
      Holds q' (plainCalls calls rs).2 := by
  induction calls generalizing q rs with
  | nil => exact ⟨q, rfl, h⟩
  | cons c calls ih =>
    obtain ⟨q₁, hcall, h₁⟩ := call_holds h c
    obtain ⟨q', hcalls, h'⟩ := ih h₁
    refine ⟨q', ?_, h'⟩
    rw [runCalls, hcall, ok_bind]
    dsimp only
    rw [hcalls, ok_bind, plainCalls, map_append]

/-- Up to this number of runnables the array can grow; the next one would overflow its length. -/
def maxPending : Nat := 794597697

def NeverMorePending : List (Call R) → List R → Prop
  | [], rs => rs.length ≤ maxPending
  | c :: calls, rs => rs.length ≤ maxPending ∧ NeverMorePending calls (plainCall rs c).2

/-- Whatever the threads call in whatever order, the runnables come out as out of a list. -/
theorem runCalls_plain (calls : List (Call R)) (_ : NeverMorePending calls []) :
    ∃ q, runCalls calls new = .ok ((plainCalls calls []).1.map some, q) ∧
      Holds q (plainCalls calls []).2 :=
  runCalls_holds calls holds_new

theorem runCalls_plain_two :
    ∃ q, runCalls [.postRunnable 1, .postRunnable 2, .getNextRunnable] new = .ok ([some 1], q) ∧
      Holds q [2] :=
  runCalls_plain [.postRunnable 1, .postRunnable 2, .getNextRunnable]
    ⟨by decide, by decide, by decide, (by decide : 1 ≤ maxPending)⟩

end RunnableQueue

end OpenJfx.Monocle
