import OpenJfx.Data.Interleaving
import OpenJfx.Java.Arrays
import Mathlib.Data.List.DropRight

/-!
`LinuxEventBuffer` and the two threads that share it in a `LinuxInputDevice`.
The reader thread puts one event line after the other into the buffer; the
application thread runs the `EventProcessor`, which takes the lines of complete
events out of it.
-/

namespace OpenJfx.Monocle.Linux

open Data Java.Arrays

/-- The layout of an event line, which depends on the word size. -/
inductive EventStruct
  | bits32
  | bits64

namespace EventStruct

def getTypeIndex : EventStruct → Nat
  | bits32 => 8
  | bits64 => 16

def getValueIndex : EventStruct → Nat
  | bits32 => 12
  | bits64 => 20

def getSize : EventStruct → Nat
  | bits32 => 16
  | bits64 => 24

theorem getSize_pos (struct : EventStruct) : 0 < struct.getSize := by
  cases struct <;> decide

end EventStruct

abbrev Line (struct : EventStruct) := { bytes : List UInt8 // bytes.length = struct.getSize }

/-- `getInt(index)`. The order of the bytes does not matter, as the value is compared with zero
only. -/
def getInt (event : List UInt8) (index : Nat) : Nat :=
  ((event.drop index).take 4).foldr (fun b value => b.toNat + 256 * value) 0

def Line.isSync {struct : EventStruct} (line : Line struct) : Bool :=
  decide (getInt line.1 struct.getTypeIndex = 0) && decide (getInt line.1 struct.getValueIndex = 0)

def eventBufferSize : Nat := 1000

/-- The fields of the buffer. The bytes up to the position of `bb` are given, so that their
number is this position. -/
structure LinuxEventBuffer where
  bb : List UInt8
  capacity : Nat
  positionOfLastSync : Int
  currentPosition : Int

namespace LinuxEventBuffer

variable {struct : EventStruct}

def new (struct : EventStruct) : LinuxEventBuffer where
  bb := []
  capacity := struct.getSize * eventBufferSize
  positionOfLastSync := 0
  currentPosition := 0

/-- `put(event)`; there is no result while it waits for space. -/
def put (b : LinuxEventBuffer) (event : Line struct) : Option (LinuxEventBuffer × Bool) :=
  if b.capacity - b.bb.length < event.1.length then none
  else
    some
      ({ b with
          positionOfLastSync := if event.isSync then (b.bb.length : Int) else b.positionOfLastSync
          bb := b.bb ++ event.1 },
        event.isSync)

def startIteration (b : LinuxEventBuffer) : LinuxEventBuffer := { b with currentPosition := 0 }

def hasNextEvent (b : LinuxEventBuffer) : Bool :=
  decide (b.currentPosition ≤ b.positionOfLastSync)

def currentLine (struct : EventStruct) (b : LinuxEventBuffer) : List UInt8 :=
  (b.bb.drop b.currentPosition.toNat).take struct.getSize

def nextEvent (struct : EventStruct) (b : LinuxEventBuffer) : Outcome LinuxEventBuffer :=
  if b.positionOfLastSync < b.currentPosition then
    .error (.illegalState "Cannot advance past the last EV_SYN EV_SYN_REPORT 0")
  else .ok { b with currentPosition := b.currentPosition + struct.getSize }

/-- `compact()`. Setting the position of `bb` fails outside of its range. -/
def compact (b : LinuxEventBuffer) : Outcome LinuxEventBuffer :=
  if 0 ≤ b.currentPosition ∧ b.currentPosition ≤ b.capacity then
    .ok
      { b with
        positionOfLastSync := b.positionOfLastSync - b.currentPosition
        bb := b.bb.drop b.currentPosition.toNat }
  else .error .indexOutOfBounds

end LinuxEventBuffer

/-- Where the application thread is in `EventProcessor.run`. -/
inductive Application
  | idle
  /-- It is about to ask for the next event. -/
  | asking
  /-- There is a line to process. -/
  | processing
  /-- The events have been processed. -/
  | ending

structure LinuxInputDevice (struct : EventStruct) where
  buffer : LinuxEventBuffer
  scheduled : Bool
  posted : Nat
  application : Application
  /-- The lines that the input processor has got. -/
  received : List (List UInt8)
  failed : Option Failure

namespace LinuxInputDevice

variable {struct : EventStruct}

def new (struct : EventStruct) : LinuxInputDevice struct where
  buffer := LinuxEventBuffer.new struct
  scheduled := false
  posted := 0
  application := .idle
  received := []
  failed := none

/-- The reader thread puts a line and schedules the processor. -/
def put (d : LinuxInputDevice struct) (line : Line struct) : Option (LinuxInputDevice struct) :=
  match d.buffer.put line with
  | none => none
  | some (buffer, isSync) =>
    if isSync ∧ d.scheduled = false then
      some { d with buffer := buffer, posted := d.posted + 1, scheduled := true }
    else some { d with buffer := buffer }

/-- An event that came in after the last one had been processed gets another run. -/
def reschedule (d : LinuxInputDevice struct) : LinuxInputDevice struct :=
  if d.buffer.hasNextEvent then { d with posted := d.posted + 1 }
  else { d with scheduled := false }

/-- The next step of the application thread. Each access to the buffer is one, and so is the
synchronized block at the end. -/
def run (d : LinuxInputDevice struct) : Option (LinuxInputDevice struct) :=
  match d.application with
  | .idle =>
    match d.posted with
    | 0 => none
    | posted + 1 =>
      some
        { d with
          posted := posted
          buffer := d.buffer.startIteration
          application := .asking }
  | .asking =>
    some { d with application := if d.buffer.hasNextEvent then .processing else .ending }
  | .processing =>
    match d.buffer.nextEvent struct with
    | .ok buffer =>
      some
        { d with
          received := d.received ++ [d.buffer.currentLine struct]
          buffer := buffer
          application := .asking }
    | .error failure => some { d with failed := some failure, application := .ending }
  | .ending =>
    match d.buffer.compact with
    | .ok buffer => some { d.reschedule with buffer := buffer, application := .idle }
    | .error failure => some { d.reschedule with failed := some failure, application := .idle }

end LinuxInputDevice

inductive Step (struct : EventStruct)
  | put (line : Line struct)
  | run

def step {struct : EventStruct} (d : LinuxInputDevice struct) :
    Step struct → Option (LinuxInputDevice struct)
  | .put line => d.put line
  | .run => d.run

def Step.line? {struct : EventStruct} : Step struct → Option (Line struct)
  | .put line => some line
  | .run => none

/-- The lines that have been put in a run. -/
def lines {struct : EventStruct} (steps : List (Step struct)) : List (Line struct) :=
  steps.filterMap Step.line?

def complete {struct : EventStruct} (lines : List (Line struct)) : List (Line struct) :=
  lines.rdropWhile fun line => !line.isSync

open List

variable {struct : EventStruct}

def bytes (lines : List (Line struct)) : List UInt8 := (lines.map Subtype.val).flatten

@[simp] theorem bytes_append (lines rest : List (Line struct)) :
    bytes (lines ++ rest) = bytes lines ++ bytes rest := by
  simp [bytes]

theorem bytes_singleton (line : Line struct) : bytes [line] = line.1 := by
  simp [bytes]

theorem length_bytes (lines : List (Line struct)) :
    (bytes lines).length = struct.getSize * lines.length := by
  induction lines with
  | nil => rfl
  | cons line rest ih =>
    have hcons : bytes (line :: rest) = line.1 ++ bytes rest := rfl
    rw [hcons, length_append, line.2, ih, length_cons, Nat.mul_succ, Nat.add_comm]

theorem drop_bytes (lines : List (Line struct)) (k : Nat) (hk : k ≤ lines.length) :
    (bytes lines).drop (struct.getSize * k) = bytes (lines.drop k) := by
  have hlen : (bytes (lines.take k)).length = struct.getSize * k := by
    rw [length_bytes, length_take_of_le hk]
  conv_lhs => rw [← take_append_drop k lines, bytes_append, ← hlen]
  exact drop_left

theorem take_drop_bytes (lines : List (Line struct)) {k : Nat} (hk : k < lines.length) :
    ((bytes lines).drop (struct.getSize * k)).take struct.getSize = lines[k].1 := by
  rw [drop_bytes lines k (Nat.le_of_lt hk), drop_eq_getElem_cons hk]
  exact take_left' lines[k].2

section complete

theorem complete_sync (lines : List (Line struct)) {line : Line struct} (h : line.isSync = true) :
    complete (lines ++ [line]) = lines ++ [line] := by
  rw [complete]
  simp [h]

theorem complete_other (lines : List (Line struct)) {line : Line struct}
    (h : line.isSync = false) : complete (lines ++ [line]) = complete lines := by
  rw [complete, rdropWhile_concat_pos]
  · rfl
  · simp [h]

theorem complete_prefix_lines (lines : List (Line struct)) : complete lines <+: lines :=
  rdropWhile_prefix _ lines

theorem length_complete_le (lines : List (Line struct)) :
    (complete lines).length ≤ lines.length :=
  (complete_prefix_lines lines).length_le

theorem length_complete_mono (lines : List (Line struct)) (line : Line struct) :
    (complete lines).length ≤ (complete (lines ++ [line])).length := by
  cases hsync : line.isSync with
  | true =>
    have hle := length_complete_le lines
    rw [complete_sync _ hsync, length_append]
    omega
  | false => rw [complete_other _ hsync]

end complete

structure Buffers (lines : List (Line struct)) (base : Nat) (b : LinuxEventBuffer) : Prop where
  bb : b.bb = bytes (lines.drop base)
  length_le : b.bb.length ≤ b.capacity
  base_le : base ≤ (complete lines).length
  capacity : b.capacity = struct.getSize * eventBufferSize
  -- before the first event has ended the field has no meaning
  lastSync : complete lines ≠ [] →
    b.positionOfLastSync + struct.getSize + ((struct.getSize * base : Nat) : Int) =
      ((struct.getSize * (complete lines).length : Nat) : Int)

structure Running (lines : List (Line struct)) (base k : Nat) (d : LinuxInputDevice struct) :
    Prop where
  position : d.buffer.currentPosition = ((struct.getSize * k : Nat) : Int)
  le : base + k ≤ (complete lines).length
  received : d.received = (lines.take (base + k)).map Subtype.val
  scheduled : d.scheduled = true
  posted : d.posted = 0
  base_lt : base < (complete lines).length

/-- Where the processor is after `n` of its steps. Each of its runs takes a line at least. -/
def Progress (lines : List (Line struct)) (base n : Nat) (d : LinuxInputDevice struct) : Prop :=
  match d.application with
  | .idle => d.received = (lines.take base).map Subtype.val ∧
      (d.scheduled = true ∧ d.posted = 1 ∧ base < (complete lines).length ∨
        d.scheduled = false ∧ d.posted = 0 ∧ base = (complete lines).length) ∧ n ≤ 5 * base
  | .asking => ∃ k, Running lines base k d ∧ n ≤ 5 * base + 2 * k + 1
  | .processing =>
    ∃ k, Running lines base k d ∧ base + k < (complete lines).length ∧ n ≤ 5 * base + 2 * k + 2
  | .ending => ∃ k, Running lines base k d ∧ 0 < k ∧ n ≤ 5 * base + 2 * k + 2

structure Delivering (lines : List (Line struct)) (base n : Nat) (d : LinuxInputDevice struct) :
    Prop where
  failed : d.failed = none
  buffers : Buffers lines base d.buffer
  progress : Progress lines base n d

theorem delivering_new : Delivering [] 0 0 (LinuxInputDevice.new struct) := by
  refine ⟨rfl, ⟨rfl, by simp [LinuxInputDevice.new, LinuxEventBuffer.new], by simp, rfl, ?_⟩, rfl,
    ?_, Nat.le_refl 0⟩
  · intro h
    exact absurd rfl h
  · exact .inr ⟨rfl, rfl, rfl⟩

section

variable {lines : List (Line struct)} {base k n : Nat} {b b' : LinuxEventBuffer}
  {d d' : LinuxInputDevice struct}

theorem Buffers.hasNextEvent_iff (h : Buffers lines base b)
    (hpos : b.currentPosition = ((struct.getSize * k : Nat) : Int))
    (hne : complete lines ≠ []) :
    b.hasNextEvent = true ↔ base + k < (complete lines).length := by
  have hsync := h.lastSync hne
  have hscale : struct.getSize * (base + k + 1) ≤ struct.getSize * (complete lines).length ↔
      base + k + 1 ≤ (complete lines).length := Nat.mul_le_mul_left_iff struct.getSize_pos
  rw [Nat.mul_add, Nat.mul_add] at hscale
  rw [LinuxEventBuffer.hasNextEvent, decide_eq_true_eq]
  omega

theorem Buffers.put (h : Buffers lines base b) {line : Line struct} {isSync : Bool}
    (hput : b.put line = some (b', isSync)) :
    Buffers (lines ++ [line]) base b' ∧ isSync = line.isSync ∧
      b'.currentPosition = b.currentPosition := by
  rw [LinuxEventBuffer.put] at hput
  split at hput
  · cases hput
  · cases hput
    have hbase := h.base_le
    have hle := length_complete_le lines
    have hlen := h.length_le
    refine ⟨⟨?_, ?_, ?_, h.capacity, ?_⟩, rfl, rfl⟩
    · rw [h.bb, drop_append_of_le_length (by omega), bytes_append, bytes_singleton]
    · simp only [length_append]
      omega
    · cases hsync : line.isSync with
      | true =>
        rw [complete_sync _ hsync, length_append]
        omega
      | false => rwa [complete_other _ hsync]
    · intro hne
      cases hsync : line.isSync with
      | true =>
        have hsplit : struct.getSize * (lines.length - base) + struct.getSize * base =
            struct.getSize * lines.length := by
          rw [← Nat.mul_add, Nat.sub_add_cancel (by omega)]
        rw [complete_sync _ hsync, if_pos rfl, h.bb, length_bytes, length_drop, length_append,
          length_singleton, Nat.mul_add]
        dsimp only
        omega
      | false =>
        rw [complete_other _ hsync] at hne ⊢
        exact h.lastSync hne

theorem Buffers.compact (h : Buffers lines base b)
    (hpos : b.currentPosition = ((struct.getSize * k : Nat) : Int))
    (hle : base + k ≤ (complete lines).length) :
    ∃ b', b.compact = .ok b' ∧ Buffers lines (base + k) b' := by
  have hlines := length_complete_le lines
  have hlen : b.bb.length = struct.getSize * (lines.length - base) := by
    rw [h.bb, length_bytes, length_drop]
  have hinside : struct.getSize * k ≤ b.bb.length := by
    rw [hlen]
    exact Nat.mul_le_mul_left _ (by omega)
  have hcap := h.length_le
  refine ⟨_, if_pos ⟨by omega, by omega⟩, ?_, ?_, hle, h.capacity, ?_⟩
  · rw [hpos, Int.toNat_natCast, h.bb, drop_bytes _ _ (by rw [length_drop]; omega),
      drop_drop]
  · simp only [length_drop]
    omega
  · intro hne
    have hsync := h.lastSync hne
    rw [Nat.mul_add]
    simp only [hpos]
    omega

theorem Running.nonempty (h : Running lines base k d) : complete lines ≠ [] :=
  length_pos_iff.mp (Nat.zero_lt_of_lt h.base_lt)

theorem Running.currentLine (h : Running lines base k d) (hb : Buffers lines base d.buffer)
    (hlt : base + k < (complete lines).length) :
    d.received ++ [d.buffer.currentLine struct] = (lines.take (base + k + 1)).map Subtype.val := by
  have hlines := length_complete_le lines
  have hk : k < (lines.drop base).length := by
    rw [length_drop]
    omega
  rw [LinuxEventBuffer.currentLine, h.position, Int.toNat_natCast, hb.bb, take_drop_bytes _ hk,
    h.received, getElem_drop, take_succ_eq_append_getElem (by omega), map_append]
  rfl

theorem Running.put (h : Running lines base k d) (line : Line struct)
    {buffer : LinuxEventBuffer} (hposition : buffer.currentPosition = d.buffer.currentPosition) :
    Running (lines ++ [line]) base k { d with buffer := buffer } := by
  have hle := h.le
  have hlines := length_complete_le lines
  have hcomplete := length_complete_mono lines line
  refine ⟨hposition.trans h.position, hle.trans hcomplete, ?_, h.scheduled, h.posted,
    Nat.lt_of_lt_of_le h.base_lt hcomplete⟩
  rw [take_append_of_le_length (by omega)]
  exact h.received

theorem delivering_put (h : Delivering lines base n d) {line : Line struct}
    (hput : d.put line = some d') : Delivering (lines ++ [line]) base n d' := by
  have hlines := length_complete_le lines
  have hbase := h.buffers.base_le
  rw [LinuxInputDevice.put] at hput
  split at hput
  · cases hput
  · rename_i buffer isSync hbuf
    obtain ⟨hbuffers, rfl, hposition⟩ := h.buffers.put hbuf
    have hprog := h.progress
    rw [Progress] at hprog
    have htake : (lines ++ [line]).take base = lines.take base :=
      take_append_of_le_length (by omega)
    cases happ : d.application with
    | idle =>
      simp only [happ] at hprog
      obtain ⟨hrecv, hschedule, hn⟩ := hprog
      split at hput
      · rename_i hnew
        cases hput
        rcases hschedule with ⟨hsched, -⟩ | ⟨-, hposted, -⟩
        · rw [hnew.2] at hsched
          cases hsched
        · refine ⟨h.failed, hbuffers, ?_⟩
          simp only [Progress, happ, htake, hposted, complete_sync _ hnew.1, length_append,
            length_singleton]
          exact ⟨hrecv, .inl ⟨trivial, trivial, by omega⟩, hn⟩
      · rename_i hold
        cases hput
        refine ⟨h.failed, hbuffers, ?_⟩
        simp only [Progress, happ, htake]
        refine ⟨hrecv, ?_, hn⟩
        rcases hschedule with ⟨hsched, hposted, hlt⟩ | ⟨hsched, hposted, hall⟩
        · exact .inl ⟨hsched, hposted, Nat.lt_of_lt_of_le hlt (length_complete_mono lines line)⟩
        · refine .inr ⟨hsched, hposted, ?_⟩
          have hother : line.isSync = false := by
            simpa [hsched] using hold
          rwa [complete_other _ hother]
    | asking =>
      simp only [happ] at hprog
      obtain ⟨k, hk, hn⟩ := hprog
      rw [if_neg (by simp [hk.scheduled])] at hput
      cases hput
      refine ⟨h.failed, hbuffers, ?_⟩
      simp only [Progress, happ]
      exact ⟨k, by simpa only [happ] using hk.put line hposition, hn⟩
    | processing =>
      simp only [happ] at hprog
      obtain ⟨k, hk, hlt, hn⟩ := hprog
      rw [if_neg (by simp [hk.scheduled])] at hput
      cases hput
      refine ⟨h.failed, hbuffers, ?_⟩
      simp only [Progress, happ]
      have hmono := length_complete_mono lines line
      exact ⟨k, by simpa only [happ] using hk.put line hposition, by omega, hn⟩
    | ending =>
      simp only [happ] at hprog
      obtain ⟨k, hk, hpos, hn⟩ := hprog
      rw [if_neg (by simp [hk.scheduled])] at hput
      cases hput
      refine ⟨h.failed, hbuffers, ?_⟩
      simp only [Progress, happ]
      exact ⟨k, by simpa only [happ] using hk.put line hposition, hpos, hn⟩

theorem delivering_run (h : Delivering lines base n d) (hrun : d.run = some d') :
    ∃ base', Delivering lines base' (n + 1) d' := by
  have hprog := h.progress
  rw [Progress] at hprog
  rw [LinuxInputDevice.run] at hrun
  cases happ : d.application with
  | idle =>
    simp only [happ] at hprog hrun
    obtain ⟨hrecv, hschedule, hn⟩ := hprog
    split at hrun
    · cases hrun
    · cases hrun
      rcases hschedule with ⟨hsched, hone, hlt⟩ | ⟨-, hzero, -⟩
      · have hbuffers := h.buffers
        refine ⟨base, h.failed, ⟨hbuffers.bb, hbuffers.length_le, hbuffers.base_le,
          hbuffers.capacity, hbuffers.lastSync⟩, 0, ⟨by simp [LinuxEventBuffer.startIteration],
          hbuffers.base_le, hrecv, hsched, ?_, hlt⟩, by omega⟩
        simp only
        omega
      · omega
  | asking =>
    simp only [happ, Option.some.injEq] at hprog hrun
    obtain ⟨k, hk, hn⟩ := hprog
    have hnext := h.buffers.hasNextEvent_iff hk.position hk.nonempty
    subst hrun
    refine ⟨base, h.failed, h.buffers, ?_⟩
    have hk' : ∀ application, Running lines base k { d with application := application } :=
      fun _ => ⟨hk.position, hk.le, hk.received, hk.scheduled, hk.posted, hk.base_lt⟩
    cases hasNext : d.buffer.hasNextEvent with
    | true => exact ⟨k, hk' _, hnext.mp hasNext, by omega⟩
    | false =>
      have hdone : ¬ base + k < (complete lines).length := by simp [← hnext, hasNext]
      have hlt := hk.base_lt
      exact ⟨k, hk' _, by omega, by omega⟩
  | processing =>
    simp only [happ] at hprog hrun
    obtain ⟨k, hk, hlt, hn⟩ := hprog
    have hnext := (h.buffers.hasNextEvent_iff hk.position hk.nonempty).mpr hlt
    rw [LinuxEventBuffer.hasNextEvent, decide_eq_true_eq] at hnext
    rw [LinuxEventBuffer.nextEvent, if_neg (by omega)] at hrun
    cases hrun
    have hbuffers := h.buffers
    refine ⟨base, h.failed, ⟨hbuffers.bb, hbuffers.length_le, hbuffers.base_le,
      hbuffers.capacity, hbuffers.lastSync⟩, k + 1, ⟨?_, hlt, hk.currentLine h.buffers hlt,
      hk.scheduled, hk.posted, hk.base_lt⟩, by omega⟩
    have hpos := hk.position
    rw [Nat.mul_succ]
    dsimp only
    omega
  | ending =>
    simp only [happ] at hprog hrun
    obtain ⟨k, hk, hpos, hn⟩ := hprog
    have hnext := h.buffers.hasNextEvent_iff hk.position hk.nonempty
    obtain ⟨buffer, hcompact, hbuffers⟩ := h.buffers.compact hk.position hk.le
    rw [hcompact] at hrun
    cases hrun
    cases hasNext : d.buffer.hasNextEvent with
    | true =>
      rw [LinuxInputDevice.reschedule, if_pos hasNext]
      refine ⟨base + k, h.failed, hbuffers, hk.received,
        .inl ⟨hk.scheduled, ?_, hnext.mp hasNext⟩, by omega⟩
      simp only [hk.posted]
    | false =>
      rw [LinuxInputDevice.reschedule, if_neg (by simp [hasNext])]
      refine ⟨base + k, h.failed, hbuffers, hk.received, .inr ⟨rfl, hk.posted, ?_⟩, by omega⟩
      have hdone : ¬ base + k < (complete lines).length := by
        rw [← hnext, hasNext]
        exact Bool.false_ne_true
      have hle := hk.le
      omega

end

theorem run_delivering (steps : List (Step struct)) (d : LinuxInputDevice struct)
    (hrun : runSteps step (LinuxInputDevice.new struct) steps = some d) :
    ∃ base n, Delivering (lines steps) base n d ∧ steps.length = (lines steps).length + n := by
  revert d steps
  refine runSteps_induction ⟨0, 0, delivering_new, rfl⟩ ?_
  rintro steps m i d - ⟨base, n, h, hlen⟩ hstep
  have hlines : lines (steps ++ [i]) = lines steps ++ i.line?.toList := by
    rw [lines, filterMap_append]
    cases i <;> rfl
  rw [hlines, length_append, length_append, length_singleton]
  cases i with
  | put line =>
    refine ⟨base, n, delivering_put h hstep, ?_⟩
    simp only [Step.line?, Option.toList_some, length_singleton]
    omega
  | run =>
    obtain ⟨base', h'⟩ := delivering_run h hstep
    refine ⟨base', n + 1, by simpa [Step.line?] using h', ?_⟩
    simp only [Step.line?, Option.toList_none, length_nil]
    omega

section

variable {input : List (Line struct)} {base n : Nat} {d : LinuxInputDevice struct}

/-- The first lines of complete events have been received; unless these are all, the processor is
posted or under way. The processor has made a bounded number of steps. -/
theorem Delivering.received (h : Delivering input base n d) :
    n ≤ 5 * (complete input).length ∧ ∃ m, m ≤ (complete input).length ∧
      d.received = (input.take m).map Subtype.val ∧
      (m = (complete input).length ∨
        d.scheduled = true ∧ (d.posted = 1 ∨ d.application ≠ .idle)) := by
  have hprogress := h.progress
  have hbase := h.buffers.base_le
  rw [Progress] at hprogress
  split at hprogress
  · obtain ⟨hreceived, hschedule, hn⟩ := hprogress
    refine ⟨by omega, base, hbase, hreceived, ?_⟩
    rcases hschedule with ⟨hscheduled, hposted, -⟩ | ⟨-, -, hall⟩
    · exact .inr ⟨hscheduled, .inl hposted⟩
    · exact .inl hall
  · rename_i happ
    obtain ⟨k, hk, hn⟩ := hprogress
    have hlt := hk.base_lt
    have hle := hk.le
    exact ⟨by omega, base + k, hle, hk.received, .inr ⟨hk.scheduled, .inr (by simp [happ])⟩⟩
  · rename_i happ
    obtain ⟨k, hk, hlt, hn⟩ := hprogress
    exact ⟨by omega, base + k, hk.le, hk.received, .inr ⟨hk.scheduled, .inr (by simp [happ])⟩⟩
  · rename_i happ
    obtain ⟨k, hk, hpos, hn⟩ := hprogress
    have hle := hk.le
    exact ⟨by omega, base + k, hle, hk.received, .inr ⟨hk.scheduled, .inr (by simp [happ])⟩⟩

/-- When the application thread has nothing to do, the buffer holds the lines of an event that is
not complete. -/
theorem Delivering.blocked (h : Delivering input base n d) (hblocked : d.run = none) :
    base = (complete input).length ∧ d.received = (input.take base).map Subtype.val := by
  have hprogress := h.progress
  rw [Progress] at hprogress
  rw [LinuxInputDevice.run] at hblocked
  cases happ : d.application with
  | idle =>
    simp only [happ] at hprogress hblocked
    obtain ⟨hreceived, ⟨-, hposted, -⟩ | ⟨-, -, hall⟩, -⟩ := hprogress
    · simp [hposted] at hblocked
    · exact ⟨hall, hreceived⟩
  | asking => simp [happ] at hblocked
  | processing | ending =>
    simp only [happ] at hblocked
    split at hblocked <;> cases hblocked

theorem Delivering.put_ne_none (h : Delivering input base n d) (line : Line struct)
    (hfits : input.length < base + eventBufferSize) : d.put line ≠ none := by
  have hsize : eventBufferSize = 1000 := rfl
  have hlen : d.buffer.bb.length + struct.getSize ≤ d.buffer.capacity := by
    rw [h.buffers.bb, length_bytes, length_drop, h.buffers.capacity, ← Nat.mul_succ]
    exact Nat.mul_le_mul_left _ (by omega)
  rw [LinuxInputDevice.put, LinuxEventBuffer.put, if_neg (by rw [line.2]; omega)]
  dsimp only
  split <;> exact Option.some_ne_none _

end

theorem take_complete (input : List (Line struct)) {m : Nat} (hm : m ≤ (complete input).length) :
    input.take m = (complete input).take m := by
  obtain ⟨rest, hrest⟩ := complete_prefix_lines input
  conv_lhs => rw [← hrest]
  exact take_append_of_le_length hm

/-- No event that ends has more than 1000 lines. -/
def EventsFit (input : List (Line struct)) : Prop :=
  ∀ n < (complete input).length, n < (complete (input.take n)).length + eventBufferSize

/-- The reader waits for the next line, or for space in the buffer, and the application thread
has nothing to do. -/
def Stuck (input : List (Line struct)) (steps : List (Step struct))
    (d : LinuxInputDevice struct) : Prop :=
  d.run = none ∧ ∀ line, lines steps ++ [line] <+: input → d.put line = none

theorem complete_eq_of_prefix {input done : List (Line struct)} (hdone : done <+: input)
    (hle : (complete input).length ≤ done.length) : complete done = complete input := by
  obtain ⟨rest, rfl⟩ := hdone
  induction rest using List.reverseRecOn with
  | nil => rw [append_nil]
  | append_singleton rest line ih =>
    rw [← append_assoc] at hle ⊢
    cases hsync : line.isSync with
    | true =>
      rw [complete_sync _ hsync, length_append, length_append, length_singleton] at hle
      omega
    | false =>
      rw [complete_other _ hsync] at hle ⊢
      exact ih hle

/-- In every interleaving no call fails, the lines that the processor has got are the first of
the lines of complete events, and as long as there are others a run of it is posted or under
way. Such a run makes a bounded number of steps, and when neither thread can go on, the processor
has got all lines of complete events. -/
theorem delivered_exactly_once (input : List (Line struct)) (hfits : EventsFit input)
    (steps : List (Step struct)) (hlines : lines steps <+: input) (d : LinuxInputDevice struct)
    (hrun : runSteps step (LinuxInputDevice.new struct) steps = some d) :
    d.failed = none ∧ d.received <+: (complete (lines steps)).map Subtype.val ∧
      (d.received ≠ (complete (lines steps)).map Subtype.val →
        d.scheduled = true ∧ (d.posted = 1 ∨ d.application ≠ .idle)) ∧
      steps.length ≤ 6 * (lines steps).length ∧
      (Stuck input steps d → d.received = (complete input).map Subtype.val) := by
  obtain ⟨base, n, h, hlen⟩ := run_delivering steps d hrun
  obtain ⟨hn, m, hm, hreceived, hscheduled⟩ := h.received
  have hcomplete := length_complete_le (lines steps)
  rw [take_complete _ hm] at hreceived
  refine ⟨h.failed, ?_, ?_, by omega, ?_⟩
  · rw [hreceived, map_take]
    exact take_prefix _ _
  · intro hmore
    refine hscheduled.resolve_left fun hall => hmore ?_
    rw [hreceived, hall, take_length]
  · rintro ⟨hblocked, hput⟩
    obtain ⟨hbase, hreceived⟩ := h.blocked hblocked
    rw [hbase, take_complete _ (Nat.le_refl _), take_length] at hreceived
    rw [hreceived]
    congr 1
    apply complete_eq_of_prefix hlines
    by_contra hless
    have hroom := hfits (lines steps).length (by omega)
    rw [← prefix_iff_eq_take.mp hlines, ← hbase] at hroom
    obtain ⟨_ | ⟨line, rest⟩, hrest⟩ := hlines
    · rw [append_nil] at hrest
      rw [← hrest] at hless
      omega
    · exact h.put_ne_none line hroom (hput line ⟨rest, by rw [append_assoc]; exact hrest⟩)

/-- An event of two lines, and the first line of another one that comes while it is processed. -/
theorem delivered_exactly_once_two_lines :
    ∃ (key sync : Line .bits32) (d : LinuxInputDevice .bits32),
      runSteps step (LinuxInputDevice.new .bits32) [.put key, .put sync, .run, .run, .run, .put key,
        .run, .run, .run, .run] = some d ∧
      d.received = [key.1, sync.1] ∧
        d.received <+: (complete [key, sync, key]).map Subtype.val := by
  let key : Line .bits32 := ⟨[0, 0, 0, 0, 0, 0, 0, 0, 1, 0, 30, 0, 1, 0, 0, 0], rfl⟩
  let sync : Line .bits32 := ⟨List.replicate 16 0, rfl⟩
  have hdelivered := delivered_exactly_once [key, sync, key] (by unfold EventsFit; decide)
    [.put key, .put sync, .run, .run, .run, .put key, .run, .run, .run, .run] (prefix_refl _) _ rfl
  exact ⟨key, sync, _, rfl, rfl, hdelivered.2.1⟩

/-- The lines of an event wait in the buffer until it is full. -/
theorem runSteps_replicate_put {line : Line struct} (hline : line.isSync = false) (n : Nat)
    (hn : n ≤ eventBufferSize) :
    runSteps step (LinuxInputDevice.new struct) (replicate n (.put line)) =
      some { LinuxInputDevice.new struct with
        buffer := { LinuxEventBuffer.new struct with bb := bytes (replicate n line) } } := by
  induction n with
  | zero => rfl
  | succ n ih =>
    have hroom : struct.getSize * (n + 1) ≤ struct.getSize * eventBufferSize :=
      Nat.mul_le_mul_left _ hn
    rw [Nat.mul_succ] at hroom
    rw [replicate_succ', runSteps_concat_iff]
    refine ⟨_, ih (Nat.le_of_succ_le hn), ?_⟩
    have hput : LinuxEventBuffer.put
        { LinuxEventBuffer.new struct with bb := bytes (replicate n line) } line =
        some ({ LinuxEventBuffer.new struct with bb := bytes (replicate (n + 1) line) },
          false) := by
      rw [LinuxEventBuffer.put, if_neg, hline, replicate_succ', bytes_append, bytes_singleton]
      · rfl
      · rw [length_bytes, length_replicate, line.2]
        simp only [LinuxEventBuffer.new]
        omega
    simp only [step, LinuxInputDevice.put, hput]
    rfl

/-- The end of an event of 1001 lines finds no space, so that nothing is ever received. -/
theorem long_event_stuck :
    ∃ (key sync : Line .bits32) (d : LinuxInputDevice .bits32),
      complete (replicate 1000 key ++ [sync]) = replicate 1000 key ++ [sync] ∧
      runSteps step (LinuxInputDevice.new .bits32) (replicate 1000 (.put key)) = some d ∧
      Stuck (replicate 1000 key ++ [sync]) (replicate 1000 (.put key)) d ∧ d.received = [] := by
  let key : Line .bits32 := ⟨[0, 0, 0, 0, 0, 0, 0, 0, 1, 0, 30, 0, 1, 0, 0, 0], rfl⟩
  let sync : Line .bits32 := ⟨List.replicate 16 0, rfl⟩
  refine ⟨key, sync, _, complete_sync _ rfl,
    runSteps_replicate_put (by decide : key.isSync = false) 1000 (Nat.le_refl _), ⟨rfl, ?_⟩, rfl⟩
  intro line _
  rw [LinuxInputDevice.put, LinuxEventBuffer.put, if_pos]
  rw [length_bytes, length_replicate, line.2]
  decide

end OpenJfx.Monocle.Linux
