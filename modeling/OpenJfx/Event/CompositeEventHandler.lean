import OpenJfx.Data.DoublyLinked
import Mathlib.Data.List.Perm.Subperm

namespace OpenJfx.Event

open Data.DoublyLinked List

/-- The records that are registered are in the order of their creation. -/
structure EventProcessorRecord (H : Type) where
  eventProcessor : H
  isFilter : Bool
  nextRecord : Option Nat
  prevRecord : Option Nat

/-- A reference to a record is its index among those that have been created. `collected` are the
weak handlers of which nothing is left but the reference to them. -/
structure CompositeEventHandler (H : Type) where
  records : List (EventProcessorRecord H)
  firstRecord : Option Nat
  lastRecord : Option Nat
  eventHandler : Option H
  collected : List H

namespace CompositeEventHandler

variable {H : Type}

def new : CompositeEventHandler H := ⟨[], none, none, none, []⟩

def next (c : CompositeEventHandler H) (r : Nat) : Option Nat :=
  c.records[r]?.bind EventProcessorRecord.nextRecord

def prev (c : CompositeEventHandler H) (r : Nat) : Option Nat :=
  c.records[r]?.bind EventProcessorRecord.prevRecord

def setNext (c : CompositeEventHandler H) (r : Nat) (nextRecord : Option Nat) :
    CompositeEventHandler H :=
  { c with records := c.records.modify r fun record => { record with nextRecord := nextRecord } }

def setPrev (c : CompositeEventHandler H) (r : Nat) (prevRecord : Option Nat) :
    CompositeEventHandler H :=
  { c with records := c.records.modify r fun record => { record with prevRecord := prevRecord } }

def linkAfter (c : CompositeEventHandler H) (prevRecord record : Option Nat) :
    CompositeEventHandler H :=
  match prevRecord with
  | some p => c.setNext p record
  | none => { c with firstRecord := record }

def linkBefore (c : CompositeEventHandler H) (nextRecord record : Option Nat) :
    CompositeEventHandler H :=
  match nextRecord with
  | some n => c.setPrev n record
  | none => { c with lastRecord := record }

def remove (c : CompositeEventHandler H) (record : Nat) : CompositeEventHandler H :=
  let prevRecord := c.prev record
  let nextRecord := c.next record
  (c.linkAfter prevRecord nextRecord).linkBefore nextRecord prevRecord

def create (c : CompositeEventHandler H) (eventProcessor : H) (isFilter : Bool) :
    CompositeEventHandler H :=
  { c with records := c.records ++ [⟨eventProcessor, isFilter, none, none⟩] }

def recordAfter (c : CompositeEventHandler H) : Option Nat → Option Nat
  | some p => c.next p
  | none => c.firstRecord

def append (c : CompositeEventHandler H) (prevRecord : Option Nat) (newRecord : Nat) :
    CompositeEventHandler H :=
  let nextRecord := c.recordAfter prevRecord
  let c := (c.linkAfter prevRecord (some newRecord)).linkBefore nextRecord (some newRecord)
  (c.setPrev newRecord prevRecord).setNext newRecord nextRecord

section

variable [DecidableEq H]

def isDisconnected (c : CompositeEventHandler H) (record : EventProcessorRecord H) : Bool :=
  c.collected.contains record.eventProcessor

def stores (record : EventProcessorRecord H) (eventProcessor : H) (isFilter : Bool) : Bool :=
  record.isFilter == isFilter && record.eventProcessor == eventProcessor

/-- The loop of `find`, with the record at which it goes on. -/
def findFrom (eventProcessor : H) (isFilter : Bool) :
    Nat → Option Nat → CompositeEventHandler H → CompositeEventHandler H × Option Nat
  | 0, _, c | _ + 1, none, c => (c, none)
  | fuel + 1, some r, c =>
    match c.records[r]? with
    | none => (c, none)
    | some record =>
      if c.isDisconnected record then
        let c := c.remove r
        findFrom eventProcessor isFilter fuel (c.next r) c
      else if stores record eventProcessor isFilter then (c, some r)
      else findFrom eventProcessor isFilter fuel record.nextRecord c

def find (c : CompositeEventHandler H) (eventProcessor : H) (isFilter : Bool) :
    CompositeEventHandler H × Option Nat :=
  findFrom eventProcessor isFilter (c.records.length + 1) c.firstRecord c

def add (c : CompositeEventHandler H) (eventProcessor : H) (isFilter : Bool) :
    CompositeEventHandler H :=
  let (c, found) := c.find eventProcessor isFilter
  if found = none then
    (c.create eventProcessor isFilter).append c.lastRecord c.records.length
  else c

def addEventHandler (c : CompositeEventHandler H) (eventHandler : H) : CompositeEventHandler H :=
  c.add eventHandler false

def addEventFilter (c : CompositeEventHandler H) (eventFilter : H) : CompositeEventHandler H :=
  c.add eventFilter true

def removeFound (c : CompositeEventHandler H) (eventProcessor : H) (isFilter : Bool) :
    CompositeEventHandler H :=
  match c.find eventProcessor isFilter with
  | (c, some record) => c.remove record
  | (c, none) => c

def removeEventHandler (c : CompositeEventHandler H) (eventHandler : H) :
    CompositeEventHandler H :=
  c.removeFound eventHandler false

def removeEventFilter (c : CompositeEventHandler H) (eventFilter : H) : CompositeEventHandler H :=
  c.removeFound eventFilter true

/-- What a handler can do while it is invoked; besides, a weak handler may be collected. -/
inductive Edit (H : Type)
  | addEventHandler (eventHandler : H)
  | removeEventHandler (eventHandler : H)
  | addEventFilter (eventFilter : H)
  | removeEventFilter (eventFilter : H)
  | setEventHandler (eventHandler : Option H)
  | collect (eventProcessor : H)

def perform (c : CompositeEventHandler H) : Edit H → CompositeEventHandler H
  | .addEventHandler eventHandler => c.addEventHandler eventHandler
  | .removeEventHandler eventHandler => c.removeEventHandler eventHandler
  | .addEventFilter eventFilter => c.addEventFilter eventFilter
  | .removeEventFilter eventFilter => c.removeEventFilter eventFilter
  | .setEventHandler eventHandler => { c with eventHandler := eventHandler }
  | .collect eventProcessor => { c with collected := eventProcessor :: c.collected }

def performAll (c : CompositeEventHandler H) (edits : List (Edit H)) : CompositeEventHandler H :=
  edits.foldl perform c

end

section Links

variable (c : CompositeEventHandler H) (r : Nat) (v : Option Nat)

theorem next_setNext (hr : r < c.records.length) :
    (c.setNext r v).next = Function.update c.next r v := by
  funext s
  rw [next, setNext]
  by_cases hs : r = s
  · subst hs
    rw [Function.update_self, getElem?_modify_eq, getElem?_eq_getElem hr]
    rfl
  · rw [Function.update_of_ne (Ne.symm hs), getElem?_modify_ne _ _ hs, next]

theorem prev_setPrev (hr : r < c.records.length) :
    (c.setPrev r v).prev = Function.update c.prev r v := by
  funext s
  rw [prev, setPrev]
  by_cases hs : r = s
  · subst hs
    rw [Function.update_self, getElem?_modify_eq, getElem?_eq_getElem hr]
    rfl
  · rw [Function.update_of_ne (Ne.symm hs), getElem?_modify_ne _ _ hs, prev]

@[simp] theorem prev_setNext : (c.setNext r v).prev = c.prev := by
  funext s
  rw [prev, setNext, getElem?_modify, prev]
  cases c.records[s]? <;> split_ifs <;> rfl

@[simp] theorem next_setPrev : (c.setPrev r v).next = c.next := by
  funext s
  rw [next, setPrev, getElem?_modify, next]
  cases c.records[s]? <;> split_ifs <;> rfl

@[simp] theorem length_setNext : (c.setNext r v).records.length = c.records.length :=
  length_modify _ _ _

@[simp] theorem length_setPrev : (c.setPrev r v).records.length = c.records.length :=
  length_modify _ _ _

def processor (c : CompositeEventHandler H) (r : Nat) : Option (H × Bool) :=
  c.records[r]?.map fun record => (record.eventProcessor, record.isFilter)

@[simp] theorem processor_setNext : (c.setNext r v).processor = c.processor := by
  funext s
  rw [processor, setNext, getElem?_modify, processor]
  cases c.records[s]? <;> simp only [Option.map_eq_map, Option.map_none, Option.map_some]
  split_ifs <;> rfl

@[simp] theorem processor_setPrev : (c.setPrev r v).processor = c.processor := by
  funext s
  rw [processor, setPrev, getElem?_modify, processor]
  cases c.records[s]? <;> simp only [Option.map_eq_map, Option.map_none, Option.map_some]
  split_ifs <;> rfl

/-- What an operation on the links leaves as it is. -/
structure Frames (c c' : CompositeEventHandler H) : Prop where
  length : c'.records.length = c.records.length
  processor : c'.processor = c.processor
  eventHandler : c'.eventHandler = c.eventHandler
  collected : c'.collected = c.collected

theorem Frames.trans {c c' c'' : CompositeEventHandler H} (h : Frames c c') (h' : Frames c' c'') :
    Frames c c'' :=
  ⟨h'.length.trans h.length, h'.processor.trans h.processor, h'.eventHandler.trans h.eventHandler,
    h'.collected.trans h.collected⟩

theorem setNext_frames : Frames c (c.setNext r v) :=
  ⟨length_setNext c r v, processor_setNext c r v, rfl, rfl⟩

theorem setPrev_frames : Frames c (c.setPrev r v) :=
  ⟨length_setPrev c r v, processor_setPrev c r v, rfl, rfl⟩

theorem linkAfter_frames (prevRecord : Option Nat) : Frames c (c.linkAfter prevRecord v) := by
  cases prevRecord with
  | none => exact ⟨rfl, rfl, rfl, rfl⟩
  | some p => exact setNext_frames c p v

theorem linkBefore_frames (nextRecord : Option Nat) : Frames c (c.linkBefore nextRecord v) := by
  cases nextRecord with
  | none => exact ⟨rfl, rfl, rfl, rfl⟩
  | some n => exact setPrev_frames c n v

theorem remove_frames : Frames c (c.remove r) :=
  (linkAfter_frames c _ _).trans (linkBefore_frames _ _ _)

structure Links (c' : CompositeEventHandler H) (next prev : Nat → Option Nat)
    (first last : Option Nat) : Prop where
  next : c'.next = next
  prev : c'.prev = prev
  first : c'.firstRecord = first
  last : c'.lastRecord = last

theorem linkAfter_links (prevRecord : Option Nat) (hp : ∀ p ∈ prevRecord, p < c.records.length) :
    Links (c.linkAfter prevRecord v) (setAt c.next prevRecord v) c.prev
      (if prevRecord = none then v else c.firstRecord) c.lastRecord := by
  cases prevRecord with
  | none => exact ⟨rfl, rfl, rfl, rfl⟩
  | some p => exact ⟨next_setNext c p v (hp p rfl), prev_setNext c p v, rfl, rfl⟩

theorem linkBefore_links (nextRecord : Option Nat) (hn : ∀ n ∈ nextRecord, n < c.records.length) :
    Links (c.linkBefore nextRecord v) c.next (setAt c.prev nextRecord v) c.firstRecord
      (if nextRecord = none then v else c.lastRecord) := by
  cases nextRecord with
  | none => exact ⟨rfl, rfl, rfl, rfl⟩
  | some n => exact ⟨next_setPrev c n v, prev_setPrev c n v (hn n rfl), rfl, rfl⟩

theorem link_links (prevRecord nextRecord w : Option Nat)
    (hp : ∀ p ∈ prevRecord, p < c.records.length) (hn : ∀ n ∈ nextRecord, n < c.records.length) :
    Links ((c.linkAfter prevRecord v).linkBefore nextRecord w) (setAt c.next prevRecord v)
      (setAt c.prev nextRecord w) (if prevRecord = none then v else c.firstRecord)
      (if nextRecord = none then w else c.lastRecord) := by
  obtain ⟨hnext, hprev, hfst, hlast⟩ := linkAfter_links c v prevRecord hp
  have hlen := (linkAfter_frames c v prevRecord).length
  obtain ⟨hnext', hprev', hfst', hlast'⟩ := linkBefore_links (c.linkAfter prevRecord v) w
    nextRecord fun n hn' => by rw [hlen]; exact hn n hn'
  rw [hnext] at hnext'
  rw [hprev] at hprev'
  rw [hfst] at hfst'
  rw [hlast] at hlast'
  exact ⟨hnext', hprev', hfst', hlast'⟩

end Links

structure Registered (c : CompositeEventHandler H) (live : List Nat) : Prop where
  sorted : live.Pairwise (· < ·)
  lt : ∀ r ∈ live, r < c.records.length
  first : c.firstRecord = live.head?
  last : c.lastRecord = live.getLast?
  linked : Linked c.next c.prev none live none
  distinct : (live.map c.processor).Nodup

theorem Registered.nodup {c : CompositeEventHandler H} {live : List Nat} (h : Registered c live) :
    live.Nodup := h.sorted.imp Nat.ne_of_lt

theorem registered_new : Registered (new : CompositeEventHandler H) [] :=
  ⟨.nil, nofun, rfl, rfl, trivial, .nil⟩

section

variable {c : CompositeEventHandler H} {live pre post : List Nat} {r : Nat}

theorem Registered.next_eq (h : Registered c (pre ++ r :: post)) : c.next r = post.head? :=
  h.linked.next_eq.trans Option.or_none

theorem Registered.prev_eq (h : Registered c (pre ++ r :: post)) : c.prev r = pre.getLast? :=
  h.linked.prev_eq.trans Option.or_none

theorem Registered.remove (h : Registered c (pre ++ r :: post)) :
    Registered (c.remove r) (pre ++ post) ∧ Frames c (c.remove r) ∧
      ∀ u, pre.getLast? ≠ some u → (c.remove r).next u = c.next u := by
  have hframes := remove_frames c r
  have hlinks := link_links c post.head? pre.getLast? post.head? pre.getLast?
    (fun p hp => h.lt p (mem_append_left _ (mem_of_getLast? hp)))
    fun n hn => h.lt n (mem_append_right _ (mem_cons_of_mem r (mem_of_head? hn)))
  rw [← h.next_eq, ← h.prev_eq] at hlinks
  change Links (c.remove r) _ _ _ _ at hlinks
  rw [h.next_eq, h.prev_eq] at hlinks
  have hsub : (pre ++ post).Sublist (pre ++ r :: post) :=
    (sublist_cons_self r post).append_left pre
  refine ⟨⟨h.sorted.sublist hsub, ?_, ?_, ?_, ?_, ?_⟩, hframes, ?_⟩
  · intro s hs
    rw [hframes.length]
    exact h.lt s (hsub.subset hs)
  · rw [hlinks.first, h.first]
    cases pre with
    | nil => rfl
    | cons p pre =>
      rw [if_neg nofun, cons_append, cons_append, head?_cons, head?_cons]
  · rw [hlinks.last, h.last]
    cases post with
    | nil => rw [head?_nil, if_pos rfl, append_nil]
    | cons n post =>
      rw [if_neg nofun, getLast?_append, getLast?_append, getLast?_cons_cons]
  · rw [hlinks.next, hlinks.prev]
    exact h.linked.unlink h.nodup
  · rw [hframes.processor]
    exact h.distinct.sublist (hsub.map _)
  · intro u hu
    rw [hlinks.next]
    exact setAt_of_ne hu

theorem create_links (c : CompositeEventHandler H) (e : H) (f : Bool) :
    Links (c.create e f) c.next c.prev c.firstRecord c.lastRecord := by
  have hget : ∀ r, (c.create e f).records[r]? =
      if r = c.records.length then some ⟨e, f, none, none⟩ else c.records[r]? := by
    intro r
    rw [create, getElem?_append]
    split_ifs with hlt heq heq
    · omega
    · rfl
    · rw [heq, Nat.sub_self]
      rfl
    · rw [getElem?_eq_none (by simp; omega), getElem?_eq_none (by omega)]
  refine ⟨?_, ?_, rfl, rfl⟩
  · funext r
    rw [next, hget, next]
    split_ifs with heq
    · rw [getElem?_eq_none (by omega)]
      rfl
    · rfl
  · funext r
    rw [prev, hget, prev]
    split_ifs with heq
    · rw [getElem?_eq_none (by omega)]
      rfl
    · rfl

theorem processor_create (c : CompositeEventHandler H) (e : H) (f : Bool) :
    (c.create e f).processor = Function.update c.processor c.records.length (some (e, f)) := by
  funext r
  rw [processor, create, getElem?_append]
  split_ifs with hlt
  · rw [Function.update_of_ne (Nat.ne_of_lt hlt)]
    rfl
  · by_cases heq : r = c.records.length
    · rw [heq, Function.update_self, Nat.sub_self]
      rfl
    · rw [Function.update_of_ne heq, processor, getElem?_eq_none (by simp; omega),
        getElem?_eq_none (by omega)]

/-- What `add` leaves as it is: the new record is the last one. -/
structure Appends (c c' : CompositeEventHandler H) (e : H) (f : Bool) : Prop where
  length : c'.records.length = c.records.length + 1
  processor : c'.processor = Function.update c.processor c.records.length (some (e, f))
  eventHandler : c'.eventHandler = c.eventHandler
  collected : c'.collected = c.collected
  next : ∀ u, c.lastRecord ≠ some u → u ≠ c.records.length → c'.next u = c.next u

theorem Registered.append (h : Registered c live) {e : H} {f : Bool}
    (hnew : some (e, f) ∉ live.map c.processor) :
    Registered ((c.create e f).append c.lastRecord c.records.length)
        (live ++ [c.records.length]) ∧
      Appends c ((c.create e f).append c.lastRecord c.records.length) e f := by
  obtain ⟨hnext, hprev, hfst, hlast⟩ := create_links c e f
  have hlen : (c.create e f).records.length = c.records.length + 1 := by
    rw [create, length_append]
    rfl
  -- nothing comes after the last record
  have hend : (c.create e f).recordAfter c.lastRecord = none := by
    rw [h.last]
    cases live using List.reverseRecOn with
    | nil => exact hfst.trans h.first
    | append_singleton pre p =>
      rw [getLast?_concat, recordAfter, hnext]
      exact h.next_eq
  obtain ⟨hnext', hprev', hfst', hlast'⟩ := link_links (c.create e f) (some c.records.length)
    c.lastRecord none (some c.records.length) (fun p hp => by
      rw [h.last] at hp
      have := h.lt p (mem_of_getLast? hp)
      omega) nofun
  have hframes := (linkAfter_frames (c.create e f) (some c.records.length) c.lastRecord).trans
    (linkBefore_frames _ (some c.records.length) none)
  have happend : (c.create e f).append c.lastRecord c.records.length =
      ((((c.create e f).linkAfter c.lastRecord (some c.records.length)).linkBefore none
        (some c.records.length)).setPrev c.records.length c.lastRecord).setNext c.records.length
          none := by
    unfold CompositeEventHandler.append
    rw [hend]
  rw [happend]
  generalize ((c.create e f).linkAfter c.lastRecord (some c.records.length)).linkBefore none
    (some c.records.length) = linked at *
  have hnew' : c.records.length ∉ live := fun hmem => Nat.lt_irrefl _ (h.lt _ hmem)
  have hlen' : linked.records.length = c.records.length + 1 := hframes.length.trans hlen
  have hnext'' : ((linked.setPrev c.records.length c.lastRecord).setNext c.records.length
      none).next =
        Function.update (setAt c.next c.lastRecord (some c.records.length)) c.records.length
          none := by
    rw [next_setNext _ _ _ (by rw [length_setPrev]; omega), next_setPrev, hnext', hnext]
  have hprev'' : ((linked.setPrev c.records.length c.lastRecord).setNext c.records.length
      none).prev = Function.update c.prev c.records.length c.lastRecord := by
    rw [prev_setNext, prev_setPrev _ _ _ (by omega), hprev', hprev]
    rfl
  have hproc : ((linked.setPrev c.records.length c.lastRecord).setNext c.records.length
      none).processor = Function.update c.processor c.records.length (some (e, f)) := by
    rw [processor_setNext, processor_setPrev, hframes.processor, processor_create]
  have hlen'' : ((linked.setPrev c.records.length c.lastRecord).setNext c.records.length
      none).records.length = c.records.length + 1 := by
    rw [length_setNext, length_setPrev, hlen']
  refine ⟨⟨?_, ?_, ?_, ?_, ?_, ?_⟩, ⟨hlen'', hproc, hframes.eventHandler, hframes.collected,
    ?_⟩⟩
  · refine pairwise_append.mpr ⟨h.sorted, pairwise_singleton _ _, ?_⟩
    intro r hr n hn
    obtain rfl := mem_singleton.mp hn
    exact h.lt r hr
  · intro r hr
    rw [hlen'']
    rcases mem_append.mp hr with hr | hr
    · exact Nat.lt_succ_of_lt (h.lt r hr)
    · rw [mem_singleton.mp hr]
      exact Nat.lt_succ_self _
  · change linked.firstRecord = _
    rw [hfst', hfst, h.first, h.last]
    cases live with
    | nil => rfl
    | cons r live => rw [getLast?_cons, if_neg nofun, cons_append, head?_cons,
        head?_cons]
  · change linked.lastRecord = _
    rw [hlast', if_pos rfl, getLast?_concat]
  · rw [hnext'', hprev'', h.last]
    exact h.linked.link_last h.nodup hnew'
  · have hsame : live.map (Function.update c.processor c.records.length (some (e, f))) =
        live.map c.processor :=
      map_congr_left fun r hr => Function.update_of_ne (Nat.ne_of_lt (h.lt r hr)) _ _
    rw [hproc, map_append, hsame, map_singleton, Function.update_self]
    refine nodup_append.mpr ⟨h.distinct, pairwise_singleton _ _, ?_⟩
    rintro p hp q hq rfl
    rw [mem_singleton.mp hq] at hp
    exact hnew hp
  · intro u hlast hu
    rw [hnext'', Function.update_of_ne hu]
    exact setAt_of_ne hlast

end

section Find

variable [DecidableEq H]

/-- The walk over the records that `find` and the dispatch make. -/
def registeredFrom (c : CompositeEventHandler H) : Nat → Option Nat → List Nat
  | 0, _ | _ + 1, none => []
  | fuel + 1, some r => r :: registeredFrom c fuel (c.next r)

def registered (c : CompositeEventHandler H) : List Nat :=
  c.registeredFrom c.records.length c.firstRecord

def disconnected (c : CompositeEventHandler H) (r : Nat) : Bool :=
  (c.processor r).any fun processor => c.collected.contains processor.1

/-- Whether `find` returns a record when it comes to it. -/
def holds (c : CompositeEventHandler H) (eventProcessor : H) (isFilter : Bool) (r : Nat) : Bool :=
  !c.disconnected r && c.processor r == some (eventProcessor, isFilter)

def found (c : CompositeEventHandler H) (eventProcessor : H) (isFilter : Bool) : Option Nat :=
  c.registered.find? (c.holds eventProcessor isFilter)

/-- The records that `find` removes. -/
def dropped (c : CompositeEventHandler H) (eventProcessor : H) (isFilter : Bool) : List Nat :=
  (c.registered.takeWhile fun r => !c.holds eventProcessor isFilter r).filter c.disconnected

def removeAll (c : CompositeEventHandler H) (records : List Nat) : CompositeEventHandler H :=
  records.foldl remove c

variable {c : CompositeEventHandler H} {live : List Nat}

omit [DecidableEq H] in
theorem registeredFrom_eq : ∀ (fuel : Nat) (pre rest : List Nat), Registered c (pre ++ rest) →
    rest.length ≤ fuel → c.registeredFrom fuel rest.head? = rest := by
  intro fuel
  induction fuel with
  | zero =>
    intro pre rest _ hlen
    rw [eq_nil_of_length_eq_zero (Nat.le_zero.mp hlen)]
    rfl
  | succ fuel ih =>
    intro pre rest h hlen
    cases rest with
    | nil => rfl
    | cons r rest =>
      rw [head?_cons, registeredFrom, h.next_eq]
      rw [ih (pre ++ [r]) rest (by simpa using h) (by simpa using hlen)]

omit [DecidableEq H] in
theorem Registered.length_le (h : Registered c live) : live.length ≤ c.records.length := by
  have hsub : live ⊆ List.range c.records.length := fun r hr => mem_range.mpr (h.lt r hr)
  simpa using (subperm_of_subset h.nodup hsub).length_le

omit [DecidableEq H] in
theorem Registered.registered_eq (h : Registered c live) : c.registered = live := by
  rw [registered, h.first]
  exact registeredFrom_eq _ [] live h h.length_le

theorem Frames.disconnected_eq {c' : CompositeEventHandler H} (h : Frames c c') :
    c'.disconnected = c.disconnected := by
  funext r
  rw [disconnected, h.processor, h.collected, disconnected]

theorem Frames.holds_eq {c' : CompositeEventHandler H} (h : Frames c c') (e : H) (f : Bool) :
    c'.holds e f = c.holds e f := by
  funext r
  rw [holds, h.processor, h.disconnected_eq, holds]

theorem findFrom_eq (e : H) (f : Bool) :
    ∀ (fuel : Nat) (pre rest : List Nat) (c : CompositeEventHandler H), Registered c (pre ++ rest) →
      rest.length < fuel →
      findFrom e f fuel rest.head? c =
        (c.removeAll ((rest.takeWhile fun r => !c.holds e f r).filter c.disconnected),
          rest.find? (c.holds e f)) := by
  intro fuel
  induction fuel with
  | zero => exact fun _ _ _ _ hlen => absurd hlen (Nat.not_lt_zero _)
  | succ fuel ih =>
    intro pre rest c h hlen
    cases rest with
    | nil => rfl
    | cons r rest =>
      have hr : r < c.records.length := h.lt r (by simp)
      obtain ⟨record, hrec⟩ : ∃ record, c.records[r]? = some record :=
        ⟨_, getElem?_eq_getElem hr⟩
      have hproc : c.processor r = some (record.eventProcessor, record.isFilter) := by
        rw [processor, hrec]
        rfl
      have hdisc : c.disconnected r = c.isDisconnected record := by
        rw [disconnected, hproc]
        rfl
      have hnext : record.nextRecord = rest.head? := by
        rw [← h.next_eq, next, hrec]
        rfl
      have hholds : c.holds e f r = (!c.isDisconnected record && stores record e f) := by
        rw [holds, hdisc, hproc, stores, Bool.and_comm (record.isFilter == f)]
        rfl
      have hrest := Nat.lt_of_succ_lt_succ hlen
      rw [head?_cons, findFrom, hrec]
      simp only [takeWhile_cons, find?_cons, hholds]
      cases hd : c.isDisconnected record with
      | true =>
        obtain ⟨hremove, hframes, hnext'⟩ := h.remove
        have hlast : pre.getLast? ≠ some r := fun heq =>
          (nodup_append.mp h.nodup).2.2 r (mem_of_getLast? heq) r (by simp) rfl
        rw [if_pos rfl, hnext' r hlast, h.next_eq, ih pre rest (c.remove r) hremove hrest,
          hframes.disconnected_eq, hframes.holds_eq]
        simp [hdisc, hd, removeAll]
      | false =>
        cases hs : stores record e f with
        | true => simp [removeAll]
        | false =>
          have h' : Registered c ((pre ++ [r]) ++ rest) := by simpa using h
          rw [hnext, ih (pre ++ [r]) rest c h' hrest]
          simp [hdisc, hd]

theorem Registered.find_eq (h : Registered c live) (e : H) (f : Bool) :
    c.find e f = (c.removeAll (c.dropped e f), c.found e f) := by
  rw [find, h.first, findFrom_eq e f _ [] live c h (Nat.lt_succ_of_le h.length_le), dropped, found,
    h.registered_eq]

end Find

end CompositeEventHandler

end OpenJfx.Event
