import OpenJfx.Binding.ListenerArray

namespace OpenJfx.Binding.ListenerHelper

open Java.Arrays Binding.ListenerArray

variable {I C V : Type}

/-- The fields of `Generic`. -/
structure Generic (I C V : Type) where
  invalidation : Listeners I
  change : Listeners C
  locked : Bool
  currentValue : Option V

/-- Null, one listener of either kind, or a `Generic` helper with two arrays. A
`ListListenerHelper` is an `ExpressionHelper` that remembers no value. -/
inductive Helper (I C V : Type)
  | null
  | singleInvalidation (listener : I)
  | singleChange (listener : C) (currentValue : Option V)
  | generic (g : Generic I C V)

/-- What the calls read from their surroundings: `equals` of the listeners, which
weak listeners have been collected, and the value of the observable. -/
structure Surroundings (I C V : Type) where
  equalsI : I → I → Bool
  equalsC : C → C → Bool
  collectedI : I → Bool
  collectedC : C → Bool
  value : Option V

def Edited.listeners {L : Type} (e : Edited L) : Listeners L := ⟨some e.array, e.size⟩

namespace Generic

def twoInvalidations (listener0 listener1 : I) : Generic I C V :=
  ⟨⟨some [some listener0, some listener1], 2⟩, ⟨none, 0⟩, false, none⟩

def twoChanges (value : Option V) (listener0 listener1 : C) : Generic I C V :=
  ⟨⟨none, 0⟩, ⟨some [some listener0, some listener1], 2⟩, false, value⟩

def oneOfEach (value : Option V) (invalidationListener : I) (changeListener : C) :
    Generic I C V :=
  ⟨⟨some [some invalidationListener], 1⟩, ⟨some [some changeListener], 1⟩, false, value⟩

end Generic

namespace Helper

def addInvalidationListener (env : Surroundings I C V) (helper : Helper I C V) (listener : I) :
    Outcome (Helper I C V) :=
  match helper with
  | .null => .ok (.singleInvalidation listener)
  | .singleInvalidation own => .ok (.generic (.twoInvalidations own listener))
  | .singleChange own _ => .ok (.generic (.oneOfEach env.value listener own))
  | .generic g => do
    let e ← addListener g.locked env.collectedI g.invalidation listener
    .ok (.generic { g with invalidation := Edited.listeners e })

def addChangeListener (env : Surroundings I C V) (helper : Helper I C V) (listener : C) :
    Outcome (Helper I C V) :=
  match helper with
  | .null => .ok (.singleChange listener env.value)
  | .singleInvalidation own => .ok (.generic (.oneOfEach env.value own listener))
  | .singleChange own _ => .ok (.generic (.twoChanges env.value own listener))
  | .generic g => do
    let e ← addListener g.locked env.collectedC g.change listener
    .ok (.generic { g with
      change := Edited.listeners e
      currentValue := if e.size = 1 then env.value else g.currentValue })

def firstListener {L : Type} (l : Listeners L) : Outcome L :=
  match l.array with
  | some array => listenerAt array 0
  | none => .error .nullPointer

def removeInvalidationListener (env : Surroundings I C V) (helper : Helper I C V) (listener : I) :
    Outcome (Helper I C V) :=
  match helper with
  | .null => .ok .null
  | .singleInvalidation own =>
    if env.equalsI listener own then .ok .null else .ok (.singleInvalidation own)
  | .singleChange own value => .ok (.singleChange own value)
  | .generic g => do
    match ← removeListener env.equalsI g.locked g.invalidation g.change.size listener with
    | .absent => .ok (.generic g)
    | .onlyOther => do
      let own ← firstListener g.change
      .ok (.singleChange own env.value)
    | .emptied => .ok (.generic { g with invalidation := ⟨none, 0⟩ })
    | .single own => .ok (.singleInvalidation own)
    | .edited e => .ok (.generic { g with invalidation := Edited.listeners e })

def removeChangeListener (env : Surroundings I C V) (helper : Helper I C V) (listener : C) :
    Outcome (Helper I C V) :=
  match helper with
  | .null => .ok .null
  | .singleInvalidation own => .ok (.singleInvalidation own)
  | .singleChange own value =>
    if env.equalsC listener own then .ok .null else .ok (.singleChange own value)
  | .generic g => do
    match ← removeListener env.equalsC g.locked g.change g.invalidation.size listener with
    | .absent => .ok (.generic g)
    | .onlyOther => do
      let own ← firstListener g.invalidation
      .ok (.singleInvalidation own)
    | .emptied => .ok (.generic { g with change := ⟨none, 0⟩ })
    | .single own => .ok (.singleChange own env.value)
    | .edited e => .ok (.generic { g with change := Edited.listeners e })

/-- `fireValueChangedEvent` locks a `Generic` helper while it notifies. -/
def setLocked (helper : Helper I C V) (locked : Bool) : Helper I C V :=
  match helper with
  | .generic g => .generic { g with locked := locked }
  | helper => helper

/-- The registered listeners of both kinds, in order. -/
def Represents : Helper I C V → List I → List C → Prop
  | .null, is, cs => is = [] ∧ cs = []
  | .singleInvalidation listener, is, cs => is = [listener] ∧ cs = []
  | .singleChange listener _, is, cs => is = [] ∧ cs = [listener]
  | .generic g, is, cs => g.invalidation.Represents is ∧ g.change.Represents cs

end Helper

variable {L : Type}

theorem represents_edited {e : Edited L} {ls : List L} (hsize : e.size = ls.length)
    (harray : ∃ rest, e.array = ls.map some ++ rest) : (Edited.listeners e).Represents ls :=
  ⟨hsize, harray⟩

theorem represents_none : (⟨none, 0⟩ : Listeners L).Represents [] :=
  ⟨rfl, rfl⟩

theorem represents_some (ls : List L) :
    (⟨some (ls.map some), ls.length⟩ : Listeners L).Represents ls :=
  ⟨rfl, [], by simp⟩

theorem Listeners.Represents.first {l : Listeners L} {ls : List L} (h : l.Represents ls)
    (hsize : l.size = 1) :
    ∃ listener, ls = [listener] ∧ Helper.firstListener l = .ok listener := by
  obtain ⟨hlen, harray⟩ := h
  obtain ⟨listener, rfl⟩ := List.length_eq_one_iff.mp (hlen.symm.trans hsize)
  refine ⟨listener, rfl, ?_⟩
  rcases hl : l.array with _ | array
  · simp [hl] at harray
  · simp only [hl] at harray
    obtain ⟨rest, rfl⟩ := harray
    simp only [Helper.firstListener, hl]
    rfl

def Adds {L : Type} (wasGarbageCollected : L → Bool) (listener : L) (before after : List L) :
    Prop :=
  after = before ++ [listener] ∨ after = before.filter (!wasGarbageCollected ·) ++ [listener]

namespace Helper

section

variable (env : Surroundings I C V) {helper : Helper I C V} {is : List I} {cs : List C}

theorem addInvalidationListener_spec (h : helper.Represents is cs) (listener : I) :
    ∃ helper' is', addInvalidationListener env helper listener = .ok helper' ∧
      Adds env.collectedI listener is is' ∧ helper'.Represents is' cs := by
  cases helper with
  | null =>
    obtain ⟨rfl, rfl⟩ := h
    exact ⟨_, [listener], rfl, .inl rfl, rfl, rfl⟩
  | singleInvalidation own =>
    obtain ⟨rfl, rfl⟩ := h
    exact ⟨_, [own, listener], rfl, .inl rfl, represents_some [own, listener], represents_none⟩
  | singleChange own value =>
    obtain ⟨rfl, rfl⟩ := h
    exact ⟨_, [listener], rfl, .inl rfl, represents_some [listener], represents_some [own]⟩
  | generic g =>
    obtain ⟨hi, hc⟩ := h
    obtain ⟨is', rest, copied, hadd, his'⟩ :=
      addListener_spec g.locked env.collectedI hi listener
    obtain ⟨e, he⟩ : ∃ e : Edited I,
        e = ⟨(is' ++ [listener]).map some ++ rest, is'.length + 1, copied⟩ := ⟨_, rfl⟩
    refine ⟨.generic { g with invalidation := Edited.listeners e }, is' ++ [listener], ?_, ?_,
      represents_edited (by simp [he]) ⟨rest, by rw [he]⟩, hc⟩
    · rw [addInvalidationListener, hadd, ok_bind, he]
    · rcases his' with rfl | rfl
      · exact .inl rfl
      · exact .inr rfl

theorem addChangeListener_spec (h : helper.Represents is cs) (listener : C) :
    ∃ helper' cs', addChangeListener env helper listener = .ok helper' ∧
      Adds env.collectedC listener cs cs' ∧ helper'.Represents is cs' := by
  cases helper with
  | null =>
    obtain ⟨rfl, rfl⟩ := h
    exact ⟨_, [listener], rfl, .inl rfl, rfl, rfl⟩
  | singleInvalidation own =>
    obtain ⟨rfl, rfl⟩ := h
    exact ⟨_, [listener], rfl, .inl rfl, represents_some [own], represents_some [listener]⟩
  | singleChange own value =>
    obtain ⟨rfl, rfl⟩ := h
    exact ⟨_, [own, listener], rfl, .inl rfl, represents_none, represents_some [own, listener]⟩
  | generic g =>
    obtain ⟨hi, hc⟩ := h
    obtain ⟨cs', rest, copied, hadd, hcs'⟩ :=
      addListener_spec g.locked env.collectedC hc listener
    obtain ⟨e, he⟩ : ∃ e : Edited C,
        e = ⟨(cs' ++ [listener]).map some ++ rest, cs'.length + 1, copied⟩ := ⟨_, rfl⟩
    refine ⟨.generic { g with
        change := Edited.listeners e
        currentValue := if e.size = 1 then env.value else g.currentValue },
      cs' ++ [listener], ?_, ?_, hi, represents_edited (by simp [he]) ⟨rest, by rw [he]⟩⟩
    · rw [addChangeListener, hadd, ok_bind, he]
    · rcases hcs' with rfl | rfl
      · exact .inl rfl
      · exact .inr rfl

theorem removeInvalidationListener_spec (h : helper.Represents is cs) (listener : I) :
    ∃ helper', removeInvalidationListener env helper listener = .ok helper' ∧
      helper'.Represents (is.eraseP (env.equalsI listener)) cs := by
  cases helper with
  | null | singleChange own value =>
    obtain ⟨rfl, rfl⟩ := h
    exact ⟨_, rfl, rfl, rfl⟩
  | singleInvalidation own =>
    obtain ⟨rfl, rfl⟩ := h
    by_cases heq : env.equalsI listener own
    · exact ⟨.null, if_pos heq, by simp [heq], rfl⟩
    · exact ⟨.singleInvalidation own, if_neg heq, by simp [heq], rfl⟩
  | generic g =>
    obtain ⟨hi, hc⟩ := h
    obtain ⟨removal, hremove, hleaves⟩ :=
      removeListener_spec env.equalsI g.locked hi g.change.size listener
    rw [removeInvalidationListener, hremove]
    cases removal with
    | absent =>
      refine ⟨.generic g, rfl, ?_, hc⟩
      rw [show is.eraseP (env.equalsI listener) = is from hleaves]
      exact hi
    | onlyOther =>
      obtain ⟨hnil, hone⟩ := hleaves
      obtain ⟨own, rfl, hfst⟩ := Listeners.Represents.first hc hone
      exact ⟨.singleChange own env.value, by simp only [hfst, ok_bind], hnil, rfl⟩
    | emptied =>
      refine ⟨_, rfl, ?_, hc⟩
      rw [show is.eraseP (env.equalsI listener) = [] from hleaves]
      exact represents_none
    | single own =>
      obtain ⟨hsingle, hzero⟩ := hleaves
      refine ⟨_, rfl, hsingle, ?_⟩
      exact List.eq_nil_of_length_eq_zero (hc.1.symm.trans hzero)
    | edited e => exact ⟨_, rfl, represents_edited hleaves.1 hleaves.2, hc⟩

theorem removeChangeListener_spec (h : helper.Represents is cs) (listener : C) :
    ∃ helper', removeChangeListener env helper listener = .ok helper' ∧
      helper'.Represents is (cs.eraseP (env.equalsC listener)) := by
  cases helper with
  | null | singleInvalidation own =>
    obtain ⟨rfl, rfl⟩ := h
    exact ⟨_, rfl, rfl, rfl⟩
  | singleChange own value =>
    obtain ⟨rfl, rfl⟩ := h
    by_cases heq : env.equalsC listener own
    · exact ⟨.null, if_pos heq, rfl, by simp [heq]⟩
    · exact ⟨.singleChange own value, if_neg heq, rfl, by simp [heq]⟩
  | generic g =>
    obtain ⟨hi, hc⟩ := h
    obtain ⟨removal, hremove, hleaves⟩ :=
      removeListener_spec env.equalsC g.locked hc g.invalidation.size listener
    rw [removeChangeListener, hremove]
    cases removal with
    | absent =>
      refine ⟨.generic g, rfl, hi, ?_⟩
      rw [show cs.eraseP (env.equalsC listener) = cs from hleaves]
      exact hc
    | onlyOther =>
      obtain ⟨hnil, hone⟩ := hleaves
      obtain ⟨own, rfl, hfst⟩ := Listeners.Represents.first hi hone
      exact ⟨.singleInvalidation own, by simp only [hfst, ok_bind], rfl, hnil⟩
    | emptied =>
      refine ⟨_, rfl, hi, ?_⟩
      rw [show cs.eraseP (env.equalsC listener) = [] from hleaves]
      exact represents_none
    | single own =>
      obtain ⟨hsingle, hzero⟩ := hleaves
      refine ⟨_, rfl, ?_, hsingle⟩
      exact List.eq_nil_of_length_eq_zero (hi.1.symm.trans hzero)
    | edited e => exact ⟨_, rfl, hi, represents_edited hleaves.1 hleaves.2⟩

end

end Helper

inductive Call (I C : Type)
  | addInvalidationListener (listener : I)
  | removeInvalidationListener (listener : I)
  | addChangeListener (listener : C)
  | removeChangeListener (listener : C)
  | setLocked (locked : Bool)

def Call.run (env : Surroundings I C V) (helper : Helper I C V) : Call I C → Outcome (Helper I C V)
  | .addInvalidationListener listener => helper.addInvalidationListener env listener
  | .removeInvalidationListener listener => helper.removeInvalidationListener env listener
  | .addChangeListener listener => helper.addChangeListener env listener
  | .removeChangeListener listener => helper.removeChangeListener env listener
  | .setLocked locked => .ok (helper.setLocked locked)

def Call.OnLists (env : Surroundings I C V) (before after : List I × List C) : Call I C → Prop
  | .addInvalidationListener listener =>
    Adds env.collectedI listener before.1 after.1 ∧ after.2 = before.2
  | .removeInvalidationListener listener =>
    after = (before.1.eraseP (env.equalsI listener), before.2)
  | .addChangeListener listener =>
    after.1 = before.1 ∧ Adds env.collectedC listener before.2 after.2
  | .removeChangeListener listener =>
    after = (before.1, before.2.eraseP (env.equalsC listener))
  | .setLocked _ => after = before

theorem Call.run_spec (env : Surroundings I C V) {helper : Helper I C V}
    {lists : List I × List C} (h : helper.Represents lists.1 lists.2) (call : Call I C) :
    ∃ helper' lists', call.run env helper = .ok helper' ∧ call.OnLists env lists lists' ∧
      helper'.Represents lists'.1 lists'.2 := by
  cases call with
  | addInvalidationListener listener =>
    obtain ⟨helper', is', hrun, hadds, h'⟩ := Helper.addInvalidationListener_spec env h listener
    exact ⟨helper', (is', lists.2), hrun, ⟨hadds, rfl⟩, h'⟩
  | removeInvalidationListener listener =>
    obtain ⟨helper', hrun, h'⟩ := Helper.removeInvalidationListener_spec env h listener
    exact ⟨helper', _, hrun, rfl, h'⟩
  | addChangeListener listener =>
    obtain ⟨helper', cs', hrun, hadds, h'⟩ := Helper.addChangeListener_spec env h listener
    exact ⟨helper', (lists.1, cs'), hrun, ⟨rfl, hadds⟩, h'⟩
  | removeChangeListener listener =>
    obtain ⟨helper', hrun, h'⟩ := Helper.removeChangeListener_spec env h listener
    exact ⟨helper', _, hrun, rfl, h'⟩
  | setLocked locked =>
    refine ⟨helper.setLocked locked, lists, rfl, rfl, ?_⟩
    cases helper with
    | null => exact h
    | singleInvalidation own => exact h
    | singleChange own value => exact h
    | generic g => exact h

def runCalls (calls : List (Surroundings I C V × Call I C)) (helper : Helper I C V) :
    Outcome (Helper I C V) :=
  calls.foldlM (fun helper call => call.2.run call.1 helper) helper

inductive ListRun : List (Surroundings I C V × Call I C) → List I × List C →
    List I × List C → Prop
  | nil (lists : List I × List C) : ListRun [] lists lists
  | cons {env : Surroundings I C V} {call : Call I C}
      {calls : List (Surroundings I C V × Call I C)} {before middle after : List I × List C}
      (hcall : call.OnLists env before middle) (hrest : ListRun calls middle after) :
      ListRun ((env, call) :: calls) before after

def Helper.SizesFit : Helper I C V → Prop
  | .generic g => (∀ array ∈ g.invalidation.array, g.invalidation.size ≤ array.length) ∧
      (∀ array ∈ g.change.array, g.change.size ≤ array.length) ∧
      (g.invalidation.array = none → g.invalidation.size = 0) ∧
      (g.change.array = none → g.change.size = 0)
  | _ => True

theorem Listeners.Represents.fits {l : Listeners L} {ls : List L} (h : l.Represents ls) :
    (∀ array ∈ l.array, l.size ≤ array.length) ∧ (l.array = none → l.size = 0) := by
  obtain ⟨hsize, harray⟩ := h
  refine ⟨?_, ?_⟩
  · intro array hmem
    rw [Option.mem_def] at hmem
    simp only [hmem] at harray
    obtain ⟨rest, rfl⟩ := harray
    simp [hsize]
  · intro hnone
    simp only [hnone] at harray
    rw [hsize, harray, List.length_nil]

theorem Helper.Represents.sizesFit {helper : Helper I C V} {is : List I} {cs : List C}
    (h : helper.Represents is cs) : helper.SizesFit := by
  cases helper with
  | null => trivial
  | singleInvalidation own => trivial
  | singleChange own value => trivial
  | generic g =>
    obtain ⟨hi, hi'⟩ := Listeners.Represents.fits h.1
    obtain ⟨hc, hc'⟩ := Listeners.Represents.fits h.2
    exact ⟨hi, hc, hi', hc'⟩

/-- Every sequence of calls succeeds and leaves the helper with the listeners that
the same calls on a pair of lists leave. -/
theorem runCalls_refines (calls : List (Surroundings I C V × Call I C)) :
    ∃ helper lists, runCalls calls .null = .ok helper ∧ ListRun calls ([], []) lists ∧
      helper.Represents lists.1 lists.2 ∧ helper.SizesFit := by
  have hrun : ∀ (helper : Helper I C V) (lists : List I × List C),
      helper.Represents lists.1 lists.2 → ∃ helper' lists', runCalls calls helper = .ok helper' ∧
        ListRun calls lists lists' ∧ helper'.Represents lists'.1 lists'.2 := by
    induction calls with
    | nil =>
      intro helper lists h
      exact ⟨helper, lists, rfl, .nil lists, h⟩
    | cons call calls ih =>
      intro helper lists h
      obtain ⟨helper₁, lists₁, hcall, honlists, h₁⟩ := Call.run_spec call.1 h call.2
      obtain ⟨helper₂, lists₂, hcalls, hlists, h₂⟩ := ih _ _ h₁
      refine ⟨helper₂, lists₂, ?_, .cons honlists hlists, h₂⟩
      rw [runCalls, List.foldlM_cons, hcall, ok_bind]
      exact hcalls
  obtain ⟨helper, lists, hcalls, hlists, h⟩ := hrun .null ([], []) ⟨rfl, rfl⟩
  exact ⟨helper, lists, hcalls, hlists, h, h.sizesFit⟩

end OpenJfx.Binding.ListenerHelper

namespace OpenJfx.Binding.ListenerStore

open Java.Arrays Binding.ListenerArray List

variable {L : Type}

/-- The arrays of one kind that have been created; a reference is a position. -/
abbrev Arrays (L : Type) := List (List (Option L))

/-- The two fields of a `Generic` helper for one kind of listeners. -/
structure Slots where
  ref : Option Nat
  size : Nat

def Slots.listeners (arrays : Arrays L) (s : Slots) : Listeners L :=
  ⟨s.ref.bind (arrays[·]?), s.size⟩

def place (arrays : Arrays L) (l : Listeners L) : Arrays L × Slots :=
  match l.array with
  | none => (arrays, ⟨none, l.size⟩)
  | some array => (arrays ++ [array], ⟨some arrays.length, l.size⟩)

/-- The fields after an edit: a copy is a new object. -/
def put (arrays : Arrays L) (s : Slots) (e : Edited L) : Arrays L × Slots :=
  match s.ref, e.copied with
  | some r, false => (arrays.set r e.array, ⟨some r, e.size⟩)
  | _, _ => (arrays ++ [e.array], ⟨some arrays.length, e.size⟩)

/-- A loop of `fireValueChangedEvent`: the array and the size it started with, and
the slot it reads next. -/
structure Cursor where
  ref : Option Nat
  size : Nat
  next : Nat

def Slots.cursor (s : Slots) : Cursor := ⟨s.ref, s.size, 0⟩

/-- The listener that a loop finds in a slot; without one the call on it throws. -/
def slotAt (arrays : Arrays L) (ref : Option Nat) (index : Nat) : Option L := do
  let r ← ref
  let array ← arrays[r]?
  let slot ← array[index]?
  slot

/-- Where `removeListener` starts to overwrite the array it has. -/
def removedInPlace (equals : L → L → Bool) (locked : Bool) (l : Listeners L) (otherSize : Nat)
    (listener : L) : Option Nat := do
  let array ← l.array
  if locked ∨ l.size < 2 ∨ l.size = 2 ∧ otherSize = 0 then none
  else (array.take l.size).findIdx? fun slot => slot.any (equals listener)

/-- Where `trim`, on behalf of `addListener`, starts to overwrite the array. -/
def trimmedInPlace (wasGarbageCollected : L → Bool) (locked : Bool) (l : Listeners L) :
    Option Nat := do
  let array ← l.array
  if locked ∨ l.size < array.length then none
  else (array.take l.size).findIdx? (isCollected wasGarbageCollected)

/-- The listeners `ls` stand in the slots that a loop has still to read, and the
next listener to come in does not go there. -/
structure Cursor.Intact (arrays : Arrays L) (current : Option Slots) (ls : List L) (c : Cursor) :
    Prop where
  size : c.size = ls.length
  ref : ∀ r ∈ c.ref, r < arrays.length
  slots : ∀ index, c.next ≤ index → index < c.size → slotAt arrays c.ref index = ls[index]?
  room : ∀ s ∈ current, ∀ r ∈ c.ref, s.ref = some r → c.size ≤ s.size ∨ c.size ≤ c.next

/-- An edit without a copy leaves the slots below `bound` alone. -/
def KeepsBelow (bound : Option Nat) (l : Listeners L) (e : Edited L) : Prop :=
  e.copied = false → ∀ array ∈ l.array, ∀ n ≤ l.size, (∀ k ∈ bound, n ≤ k) →
    n ≤ e.size ∧ ∀ index < n, e.array[index]? = array[index]?

theorem take_all_not {p : L → Bool} {ls : List L} {n : Nat} (h : ∀ k ∈ ls.findIdx? p, n ≤ k) :
    ∀ x ∈ ls.take n, p x = false := by
  intro x hx
  by_contra hp
  rw [Bool.not_eq_false] at hp
  have hfind := findIdx?_eq_some_of_exists ⟨x, mem_of_mem_take hx, hp⟩
  obtain ⟨i, hi, rfl⟩ := mem_take_iff_getElem.mp hx
  have hlt : i < ls.findIdx p := by
    have := h _ hfind
    omega
  simp [not_of_lt_findIdx hlt] at hp

theorem filter_eq_take_append {p : L → Bool} (ls : List L) {n : Nat}
    (h : ∀ k ∈ ls.findIdx? p, n ≤ k) : ∃ back, ls.filter (!p ·) = ls.take n ++ back := by
  have hfront : (ls.take n).filter (!p ·) = ls.take n :=
    filter_eq_self.mpr fun x hx => by simp [take_all_not h x hx]
  refine ⟨(ls.drop n).filter (!p ·), ?_⟩
  conv_lhs => rw [← take_append_drop n ls]
  rw [filter_append, hfront]

theorem findIdx?_slots (p : Option L → Bool) (ls : List L) (rest : List (Option L)) :
    ((ls.map some ++ rest).take ls.length).findIdx? p = ls.findIdx? (p ∘ some) := by
  rw [take_append_of_le_length (by simp), take_of_length_le (by simp), findIdx?_map]

theorem getElem?_of_take_eq {ls ls' : List L} {n : Nat} (h : ls'.take n = ls.take n)
    (hn : n ≤ ls.length) (rest rest' : List (Option L)) :
    n ≤ ls'.length ∧
      ∀ index < n, (ls'.map some ++ rest')[index]? = (ls.map some ++ rest)[index]? := by
  have hn' : n ≤ ls'.length := by
    have := congrArg List.length h
    simp only [length_take] at this
    omega
  refine ⟨hn', ?_⟩
  intro index hidx
  rw [getElem?_append_left (by rw [length_map]; omega),
    getElem?_append_left (by rw [length_map]; omega), getElem?_map,
    getElem?_map]
  have := congrArg (·[index]?) h
  simp only [getElem?_take_of_lt hidx] at this
  rw [this]

theorem addListener_keepsBelow (locked : Bool) (wasGarbageCollected : L → Bool) {l : Listeners L}
    {ls : List L} (h : l.Represents ls) {listener : L} {e : Edited L}
    (hadd : addListener locked wasGarbageCollected l listener = .ok e) :
    KeepsBelow (trimmedInPlace wasGarbageCollected locked l) l e := by
  obtain ⟨hsize, harray⟩ := h
  intro hcopied array hmem n hn hbound
  rw [Option.mem_def] at hmem
  simp only [hmem] at harray
  obtain ⟨rest, rfl⟩ := harray
  obtain ⟨ls', rest', copied, hroom, hrest', -, hlocked, hplace⟩ :=
    makeRoom_spec locked wasGarbageCollected ls rest
  rcases rest' with _ | ⟨slot, rest'⟩
  · exact absurd rfl hrest'
  have hstore := store_append (ls'.map some) rest' slot (some listener)
  rw [length_map] at hstore
  simp only [addListener, hmem, hsize, hroom, ok_bind, hstore] at hadd
  obtain rfl := (Except.ok.inj hadd).symm
  have htake : ls'.take n = ls.take n := by
    rcases hplace hcopied with ⟨rfl, -⟩ | ⟨rfl, rfl, -⟩
    · rfl
    · have hunlocked : locked = false := by
        by_contra hl
        rw [Bool.not_eq_false] at hl
        simp [hlocked hl] at hcopied
      obtain ⟨back, hback⟩ := filter_eq_take_append (n := n) (p := wasGarbageCollected) ls
        fun k hk => hbound k (by
          simp only [trimmedInPlace, hmem, hunlocked, hsize, Option.bind_eq_bind,
            Option.bind_some]
          rw [if_neg (by simp), findIdx?_slots]
          exact hk)
      rw [hback, take_append_of_le_length (by simp; omega), take_take, Nat.min_self]
  obtain ⟨hle, hslots⟩ := getElem?_of_take_eq htake (by omega) rest (some listener :: rest')
  exact ⟨by simp only; omega, hslots⟩

theorem removeListener_keepsBelow (equals : L → L → Bool) (locked : Bool) {l : Listeners L}
    {ls : List L} (h : l.Represents ls) {otherSize : Nat} {listener : L} {e : Edited L}
    (hremove : removeListener equals locked l otherSize listener = .ok (.edited e)) :
    KeepsBelow (removedInPlace equals locked l otherSize listener) l e := by
  obtain ⟨hsize, harray⟩ := h
  intro hcopied array hmem n hn hbound
  rw [Option.mem_def] at hmem
  simp only [hmem] at harray
  obtain ⟨rest, rfl⟩ := harray
  have hfind := findListener_spec equals listener rest ls []
  simp only [nil_append, length_nil, Nat.zero_add, Option.map_id_fun', id_eq] at hfind
  simp only [removeListener, hmem, hsize, hfind, ok_bind] at hremove
  rcases hidx : ls.findIdx? (equals listener) with _ | index
  · simp [hidx] at hremove
  obtain ⟨front, x, back, rfl, rfl, -⟩ := split_of_findIdx? hidx
  simp only [hidx] at hremove
  split at hremove
  · split at hremove <;> simp at hremove
  · rename_i hone
    split at hremove
    · rcases hat : listenerAt ((front ++ x :: back).map some ++ rest) (1 - front.length : Int)
      · rw [hat] at hremove
        cases hremove
      · rw [hat] at hremove
        cases hremove
    · rename_i htwo
      obtain ⟨rest', hat, -⟩ := removeAt_spec locked front back x rest
      rw [hat] at hremove
      obtain rfl : _ = e := Removal.edited.inj (Except.ok.inj hremove)
      have hunlocked : locked = false := hcopied
      have hnk : n ≤ front.length := hbound front.length (by
        simp only [removedInPlace, hmem, hunlocked, hsize, Option.bind_eq_bind,
          Option.bind_some]
        rw [if_neg
          (by simp only [length_append, length_cons] at hone htwo ⊢; simp; omega)]
        rw [findIdx?_slots]
        exact hidx)
      have htake : (front ++ back).take n = (front ++ x :: back).take n := by
        rw [take_append_of_le_length hnk, take_append_of_le_length hnk]
      exact getElem?_of_take_eq htake (by omega) rest rest'

theorem put_listeners {arrays : Arrays L} {s : Slots} (hs : ∀ r ∈ s.ref, r < arrays.length)
    (e : Edited L) :
    (put arrays s e).2.listeners (put arrays s e).1 = ⟨some e.array, e.size⟩ := by
  obtain ⟨ref, size⟩ := s
  rcases ref with _ | r
  · simp [put, Slots.listeners]
  · have := hs r rfl
    cases hcopied : e.copied <;> simp [put, Slots.listeners, hcopied, this]

theorem put_ref {arrays : Arrays L} {s : Slots} (hs : ∀ r ∈ s.ref, r < arrays.length)
    (e : Edited L) : ∀ r ∈ (put arrays s e).2.ref, r < (put arrays s e).1.length := by
  obtain ⟨ref, size⟩ := s
  rcases ref with _ | r
  · simp [put]
  · have := hs r rfl
    cases hcopied : e.copied <;> simp [put, hcopied, this]

theorem place_listeners (arrays : Arrays L) (l : Listeners L) :
    (place arrays l).2.listeners (place arrays l).1 = l := by
  obtain ⟨array, size⟩ := l
  cases array <;> simp [place, Slots.listeners]

theorem place_ref (arrays : Arrays L) (l : Listeners L) :
    ∀ r ∈ (place arrays l).2.ref, r < (place arrays l).1.length := by
  obtain ⟨array, size⟩ := l
  cases array <;> simp [place]

namespace Cursor.Intact

variable {arrays arrays' : Arrays L} {current current' : Option Slots} {ls : List L} {c : Cursor}

theorem slotAt_append (more : Arrays L) {ref : Option Nat} (h : ∀ r ∈ ref, r < arrays.length)
    (index : Nat) :
    slotAt (arrays ++ more) ref index = slotAt arrays ref index := by
  rcases ref with _ | r
  · rfl
  · simp only [slotAt, Option.bind_eq_bind, Option.bind_some]
    rw [getElem?_append_left (h r rfl)]

theorem fresh (h : c.Intact arrays current ls) (more : Arrays L)
    (hcur : ∀ s ∈ current', ∀ r ∈ s.ref, arrays.length ≤ r) :
    c.Intact (arrays ++ more) current' ls := by
  refine ⟨h.size, ?_, ?_, ?_⟩
  · intro r hr
    have := h.ref r hr
    simp only [length_append]
    omega
  · intro index hnext hlt
    rw [slotAt_append more h.ref]
    exact h.slots index hnext hlt
  · intro s hs r hr href
    have := h.ref r hr
    have := hcur s hs r href
    omega

theorem detach (h : c.Intact arrays current ls) (hcur : ∀ s ∈ current', s.ref = none) :
    c.Intact arrays current' ls := by
  have : c.Intact (arrays ++ []) current' ls := by
    refine h.fresh [] ?_
    intro s hs r hr
    rw [hcur s hs] at hr
    cases hr
  rwa [append_nil] at this

theorem place (h : c.Intact arrays current ls) (l : Listeners L) :
    c.Intact (place arrays l).1 (some (place arrays l).2) ls := by
  obtain ⟨array, size⟩ := l
  cases array with
  | none => exact h.detach (by simp [ListenerStore.place])
  | some array => exact h.fresh [array] (by simp [ListenerStore.place])

theorem inPlace {r size : Nat} {array array' : List (Option L)}
    (h : c.Intact arrays (some ⟨some r, size⟩) ls) (harray : arrays[r]? = some array)
    {size' : Nat} (hkeeps : c.ref = some r → c.next < c.size → c.size ≤ size →
      c.size ≤ size' ∧ ∀ index < c.size, array'[index]? = array[index]?) :
    c.Intact (arrays.set r array') (some ⟨some r, size'⟩) ls := by
  have hr : r < arrays.length := (List.getElem?_eq_some_iff.mp harray).1
  by_cases href : c.ref = some r
  · by_cases hnext : c.next < c.size
    · have hroom : c.size ≤ size := by
        rcases h.room _ rfl r href rfl with hle | hle
        · exact hle
        · omega
      obtain ⟨hle, hslots⟩ := hkeeps href hnext hroom
      refine ⟨h.size, by simpa using h.ref, ?_, ?_⟩
      · intro index hidx hlt
        rw [← h.slots index hidx hlt, href]
        simp only [slotAt, Option.bind_eq_bind, Option.bind_some, getElem?_set_self hr, harray,
          hslots index hlt]
      · intro s hs _ _ _
        obtain rfl := (Option.some.inj hs).symm
        exact .inl hle
    · refine ⟨h.size, by simpa using h.ref, ?_, ?_⟩
      · intro index hidx hlt
        omega
      · intro _ _ _ _ _
        exact .inr (by omega)
  · refine ⟨h.size, by simpa using h.ref, ?_, ?_⟩
    · intro index hidx hlt
      rw [← h.slots index hidx hlt]
      rcases hc : c.ref with _ | r'
      · rfl
      · have hne : r ≠ r' := by
          rintro rfl
          exact href hc
        simp only [slotAt, Option.bind_eq_bind, Option.bind_some, getElem?_set_ne hne]
    · rintro s hs r' hr' hs'
      obtain rfl := (Option.some.inj hs).symm
      simp only at hs'
      rw [hs'] at href
      exact absurd hr' href

theorem put {s : Slots} {e : Edited L} {bound : Option Nat} (h : c.Intact arrays (some s) ls)
    (hs : ∀ r ∈ s.ref, r < arrays.length) (hkeeps : KeepsBelow bound (s.listeners arrays) e)
    (hbound : c.ref = s.ref → ∀ k ∈ bound, c.size ≤ k ∨ c.size ≤ c.next) :
    c.Intact (put arrays s e).1 (some (put arrays s e).2) ls := by
  obtain ⟨ref, size⟩ := s
  have hcopy : c.Intact (arrays ++ [e.array]) (some ⟨some arrays.length, e.size⟩) ls := by
    refine h.fresh [e.array] ?_
    intro s hs r hr
    obtain rfl := (Option.some.inj hs).symm
    exact (Option.some.inj hr).le
  rcases ref with _ | r
  · exact hcopy
  · cases hcopied : e.copied with
    | true => simpa only [ListenerStore.put, hcopied] using hcopy
    | false =>
      have harray := getElem?_eq_getElem (hs r rfl)
      simp only [ListenerStore.put, hcopied]
      refine h.inPlace harray ?_
      intro href hnext hle
      refine hkeeps hcopied _ (by simp [Slots.listeners]) c.size hle ?_
      intro k hk
      rcases hbound href k hk with hlt | hlt
      · exact hlt
      · omega

theorem advance (h : c.Intact arrays current ls) {next : Nat} (hnext : c.next ≤ next) :
    Intact arrays current ls { c with next := next } := by
  refine ⟨h.size, h.ref, ?_, ?_⟩
  · intro index hidx hlt
    exact h.slots index (hnext.trans hidx) hlt
  · intro s hs r hr href
    rcases h.room s hs r hr href with hle | hle
    · exact .inl hle
    · exact .inr (hle.trans hnext)

end Cursor.Intact

end OpenJfx.Binding.ListenerStore
