import OpenJfx.Collections.UpdateTrackingRun

namespace OpenJfx.Collections

open Java.Arrays Collections.ListChange Collections.ListChangeBuilder

structure ElementListener (E : Type) where
  element : E
  serial : Nat
  deriving DecidableEq

structure ElementsMapElement (E : Type) where
  listener : ElementListener E
  counter : Int

/-- A list with an extractor: its `ElementObserver` keeps a listener on the observables of every
element. -/
structure ObservableListWrapper (E O : Type) where
  backingList : List (Option E)
  elementsMap : E → Option (ElementsMapElement E)
  listeners : O → List (ElementListener E)
  generated : Nat
  changeLock : Nat

namespace ObservableListWrapper

variable {E O : Type} [DecidableEq E] [DecidableEq O]

/-- A method of the list; an exception leaves the list as it is at that time. -/
abbrev ListM (E O : Type) := EStateM Failure (ObservableListWrapper E O)

def addListener (listener : ElementListener E) (list : ObservableListWrapper E O) (o : O) :
    ObservableListWrapper E O :=
  { list with listeners := Function.update list.listeners o (list.listeners o ++ [listener]) }

/-- Of a listener that has been added several times, one registration is removed. -/
def removeListener (listener : ElementListener E) (list : ObservableListWrapper E O) (o : O) :
    ObservableListWrapper E O :=
  { list with listeners := Function.update list.listeners o ((list.listeners o).erase listener) }

def putElement (list : ObservableListWrapper E O) (e : E)
    (element : Option (ElementsMapElement E)) : ObservableListWrapper E O :=
  { list with elementsMap := Function.update list.elementsMap e element }

section

variable (extractor : E → List O)

def attachElement (list : ObservableListWrapper E O) (e : E) : ObservableListWrapper E O :=
  match list.elementsMap e with
  | some element => list.putElement e (some { element with counter := element.counter + 1 })
  | none =>
    let listener : ElementListener E := ⟨e, list.generated⟩
    let list := (extractor e).foldl (addListener listener) list
    { list.putElement e (some ⟨listener, 1⟩) with generated := list.generated + 1 }

def attached (list : ObservableListWrapper E O) : Option E → ObservableListWrapper E O
  | some e => list.attachElement extractor e
  | none => list

def attachListener (e : Option E) : ListM E O Unit := modify fun list => list.attached extractor e

def detachElement (list : ObservableListWrapper E O) (e : E) (element : ElementsMapElement E) :
    ObservableListWrapper E O :=
  let list := (extractor e).foldl (removeListener element.listener) list
  if element.counter - 1 = 0 then list.putElement e none
  else list.putElement e (some { element with counter := element.counter - 1 })

def detachListener : Option E → ListM E O Unit
  | some e => do
    match (← get).elementsMap e with
    | some element => modify fun list => list.detachElement extractor e element
    | none => throw .nullPointer
  | none => pure ()

def setBackingList (l : List (Option E)) : ListM E O Unit :=
  modify fun list => { list with backingList := l }

def checkIndex (index : Int) (length : Nat) : ListM E O Nat :=
  if 0 ≤ index ∧ index < length then pure index.toNat else throw .indexOutOfBounds

def beginChange : ListM E O Unit :=
  modify fun list => { list with changeLock := list.changeLock + 1 }

def endChange : ListM E O Unit :=
  modify fun list => { list with changeLock := list.changeLock - 1 }

def doAdd (index : Int) (element : Option E) : ListM E O Unit := do
  attachListener extractor element
  let l := (← get).backingList
  let index ← checkIndex index (l.length + 1)
  setBackingList (l.insertIdx index element)

def doSet (index : Int) (element : Option E) : ListM E O Unit := do
  let l := (← get).backingList
  let index ← checkIndex index l.length
  setBackingList (l.set index element)
  detachListener extractor (l[index]?).join
  attachListener extractor element

def doRemove (index : Int) : ListM E O Unit := do
  let l := (← get).backingList
  let index ← checkIndex index l.length
  setBackingList (l.eraseIdx index)
  detachListener extractor (l[index]?).join

def removeObject (equals : Option E → Bool) : ListM E O Unit := do
  match (← get).backingList.findIdx? equals with
  | some index => doRemove extractor index
  | none => pure ()

def removeLoop (fromIndex : Int) : Nat → ListM E O Unit
  | 0 => pure ()
  | count + 1 => do
    doRemove extractor fromIndex
    removeLoop fromIndex count

def removeRange (fromIndex toIndex : Int) : ListM E O Unit := do
  beginChange
  removeLoop extractor fromIndex (toIndex - fromIndex).toNat
  endChange

/-- The indexes of the elements that `removeAll` and `retainAll` remove, the last one first. -/
def indexes (l : List (Option E)) (p : Option E → Bool) : List Nat :=
  ((List.range l.length).filter fun i => (l[i]?).any p).reverse

def removeIndexes : List Nat → ListM E O Unit
  | [] => pure ()
  | index :: rest => do
    doRemove extractor index
    removeIndexes rest

def removeIf (p : Option E → Bool) : ListM E O Unit := do
  beginChange
  removeIndexes extractor (indexes (← get).backingList p)
  endChange

def detachAll : List (Option E) → ListM E O Unit
  | [] => pure ()
  | element :: l => do
    detachListener extractor element
    detachAll l

def clear : ListM E O Unit := do
  detachAll extractor (← get).backingList
  setBackingList []

/-- The collections that are passed to `removeAll` and `retainAll` are given by what they
contain. -/
inductive Operation (E : Type)
  | add (index : Int) (element : Option E)
  | set (index : Int) (element : Option E)
  | remove (index : Int)
  | removeObject (equals : Option E → Bool)
  | removeRange (fromIndex toIndex : Int)
  | removeAll (contains : Option E → Bool)
  | retainAll (contains : Option E → Bool)
  | clear

def perform : Operation E → ListM E O Unit
  | .add index element => doAdd extractor index element
  | .set index element => doSet extractor index element
  | .remove index => doRemove extractor index
  | .removeObject equals => removeObject extractor equals
  | .removeRange fromIndex toIndex => removeRange extractor fromIndex toIndex
  | .removeAll contains => removeIf extractor contains
  | .retainAll contains => removeIf extractor fun e => !contains e
  | .clear => clear extractor

def new (l : List (Option E)) : ObservableListWrapper E O :=
  l.foldl (attached extractor) ⟨l, fun _ => none, fun _ => [], 0, 0⟩

end

/-- `invalidated` of a listener, with the sub-changes that are fired. Between the operations the
builder has nothing to report. -/
def invalidated (list : ObservableListWrapper E O) (listener : ElementListener E) :
    Outcome (Option (List (SubChange (Option E)))) := do
  let positions := (List.range list.backingList.length).filter fun i =>
    list.backingList[i]? == some (some listener.element)
  let builder : Builder (Option E) := ⟨list.changeLock, [], [], none⟩
  let builder ← positions.foldlM (fun b i => b.nextUpdate (i : Nat)) builder.beginChange
  let (_, fired) ← builder.endChange
  pure fired

end ObservableListWrapper

end OpenJfx.Collections

namespace OpenJfx.Collections.ObservableListWrapper

open Java.Actions Java.Arrays List

variable {E O : Type} [DecidableEq E] [DecidableEq O] {extractor : E → List O}
  {list list' : ObservableListWrapper E O} {l : List (Option E)} {e : E}

/-- What adding and removing listeners leaves as it is. -/
structure Frames (list list' : ObservableListWrapper E O) : Prop where
  backingList : list'.backingList = list.backingList
  elementsMap : list'.elementsMap = list.elementsMap
  generated : list'.generated = list.generated
  changeLock : list'.changeLock = list.changeLock

theorem count_update {f : O → List (ElementListener E)} {o o' : O}
    {listeners : List (ElementListener E)} (listener : ElementListener E) :
    (Function.update f o listeners o').count listener =
      if o' = o then listeners.count listener else (f o').count listener := by
  split_ifs with ho
  · rw [ho, Function.update_self]
  · rw [Function.update_of_ne ho]

theorem foldListeners_spec {f : ObservableListWrapper E O → O → ObservableListWrapper E O}
    {g : Nat → Nat → Nat} (hzero : ∀ n, g n 0 = n) (hadd : ∀ n j k, g (g n j) k = g n (j + k))
    {listener : ElementListener E}
    (hf : ∀ list o, Frames list (f list o) ∧ ∀ o' other, ((f list o).listeners o').count other =
      g ((list.listeners o').count other) (if o = o' ∧ other = listener then 1 else 0))
    (os : List O) :
    ∀ list : ObservableListWrapper E O,
      Frames list (os.foldl f list) ∧
        ∀ o other, ((os.foldl f list).listeners o).count other =
          g ((list.listeners o).count other) (if other = listener then os.count o else 0) := by
  induction os with
  | nil =>
    refine fun list => ⟨⟨rfl, rfl, rfl, rfl⟩, fun o other => ?_⟩
    rw [count_nil, ite_self, hzero]
    rfl
  | cons o os ih =>
    intro list
    obtain ⟨⟨hl, hm, hg, hc⟩, hcnt⟩ := ih (f list o)
    obtain ⟨⟨hl', hm', hg', hc'⟩, hcnt'⟩ := hf list o
    refine ⟨⟨hl.trans hl', hm.trans hm', hg.trans hg', hc.trans hc'⟩, fun o' other => ?_⟩
    rw [foldl_cons, hcnt, hcnt', hadd, count_cons]
    congr 1
    by_cases ho : o = o'
    · by_cases hother : other = listener
      · rw [if_pos ⟨ho, hother⟩, if_pos hother, if_pos hother, if_pos (beq_iff_eq.mpr ho),
          Nat.add_comm]
      · rw [if_neg fun h => hother h.2, if_neg hother, if_neg hother]
    · rw [if_neg fun h => ho h.1, if_neg fun h => ho (beq_iff_eq.mp h), Nat.zero_add,
        Nat.add_zero]

theorem addListeners_spec (listener : ElementListener E) (os : List O) :
    ∀ list : ObservableListWrapper E O,
      Frames list (os.foldl (addListener listener) list) ∧
        ∀ o other, ((os.foldl (addListener listener) list).listeners o).count other =
          (list.listeners o).count other + if other = listener then os.count o else 0 := by
  refine foldListeners_spec (g := (· + ·)) Nat.add_zero Nat.add_assoc (fun list o => ?_) os
  refine ⟨⟨rfl, rfl, rfl, rfl⟩, fun o' other => ?_⟩
  rw [addListener, count_update, count_append, count_singleton]
  by_cases ho : o = o'
  · rw [if_pos ho.symm, ho]
    simp only [true_and, beq_iff_eq, eq_comm (a := other)]
  · rw [if_neg (Ne.symm ho), if_neg fun h => ho h.1, Nat.add_zero]

theorem removeListeners_spec (listener : ElementListener E) (os : List O) :
    ∀ list : ObservableListWrapper E O,
      Frames list (os.foldl (removeListener listener) list) ∧
        ∀ o other, ((os.foldl (removeListener listener) list).listeners o).count other =
          (list.listeners o).count other - if other = listener then os.count o else 0 := by
  refine foldListeners_spec (g := (· - ·)) Nat.sub_zero Nat.sub_sub (fun list o => ?_) os
  refine ⟨⟨rfl, rfl, rfl, rfl⟩, fun o' other => ?_⟩
  rw [removeListener, count_update, count_erase]
  by_cases ho : o = o'
  · rw [if_pos ho.symm, ho]
    simp only [true_and, beq_iff_eq, eq_comm (a := other)]
  · rw [if_neg (Ne.symm ho), if_neg fun h => ho h.1, Nat.sub_zero]

def Current (list : ObservableListWrapper E O) (listener : ElementListener E) : Prop :=
  ∃ element, list.elementsMap listener.element = some element ∧ element.listener = listener

structure Inv (extractor : E → List O) (gone : List (Option E)) (count : E → Nat)
    (list : ObservableListWrapper E O) : Prop where
  mapped : ∀ e element, list.elementsMap e = some element →
    element.counter = count e ∧ 0 < count e ∧ element.listener.element = e
  unmapped : ∀ e, list.elementsMap e = none → count e = 0
  registered : ∀ listener, list.Current listener → some listener.element ∉ gone →
    ∀ o, (list.listeners o).count listener = (extractor listener.element).count o
  removed : ∀ listener, list.Current listener → some listener.element ∈ gone →
    ∀ o, (list.listeners o).count listener = 0
  stale : ∀ listener, ¬list.Current listener → ∀ o, (list.listeners o).count listener = 0

omit [DecidableEq O] in
theorem elementsMap_put_self (entry : Option (ElementsMapElement E)) :
    (list.putElement e entry).elementsMap e = entry := Function.update_self _ _ _

omit [DecidableEq O] in
theorem elementsMap_put_of_ne {x : E} (hx : x ≠ e) (entry : Option (ElementsMapElement E)) :
    (list.putElement e entry).elementsMap x = list.elementsMap x := Function.update_of_ne hx _ _

variable {count : E → Nat}

theorem Inv.put {gone gone' : List (Option E)} {n : Nat}
    (h : Inv extractor gone count list) (hmap : list'.elementsMap = list.elementsMap)
    (entry : Option (ElementsMapElement E))
    (hsome : ∀ m, entry = some m → m.counter = n ∧ 0 < n ∧ m.listener.element = e)
    (hnone : entry = none → n = 0) (hgone : ∀ x, x ≠ e → (some x ∈ gone' ↔ some x ∈ gone))
    (hother : ∀ listener : ElementListener E, listener.element ≠ e →
      ∀ o, (list'.listeners o).count listener = (list.listeners o).count listener)
    (hreg : ∀ m, entry = some m → some e ∉ gone' →
      ∀ o, (list'.listeners o).count m.listener = (extractor e).count o)
    (hzero : ∀ listener : ElementListener E, listener.element = e →
      (some e ∈ gone' ∨ ∀ m, entry = some m → m.listener ≠ listener) →
      ∀ o, (list'.listeners o).count listener = 0) :
    Inv extractor gone' (Function.update count e n) (list'.putElement e entry) := by
  have hself : ∀ listener : ElementListener E, listener.element = e →
      ((list'.putElement e entry).Current listener ↔
        ∃ m, entry = some m ∧ m.listener = listener) := by
    intro listener he
    rw [Current, he, elementsMap_put_self]
  have hcur : ∀ listener : ElementListener E, listener.element ≠ e →
      ((list'.putElement e entry).Current listener ↔ list.Current listener) := by
    intro listener he
    rw [Current, elementsMap_put_of_ne he, hmap, Current]
  constructor
  · intro x m hm
    by_cases hx : x = e
    · rw [hx, elementsMap_put_self] at hm
      rw [hx, Function.update_self]
      exact hsome m hm
    · rw [elementsMap_put_of_ne hx, hmap] at hm
      rw [Function.update_of_ne hx]
      exact h.mapped x m hm
  · intro x hm
    by_cases hx : x = e
    · rw [hx, elementsMap_put_self] at hm
      rw [hx, Function.update_self]
      exact hnone hm
    · rw [elementsMap_put_of_ne hx, hmap] at hm
      rw [Function.update_of_ne hx]
      exact h.unmapped x hm
  · intro listener hl hmem o
    by_cases he : listener.element = e
    · obtain ⟨m, hm, rfl⟩ := (hself listener he).mp hl
      rw [he] at hmem ⊢
      exact hreg m hm hmem o
    · rw [hgone _ he] at hmem
      exact (hother listener he o).trans
        (h.registered listener ((hcur listener he).mp hl) hmem o)
  · intro listener hl hmem o
    by_cases he : listener.element = e
    · rw [he] at hmem
      exact hzero listener he (.inl hmem) o
    · rw [hgone _ he] at hmem
      exact (hother listener he o).trans (h.removed listener ((hcur listener he).mp hl) hmem o)
  · intro listener hl o
    by_cases he : listener.element = e
    · refine hzero listener he (.inr fun m hm heq => hl ?_) o
      exact (hself listener he).mpr ⟨m, hm, heq⟩
    · exact (hother listener he o).trans
        (h.stale listener (fun hl' => hl ((hcur listener he).mpr hl')) o)

theorem Inv.count_stale {gone : List (Option E)} (h : Inv extractor gone count list)
    {listener : ElementListener E}
    (hne : ∀ m, list.elementsMap listener.element = some m → m.listener ≠ listener) (o : O) :
    (list.listeners o).count listener = 0 := by
  refine h.stale listener ?_ o
  rintro ⟨m, hm, heq⟩
  exact hne m hm heq

theorem inv_attachElement (h : Inv extractor [] count list) (e : E) :
    Inv extractor [] (Function.update count e (count e + 1)) (list.attachElement extractor e) ∧
      (list.attachElement extractor e).backingList = list.backingList ∧
      (list.attachElement extractor e).changeLock = list.changeLock := by
  cases helem : list.elementsMap e with
  | some element =>
    have hattach : list.attachElement extractor e =
        list.putElement e (some { element with counter := element.counter + 1 }) := by
      rw [attachElement, helem]
    obtain ⟨hcounter, hpos, hlis⟩ := h.mapped e element helem
    have hcur : list.Current element.listener := ⟨element, by rw [hlis, helem], rfl⟩
    rw [hattach]
    refine ⟨h.put rfl _ ?_ nofun (fun _ _ => Iff.rfl) (fun _ _ _ => rfl) ?_ ?_, rfl, rfl⟩
    · intro m hm
      obtain rfl := Option.some.inj hm
      refine ⟨?_, Nat.succ_pos _, hlis⟩
      rw [hcounter]
      rfl
    · intro m hm _ o
      obtain rfl := Option.some.inj hm
      rw [← hlis]
      exact h.registered element.listener hcur not_mem_nil o
    · rintro listener rfl (hmem | hne) o
      · exact absurd hmem not_mem_nil
      · refine h.count_stale (fun m hm => ?_) o
        rw [helem] at hm
        obtain rfl := Option.some.inj hm
        exact hne { element with counter := element.counter + 1 } rfl
  | none =>
    have hattach : list.attachElement extractor e =
        { ((extractor e).foldl (addListener ⟨e, list.generated⟩) list).putElement e
            (some ⟨⟨e, list.generated⟩, 1⟩) with generated :=
              ((extractor e).foldl (addListener ⟨e, list.generated⟩) list).generated + 1 } := by
      rw [attachElement, helem]
    have hzero := h.unmapped e helem
    obtain ⟨hframes, hcnt⟩ := addListeners_spec ⟨e, list.generated⟩ (extractor e) list
    rw [hattach]
    generalize (extractor e).foldl (addListener ⟨e, list.generated⟩) list = added at *
    have hold : ∀ listener : ElementListener E, listener.element = e →
        ∀ o, (list.listeners o).count listener = 0 := by
      rintro listener rfl o
      refine h.count_stale (fun m hm => ?_) o
      rw [helem] at hm
      exact nomatch hm
    have hinv : Inv extractor [] (Function.update count e (count e + 1))
        (added.putElement e (some ⟨⟨e, list.generated⟩, 1⟩)) := by
      refine h.put hframes.elementsMap _ ?_ nofun (fun _ _ => Iff.rfl) ?_ ?_ ?_
      · intro m hm
        obtain rfl := Option.some.inj hm
        rw [hzero]
        exact ⟨rfl, Nat.one_pos, rfl⟩
      · intro listener he o
        rw [hcnt, if_neg fun heq => he (congrArg ElementListener.element heq), Nat.add_zero]
      · intro m hm _ o
        obtain rfl := Option.some.inj hm
        rw [hcnt, if_pos rfl, hold _ rfl, Nat.zero_add]
      · rintro listener he (hmem | hne) o
        · exact absurd hmem not_mem_nil
        · rw [hcnt, if_neg fun heq => hne _ rfl heq.symm, hold listener he]
    exact ⟨⟨hinv.mapped, hinv.unmapped, hinv.registered, hinv.removed, hinv.stale⟩,
      hframes.backingList, hframes.changeLock⟩

theorem inv_detachElement {gone : List (Option E)} (h : Inv extractor gone count list)
    {element : ElementsMapElement E} (helem : list.elementsMap e = some element) :
    Inv extractor (some e :: gone) (Function.update count e (count e - 1))
        (list.detachElement extractor e element) ∧
      (list.detachElement extractor e element).backingList = list.backingList ∧
      (list.detachElement extractor e element).changeLock = list.changeLock := by
  obtain ⟨hcounter, hpos, hlis⟩ := h.mapped e element helem
  obtain ⟨hframes, hcnt⟩ := removeListeners_spec element.listener (extractor e) list
  rw [detachElement]
  generalize (extractor e).foldl (removeListener element.listener) list = cleared at *
  have hzero : ∀ listener : ElementListener E, listener.element = e →
      ∀ o, (cleared.listeners o).count listener = 0 := by
    intro listener he o
    rw [hcnt]
    by_cases hl : listener = element.listener
    · have hcur : list.Current listener := ⟨element, by rw [he, helem], hl.symm⟩
      rw [if_pos hl]
      by_cases hgone : some listener.element ∈ gone
      · rw [h.removed listener hcur hgone, Nat.zero_sub]
      · rw [h.registered listener hcur hgone, he, Nat.sub_self]
    · rw [if_neg hl, Nat.sub_zero]
      refine h.count_stale (fun m hm heq => hl ?_) o
      rw [he, helem] at hm
      obtain rfl := Option.some.inj hm
      exact heq.symm
  have hother : ∀ listener : ElementListener E, listener.element ≠ e →
      ∀ o, (cleared.listeners o).count listener = (list.listeners o).count listener := by
    intro listener he o
    rw [hcnt, if_neg fun heq => he (by rw [heq, hlis]), Nat.sub_zero]
  have hgone : ∀ x, x ≠ e → (some x ∈ some e :: gone ↔ some x ∈ gone) := by
    intro x hx
    rw [mem_cons, or_iff_right fun heq => hx (Option.some.inj heq)]
  have hput : ∀ entry : Option (ElementsMapElement E),
      (∀ m, entry = some m → m.counter = (count e - 1 : Nat) ∧ 0 < count e - 1 ∧
        m.listener.element = e) → (entry = none → count e - 1 = 0) →
      Inv extractor (some e :: gone) (Function.update count e (count e - 1))
        (cleared.putElement e entry) := fun entry hsome hnone =>
    h.put hframes.elementsMap entry hsome hnone hgone hother
      (fun m _ hmem => absurd mem_cons_self hmem) fun listener he _ => hzero listener he
  split_ifs with hlast
  · refine ⟨hput none nofun fun _ => ?_, hframes.backingList, hframes.changeLock⟩
    omega
  · refine ⟨hput _ ?_ nofun, hframes.backingList, hframes.changeLock⟩
    intro m hm
    obtain rfl := Option.some.inj hm
    refine ⟨?_, ?_, hlis⟩
    · change element.counter - 1 = _
      omega
    · omega

section Operations

variable {gone taken : List (Option E)} {count : E → Nat} {lock : Nat} {l' : List (Option E)}
  {x : Option E}

theorem Inv.congr (h : Inv extractor gone count list) (hmap : list'.elementsMap = list.elementsMap)
    (hlisteners : list'.listeners = list.listeners) : Inv extractor gone count list' := by
  have hcur : ∀ listener, list'.Current listener ↔ list.Current listener := by
    intro listener
    rw [Current, Current, hmap]
  constructor
  · rw [hmap]
    exact h.mapped
  · rw [hmap]
    exact h.unmapped
  · rw [hlisteners]
    exact fun listener hl => h.registered listener ((hcur listener).mp hl)
  · rw [hlisteners]
    exact fun listener hl => h.removed listener ((hcur listener).mp hl)
  · rw [hlisteners]
    exact fun listener hl => h.stale listener fun hl' => hl ((hcur listener).mpr hl')

theorem Inv.congr_gone {gone' : List (Option E)} (h : Inv extractor gone count list)
    (hgone : ∀ e, some e ∈ gone' ↔ some e ∈ gone) : Inv extractor gone' count list :=
  ⟨h.mapped, h.unmapped, fun listener hl hmem => h.registered listener hl (by rwa [← hgone]),
    fun listener hl hmem => h.removed listener hl (by rwa [← hgone]), h.stale⟩

theorem Inv.settle (h : Inv extractor gone count list)
    (hgone : ∀ e, some e ∈ gone → count e = 0 ∨ extractor e = []) :
    Inv extractor [] count list := by
  refine ⟨h.mapped, h.unmapped, fun listener hl _ o => ?_, nofun, h.stale⟩
  by_cases hmem : some listener.element ∈ gone
  · rw [h.removed listener hl hmem o]
    rcases hgone _ hmem with hzero | hnil
    · obtain ⟨m, hm, -⟩ := hl
      have hpos := (h.mapped _ m hm).2.1
      omega
    · rw [hnil, count_nil]
  · exact h.registered listener hl hmem o

def occurrences (l : List (Option E)) (e : E) : Nat := l.count (some e)

structure Stands (extractor : E → List O) (gone l : List (Option E)) (lock : Nat)
    (list : ObservableListWrapper E O) : Prop where
  inv : Inv extractor gone (occurrences l) list
  backingList : list.backingList = l
  changeLock : list.changeLock = lock

theorem occurrences_some_cons (e : E) (l : List (Option E)) :
    occurrences (some e :: l) = Function.update (occurrences l) e (occurrences l e + 1) := by
  funext x
  by_cases hx : x = e
  · rw [hx, Function.update_self, occurrences, count_cons_self]
    rfl
  · rw [Function.update_of_ne hx, occurrences,
      count_cons_of_ne fun heq => hx (Option.some.inj heq).symm]
    rfl

theorem inv_attached (h : Inv extractor [] (occurrences l) list) (x : Option E) :
    Inv extractor [] (occurrences (x :: l)) (list.attached extractor x) ∧
      (list.attached extractor x).backingList = list.backingList ∧
      (list.attached extractor x).changeLock = list.changeLock := by
  cases x with
  | none =>
    exact ⟨h, rfl, rfl⟩
  | some e =>
    rw [occurrences_some_cons]
    exact inv_attachElement h e

theorem attachListener_run (x : Option E) :
    (attachListener extractor x).run list = .ok () (list.attached extractor x) := rfl

theorem detachListener_spec (h : Inv extractor gone (occurrences (x :: l)) list) :
    ∃ list', (detachListener extractor x).run list = .ok () list' ∧
      Inv extractor (x :: gone) (occurrences l) list' ∧ list'.backingList = list.backingList ∧
      list'.changeLock = list.changeLock := by
  cases x with
  | none =>
    refine ⟨list, rfl, h.congr_gone fun e => ?_, rfl, rfl⟩
    have hne : some e ≠ none := nofun
    rw [mem_cons, or_iff_right hne]
  | some e =>
    rw [occurrences_some_cons] at h
    cases helem : list.elementsMap e with
    | none =>
      have hzero := h.unmapped e helem
      rw [Function.update_self] at hzero
      exact absurd hzero (Nat.succ_ne_zero _)
    | some element =>
      obtain ⟨hinv, hbacking, hlock⟩ := inv_detachElement h helem
      rw [Function.update_idem, Function.update_self, Nat.add_sub_cancel,
        Function.update_eq_self] at hinv
      have hget : (MonadState.get : ListM E O (ObservableListWrapper E O)).run list =
          .ok list list := rfl
      refine ⟨list.detachElement extractor e element, ?_, hinv, hbacking, hlock⟩
      rw [detachListener, bind_ok hget, helem]
      rfl

theorem occurrences_perm (h : l.Perm l') : occurrences l = occurrences l' :=
  funext fun _ => h.count_eq _

omit [DecidableEq E] [DecidableEq O] in
theorem checkIndex_ok {i n : Nat} (h : i < n) :
    (checkIndex (i : Int) n : ListM E O Nat).run list = .ok i list := by
  rw [checkIndex, if_pos ⟨by omega, by omega⟩]
  rfl

omit [DecidableEq E] [DecidableEq O] in
theorem checkIndex_error {index : Int} {n : Nat} (h : ¬(0 ≤ index ∧ index < n)) :
    (checkIndex index n : ListM E O Nat).run list = .error .indexOutOfBounds list := by
  rw [checkIndex, if_neg h]
  rfl

omit [DecidableEq E] [DecidableEq O] in
theorem get_run : (MonadState.get : ListM E O (ObservableListWrapper E O)).run list =
    .ok list list := rfl

omit [DecidableEq E] [DecidableEq O] in
theorem setBackingList_run (l : List (Option E)) : (setBackingList l : ListM E O Unit).run list =
    .ok () { list with backingList := l } := rfl

theorem doRemove_spec (h : Stands extractor gone l lock list) {i : Nat} (hi : l[i]? = some x) :
    ∃ list', (doRemove extractor (i : Int)).run list = .ok () list' ∧
      Stands extractor (x :: gone) (l.eraseIdx i) lock list' := by
  obtain ⟨hlt, rfl⟩ := List.getElem?_eq_some_iff.mp hi
  have hperm : occurrences l = occurrences (l[i] :: l.eraseIdx i) :=
    occurrences_perm (getElem_cons_eraseIdx_perm hlt).symm
  have hinv := h.inv
  rw [hperm] at hinv
  have hset : Inv extractor gone (occurrences (l[i] :: l.eraseIdx i))
      { list with backingList := l.eraseIdx i } := hinv.congr rfl rfl
  obtain ⟨list', hrun, hinv', hbacking, hlock⟩ := detachListener_spec hset
  refine ⟨list', ?_, hinv', hbacking, hlock.trans h.changeLock⟩
  rw [doRemove, bind_ok get_run, h.backingList, bind_ok (checkIndex_ok hlt), hi]
  exact hrun

/-- What an operation that only removes takes out. -/
structure Takes (extractor : E → List O) (taken : List (Option E)) (l l' : List (Option E))
    (lock : Nat) (list' : ObservableListWrapper E O) : Prop where
  perm : l.Perm (taken ++ l')
  stands : Stands extractor taken l' lock list'

theorem Takes.settle (h : Takes extractor taken l l' lock list')
    (htaken : ∀ e, some e ∈ taken → extractor e ≠ [] → taken.count (some e) = l.count (some e)) :
    Stands extractor [] l' lock list' := by
  refine ⟨h.stands.inv.settle fun e he => ?_, h.stands.backingList, h.stands.changeLock⟩
  by_cases hnil : extractor e = []
  · exact .inr hnil
  · have hcnt := h.perm.count_eq (some e)
    rw [count_append, htaken e he hnil] at hcnt
    exact .inl (by rw [occurrences]; omega)

theorem removeLoop_spec (front : List (Option E)) : ∀ (removed back gone : List (Option E))
    (list : ObservableListWrapper E O),
    Stands extractor gone (front ++ removed ++ back) lock list →
    ∃ list', (removeLoop extractor (front.length : Int) removed.length).run list = .ok () list' ∧
      Stands extractor (removed.reverse ++ gone) (front ++ back) lock list' := by
  intro removed
  induction removed with
  | nil =>
    intro back gone list h
    rw [append_nil] at h
    exact ⟨list, rfl, h⟩
  | cons x removed ih =>
    intro back gone list h
    have hget : (front ++ x :: removed ++ back)[front.length]? = some x := by simp
    have herase : (front ++ x :: removed ++ back).eraseIdx front.length =
        front ++ removed ++ back := by
      rw [append_assoc, eraseIdx_append_of_length_le (Nat.le_refl _), Nat.sub_self,
        append_assoc]
      rfl
    obtain ⟨list₁, hrun, hstands⟩ := doRemove_spec h hget
    rw [herase] at hstands
    obtain ⟨list', hrun', hstands'⟩ := ih back (x :: gone) list₁ hstands
    refine ⟨list', ?_, ?_⟩
    · rw [length_cons, removeLoop, bind_ok hrun]
      exact hrun'
    · rw [reverse_cons, append_assoc]
      exact hstands'

omit [DecidableEq E] in
theorem indexes_concat (l : List (Option E)) (x : Option E) (p : Option E → Bool) :
    indexes (l ++ [x]) p = (if p x then [l.length] else []) ++ indexes l p := by
  have hlast : (l ++ [x])[l.length]? = some x := getElem?_concat_length
  have hsame : (List.range l.length).filter (fun i => ((l ++ [x])[i]?).any p) =
      (List.range l.length).filter fun i => (l[i]?).any p :=
    filter_congr fun i hi => by rw [getElem?_append_left (mem_range.mp hi)]
  rw [indexes, length_append, length_singleton, range_succ, filter_append,
    hsame, reverse_append, filter_singleton, hlast, indexes]
  cases hp : p x <;> simp [hp]

theorem removeIndexes_spec (p : Option E → Bool) (l : List (Option E)) :
    ∀ (back gone : List (Option E)) (list : ObservableListWrapper E O),
    Stands extractor gone (l ++ back) lock list →
    ∃ list', (removeIndexes extractor (indexes l p)).run list = .ok () list' ∧
      Stands extractor (l.filter p ++ gone) (l.filter (fun x => !p x) ++ back) lock list' := by
  induction l using List.reverseRecOn with
  | nil => exact fun back gone list h => ⟨list, rfl, h⟩
  | append_singleton l x ih =>
    intro back gone list h
    rw [indexes_concat]
    cases hp : p x with
    | false =>
      rw [append_assoc] at h
      obtain ⟨list', hrun, hstands⟩ := ih ([x] ++ back) gone list h
      refine ⟨list', hrun, ?_⟩
      rw [filter_append, filter_append, filter_singleton, filter_singleton, hp]
      simpa using hstands
    | true =>
      have hget : (l ++ [x] ++ back)[l.length]? = some x := by simp
      have herase : (l ++ [x] ++ back).eraseIdx l.length = l ++ back := by
        rw [append_assoc, eraseIdx_append_of_length_le (Nat.le_refl _), Nat.sub_self]
        rfl
      obtain ⟨list₁, hrun, hstands⟩ := doRemove_spec h hget
      rw [herase] at hstands
      obtain ⟨list', hrun', hstands'⟩ := ih back (x :: gone) list₁ hstands
      refine ⟨list', ?_, ?_⟩
      · rw [if_pos rfl, singleton_append, removeIndexes, bind_ok hrun]
        exact hrun'
      · rw [filter_append, filter_append, filter_singleton,
          filter_singleton, hp, append_assoc]
        simpa using hstands'

theorem detachAll_spec (l : List (Option E)) : ∀ (gone : List (Option E))
    (list : ObservableListWrapper E O), Inv extractor gone (occurrences l) list →
    ∃ list', (detachAll extractor l).run list = .ok () list' ∧
      Inv extractor (l.reverse ++ gone) (occurrences []) list' ∧
      list'.backingList = list.backingList ∧ list'.changeLock = list.changeLock := by
  induction l with
  | nil => exact fun gone list h => ⟨list, rfl, h, rfl, rfl⟩
  | cons x l ih =>
    intro gone list h
    obtain ⟨list₁, hrun, hinv, hbacking, hlock⟩ := detachListener_spec h
    obtain ⟨list', hrun', hinv', hbacking', hlock'⟩ := ih (x :: gone) list₁ hinv
    refine ⟨list', ?_, ?_, hbacking'.trans hbacking, hlock'.trans hlock⟩
    · rw [detachAll, bind_ok hrun]
      exact hrun'
    · rw [reverse_cons, append_assoc]
      exact hinv'

end Operations

end OpenJfx.Collections.ObservableListWrapper
