import OpenJfx.Java.EntryMap

namespace OpenJfx.Collections.ObservableMapWrapper

open Java Java.Arrays

variable {K V : Type}

/-- `SimpleChange`. -/
structure Change (K V : Type) where
  key : K
  old : Option V
  added : Option V
  wasAdded : Bool
  wasRemoved : Bool

inductive View
  | keySet
  | values
  | entrySet

/-- An iterator of one of the views; `last` holds its `lastKey` and `lastValue`. -/
structure ViewIterator (K V : Type) where
  view : View
  entryIt : EntryIterator
  last : Option (K × Option V)

/-- The backing map with the iterators of its views. Null is `none` among the values; among the
keys it is a key like any other. -/
structure State (K V : Type) where
  backingMap : EntryMap K (Option V)
  iterators : List (ViewIterator K V)
  changes : List (Change K V)

inductive Result (K V : Type)
  | void
  | bool (b : Bool)
  | key (k : K)
  | value (v : Option V)
  | entry (id : Nat)
  | thrown (failure : Failure)

def State.callObservers (st : State K V) (change : Change K V) : State K V :=
  { st with changes := st.changes ++ [change] }

/-- An entry is taken out and the change is reported. -/
def State.removeEntry (st : State K V) (e : Entry K (Option V)) : State K V :=
  { st with backingMap := st.backingMap.remove e.id }.callObservers
    ⟨e.key, e.value, none, false, true⟩

section

variable [DecidableEq K] [DecidableEq V]

/-- The test of `put` whether there is anything to report. -/
def isReplaced (ret value : Option V) : Bool :=
  match ret with
  | none => value.isSome
  | some r => !(decide (value = some r))

def put (st : State K V) (order : Nat → Nat) (key : K) (value : Option V) :
    State K V × Result K V :=
  let st' := { st with backingMap := st.backingMap.put order key value }
  match st.backingMap.find key with
  | some e =>
    if isReplaced e.value value then
      (st'.callObservers ⟨key, e.value, value, true, true⟩, .value e.value)
    else (st', .value e.value)
  | none => (st'.callObservers ⟨key, none, value, true, false⟩, .value none)

def putAll (st : State K V) (entries : List (K × Option V × (Nat → Nat))) : State K V :=
  entries.foldl (fun st e => (put st e.2.2 e.1 e.2.1).1) st

def remove (st : State K V) (key : K) : State K V × Option V :=
  match st.backingMap.find key with
  | none => (st, none)
  | some e =>
    ({ st with backingMap := st.backingMap.remove e.id }.callObservers
      ⟨key, e.value, none, false, true⟩, e.value)

def keySetRemove (st : State K V) (key : K) : State K V × Result K V :=
  ((remove st key).1, .bool ((remove st key).2.isSome))

/-- The loop of `clear` and of the `removeRetain` methods: the entries that pass the
test are taken out. The test may look at the map as it is when an entry comes up. -/
def removeWhere (test : EntryMap K (Option V) → Entry K (Option V) → Bool) :
    List Nat → State K V → Bool → State K V × Bool
  | [], st, removed => (st, removed)
  | id :: ids, st, removed =>
    match st.backingMap.entry id with
    | none => removeWhere test ids st removed
    | some e =>
      if test st.backingMap e then removeWhere test ids (st.removeEntry e) true
      else removeWhere test ids st removed

def State.ids (st : State K V) : List Nat := st.backingMap.entries.map Entry.id

def clear (st : State K V) : State K V := (removeWhere (fun _ _ => true) st.ids st false).1

/-- What `contains` of the given collection says; it may be a view of this map. -/
abbrev Contains (K V α : Type) := EntryMap K (Option V) → α → Bool

def keySetRemoveRetain (c : Contains K V K) (removing : Bool) (st : State K V) :
    State K V × Bool :=
  removeWhere (fun m e => removing == c m e.key) st.ids st false

def valuesRemoveRetain (c : Contains K V (Option V)) (removing : Bool) (st : State K V) :
    State K V × Bool :=
  removeWhere (fun m e => removing == c m e.value) st.ids st false

def entrySetRemoveRetain (c : Contains K V (K × Option V)) (removing : Bool) (st : State K V) :
    State K V × Bool :=
  removeWhere (fun m e => removing == c m (e.key, e.value)) st.ids st false

/-- The loop of `remove` of the values, which calls `equals` on every value. -/
def valuesRemoveFrom (o : Option V) : List Nat → State K V → State K V × Result K V
  | [], st => (st, .bool false)
  | id :: ids, st =>
    match st.backingMap.entry id with
    | none => valuesRemoveFrom o ids st
    | some e =>
      match e.value with
      | none => (st, .thrown .nullPointer)
      | some v =>
        if o = some v then (st.removeEntry e, .bool true) else valuesRemoveFrom o ids st

def valuesRemove (o : Option V) (st : State K V) : State K V × Result K V :=
  valuesRemoveFrom o st.ids st

def entrySetRemove (o : Option (K × Option V)) (st : State K V) : State K V × Result K V :=
  match o with
  | none => (st, .bool false)
  | some (key, value) =>
    match st.backingMap.find key with
    | none => (st, .bool false)
    | some e =>
      if e.value = value then
        ({ st with backingMap := st.backingMap.remove e.id }.callObservers
          ⟨key, value, none, false, true⟩, .bool true)
      else (st, .bool false)

def iterator (view : View) (st : State K V) : State K V :=
  { st with iterators := st.iterators ++ [⟨view, .start st.backingMap, none⟩] }

def ViewIterator.answer (it : ViewIterator K V) (e : Entry K (Option V)) : Result K V :=
  match it.view with
  | .keySet => .key e.key
  | .values => .value e.value
  | .entrySet => .entry e.id

def State.setIterator (st : State K V) (i : Nat) (it : ViewIterator K V) : State K V :=
  { st with iterators := st.iterators.set i it }

def next (i : Nat) (st : State K V) : State K V × Result K V :=
  match st.iterators[i]? with
  | none => (st, .void)
  | some it =>
    match it.entryIt.next st.backingMap with
    | .error failure => (st, .thrown failure)
    | .ok (e, entryIt) =>
      (st.setIterator i { it with entryIt := entryIt, last := some (e.key, e.value) },
        it.answer e)

def iteratorRemove (i : Nat) (st : State K V) : State K V × Result K V :=
  match st.iterators[i]? with
  | none => (st, .void)
  | some it =>
    match it.entryIt.remove st.backingMap, it.last with
    | .error failure, _ => (st, .thrown failure)
    | .ok _, none => (st, .void)
    | .ok (map, entryIt), some (lastKey, lastValue) =>
      (({ st with backingMap := map }.setIterator i
        { it with entryIt := entryIt }).callObservers
        ⟨lastKey, lastValue, none, false, true⟩, .void)

/-- `setValue` of an `ObservableEntry`. -/
def setValue (id : Nat) (value : Option V) (st : State K V) : State K V × Result K V :=
  match st.backingMap.object id with
  | none => (st, .void)
  | some e =>
    ({ st with backingMap := st.backingMap.setValue id value }.callObservers
      ⟨e.key, e.value, value, true, true⟩, .value e.value)

/-- A call on the map, on a view, on an iterator or on an entry. A new key carries the
order in which the table is iterated over afterwards. The views' `clear` is that of
the map. -/
inductive Op (K V : Type)
  | put (key : K) (value : Option V) (order : Nat → Nat)
  | putAll (entries : List (K × Option V × (Nat → Nat)))
  | remove (key : K)
  | clear
  | keySetRemove (key : K)
  | keySetRemoveRetain (c : Contains K V K) (removing : Bool)
  | valuesRemove (o : Option V)
  | valuesRemoveRetain (c : Contains K V (Option V)) (removing : Bool)
  | entrySetRemove (o : Option (K × Option V))
  | entrySetRemoveRetain (c : Contains K V (K × Option V)) (removing : Bool)
  | iterator (view : View)
  | next (i : Nat)
  | iteratorRemove (i : Nat)
  | setValue (id : Nat) (value : Option V)

def step (st : State K V) : Op K V → State K V × Result K V
  | .put key value order => put st order key value
  | .putAll entries => (putAll st entries, .void)
  | .remove key => ((remove st key).1, .value (remove st key).2)
  | .clear => (clear st, .void)
  | .keySetRemove key => keySetRemove st key
  | .keySetRemoveRetain c removing =>
    ((keySetRemoveRetain c removing st).1, .bool (keySetRemoveRetain c removing st).2)
  | .valuesRemove o => valuesRemove o st
  | .valuesRemoveRetain c removing =>
    ((valuesRemoveRetain c removing st).1, .bool (valuesRemoveRetain c removing st).2)
  | .entrySetRemove o => entrySetRemove o st
  | .entrySetRemoveRetain c removing =>
    ((entrySetRemoveRetain c removing st).1, .bool (entrySetRemoveRetain c removing st).2)
  | .iterator view => (iterator view st, .void)
  | .next i => next i st
  | .iteratorRemove i => iteratorRemove i st
  | .setValue id value => setValue id value st

structure Step (K V : Type) where
  before : State K V
  op : Op K V
  result : Result K V
  after : State K V

/-- The calls of a run one after the other. -/
def run (st : State K V) : List (Op K V) → List (Step K V)
  | [] => []
  | op :: ops => ⟨st, op, (step st op).2, (step st op).1⟩ :: run (step st op).1 ops

end

/-- A wrapper around a map, without iterators so far. -/
def State.wrap (map : EntryMap K (Option V)) : State K V := ⟨map, [], []⟩

open List

variable {K V : Type} [DecidableEq K]

/-- A map as a listener sees it: a key without a mapping has no value. -/
abbrev Contents (K V : Type) := K → Option (Option V)

def Change.Accurate (m : Contents K V) (c : Change K V) : Prop :=
  if c.wasRemoved then m c.key = some c.old else m c.key = none ∧ c.old = none

def Change.apply (m : Contents K V) (c : Change K V) : Contents K V :=
  Function.update m c.key (if c.wasAdded then some c.added else none)

/-- Replaying the changes leads from one map to the other, and each of them is
accurate when its turn comes. -/
def Replays : Contents K V → List (Change K V) → Contents K V → Prop
  | m, [], m' => m' = m
  | m, c :: cs, m' => c.Accurate m ∧ Replays (c.apply m) cs m'

variable {m m₁ m₂ : Contents K V}

theorem Replays.append {cs cs' : List (Change K V)} (h : Replays m cs m₁) (h' : Replays m₁ cs' m₂) :
    Replays m (cs ++ cs') m₂ := by
  induction cs generalizing m with
  | nil =>
    obtain rfl := h
    exact h'
  | cons c cs ih => exact ⟨h.1, ih h.2⟩

theorem Replays.single {c : Change K V} (h : c.Accurate m) :
    Replays m [c] (c.apply m) :=
  ⟨h, rfl⟩

/-- The calls of which the reports and answers can be relied on. Not among them are
those that trip over a null value, the removal of an entry whose value has changed
since the iterator returned it, and writing to an entry that was removed. -/
def Op.Safe [DecidableEq V] (st : State K V) : Op K V → Prop
  | .keySetRemove key => st.backingMap.get key ≠ some none
  | .valuesRemove o =>
    (st.backingMap.entries.map Entry.value).find? (fun v => v = none ∨ v = o) ≠ some none
  | .iteratorRemove i => ∀ it ∈ st.iterators[i]?,
      it.entryIt.expectedModCount = st.backingMap.modCount →
      ∀ e ∈ st.backingMap.entries, it.entryIt.current = some e.id →
      ∀ last ∈ it.last, last.2 = e.value
  | .setValue id _ => ∀ e ∈ st.backingMap.removed, e.id ≠ id
  | _ => True

/-- A removal through a view answers whether it has changed the map. -/
def Step.Answers (s : Step K V) : Prop :=
  match s.op with
  | .keySetRemove _ | .keySetRemoveRetain _ _ | .valuesRemove _ | .valuesRemoveRetain _ _
  | .entrySetRemove _ | .entrySetRemoveRetain _ _ =>
    ∃ b, s.result = .bool b ∧ (b = true ↔ s.after.backingMap.get ≠ s.before.backingMap.get)
  | _ => True

structure Evolves (st st' : State K V) : Prop where
  changes : ∃ cs, st'.changes = st.changes ++ cs ∧
    Replays st.backingMap.get cs st'.backingMap.get
  follows : st.backingMap.Follows st'.backingMap
  iterators : st'.iterators = st.iterators

theorem Evolves.refl (st : State K V) : Evolves st st :=
  ⟨⟨[], by simp, rfl⟩, .refl _, rfl⟩

variable {st : State K V}

theorem Evolves.trans {st₁ st₂ : State K V} (h₁ : Evolves st st₁) (h₂ : Evolves st₁ st₂) :
    Evolves st st₂ := by
  obtain ⟨cs₁, hchanges₁, hreplays₁⟩ := h₁.changes
  obtain ⟨cs₂, hchanges₂, hreplays₂⟩ := h₂.changes
  refine ⟨⟨cs₁ ++ cs₂, ?_, hreplays₁.append hreplays₂⟩, h₁.follows.trans h₂.follows,
    h₂.iterators.trans h₁.iterators⟩
  rw [hchanges₂, hchanges₁, append_assoc]

theorem evolves_callObservers {map : EntryMap K (Option V)} {c : Change K V}
    (hc : c.Accurate st.backingMap.get) (hget : map.get = c.apply st.backingMap.get)
    (hfollows : st.backingMap.Follows map) :
    Evolves st ({ st with backingMap := map }.callObservers c) :=
  ⟨⟨[c], rfl, by rw [State.callObservers, hget]; exact .single hc⟩, hfollows, rfl⟩

variable {e : Entry K (Option V)}

theorem get_of_mem (he : e ∈ st.backingMap.entries) :
    st.backingMap.get e.key = some e.value :=
  EntryMap.get_eq_some_iff.mpr ⟨e, he, rfl, rfl⟩

theorem removeEntry_evolves (he : e ∈ st.backingMap.entries) : Evolves st (st.removeEntry e) :=
  evolves_callObservers (get_of_mem he) (EntryMap.get_remove he) (EntryMap.follows_remove _ _)

theorem remove_evolves (st : State K V) (key : K) : Evolves st (remove st key).1 := by
  rw [remove]
  split
  · exact .refl st
  · rename_i e hfind
    obtain ⟨he, rfl⟩ := EntryMap.find_eq_some_iff.mp hfind
    exact evolves_callObservers (get_of_mem he) (EntryMap.get_remove he)
      (EntryMap.follows_remove _ _)

/-- No key is there that was not there before, and none has a new value. -/
def Shrinks (m m' : Contents K V) : Prop :=
  ∀ k, m' k = none ∨ m' k = m k

theorem shrinks_remove (he : e ∈ st.backingMap.entries) :
    Shrinks st.backingMap.get (st.removeEntry e).backingMap.get := by
  intro k
  have hget : (st.removeEntry e).backingMap.get = _ := EntryMap.get_remove he
  rw [hget]
  by_cases hk : k = e.key
  · rw [hk, Function.update_self]
    exact .inl rfl
  · rw [Function.update_of_ne hk]
    exact .inr rfl

omit [DecidableEq K] in
theorem Shrinks.trans (h₁ : Shrinks m m₁) (h₂ : Shrinks m₁ m₂) :
    Shrinks m m₂ := by
  intro k
  rcases h₂ k with h | h
  · exact .inl h
  · rw [h]
    exact h₁ k

theorem ne_of_removed {st' : State K V} (he : e ∈ st.backingMap.entries)
    (h : Shrinks (st.removeEntry e).backingMap.get st'.backingMap.get) :
    st'.backingMap.get ≠ st.backingMap.get := by
  intro heq
  have hgone : (st.removeEntry e).backingMap.get e.key = none := by
    have hget : (st.removeEntry e).backingMap.get = _ := EntryMap.get_remove he
    rw [hget, Function.update_self]
  have hkey : st'.backingMap.get e.key = none := by
    rcases h e.key with h | h
    · exact h
    · rw [h, hgone]
  rw [heq, get_of_mem he] at hkey
  cases hkey

theorem removeWhere_spec (test : EntryMap K (Option V) → Entry K (Option V) → Bool)
    (ids : List Nat) : ∀ (st : State K V) (removed : Bool),
      Evolves st (removeWhere test ids st removed).1 ∧
      Shrinks st.backingMap.get (removeWhere test ids st removed).1.backingMap.get ∧
      ((removeWhere test ids st removed).2 = true ↔ removed = true ∨
        (removeWhere test ids st removed).1.backingMap.get ≠ st.backingMap.get) := by
  induction ids with
  | nil =>
    intro st removed
    exact ⟨.refl st, fun _ => .inr rfl, by simp [removeWhere]⟩
  | cons id ids ih =>
    intro st removed
    rw [removeWhere]
    split
    · exact ih st removed
    · rename_i e hentry
      obtain ⟨he, -⟩ := EntryMap.entry_eq_some_iff.mp hentry
      split
      · obtain ⟨hevolves, hshrinks, hanswer⟩ := ih (st.removeEntry e) true
        refine ⟨(removeEntry_evolves he).trans hevolves, (shrinks_remove he).trans hshrinks, ?_⟩
        constructor
        · intro _
          exact .inr (ne_of_removed he hshrinks)
        · intro _
          exact hanswer.mpr (.inl rfl)
      · exact ih st removed

theorem removeWhere_answers (test : EntryMap K (Option V) → Entry K (Option V) → Bool)
    (st : State K V) :
    (removeWhere test st.ids st false).2 = true ↔
      (removeWhere test st.ids st false).1.backingMap.get ≠ st.backingMap.get := by
  have := (removeWhere_spec test st.ids st false).2.2
  simpa using this

theorem keySetRemove_answers {key : K} (h : st.backingMap.get key ≠ some none) :
    (remove st key).2.isSome = true ↔ (remove st key).1.backingMap.get ≠ st.backingMap.get := by
  rw [remove]
  split
  · simp
  · rename_i e hfind
    obtain ⟨he, rfl⟩ := EntryMap.find_eq_some_iff.mp hfind
    rw [get_of_mem he] at h
    have hsome : e.value.isSome = true :=
      Option.isSome_iff_ne_none.mpr fun hnone => h (by rw [hnone])
    constructor
    · intro _
      exact ne_of_removed he fun _ => .inr rfl
    · intro _
      exact hsome

theorem setValue_evolves {id : Nat} (value : Option V)
    (h : ∀ e ∈ st.backingMap.removed, e.id ≠ id) :
    Evolves st (setValue id value st).1 := by
  rw [setValue]
  split
  · exact .refl st
  · rename_i e hobj
    have hid : e.id = id := by simpa using find?_some hobj
    subst hid
    have he : e ∈ st.backingMap.entries := by
      rcases mem_append.mp (mem_of_find?_eq_some hobj) with he | he
      · exact he
      · exact absurd rfl (h e he)
    exact evolves_callObservers (get_of_mem he) (EntryMap.get_setValue he value)
      (EntryMap.follows_setValue _ _ _)

/-- Every iterator is one over the present map, or it will notice that it is not. -/
def State.Sound (st : State K V) : Prop :=
  ∀ it ∈ st.iterators, it.entryIt.Sound st.backingMap (it.last.map Prod.fst)

theorem Evolves.sound {st' : State K V} (h : Evolves st st') (hst : st.Sound) : st'.Sound := by
  intro it hit
  rw [h.iterators] at hit
  exact (hst it hit).follows h.follows

omit [DecidableEq K] in
theorem sound_setIterator (hst : st.Sound) {i : Nat} {it : ViewIterator K V}
    (hit : it.entryIt.Sound st.backingMap (it.last.map Prod.fst)) :
    (st.setIterator i it).Sound := by
  intro it' hit'
  rcases mem_or_eq_of_mem_set hit' with hit' | rfl
  · exact hst it' hit'
  · exact hit

omit [DecidableEq K] in
theorem next_spec (hst : st.Sound) (i : Nat) :
    (next i st).1.Sound ∧ (next i st).1.changes = st.changes ∧
      (next i st).1.backingMap = st.backingMap := by
  rw [next]
  split
  · exact ⟨hst, rfl, rfl⟩
  · rename_i it hi
    split
    · exact ⟨hst, rfl, rfl⟩
    · rename_i e entryIt hnext
      obtain ⟨-, -, hsound⟩ := EntryIterator.next_spec (hst it (mem_of_getElem? hi)) hnext
      exact ⟨sound_setIterator hst hsound, rfl, rfl⟩

variable [DecidableEq V]

theorem put_evolves (st : State K V) (order : Nat → Nat) (key : K) (value : Option V) :
    Evolves st (put st order key value).1 := by
  have hget := EntryMap.get_put st.backingMap order key value
  have hfollows := EntryMap.follows_put st.backingMap order key value
  simp only [put]
  split
  · rename_i e hfind
    obtain ⟨he, rfl⟩ := EntryMap.find_eq_some_iff.mp hfind
    split
    · exact evolves_callObservers (get_of_mem he) hget hfollows
    · rename_i hsame
      refine ⟨⟨[], by simp, ?_⟩, hfollows, rfl⟩
      have hval : value = e.value := by
        rcases hv : e.value with _ | r
        · simpa [isReplaced, hv] using hsame
        · simpa [isReplaced, hv] using hsame
      show EntryMap.get _ = _
      rw [hget, hval, ← get_of_mem he, Function.update_eq_self]
  · rename_i hfind
    refine evolves_callObservers ?_ hget hfollows
    exact ⟨EntryMap.get_eq_none_iff.mpr hfind, rfl⟩

theorem putAll_evolves (entries : List (K × Option V × (Nat → Nat))) (st : State K V) :
    Evolves st (putAll st entries) := by
  induction entries generalizing st with
  | nil => exact .refl st
  | cons e entries ih => exact (put_evolves st e.2.2 e.1 e.2.1).trans (ih _)

theorem valuesRemoveFrom_spec (o : Option V) (st : State K V)
    (rest : List (Entry K (Option V))) :
    (∀ e ∈ rest, e ∈ st.backingMap.entries) →
    (rest.map Entry.value).find? (fun v => v = none ∨ v = o) ≠ some none →
    Evolves st (valuesRemoveFrom o (rest.map Entry.id) st).1 ∧
      ∃ b, (valuesRemoveFrom o (rest.map Entry.id) st).2 = .bool b ∧
        (b = true ↔
          (valuesRemoveFrom o (rest.map Entry.id) st).1.backingMap.get ≠ st.backingMap.get) := by
  induction rest with
  | nil =>
    intro _ _
    exact ⟨.refl st, false, rfl, by simp [valuesRemoveFrom]⟩
  | cons e rest ih =>
    intro hmem hsafe
    have he := hmem e mem_cons_self
    have hentry : st.backingMap.entry e.id = some e :=
      EntryMap.entry_eq_some_iff.mpr ⟨he, rfl⟩
    simp only [map_cons, valuesRemoveFrom, hentry]
    rcases hval : e.value with _ | v
    · simp [hval] at hsafe
    · by_cases ho : o = some v
      · simp only [ho, if_true]
        exact ⟨removeEntry_evolves he, true, rfl,
          iff_of_true rfl (ne_of_removed he fun _ => .inr rfl)⟩
      · simp only [ho, if_false]
        refine ih (fun e' he' => hmem e' (mem_cons_of_mem _ he')) ?_
        rw [map_cons, hval, find?_cons_of_neg (by simpa using fun h => ho h.symm)]
          at hsafe
        exact hsafe

theorem entrySetRemove_spec (o : Option (K × Option V)) (st : State K V) :
    Evolves st (entrySetRemove o st).1 ∧ ∃ b, (entrySetRemove o st).2 = .bool b ∧
      (b = true ↔ (entrySetRemove o st).1.backingMap.get ≠ st.backingMap.get) := by
  rcases o with _ | ⟨key, value⟩
  · exact ⟨.refl st, false, rfl, by simp [entrySetRemove]⟩
  · simp only [entrySetRemove]
    split
    · exact ⟨.refl st, false, rfl, by simp⟩
    · rename_i e hfind
      obtain ⟨he, rfl⟩ := EntryMap.find_eq_some_iff.mp hfind
      split
      · rename_i hval
        subst hval
        exact ⟨removeEntry_evolves he, true, rfl,
          iff_of_true rfl (ne_of_removed he fun _ => .inr rfl)⟩
      · exact ⟨.refl st, false, rfl, by simp⟩

theorem iteratorRemove_spec (hst : st.Sound) {i : Nat} (hsafe : (Op.iteratorRemove i).Safe st) :
    (iteratorRemove i st).1.Sound ∧ ∃ cs, (iteratorRemove i st).1.changes = st.changes ++ cs ∧
      Replays st.backingMap.get cs (iteratorRemove i st).1.backingMap.get := by
  rw [iteratorRemove]
  split
  · exact ⟨hst, [], by simp, rfl⟩
  · rename_i it hi
    split
    · exact ⟨hst, [], by simp, rfl⟩
    · exact ⟨hst, [], by simp, rfl⟩
    · rename_i map entryIt lastKey lastValue hremove hlast
      have hit := hst it (mem_of_getElem? hi)
      rw [hlast] at hit
      obtain ⟨e, he, hcur, hmod, hkey, rfl, hsound⟩ := EntryIterator.remove_spec hit hremove
      obtain rfl : lastKey = e.key := Option.some.inj hkey
      obtain rfl : lastValue = e.value :=
        hsafe it hi hmod.symm e he hcur (e.key, lastValue) hlast
      obtain ⟨cs, hchanges, hreplays⟩ := (removeEntry_evolves he).changes
      refine ⟨?_, cs, hchanges, hreplays⟩
      have hst' : State.Sound { st with backingMap := st.backingMap.remove e.id } :=
        fun it' hit' => (hst it' hit').follows (EntryMap.follows_remove _ _)
      refine sound_setIterator hst' ?_
      simpa [hlast] using hsound

theorem step_spec (hst : st.Sound) {op : Op K V} (hsafe : op.Safe st) :
    (step st op).1.Sound ∧
      (∃ cs, (step st op).1.changes = st.changes ++ cs ∧
        Replays st.backingMap.get cs (step st op).1.backingMap.get) ∧
      Step.Answers ⟨st, op, (step st op).2, (step st op).1⟩ := by
  have hevolves : ∀ {st' : State K V} {p : Prop}, Evolves st st' → p →
      st'.Sound ∧ (∃ cs, st'.changes = st.changes ++ cs ∧
        Replays st.backingMap.get cs st'.backingMap.get) ∧ p :=
    fun h hp => ⟨h.sound hst, h.changes, hp⟩
  cases op with
  | put key value order => exact hevolves (put_evolves st order key value) trivial
  | putAll entries => exact hevolves (putAll_evolves entries st) trivial
  | remove key => exact hevolves (remove_evolves st key) trivial
  | clear => exact hevolves (removeWhere_spec _ st.ids st false).1 trivial
  | keySetRemove key =>
    exact hevolves (remove_evolves st key) ⟨_, rfl, keySetRemove_answers hsafe⟩
  | keySetRemoveRetain c removing
  | valuesRemoveRetain c removing
  | entrySetRemoveRetain c removing =>
    exact hevolves (removeWhere_spec _ st.ids st false).1 ⟨_, rfl, removeWhere_answers _ st⟩
  | valuesRemove o =>
    obtain ⟨h, hanswer⟩ :=
      valuesRemoveFrom_spec o st st.backingMap.entries (fun _ he => he) hsafe
    exact hevolves h hanswer
  | entrySetRemove o => exact hevolves (entrySetRemove_spec o st).1 (entrySetRemove_spec o st).2
  | iterator view =>
    refine ⟨?_, ⟨[], by simp [step, iterator], rfl⟩, trivial⟩
    intro it hit
    rcases mem_append.mp hit with hit | hit
    · exact hst it hit
    · obtain rfl := mem_singleton.mp hit
      exact EntryIterator.sound_start st.backingMap
  | next i =>
    obtain ⟨hsound, hchanges, hmap⟩ := next_spec hst i
    refine ⟨hsound, ⟨[], by rw [append_nil]; exact hchanges, ?_⟩, trivial⟩
    exact congrArg EntryMap.get hmap
  | iteratorRemove i =>
    obtain ⟨hsound, hchanges⟩ := iteratorRemove_spec hst hsafe
    exact ⟨hsound, hchanges, trivial⟩
  | setValue id value => exact hevolves (setValue_evolves value hsafe) trivial

/-- In a run of safe calls, the changes reported so far lead from the map that was
wrapped to the present map after every call, and the views answer whether they have
changed the map. -/
theorem run_replays (map : EntryMap K (Option V)) (ops : List (Op K V))
    (hsafe : ∀ s ∈ run (State.wrap map) ops, s.op.Safe s.before) :
    ∀ s ∈ run (State.wrap map) ops,
      Replays map.get s.after.changes s.after.backingMap.get ∧ s.Answers := by
  have hrun : ∀ (ops : List (Op K V)) (st : State K V), st.Sound →
      Replays map.get st.changes st.backingMap.get → (∀ s ∈ run st ops, s.op.Safe s.before) →
      ∀ s ∈ run st ops, Replays map.get s.after.changes s.after.backingMap.get ∧ s.Answers := by
    intro ops
    induction ops with
    | nil =>
      intro st _ _ _ s hs
      cases hs
    | cons op ops ih =>
      intro st hst hreplays hsafe
      have hhead : op.Safe st := hsafe ⟨st, op, (step st op).2, (step st op).1⟩ mem_cons_self
      obtain ⟨hst', ⟨cs, hchanges, hreplays'⟩, hanswers⟩ := step_spec hst hhead
      have hafter : Replays map.get (step st op).1.changes (step st op).1.backingMap.get := by
        rw [hchanges]
        exact hreplays.append hreplays'
      intro s hs
      rcases mem_cons.mp hs with rfl | hs
      · exact ⟨hafter, hanswers⟩
      · exact ih _ hst' hafter (fun s hs => hsafe s (mem_cons_of_mem _ hs)) s hs
  refine hrun ops (State.wrap map) ?_ rfl hsafe
  intro it hit
  cases hit

def singleton (value : Option Nat) : EntryMap Nat (Option Nat) :=
  EntryMap.empty.insert id 1 value rfl

def twoIterators : List (Op Nat Nat) :=
  [.iterator .entrySet, .next 0, .setValue 0 (some 20), .iterator .keySet, .next 1,
    .iteratorRemove 1]

/-- The entry is removed by an iterator that has seen its new value. -/
theorem run_replays_two_iterators :
    (∀ s ∈ run (State.wrap (singleton (some 10))) twoIterators, s.op.Safe s.before) ∧
    ∀ s ∈ run (State.wrap (singleton (some 10))) twoIterators,
      Replays (singleton (some 10)).get s.after.changes s.after.backingMap.get ∧ s.Answers := by
  refine (and_iff_left_of_imp fun hsafe => run_replays _ _ hsafe).mpr ?_
  intro s hs
  rcases mem_cons.mp hs with rfl | hs
  · trivial
  rcases mem_cons.mp hs with rfl | hs
  · trivial
  rcases mem_cons.mp hs with rfl | hs
  · rintro e ⟨⟩
  rcases mem_cons.mp hs with rfl | hs
  · trivial
  rcases mem_cons.mp hs with rfl | hs
  · trivial
  rcases mem_cons.mp hs with rfl | hs
  · rintro it ⟨⟩ - e he - last ⟨⟩
    obtain rfl : e = ⟨0, 1, some 20⟩ := mem_singleton.mp he
    rfl
  · cases hs

/-- Each of these runs goes wrong: a null value makes the key set deny that it has
removed a key, and makes the values throw; an iterator reports the value it has seen
though the entry has another one now; and an entry reports a change that does not
reach the map. -/
theorem run_not_replays :
    (∃ s ∈ run (State.wrap (singleton none)) [.keySetRemove 1], ¬ s.Answers) ∧
    (∃ s ∈ run (State.wrap (singleton none)) [.valuesRemove (some 5)], ¬ s.Answers) ∧
    (∃ s ∈ run (State.wrap (singleton (some 10)))
        [.iterator .entrySet, .next 0, .setValue 0 (some 20), .iteratorRemove 0],
      ¬ Replays (singleton (some 10)).get s.after.changes s.after.backingMap.get) ∧
    ∃ s ∈ run (State.wrap (singleton (some 10)))
        [.iterator .entrySet, .next 0, .remove 1, .setValue 0 (some 20)],
      ¬ Replays (singleton (some 10)).get s.after.changes s.after.backingMap.get := by
  refine ⟨⟨_, mem_cons_self, ?_⟩, ⟨_, mem_cons_self, ?_⟩,
    ⟨_, mem_of_getElem? (i := 3) rfl, ?_⟩, ⟨_, mem_of_getElem? (i := 3) rfl, ?_⟩⟩
  · rintro ⟨b, hb, hanswer⟩
    obtain rfl : false = b := Result.bool.inj hb
    have hsame := not_not.mp (mt hanswer.mpr (by simp))
    exact absurd (congrFun hsame 1) (by decide)
  · rintro ⟨b, hb, -⟩
    cases hb
  · intro h
    exact absurd (show some (some 20) = some (some 10) from h.2.1) (by decide)
  · intro h
    exact absurd (show none = some (some 10) from h.2.1) (by decide)

end OpenJfx.Collections.ObservableMapWrapper
