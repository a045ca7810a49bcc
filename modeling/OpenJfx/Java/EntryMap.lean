import OpenJfx.Java.Arrays
import Mathlib.Data.List.Sort

/-!
A hash map of the Java library. Its entries are objects, which outlive their
removal from the map; an iterator walks over them in an order that the map
chooses, and fails fast once the map has been modified behind its back.
-/

namespace OpenJfx.Java

open Java.Arrays List

variable {K W : Type}

structure Entry (K W : Type) where
  id : Nat
  key : K
  value : W

structure EntryMap (K W : Type) where
  /-- in the order of iteration -/
  entries : List (Entry K W)
  removed : List (Entry K W)
  modCount : Nat
  nextId : Nat
  keys_nodup : (entries.map Entry.key).Nodup
  ids_nodup : (entries.map Entry.id).Nodup
  ids_lt : ∀ e ∈ entries, e.id < nextId

namespace EntryMap

def empty : EntryMap K W := ⟨[], [], 0, 0, nodup_nil, nodup_nil, by simp⟩

def find [DecidableEq K] (m : EntryMap K W) (key : K) : Option (Entry K W) :=
  m.entries.find? fun e => e.key = key

def get [DecidableEq K] (m : EntryMap K W) (key : K) : Option W := (m.find key).map Entry.value

def entry (m : EntryMap K W) (id : Nat) : Option (Entry K W) := m.entries.find? fun e => e.id = id

def object (m : EntryMap K W) (id : Nat) : Option (Entry K W) :=
  (m.entries ++ m.removed).find? fun e => e.id = id

def writeTo (id : Nat) (value : W) (e : Entry K W) : Entry K W :=
  if e.id = id then { e with value := value } else e

theorem key_writeTo (id : Nat) (value : W) (e : Entry K W) : (writeTo id value e).key = e.key := by
  rw [writeTo]
  split <;> rfl

theorem id_writeTo (id : Nat) (value : W) (e : Entry K W) : (writeTo id value e).id = e.id := by
  rw [writeTo]
  split <;> rfl

def setValue (m : EntryMap K W) (id : Nat) (value : W) : EntryMap K W where
  entries := m.entries.map (writeTo id value)
  removed := m.removed.map (writeTo id value)
  modCount := m.modCount
  nextId := m.nextId
  keys_nodup := by
    rw [map_map, show Entry.key ∘ writeTo id value = Entry.key from
      funext fun e : Entry K W => key_writeTo id value e]
    exact m.keys_nodup
  ids_nodup := by
    rw [map_map, show Entry.id ∘ writeTo id value = Entry.id from
      funext fun e : Entry K W => id_writeTo id value e]
    exact m.ids_nodup
  ids_lt := by
    intro e he
    obtain ⟨e', he', rfl⟩ := mem_map.mp he
    rw [id_writeTo]
    exact m.ids_lt e' he'

def remove (m : EntryMap K W) (id : Nat) : EntryMap K W where
  entries := m.entries.filter fun e => e.id ≠ id
  removed := m.removed ++ m.entries.filter fun e => e.id = id
  modCount := m.modCount + 1
  nextId := m.nextId
  keys_nodup := m.keys_nodup.sublist (filter_sublist.map _)
  ids_nodup := m.ids_nodup.sublist (filter_sublist.map _)
  ids_lt := fun e he => m.ids_lt e (mem_of_mem_filter he)

/-- A new entry comes in. The table may then hold its entries in any order. -/
def insert [DecidableEq K] (m : EntryMap K W) (order : Nat → Nat) (key : K) (value : W)
    (h : m.find key = none) : EntryMap K W :=
  let perm := perm_insertionSort (fun e e' : Entry K W => order e.id ≤ order e'.id)
    (⟨m.nextId, key, value⟩ :: m.entries)
  { entries := (⟨m.nextId, key, value⟩ :: m.entries).insertionSort
      fun e e' : Entry K W => order e.id ≤ order e'.id
    removed := m.removed
    modCount := m.modCount + 1
    nextId := m.nextId + 1
    keys_nodup := by
      refine (perm.map Entry.key).nodup_iff.mpr (nodup_cons.mpr ⟨?_, m.keys_nodup⟩)
      intro hmem
      obtain ⟨e, he, hkey⟩ := mem_map.mp hmem
      simpa [hkey] using find?_eq_none.mp h e he
    ids_nodup := by
      refine (perm.map Entry.id).nodup_iff.mpr (nodup_cons.mpr ⟨?_, m.ids_nodup⟩)
      intro hmem
      obtain ⟨e, he, hid⟩ := mem_map.mp hmem
      exact absurd hid (m.ids_lt e he).ne
    ids_lt := by
      intro e he
      rcases mem_cons.mp (perm.mem_iff.mp he) with rfl | he
      · exact Nat.lt_succ_self _
      · exact (m.ids_lt e he).trans (Nat.lt_succ_self _) }

/-- `Map.put`, with the value that was there before. -/
def put [DecidableEq K] (m : EntryMap K W) (order : Nat → Nat) (key : K) (value : W) :
    EntryMap K W :=
  match h : m.find key with
  | some e => m.setValue e.id value
  | none => m.insert order key value h

end EntryMap

structure EntryIterator where
  rest : List Nat
  current : Option Nat
  expectedModCount : Nat

namespace EntryIterator

def start (m : EntryMap K W) : EntryIterator := ⟨m.entries.map Entry.id, none, m.modCount⟩

def next (m : EntryMap K W) (it : EntryIterator) : Outcome (Entry K W × EntryIterator) :=
  if m.modCount = it.expectedModCount then
    match it.rest with
    | [] => .error .noSuchElement
    | id :: rest =>
      match m.entry id with
      | some e => .ok (e, { it with rest := rest, current := some id })
      | none => .error .noSuchElement
  else .error .concurrentModification

def remove (m : EntryMap K W) (it : EntryIterator) : Outcome (EntryMap K W × EntryIterator) :=
  match it.current with
  | none => .error (.illegalState "")
  | some id =>
    if m.modCount = it.expectedModCount then
      .ok (m.remove id, { it with current := none, expectedModCount := (m.remove id).modCount })
    else .error .concurrentModification

end EntryIterator

namespace EntryMap

section

variable {m m' : EntryMap K W} {e e' : Entry K W}

theorem eq_of_key (he : e ∈ m.entries) (he' : e' ∈ m.entries) (h : e.key = e'.key) : e = e' :=
  inj_on_of_nodup_map m.keys_nodup he he' h

theorem eq_of_id (he : e ∈ m.entries) (he' : e' ∈ m.entries) (h : e.id = e'.id) : e = e' :=
  inj_on_of_nodup_map m.ids_nodup he he' h

theorem entry_eq_some_iff {id : Nat} : m.entry id = some e ↔ e ∈ m.entries ∧ e.id = id := by
  constructor
  · intro h
    have hid := find?_some h
    exact ⟨mem_of_find?_eq_some h, by simpa using hid⟩
  · rintro ⟨he, rfl⟩
    rcases h : m.entry e.id with _ | e'
    · simpa using find?_eq_none.mp h e he
    · have hid := find?_some h
      rw [eq_of_id (mem_of_find?_eq_some h) he (by simpa using hid)]

theorem writeTo_of_ne (he : e ∈ m.entries) (he' : e' ∈ m.entries) (h : e'.key ≠ e.key)
    (value : W) : writeTo e.id value e' = e' := by
  refine if_neg fun hid => h ?_
  rw [eq_of_id he' he hid]

theorem mem_remove {id : Nat} : e ∈ (m.remove id).entries ↔ e ∈ m.entries ∧ e.id ≠ id := by
  simp [remove]

variable [DecidableEq K]

variable {key : K}

theorem find_eq_some_iff : m.find key = some e ↔ e ∈ m.entries ∧ e.key = key := by
  constructor
  · intro h
    have hkey := find?_some h
    exact ⟨mem_of_find?_eq_some h, by simpa using hkey⟩
  · rintro ⟨he, rfl⟩
    rcases h : m.find e.key with _ | e'
    · simpa using find?_eq_none.mp h e he
    · have hkey := find?_some h
      rw [eq_of_key (mem_of_find?_eq_some h) he (by simpa using hkey)]

theorem get_eq_some_iff {value : W} :
    m.get key = some value ↔ ∃ e ∈ m.entries, e.key = key ∧ e.value = value := by
  simp only [get, Option.map_eq_some_iff, find_eq_some_iff, and_assoc]

theorem get_eq_none_iff : m.get key = none ↔ m.find key = none := by
  rw [get, Option.map_eq_none_iff]

theorem get_eq_update {value : Option W} (hkey : m'.get key = value)
    (hother : ∀ k ≠ key, ∀ w, (∃ e ∈ m'.entries, e.key = k ∧ e.value = w) ↔
      ∃ e ∈ m.entries, e.key = k ∧ e.value = w) :
    m'.get = Function.update m.get key value := by
  funext k
  by_cases hk : k = key
  · rw [hk, Function.update_self, hkey]
  · rw [Function.update_of_ne hk]
    refine Option.ext fun w => ?_
    rw [get_eq_some_iff, get_eq_some_iff]
    exact hother k hk w

theorem get_setValue (he : e ∈ m.entries) (value : W) :
    (m.setValue e.id value).get = Function.update m.get e.key (some value) := by
  refine get_eq_update ?_ ?_
  · refine get_eq_some_iff.mpr ⟨writeTo e.id value e, mem_map_of_mem he, key_writeTo _ _ _, ?_⟩
    rw [writeTo, if_pos rfl]
  · intro k hk w
    constructor
    · rintro ⟨_, hmem, rfl, rfl⟩
      obtain ⟨e', he', rfl⟩ := mem_map.mp hmem
      rw [key_writeTo] at hk
      rw [writeTo_of_ne he he' hk]
      exact ⟨e', he', rfl, rfl⟩
    · rintro ⟨e', he', rfl, rfl⟩
      refine ⟨e', ?_, rfl, rfl⟩
      rw [← writeTo_of_ne he he' hk value]
      exact mem_map_of_mem he'

theorem get_remove (he : e ∈ m.entries) :
    (m.remove e.id).get = Function.update m.get e.key none := by
  refine get_eq_update ?_ ?_
  · rw [get_eq_none_iff]
    rcases h : (m.remove e.id).find e.key with _ | e'
    · rfl
    · obtain ⟨he', hkey⟩ := find_eq_some_iff.mp h
      obtain ⟨he', hid⟩ := mem_remove.mp he'
      exact absurd (congrArg Entry.id (eq_of_key he' he hkey)) hid
  · intro k hk w
    constructor
    · rintro ⟨e', he', rfl, rfl⟩
      exact ⟨e', (mem_remove.mp he').1, rfl, rfl⟩
    · rintro ⟨e', he', rfl, rfl⟩
      refine ⟨e', mem_remove.mpr ⟨he', ?_⟩, rfl, rfl⟩
      intro hid
      exact hk (congrArg Entry.key (eq_of_id he' he hid))

theorem mem_insert {order : Nat → Nat} {value : W} (h : m.find key = none) :
    e ∈ (m.insert order key value h).entries ↔ e = ⟨m.nextId, key, value⟩ ∨ e ∈ m.entries := by
  rw [insert, (perm_insertionSort _ _).mem_iff, mem_cons]

theorem get_insert {order : Nat → Nat} {value : W} (h : m.find key = none) :
    (m.insert order key value h).get = Function.update m.get key (some value) := by
  refine get_eq_update ?_ ?_
  · exact get_eq_some_iff.mpr ⟨_, (mem_insert h).mpr (.inl rfl), rfl, rfl⟩
  · intro k hk w
    constructor
    · rintro ⟨e', he', rfl, rfl⟩
      rcases (mem_insert h).mp he' with rfl | he'
      · exact absurd rfl hk
      · exact ⟨e', he', rfl, rfl⟩
    · rintro ⟨e', he', rfl, rfl⟩
      exact ⟨e', (mem_insert h).mpr (.inr he'), rfl, rfl⟩

end

/-- Whether an iterator over the first map can go on over the second one: it can see
all entries there, or it will be told that the map has been modified. -/
def Follows (m m' : EntryMap K W) : Prop :=
  m.modCount < m'.modCount ∨ m'.modCount = m.modCount ∧
    ∀ e ∈ m.entries, ∃ e' ∈ m'.entries, e'.id = e.id ∧ e'.key = e.key

theorem Follows.refl (m : EntryMap K W) : m.Follows m :=
  .inr ⟨rfl, fun e he => ⟨e, he, rfl, rfl⟩⟩

theorem Follows.trans {m₁ m₂ m₃ : EntryMap K W} (h₁ : m₁.Follows m₂) (h₂ : m₂.Follows m₃) :
    m₁.Follows m₃ := by
  rcases h₁ with h₁ | ⟨heq₁, h₁⟩
  · rcases h₂ with h₂ | ⟨heq₂, -⟩
    · exact .inl (h₁.trans h₂)
    · exact .inl (by omega)
  · rcases h₂ with h₂ | ⟨heq₂, h₂⟩
    · exact .inl (by omega)
    · refine .inr ⟨heq₂.trans heq₁, ?_⟩
      intro e he
      obtain ⟨e', he', hid', hkey'⟩ := h₁ e he
      obtain ⟨e'', he'', hid'', hkey''⟩ := h₂ e' he'
      exact ⟨e'', he'', hid''.trans hid', hkey''.trans hkey'⟩

theorem follows_setValue (m : EntryMap K W) (id : Nat) (value : W) :
    m.Follows (m.setValue id value) :=
  .inr ⟨rfl, fun e he => ⟨_, mem_map_of_mem he, id_writeTo _ _ e, key_writeTo _ _ e⟩⟩

theorem follows_remove (m : EntryMap K W) (id : Nat) : m.Follows (m.remove id) :=
  .inl (Nat.lt_succ_self _)

theorem follows_insert [DecidableEq K] {m : EntryMap K W} {order : Nat → Nat} {key : K} {value : W}
    (h : m.find key = none) : m.Follows (m.insert order key value h) :=
  .inl (Nat.lt_succ_self _)

theorem get_put [DecidableEq K] (m : EntryMap K W) (order : Nat → Nat) (key : K) (value : W) :
    (m.put order key value).get = Function.update m.get key (some value) := by
  rw [put]
  split
  · rename_i e h
    obtain ⟨he, rfl⟩ := find_eq_some_iff.mp h
    exact get_setValue he value
  · rename_i h
    exact get_insert h

theorem follows_put [DecidableEq K] (m : EntryMap K W) (order : Nat → Nat) (key : K) (value : W) :
    m.Follows (m.put order key value) := by
  rw [put]
  split
  · exact follows_setValue m _ value
  · rename_i h
    exact follows_insert h

end EntryMap

structure EntryIterator.Sound (m : EntryMap K W) (key : Option K) (it : EntryIterator) : Prop where
  le : it.expectedModCount ≤ m.modCount
  nodup : (it.current.toList ++ it.rest).Nodup
  rest : m.modCount = it.expectedModCount → ∀ id ∈ it.rest, ∃ e ∈ m.entries, e.id = id
  current : m.modCount = it.expectedModCount → ∀ id ∈ it.current,
    ∃ e ∈ m.entries, e.id = id ∧ key = some e.key

namespace EntryIterator

variable {m m' : EntryMap K W} {key : Option K} {it : EntryIterator}

theorem sound_start (m : EntryMap K W) : (start m).Sound m none := by
  refine ⟨le_rfl, by simpa [start] using m.ids_nodup, ?_, ?_⟩
  · intro _ id hid
    obtain ⟨e, he, rfl⟩ := mem_map.mp hid
    exact ⟨e, he, rfl⟩
  · rintro - id ⟨⟩

theorem Sound.follows (h : it.Sound m key) (hm : m.Follows m') : it.Sound m' key := by
  rcases hm with hlt | ⟨heq, hm⟩
  · have hne : m'.modCount ≠ it.expectedModCount := by
      have := h.le
      omega
    exact ⟨h.le.trans hlt.le, h.nodup, fun hmod => absurd hmod hne, fun hmod => absurd hmod hne⟩
  · refine ⟨by rw [heq]; exact h.le, h.nodup, ?_, ?_⟩
    · intro hmod id hid
      obtain ⟨e, he, rfl⟩ := h.rest (heq.symm.trans hmod) id hid
      obtain ⟨e', he', hid', -⟩ := hm e he
      exact ⟨e', he', hid'⟩
    · intro hmod id hid
      obtain ⟨e, he, rfl, rfl⟩ := h.current (heq.symm.trans hmod) id hid
      obtain ⟨e', he', hid', hkey'⟩ := hm e he
      exact ⟨e', he', hid', by rw [hkey']⟩

theorem next_spec {e : Entry K W} {it' : EntryIterator} (h : it.Sound m key)
    (hnext : it.next m = .ok (e, it')) :
    e ∈ m.entries ∧ it'.current = some e.id ∧ it'.Sound m (some e.key) := by
  simp only [next] at hnext
  split at hnext
  · rename_i hmod
    split at hnext
    · cases hnext
    · rename_i id rest hrest
      split at hnext
      · rename_i e' hentry
        cases hnext
        obtain ⟨he, rfl⟩ := EntryMap.entry_eq_some_iff.mp hentry
        refine ⟨he, rfl, h.le, ?_, ?_, ?_⟩
        · have := h.nodup
          rw [hrest] at this
          simpa using this.of_append_right
        · intro _ id hid
          exact h.rest hmod id (by rw [hrest]; exact mem_cons_of_mem _ hid)
        · rintro - id ⟨⟩
          exact ⟨e, he, rfl, rfl⟩
      · cases hnext
  · cases hnext

theorem remove_spec {it' : EntryIterator} (h : it.Sound m key)
    (hremove : it.remove m = .ok (m', it')) :
    ∃ e ∈ m.entries, it.current = some e.id ∧ m.modCount = it.expectedModCount ∧
      key = some e.key ∧ m' = m.remove e.id ∧ it'.Sound m' key := by
  simp only [remove] at hremove
  split at hremove
  · cases hremove
  · rename_i id hcur
    split at hremove
    · rename_i hmod
      cases hremove
      obtain ⟨e, he, rfl, hkey⟩ := h.current hmod id hcur
      refine ⟨e, he, hcur, hmod, hkey, rfl, le_rfl, ?_, ?_, ?_⟩
      · simpa using h.nodup.of_append_right
      · intro _ id hid
        obtain ⟨e', he', rfl⟩ := h.rest hmod id hid
        refine ⟨e', EntryMap.mem_remove.mpr ⟨he', ?_⟩, rfl⟩
        intro heq
        have hnd := h.nodup
        rw [hcur, ← heq] at hnd
        simp at hnd
        exact hnd.1 hid
      · rintro - id ⟨⟩
    · cases hremove

end EntryIterator

end OpenJfx.Java
