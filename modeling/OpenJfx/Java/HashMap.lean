import Mathlib.Data.List.Nodup
import Mathlib.Algebra.Order.Ring.Int

/-!
Maps of the Java library as lists of entries without duplicate keys. `put` leaves
the place of a key that is there already. A `LinkedHashMap` is iterated in the order
of the list, a `HashMap` in an order of its own.
-/

namespace OpenJfx.Java

open List

structure HashMap (K V : Type) where
  entries : List (K × V)
  keys_nodup : (entries.map Prod.fst).Nodup

/-- The order in which a `HashMap` is iterated. -/
structure IterationOrder (α : Type) where
  order : List α → List α
  perm : ∀ l, (order l).Perm l

namespace HashMap

variable {K V : Type}

def empty : HashMap K V := ⟨[], nodup_nil⟩

section Operations

variable [DecidableEq K]

def find (key : K) : List (K × V) → Option V
  | [] => none
  | (k, v) :: entries => if k = key then some v else find key entries

def get (m : HashMap K V) (key : K) : Option V :=
  find key m.entries

def insert (key : K) (value : V) : List (K × V) → List (K × V)
  | [] => [(key, value)]
  | (k, v) :: entries =>
    if k = key then (key, value) :: entries else (k, v) :: insert key value entries

theorem keys_insert (key : K) (value : V) (entries : List (K × V)) :
    (insert key value entries).map Prod.fst =
      if key ∈ entries.map Prod.fst then entries.map Prod.fst
      else entries.map Prod.fst ++ [key] := by
  induction entries with
  | nil => rfl
  | cons entry entries ih =>
    rcases entry with ⟨k, v⟩
    rw [insert]
    by_cases hk : k = key
    · subst hk
      simp
    · rw [if_neg hk, map_cons, ih, map_cons]
      by_cases hmem : key ∈ entries.map Prod.fst
      · rw [if_pos hmem, if_pos (mem_cons_of_mem k hmem)]
      · have hnot : key ∉ k :: entries.map Prod.fst := by
          rw [mem_cons, not_or]
          exact ⟨fun h => hk h.symm, hmem⟩
        rw [if_neg hmem, if_neg hnot, cons_append]

def put (m : HashMap K V) (key : K) (value : V) : HashMap K V where
  entries := insert key value m.entries
  keys_nodup := by
    rw [keys_insert]
    split_ifs with hmem
    · exact m.keys_nodup
    · rw [nodup_append]
      refine ⟨m.keys_nodup, nodup_singleton key, ?_⟩
      rintro k hk _ hkey rfl
      rw [mem_singleton] at hkey
      exact hmem (hkey ▸ hk)

theorem find_insert (key : K) (value : V) (entries : List (K × V)) (key' : K) :
    find key' (insert key value entries) =
      if key' = key then some value else find key' entries := by
  induction entries with
  | nil => simp only [insert, find, eq_comm]
  | cons entry entries ih =>
    rcases entry with ⟨k, v⟩
    rw [insert]
    by_cases hk : k = key
    · subst hk
      rw [if_pos rfl, find, find]
      by_cases h : key' = k
      · rw [if_pos h.symm, if_pos h]
      · rw [if_neg (fun h' => h h'.symm), if_neg h, if_neg (fun h' => h h'.symm)]
    · rw [if_neg hk, find, find, ih]
      by_cases h : k = key'
      · subst h
        rw [if_pos rfl, if_neg hk, if_pos rfl]
      · rw [if_neg h, if_neg h]

theorem get_put (m : HashMap K V) (key : K) (value : V) (key' : K) :
    (m.put key value).get key' = if key' = key then some value else m.get key' :=
  find_insert key value m.entries key'

@[simp] theorem get_empty (key : K) : (empty : HashMap K V).get key = none := rfl

variable {m : HashMap K V} {key : K} {value : V}

theorem get_eq_some_iff :
    m.get key = some value ↔ (key, value) ∈ m.entries := by
  rcases m with ⟨entries, hnd⟩
  rw [get]
  induction entries with
  | nil => simp [find]
  | cons entry entries ih =>
    rcases entry with ⟨k, v⟩
    rw [map_cons, nodup_cons] at hnd
    rw [find, mem_cons]
    by_cases hk : k = key
    · subst hk
      have hnot : (k, value) ∉ entries := fun h => hnd.1 (mem_map.mpr ⟨_, h, rfl⟩)
      simp [hnot, eq_comm]
    · have hne : (key, value) ≠ (k, v) := fun h => hk (Prod.mk.inj h).1.symm
      rw [if_neg hk, or_iff_right hne]
      exact ih hnd.2

theorem mem_keys_iff :
    key ∈ m.entries.map Prod.fst ↔ ∃ value, m.get key = some value := by
  rw [mem_map]
  constructor
  · rintro ⟨⟨k, v⟩, hmem, rfl⟩
    exact ⟨v, get_eq_some_iff.mpr hmem⟩
  · rintro ⟨value, hget⟩
    exact ⟨(key, value), get_eq_some_iff.mp hget, rfl⟩

theorem insert_of_not_mem (value : V) {entries : List (K × V)} (h : key ∉ entries.map Prod.fst) :
    insert key value entries = entries ++ [(key, value)] := by
  induction entries with
  | nil => rfl
  | cons entry entries ih =>
    rcases entry with ⟨k, v⟩
    rw [map_cons, mem_cons, not_or] at h
    rw [insert, if_neg fun hk => h.1 hk.symm, ih h.2, cons_append]

theorem entries_foldl_put (entries : List (K × V)) (m : HashMap K V)
    (h : ((m.entries ++ entries).map Prod.fst).Nodup) :
    (entries.foldl (fun m entry => m.put entry.1 entry.2) m).entries = m.entries ++ entries := by
  induction entries generalizing m with
  | nil => exact (append_nil _).symm
  | cons entry entries ih =>
    have hnot : entry.1 ∉ m.entries.map Prod.fst := by
      rw [map_append, nodup_append] at h
      exact fun hmem => h.2.2 _ hmem _ mem_cons_self rfl
    have hput : (m.put entry.1 entry.2).entries = m.entries ++ [entry] :=
      insert_of_not_mem entry.2 hnot
    rw [append_cons, ← hput] at h
    rw [foldl_cons, ih _ h, hput, ← append_cons]

/-- What `Iterator.remove` leaves of the entries, when it is called for those with other values. -/
def retain (m : HashMap K V) (keep : V → Bool) : HashMap K V where
  entries := m.entries.filter fun entry => keep entry.2
  keys_nodup := (filter_sublist.map Prod.fst).nodup m.keys_nodup

def remove (m : HashMap K V) (key : K) : HashMap K V where
  entries := m.entries.filter fun entry => entry.1 ≠ key
  keys_nodup := (filter_sublist.map Prod.fst).nodup m.keys_nodup

def values (m : HashMap K V) : List V := m.entries.map Prod.snd

def size (m : HashMap K V) : Nat := m.entries.length

theorem mem_put {entry : K × V} :
    entry ∈ (m.put key value).entries ↔
      entry = (key, value) ∨ entry ∈ m.entries ∧ entry.1 ≠ key := by
  rcases entry with ⟨k, v⟩
  rw [← get_eq_some_iff, get_put, ← get_eq_some_iff]
  by_cases hk : k = key
  · subst hk
    simp [eq_comm]
  · simp [hk]

theorem get_remove (m : HashMap K V) (key key' : K) :
    (m.remove key).get key' = if key' = key then none else m.get key' := by
  apply Option.ext
  intro value
  rw [get_eq_some_iff, remove, mem_filter, decide_eq_true_eq]
  by_cases hk : key' = key
  · simp [hk]
  · rw [if_neg hk, get_eq_some_iff]
    exact and_iff_left hk

theorem sum_map_put (f : V → Nat) (m : HashMap K V) (key : K) (value : V) :
    ((m.put key value).values.map f).sum + ((m.get key).map f).getD 0 =
      (m.values.map f).sum + f value := by
  rcases m with ⟨entries, hnd⟩
  simp only [values, put, get]
  induction entries with
  | nil => simp [insert, find]
  | cons entry entries ih =>
    rcases entry with ⟨k, v⟩
    rw [map_cons, nodup_cons] at hnd
    rw [insert, find]
    by_cases hk : k = key
    · rw [if_pos hk, if_pos hk]
      simp only [map_cons, sum_cons, Option.map_some, Option.getD_some]
      omega
    · rw [if_neg hk, if_neg hk]
      simp only [map_cons, sum_cons]
      have ih := ih hnd.2
      omega

omit [DecidableEq K] in
theorem size_eq_sum (m : HashMap K V) : m.size = (m.values.map fun _ => 1).sum := by
  rw [map_const', sum_replicate_nat, Nat.mul_one, values, length_map, size]

theorem size_put_of_get_eq_none (h : m.get key = none) (value : V) :
    (m.put key value).size = m.size + 1 := by
  have hsum := sum_map_put (fun _ => 1) m key value
  rw [h, ← size_eq_sum, ← size_eq_sum] at hsum
  exact hsum

theorem size_put_of_get_eq_some {old : V} (h : m.get key = some old) (value : V) :
    (m.put key value).size = m.size := by
  have hsum := sum_map_put (fun _ => 1) m key value
  rw [h, ← size_eq_sum, ← size_eq_sum] at hsum
  exact Nat.add_right_cancel hsum

theorem size_remove_of_get_eq_some (h : m.get key = some value) :
    (m.remove key).size + 1 = m.size := by
  rw [get_eq_some_iff] at h
  rcases m with ⟨entries, hnd⟩
  simp only [size, remove] at h ⊢
  induction entries with
  | nil => cases h
  | cons entry entries ih =>
    rw [map_cons, nodup_cons] at hnd
    by_cases hk : entry.1 = key
    · have hkeep : ∀ other ∈ entries, decide (other.1 ≠ key) = true := by
        intro other hmem
        rw [decide_eq_true_eq, ← hk]
        exact fun hother => hnd.1 (mem_map.mpr ⟨other, hmem, hother⟩)
      rw [filter_cons_of_neg (by simpa using hk), filter_eq_self.mpr hkeep,
        length_cons]
    · have hmem : (key, value) ∈ entries :=
        (mem_cons.mp h).resolve_left fun heq => hk (congrArg Prod.fst heq).symm
      rw [filter_cons_of_pos (by simpa using hk), length_cons, length_cons,
        ih hnd.2 hmem]

end Operations

theorem ext_entries {m m' : HashMap K V} (h : m.entries = m'.entries) : m = m' := by
  rcases m with ⟨entries, hnd⟩
  rcases m' with ⟨entries', hnd'⟩
  cases h
  rfl

section MapValues

variable {W : Type} (f : V → W)

def mapValues (m : HashMap K V) : HashMap K W where
  entries := m.entries.map (Prod.map id f)
  keys_nodup := by
    rw [map_map]
    exact m.keys_nodup

theorem values_mapValues (m : HashMap K V) : (m.mapValues f).values = m.values.map f := by
  rw [values, mapValues, map_map, values, map_map]
  rfl

theorem size_mapValues (m : HashMap K V) : (m.mapValues f).size = m.size := length_map _

theorem retain_mapValues (m : HashMap K V) {keep : V → Bool} {keep' : W → Bool}
    (h : ∀ v, keep' (f v) = keep v) :
    (m.mapValues f).retain keep' = (m.retain keep).mapValues f := by
  apply ext_entries
  change (m.entries.map (Prod.map id f)).filter _ = (m.entries.filter _).map _
  rw [filter_map]
  congr 1
  refine filter_congr ?_
  intro entry _
  exact h entry.2

variable [DecidableEq K]

theorem get_mapValues (m : HashMap K V) (key : K) :
    (m.mapValues f).get key = (m.get key).map f := by
  apply Option.ext
  intro w
  rw [get_eq_some_iff, Option.map_eq_some_iff]
  constructor
  · intro hmem
    rcases mem_map.mp hmem with ⟨⟨k, v⟩, hentry, heq⟩
    cases heq
    exact ⟨v, get_eq_some_iff.mpr hentry, rfl⟩
  · rintro ⟨v, hget, rfl⟩
    exact mem_map.mpr ⟨(key, v), get_eq_some_iff.mp hget, rfl⟩

theorem mapValues_put (m : HashMap K V) (key : K) (value : V) :
    (m.put key value).mapValues f = (m.mapValues f).put key (f value) := by
  have hins : ∀ entries : List (K × V), (insert key value entries).map (Prod.map id f) =
      insert key (f value) (entries.map (Prod.map id f)) := by
    intro entries
    induction entries with
    | nil => rfl
    | cons entry entries ih =>
      rcases entry with ⟨k, v⟩
      by_cases hk : k = key
      · simp [insert, hk]
      · simp [insert, hk, ih]
  exact ext_entries (hins m.entries)

theorem mapValues_remove (m : HashMap K V) (key : K) :
    (m.remove key).mapValues f = (m.mapValues f).remove key := by
  apply ext_entries
  change (m.entries.filter _).map _ = (m.entries.map (Prod.map id f)).filter _
  rw [filter_map]
  rfl

theorem put_put (m : HashMap K V) (key : K) (value value' : V) :
    (m.put key value).put key value' = m.put key value' := by
  have hins : ∀ entries : List (K × V),
      insert key value' (insert key value entries) = insert key value' entries := by
    intro entries
    induction entries with
    | nil => simp [insert]
    | cons entry entries ih =>
      rcases entry with ⟨k, v⟩
      by_cases hk : k = key
      · simp [insert, hk]
      · simp [insert, hk, ih]
  exact ext_entries (hins m.entries)

end MapValues

end HashMap

end OpenJfx.Java
