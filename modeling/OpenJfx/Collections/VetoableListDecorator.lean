import OpenJfx.Java.Arrays
import OpenJfx.Data.Positions
import Mathlib.Data.List.Pairwise

namespace OpenJfx.Collections.VetoableListDecorator

open Java.Arrays Data.Positions List

variable {E : Type}

/-- The arguments of `onProposedChange(toBeAdded, indexes)`. -/
structure Proposal (E : Type) where
  toBeAdded : List E
  indexes : List Int
  deriving DecidableEq

/-- What a call has proposed, what it returns or throws, and the state it leaves behind. -/
structure Called (E σ α : Type) where
  proposals : List (Proposal E)
  result : Outcome α
  state : σ

/-- The local variables of `removeFromList`. -/
structure Removal where
  toBeRemoved : List Int
  pointer : Int

def Removal.grow (r : Removal) : Outcome Removal := do
  let tmp ← arraycopy r.toBeRemoved 0 (List.replicate (r.toBeRemoved.length + 2) 0) 0
    r.toBeRemoved.length
  .ok { r with toBeRemoved := tmp }

/-- The pair for the element at `index` goes behind the others. -/
def Removal.append (r : Removal) (index : Int) : Outcome Removal := do
  let toBeRemoved ← store r.toBeRemoved (r.pointer + 1) index
  let toBeRemoved ← store toBeRemoved (r.pointer + 2) (index + 1)
  .ok ⟨toBeRemoved, r.pointer + 2⟩

/-- What the loop does for an element that is going to be removed. -/
def Removal.add (r : Removal) (index : Int) : Outcome Removal :=
  if r.pointer = -1 then r.append index
  else do
    let slot ← load r.toBeRemoved (r.pointer - 1)
    if slot = index then do
      let toBeRemoved ← store r.toBeRemoved (r.pointer - 1) (index + 1)
      .ok { r with toBeRemoved := toBeRemoved }
    else do
      let r ← r.grow
      r.append index

/-- The loop over the elements, the first of which stands at `index`. -/
def collect (goes : E → Bool) : List E → Int → Removal → Outcome Removal
  | [], _, r => .ok r
  | el :: rest, index, r => do
    let r ← if goes el then r.add index else .ok r
    collect goes rest (index + 1) r

/-- `removeFromList(backingList, offset, col, complement)`: what it proposes, if anything. -/
def removeFromList (backingList : List E) (offset : Int) (contains : E → Bool)
    (complement : Bool) : Outcome (Option (Proposal E)) := do
  let r ← collect (fun el => contains el ^^ complement) backingList offset ⟨[0, 0], -1⟩
  .ok (if r.pointer ≠ -1 then some ⟨[], r.toBeRemoved⟩ else none)

/-- The decorated list, and how often it has been changed through the decorator. -/
structure VetoableList (E : Type) where
  list : List E
  modCount : Int

section

variable (onProposedChange : Proposal E → Outcome Unit)

/-- `removeAll` and `retainAll`, on the whole list or, with an offset, on a part of it. -/
def bulkRemove (v : VetoableList E) (offset : Int) (contains : E → Bool) (complement : Bool) :
    Called E (VetoableList E) Bool :=
  match removeFromList v.list offset contains complement with
  | .error failure => ⟨[], .error failure, v⟩
  | .ok proposal =>
    match proposal.elim (.ok ()) onProposedChange with
    | .error failure => ⟨proposal.toList, .error failure, v⟩
    | .ok () =>
      let list := v.list.filter fun el => !(contains el ^^ complement)
      let ret := decide (list.length ≠ v.list.length)
      ⟨proposal.toList, .ok ret, ⟨list, if ret then v.modCount + 1 else v.modCount⟩⟩

def removeAll (v : VetoableList E) (offset : Int) (contains : E → Bool) :
    Called E (VetoableList E) Bool :=
  bulkRemove onProposedChange v offset contains false

def retainAll (v : VetoableList E) (offset : Int) (contains : E → Bool) :
    Called E (VetoableList E) Bool :=
  bulkRemove onProposedChange v offset contains true

end

/-- The pairs that the loop makes of the indexes of single elements. -/
def pairs (indexes : List Int) : List Int := indexes.flatMap fun i => [i, i + 1]

theorem pairs_append (indexes later : List Int) :
    pairs (indexes ++ later) = pairs indexes ++ pairs later :=
  flatMap_append

theorem length_pairs (indexes : List Int) : (pairs indexes).length = 2 * indexes.length := by
  induction indexes with
  | nil => rfl
  | cons i indexes ih =>
    rw [pairs, flatMap_cons, length_append, ← pairs]
    simp only [length_cons, length_nil]
    omega

/-- The variables of the loop after some elements that are going to be removed. -/
def collected (indexes : List Int) : Removal :=
  if indexes = [] then ⟨[0, 0], -1⟩ else ⟨pairs indexes, (pairs indexes).length - 1⟩

theorem grow_eq (toBeRemoved : List Int) (pointer : Int) :
    Removal.grow ⟨toBeRemoved, pointer⟩ = .ok ⟨toBeRemoved ++ [0, 0], pointer⟩ := by
  have hcopy : arraycopy toBeRemoved 0 (List.replicate toBeRemoved.length 0 ++ [0, 0]) 0
      toBeRemoved.length = .ok (toBeRemoved ++ [0, 0]) := by
    simpa using arraycopy_append [] toBeRemoved [] [] (List.replicate toBeRemoved.length 0) [0, 0]
      length_replicate
  have hnew : List.replicate (toBeRemoved.length + 2) (0 : Int) =
      List.replicate toBeRemoved.length 0 ++ [0, 0] := replicate_add _ _ _
  rw [Removal.grow]
  rw [hnew, hcopy, ok_bind]

theorem append_eq (front : List Int) (index : Int) :
    Removal.append ⟨front ++ [0, 0], front.length - 1⟩ index =
      .ok ⟨front ++ [index, index + 1], (front ++ [index, index + 1]).length - 1⟩ := by
  have hfst := store_append front [0] 0 index
  have hsnd := store_append (front ++ [index]) [] 0 (index + 1)
  have hslot : (front.length : Int) - 1 + 1 = front.length := by omega
  have hslot' : (front.length : Int) - 1 + 2 = (front ++ [index]).length := by
    rw [length_append, length_singleton]
    omega
  have hptr : ((front ++ [index]).length : Int) =
      (front ++ [index, index + 1]).length - 1 := by
    simp only [length_append, length_cons]
    omega
  rw [append_assoc, append_assoc] at hsnd
  rw [Removal.append, hslot, hfst, ok_bind, hslot', ← singleton_append, hsnd, hptr]
  rfl

theorem add_collected {indexes : List Int} {index : Int} (h : ∀ i ∈ indexes, i < index) :
    (collected indexes).add index = .ok (collected (indexes ++ [index])) := by
  have hnew : collected (indexes ++ [index]) =
      ⟨pairs indexes ++ [index, index + 1], (pairs indexes ++ [index, index + 1]).length - 1⟩ := by
    rw [collected, if_neg (by simp), pairs_append]
    rfl
  rw [hnew]
  rcases eq_nil_or_concat' indexes with rfl | ⟨front, last, rfl⟩
  · exact append_eq [] index
  · have hne : last ≠ index := Int.ne_of_lt (h last (by simp))
    have hpairs : pairs (front ++ [last]) = pairs front ++ last :: [last + 1] := pairs_append _ _
    have hslot : ((pairs front ++ last :: [last + 1]).length : Int) - 1 - 1 =
        (pairs front).length := by
      simp only [length_append, length_cons, length_nil]
      omega
    have hptr : ((pairs front ++ last :: [last + 1]).length : Int) - 1 ≠ -1 := by
      omega
    rw [collected, if_neg (by simp), hpairs, Removal.add]
    rw [if_neg hptr, hslot, load_append, ok_bind, if_neg hne, grow_eq]
    exact append_eq _ index

theorem collect_collected (goes : E → Bool) (l : List E) (index : Int) (indexes : List Int)
    (h : ∀ i ∈ indexes, i < index) :
    collect goes l index (collected indexes) =
      .ok (collected (indexes ++ positions index (l.map goes))) := by
  induction l generalizing index indexes with
  | nil => rw [map_nil, positions_nil, append_nil, collect]
  | cons el rest ih =>
    rw [collect, map_cons]
    cases goes el with
    | false =>
      exact ih (index + 1) indexes fun i hi => by have := h i hi; omega
    | true =>
      have hrest : ∀ i ∈ indexes ++ [index], i < index + 1 := by
        intro i hi
        rcases mem_append.mp hi with hi | hi
        · have := h i hi
          omega
        · have := mem_singleton.mp hi
          omega
      rw [add_collected h, positions, append_cons indexes index (positions _ _)]
      exact ih (index + 1) (indexes ++ [index]) hrest

theorem removeFromList_eq (l : List E) (offset : Int) (contains : E → Bool) (complement : Bool) :
    removeFromList l offset contains complement =
      .ok (if positions offset (l.map fun el => contains el ^^ complement) = [] then none
        else some ⟨[], pairs (positions offset (l.map fun el => contains el ^^ complement))⟩) := by
  have hcollect := collect_collected (fun el => contains el ^^ complement) l offset [] nofun
  rw [nil_append] at hcollect
  change collect _ l offset (collected []) >>= _ = _
  rw [hcollect, ok_bind, collected]
  split
  · rfl
  · next hne =>
      have hpos := length_pairs (positions offset (l.map fun el => contains el ^^ complement))
      have hlen := length_pos_of_ne_nil hne
      rw [if_pos]
      dsimp only
      omega

/-- The element at `k`, counted from the offset, is going to be removed. -/
def GoesAt (l : List E) (offset : Int) (goes : E → Bool) (k : Int) : Prop :=
  ∃ (i : Nat) (el : E), l[i]? = some el ∧ goes el = true ∧ k = offset + i

/-- Indexes `f1 < t1 < f2 < t2 < ...` whose ranges cover exactly what is going to be removed. -/
structure ReportsRuns (indexes : List Int) (goesAt : Int → Prop) : Prop where
  increasing : indexes.Pairwise (· < ·)
  covers : ∃ ranges : List (Int × Int), indexes = ranges.flatMap (fun r => [r.1, r.2]) ∧
    ∀ k, goesAt k ↔ ∃ r ∈ ranges, r.1 ≤ k ∧ k < r.2

/-- One call with an empty list of elements and the runs, or no call if nothing is removed. -/
def ProposesRuns (proposals : List (Proposal E)) (goesAt : Int → Prop) : Prop :=
  ((∃ k, goesAt k) → ∃ indexes, proposals = [⟨[], indexes⟩] ∧ ReportsRuns indexes goesAt) ∧
    ((∀ k, ¬goesAt k) → proposals = [])

def NoNeighbours (l : List E) (goes : E → Bool) : Prop :=
  ∀ (i : Nat) (x y : E), l[i]? = some x → l[i + 1]? = some y → goes x = true → goes y = false

theorem mem_positions_map_iff (l : List E) (offset : Int) (goes : E → Bool) (k : Int) :
    k ∈ positions offset (l.map goes) ↔ GoesAt l offset goes k := by
  rw [mem_positions_iff]
  refine exists_congr fun i => ?_
  simp [← and_assoc]

theorem pairs_increasing_iff (indexes : List Int) :
    (pairs indexes).Pairwise (· < ·) ↔ indexes.Pairwise fun i j => i + 1 < j := by
  rw [pairs, pairwise_flatMap]
  constructor
  · rintro ⟨-, h⟩
    exact h.imp fun {i j} hij => hij (i + 1) (by simp) j (by simp)
  · intro h
    refine ⟨fun i _ => pairwise_pair.mpr (Int.lt_succ i), h.imp fun {i j} hij x hx y hy => ?_⟩
    simp only [mem_cons, not_mem_nil, or_false] at hx hy
    omega

theorem pairs_positions_increasing_iff (l : List E) (offset : Int) (goes : E → Bool) :
    (pairs (positions offset (l.map goes))).Pairwise (· < ·) ↔ NoNeighbours l goes := by
  rw [pairs_increasing_iff]
  constructor
  · intro h i x y hx hy hgoes
    by_contra hgoes'
    have hi := (mem_positions_map_iff l offset goes (offset + i)).mpr ⟨i, x, hx, hgoes, rfl⟩
    have hj := (mem_positions_map_iff l offset goes (offset + (i + 1 : Nat))).mpr
      ⟨i + 1, y, hy, by simpa using hgoes', rfl⟩
    have hsymm : Std.Symm fun i j : Int => i + 1 < j ∨ j + 1 < i := ⟨fun _ _ => Or.symm⟩
    have hapart : (positions offset (l.map goes)).Pairwise fun i j => i + 1 < j ∨ j + 1 < i :=
      h.imp Or.inl
    have := hapart.forall hi hj (by omega)
    omega
  · intro h
    refine List.Pairwise.imp_of_mem (fun {j k} hj hk hlt => ?_) (pairwise_positions _ offset)
    obtain ⟨i, x, hx, hgoes, rfl⟩ := (mem_positions_map_iff l offset goes j).mp hj
    obtain ⟨i', y, hy, hgoes', rfl⟩ := (mem_positions_map_iff l offset goes k).mp hk
    by_contra hnext
    obtain rfl : i' = i + 1 := by omega
    rw [h i x y hx hy hgoes] at hgoes'
    cases hgoes'

section

variable (onProposedChange : Proposal E → Outcome Unit)

theorem bulkRemove_proposals (v : VetoableList E) (offset : Int) (contains : E → Bool)
    (complement : Bool) :
    (bulkRemove onProposedChange v offset contains complement).proposals =
      if positions offset (v.list.map fun el => contains el ^^ complement) = [] then []
      else [⟨[], pairs (positions offset (v.list.map fun el => contains el ^^ complement))⟩] := by
  rw [bulkRemove, removeFromList_eq]
  by_cases hnone : positions offset (v.list.map fun el => contains el ^^ complement) = []
  · rw [if_pos hnone, if_pos hnone]
    rfl
  · rw [if_neg hnone, if_neg hnone]
    dsimp only [Option.elim]
    split <;> rfl

theorem bulkRemove_proposesRuns_iff (v : VetoableList E) (offset : Int) (contains : E → Bool)
    (complement : Bool) :
    ProposesRuns (bulkRemove onProposedChange v offset contains complement).proposals
        (GoesAt v.list offset fun el => contains el ^^ complement) ↔
      NoNeighbours v.list fun el => contains el ^^ complement := by
  rw [bulkRemove_proposals, ← pairs_positions_increasing_iff v.list offset]
  have hmem := mem_positions_map_iff v.list offset fun el => contains el ^^ complement
  generalize positions offset (v.list.map fun el => contains el ^^ complement) = indexes at hmem ⊢
  rcases indexes with _ | ⟨first, later⟩
  · refine iff_of_true ⟨?_, fun _ => rfl⟩ List.Pairwise.nil
    rintro ⟨k, hk⟩
    exact absurd ((hmem k).mpr hk) not_mem_nil
  · have hfst := (hmem first).mp mem_cons_self
    constructor
    · rintro ⟨hreports, -⟩
      obtain ⟨indexes, hidxs, hruns⟩ := hreports ⟨first, hfst⟩
      obtain rfl := (Proposal.mk.inj (List.cons.inj hidxs).1).2
      exact hruns.increasing
    · intro hincreasing
      refine ⟨fun _ => ⟨_, rfl, hincreasing, (first :: later).map fun i => (i, i + 1), ?_, ?_⟩,
        fun hnone => absurd hfst (hnone first)⟩
      · rw [flatMap_map]
        rfl
      · intro k
        rw [← hmem k]
        constructor
        · intro hk
          exact ⟨(k, k + 1), mem_map.mpr ⟨k, hk, rfl⟩, Int.le_refl k, Int.lt_succ k⟩
        · rintro ⟨r, hr, hfrom, hto⟩
          obtain ⟨i, hi, rfl⟩ := mem_map.mp hr
          obtain rfl : k = i := by
            omega
          exact hi

/-- A bulk removal proposes its runs exactly if no two neighbours are removed together. -/
theorem removeAll_retainAll_proposesRuns_iff (v : VetoableList E) (offset : Int)
    (contains : E → Bool) :
    (ProposesRuns (removeAll onProposedChange v offset contains).proposals
        (GoesAt v.list offset contains) ↔ NoNeighbours v.list contains) ∧
      (ProposesRuns (retainAll onProposedChange v offset contains).proposals
          (GoesAt v.list offset fun el => !contains el) ↔
        NoNeighbours v.list fun el => !contains el) := by
  have hremove := bulkRemove_proposesRuns_iff onProposedChange v offset contains false
  have hretain := bulkRemove_proposesRuns_iff onProposedChange v offset contains true
  simp only [Bool.xor_false] at hremove
  simp only [Bool.xor_true] at hretain
  exact ⟨hremove, hretain⟩

/-- Two neighbours are proposed as two ranges. -/
theorem removeAll_neighbours :
    (removeAll (fun _ : Proposal Nat => .ok ()) ⟨[2, 3, 5], 0⟩ 0 (· < 4)).proposals =
        [⟨[], [0, 1, 1, 2]⟩] ∧
      ¬ProposesRuns
        (removeAll (fun _ : Proposal Nat => .ok ()) ⟨[2, 3, 5], 0⟩ 0 (· < 4)).proposals
        (GoesAt [2, 3, 5] 0 (· < 4)) := by
  have hproposals : (removeAll (fun _ : Proposal Nat => .ok ()) ⟨[2, 3, 5], 0⟩ 0
      (· < 4)).proposals = [⟨[], [0, 1, 1, 2]⟩] := by decide
  refine ⟨hproposals, ?_⟩
  rintro ⟨hreports, -⟩
  obtain ⟨indexes, hindexes, hruns⟩ := hreports ⟨0, 0, 2, rfl, rfl, rfl⟩
  obtain rfl := (Proposal.mk.inj (List.cons.inj hindexes).1).2
  exact absurd hruns.increasing (by decide)

end

end OpenJfx.Collections.VetoableListDecorator

namespace OpenJfx.Collections.VetoableListDecorator

open Java.Arrays

variable {E : Type}

/-- A `ListIterator` of the decorated list. -/
structure ListItr where
  cursor : Nat
  lastRet : Option Nat

namespace ListItr

def next (l : List E) (lit : ListItr) : Outcome (E × ListItr) :=
  match l[lit.cursor]? with
  | none => .error .noSuchElement
  | some e => .ok (e, ⟨lit.cursor + 1, some lit.cursor⟩)

def previous (l : List E) (lit : ListItr) : Outcome (E × ListItr) :=
  if lit.cursor = 0 then .error .noSuchElement
  else
    match l[lit.cursor - 1]? with
    | none => .error .noSuchElement
    | some e => .ok (e, ⟨lit.cursor - 1, some (lit.cursor - 1)⟩)

def remove (l : List E) (lit : ListItr) : Outcome (List E × ListItr) :=
  match lit.lastRet with
  | none => .error (.illegalState "")
  | some lastRet =>
    .ok (l.eraseIdx lastRet, ⟨if lastRet < lit.cursor then lit.cursor - 1 else lit.cursor, none⟩)

def set (l : List E) (lit : ListItr) (e : E) : Outcome (List E) :=
  match lit.lastRet with
  | none => .error (.illegalState "")
  | some lastRet => .ok (l.set lastRet e)

def add (l : List E) (lit : ListItr) (e : E) : List E × ListItr :=
  (l.insertIdx lit.cursor e, ⟨lit.cursor + 1, none⟩)

end ListItr

/-- The decorated list, the decorated iterator `lit` and the fields of the decorator. -/
structure Iteration (E : Type) where
  target : VetoableList E
  lit : ListItr
  modCount : Int
  offset : Int
  cursor : Int
  lastReturned : Int

/-- `listIterator(index)`. The field `lastReturned` is not initialized. -/
def listIterator (v : VetoableList E) (index : Nat) : Outcome (Iteration E) :=
  if index ≤ v.list.length then
    .ok ⟨v, ⟨index, none⟩, v.modCount, index, 0, 0⟩
  else .error .indexOutOfBounds

/-- The calls on a list iterator that move it or change the list. -/
inductive IteratorCall (E : Type)
  | next
  | previous
  | add (e : E)
  | set (e : E)
  | remove

namespace Iteration

def incrementModCount (s : Iteration E) : Iteration E :=
  { s with target.modCount := s.target.modCount + 1, modCount := s.target.modCount + 1 }

def decrementModCount (s : Iteration E) : Iteration E :=
  { s with target.modCount := s.target.modCount - 1, modCount := s.target.modCount - 1 }

def checked (s : Iteration E) (called : Called E (Iteration E) (Option E)) :
    Called E (Iteration E) (Option E) :=
  if s.modCount ≠ s.target.modCount then ⟨[], .error .concurrentModification, s⟩ else called

def next (s : Iteration E) : Called E (Iteration E) (Option E) :=
  s.checked
    (match s.lit.next s.target.list with
    | .error failure => ⟨[], .error failure, s⟩
    | .ok (e, lit) =>
      ⟨[], .ok (some e), { s with lit := lit, lastReturned := s.cursor, cursor := s.cursor + 1 }⟩)

def previous (s : Iteration E) : Called E (Iteration E) (Option E) :=
  s.checked
    (match s.lit.previous s.target.list with
    | .error failure => ⟨[], .error failure, s⟩
    | .ok (e, lit) =>
      ⟨[], .ok (some e),
        { s with lit := lit, lastReturned := s.cursor - 1, cursor := s.cursor - 1 }⟩)

def tryRemove (s : Iteration E) : Outcome (Option E) × Iteration E :=
  let s := s.incrementModCount
  match s.lit.remove s.target.list with
  | .error failure => (.error failure, s.decrementModCount)
  | .ok (list, lit) =>
    (.ok none,
      { s with target.list := list, lit := lit, lastReturned := -1, cursor := s.cursor - 1 })

def trySet (s : Iteration E) (e : E) : Outcome (Option E) × Iteration E :=
  match s.lit.set s.target.list e with
  | .error failure => (.error failure, s)
  | .ok list => (.ok none, { s with target.list := list })

def tryAdd (s : Iteration E) (e : E) : Outcome (Option E) × Iteration E :=
  let s := s.incrementModCount
  let added := s.lit.add s.target.list e
  (.ok none, { s with target.list := added.1, lit := added.2, cursor := s.cursor + 1 })

section

variable (onProposedChange : Proposal E → Outcome Unit)

/-- A method goes on behind `onProposedChange` unless this throws. -/
def proposing (s : Iteration E) (proposal : Proposal E)
    (change : Outcome (Option E) × Iteration E) : Called E (Iteration E) (Option E) :=
  match onProposedChange proposal with
  | .error failure => ⟨[proposal], .error failure, s⟩
  | .ok () => ⟨[proposal], change.1, change.2⟩

def remove (s : Iteration E) : Called E (Iteration E) (Option E) :=
  s.checked
    (if s.lastReturned = -1 then ⟨[], .error (.illegalState ""), s⟩
    else
      s.proposing onProposedChange
        ⟨[], [s.offset + s.lastReturned, s.offset + s.lastReturned + 1]⟩ s.tryRemove)

def set (s : Iteration E) (e : E) : Called E (Iteration E) (Option E) :=
  s.checked
    (if s.lastReturned = -1 then ⟨[], .error (.illegalState ""), s⟩
    else
      s.proposing onProposedChange
        ⟨[e], [s.offset + s.lastReturned, s.offset + s.lastReturned + 1]⟩ (s.trySet e))

def add (s : Iteration E) (e : E) : Called E (Iteration E) (Option E) :=
  s.checked
    (s.proposing onProposedChange ⟨[e], [s.offset + s.cursor, s.offset + s.cursor]⟩ (s.tryAdd e))

def call (s : Iteration E) : IteratorCall E → Called E (Iteration E) (Option E)
  | .next => s.next
  | .previous => s.previous
  | .add e => s.add onProposedChange e
  | .set e => s.set onProposedChange e
  | .remove => s.remove onProposedChange

end

def affects (lit : ListItr) : IteratorCall E → Option (Proposal E)
  | .next => none
  | .previous => none
  | .add e => some ⟨[e], [lit.cursor, lit.cursor]⟩
  | .set e => lit.lastRet.map fun k => ⟨[e], [(k : Int), k + 1]⟩
  | .remove => lit.lastRet.map fun k => ⟨[], [(k : Int), k + 1]⟩

section

variable (onProposedChange : Proposal E → Outcome Unit)

structure Faithful (s : Iteration E) (c : IteratorCall E) : Prop where
  proposed : ∀ p ∈ (s.call onProposedChange c).proposals, affects s.lit c = some p
  changed : (s.call onProposedChange c).state.target.list ≠ s.target.list →
    (s.call onProposedChange c).proposals ≠ []
  cursor : (s.call onProposedChange c).state.offset + (s.call onProposedChange c).state.cursor =
    (s.call onProposedChange c).state.lit.cursor

/-- A call on the element that was last returned: there is one, or the decorator knows that
there is none, and an element that is removed was returned by `next`. -/
def Sound (s : Iteration E) : IteratorCall E → Prop
  | .next => True
  | .previous => True
  | .add _ => True
  | .set _ => s.lit.lastRet = none → s.lastReturned = -1
  | .remove =>
    (s.lit.lastRet = none → s.lastReturned = -1) ∧
      ∀ k : Nat, s.lit.lastRet = some k → s.lastReturned ≠ -1 →
        onProposedChange ⟨[], [(k : Int), k + 1]⟩ = .ok () → k < s.lit.cursor

/-- Every call of the script is faithful. -/
def FaithfulRun : Iteration E → List (IteratorCall E) → Prop
  | _, [] => True
  | s, c :: calls =>
    s.Faithful onProposedChange c ∧ FaithfulRun (s.call onProposedChange c).state calls

def SoundRun : Iteration E → List (IteratorCall E) → Prop
  | _, [] => True
  | s, c :: calls => s.Sound onProposedChange c ∧ SoundRun (s.call onProposedChange c).state calls

end

/-- The decorator and the decorated iterator stand at the same place. -/
structure Coupled (s : Iteration E) : Prop where
  modCount : s.modCount = s.target.modCount
  cursor : s.offset + s.cursor = s.lit.cursor
  lastReturned : ∀ k : Nat, s.lit.lastRet = some k → s.offset + s.lastReturned = k
  beside : ∀ k : Nat, s.lit.lastRet = some k → k = s.lit.cursor ∨ k + 1 = s.lit.cursor

variable {s : Iteration E}

theorem Coupled.checked (h : s.Coupled) (called : Called E (Iteration E) (Option E)) :
    s.checked called = called :=
  if_neg (not_not.mpr h.modCount)

theorem Coupled.next (h : s.Coupled) :
    s.next.proposals = [] ∧ s.next.state.target = s.target ∧ s.next.state.Coupled := by
  rw [Iteration.next, h.checked, ListItr.next]
  cases s.target.list[s.lit.cursor]? with
  | none => exact ⟨rfl, rfl, h⟩
  | some e =>
    refine ⟨rfl, rfl, h.modCount, ?_, ?_, ?_⟩
    · have := h.cursor
      dsimp only
      omega
    · rintro k ⟨⟩
      exact h.cursor
    · rintro k ⟨⟩
      exact .inr rfl

theorem Coupled.previous (h : s.Coupled) :
    s.previous.proposals = [] ∧ s.previous.state.target = s.target ∧
      s.previous.state.Coupled := by
  rw [Iteration.previous, h.checked, ListItr.previous]
  by_cases hstart : s.lit.cursor = 0
  · rw [if_pos hstart]
    exact ⟨rfl, rfl, h⟩
  · rw [if_neg hstart]
    cases s.target.list[s.lit.cursor - 1]? with
    | none => exact ⟨rfl, rfl, h⟩
    | some e =>
      have hcursor : s.offset + (s.cursor - 1) = ((s.lit.cursor - 1 : Nat) : Int) := by
        have := h.cursor
        omega
      refine ⟨rfl, rfl, h.modCount, hcursor, ?_, ?_⟩
      · rintro k ⟨⟩
        exact hcursor
      · rintro k ⟨⟩
        exact .inl rfl

section

variable {onProposedChange : Proposal E → Outcome Unit}

theorem proposing_cases (onProposedChange : Proposal E → Outcome Unit) (s : Iteration E)
    (p : Proposal E)
    (change : Outcome (Option E) × Iteration E) :
    (s.proposing onProposedChange p change).proposals = [p] ∧
      ((s.proposing onProposedChange p change).state = s ∧ onProposedChange p ≠ .ok () ∨
        (s.proposing onProposedChange p change).state = change.2 ∧
          onProposedChange p = .ok ()) := by
  rw [proposing]
  cases honProposed : onProposedChange p with
  | error failure => exact ⟨rfl, .inl ⟨rfl, nofun⟩⟩
  | ok u => exact ⟨rfl, .inr ⟨rfl, rfl⟩⟩

variable {c : IteratorCall E}

theorem Faithful.of_proposed {p : Proposal E}
    (hprops : (s.call onProposedChange c).proposals = [p]) (haffects : affects s.lit c = some p)
    (hcursor : (s.call onProposedChange c).state.offset + (s.call onProposedChange c).state.cursor =
      (s.call onProposedChange c).state.lit.cursor) : s.Faithful onProposedChange c := by
  refine ⟨?_, ?_, hcursor⟩
  · rw [hprops]
    intro p' hp
    rw [List.mem_singleton.mp hp, haffects]
  · rw [hprops]
    exact fun _ => nofun

theorem not_faithful_of_proposed {p : Proposal E}
    (hprops : (s.call onProposedChange c).proposals = [p]) (haffects : affects s.lit c = none) :
    ¬ s.Faithful onProposedChange c := by
  intro hfaithful
  have hp := hfaithful.proposed p (by rw [hprops]; exact List.mem_singleton_self p)
  rw [haffects] at hp
  cases hp

theorem Coupled.add (h : s.Coupled) (onProposedChange : Proposal E → Outcome Unit) (e : E) :
    s.Faithful onProposedChange (.add e) ∧
      (s.call onProposedChange (.add e)).state.Coupled := by
  have hcall : s.call onProposedChange (.add e) =
      s.proposing onProposedChange ⟨[e], [(s.lit.cursor : Int), s.lit.cursor]⟩ (s.tryAdd e) := by
    rw [← h.cursor]
    exact h.checked _
  obtain ⟨hprops, hst⟩ := proposing_cases onProposedChange s
    ⟨[e], [(s.lit.cursor : Int), s.lit.cursor]⟩ (s.tryAdd e)
  rw [← hcall] at hprops hst
  have hcoupled : (s.call onProposedChange (.add e)).state.Coupled := by
    obtain ⟨hst, -⟩ | ⟨hst, -⟩ := hst
    · rw [hst]
      exact h
    · rw [hst]
      refine ⟨rfl, ?_, nofun, nofun⟩
      have := h.cursor
      change s.offset + (s.cursor + 1) = ((s.lit.cursor + 1 : Nat) : Int)
      omega
  exact ⟨.of_proposed hprops rfl hcoupled.cursor, hcoupled⟩

theorem Faithful.of_refused (h : s.Coupled) {failure : Failure}
    (hcall : s.call onProposedChange c = ⟨[], .error failure, s⟩) :
    s.Faithful onProposedChange c := by
  refine ⟨?_, ?_, ?_⟩
  · rw [hcall]
    exact nofun
  · rw [hcall]
    exact fun hne => absurd rfl hne
  · rw [hcall]
    exact h.cursor

theorem Coupled.set_iff (h : s.Coupled) (e : E) :
    (s.Faithful onProposedChange (.set e) ↔ s.Sound onProposedChange (.set e)) ∧
      (s.Sound onProposedChange (.set e) → (s.call onProposedChange (.set e)).state.Coupled) := by
  by_cases hlast : s.lastReturned = -1
  · have hcall : s.call onProposedChange (.set e) = ⟨[], .error (.illegalState ""), s⟩ :=
      (h.checked _).trans (if_pos hlast)
    refine ⟨iff_of_true (.of_refused h hcall) fun _ => hlast, fun _ => ?_⟩
    rw [hcall]
    exact h
  · have hcall : s.call onProposedChange (.set e) = s.proposing onProposedChange
        ⟨[e], [s.offset + s.lastReturned, s.offset + s.lastReturned + 1]⟩ (s.trySet e) :=
      (h.checked _).trans (if_neg hlast)
    obtain ⟨hprops, hst⟩ := proposing_cases onProposedChange s
      ⟨[e], [s.offset + s.lastReturned, s.offset + s.lastReturned + 1]⟩ (s.trySet e)
    rw [← hcall] at hprops hst
    cases hret : s.lit.lastRet with
    | none =>
      have haffects : affects s.lit (.set e) = none := by
        rw [affects, hret]
        rfl
      exact ⟨iff_of_false (not_faithful_of_proposed hprops haffects) fun hsound =>
        hlast (hsound hret), fun hsound => absurd (hsound hret) hlast⟩
    | some k =>
      have hcoupled : (s.call onProposedChange (.set e)).state.Coupled := by
        obtain ⟨hst, -⟩ | ⟨hst, -⟩ := hst
        · rw [hst]
          exact h
        · rw [hst, trySet, ListItr.set, hret]
          exact ⟨h.modCount, h.cursor, h.lastReturned, h.beside⟩
      have haffects : affects s.lit (.set e) =
          some ⟨[e], [s.offset + s.lastReturned, s.offset + s.lastReturned + 1]⟩ := by
        rw [affects, hret, h.lastReturned k hret]
        rfl
      refine ⟨iff_of_true (.of_proposed hprops haffects hcoupled.cursor) fun hnone => ?_,
        fun _ => hcoupled⟩
      rw [hret] at hnone
      cases hnone

/-- The cursor of the decorator goes back with every removal, the one of the decorated iterator
only if the element stands before it. -/
theorem tryRemove_cursor_iff (h : s.Coupled) {k : Nat} (hret : s.lit.lastRet = some k) :
    (s.tryRemove.2.offset + s.tryRemove.2.cursor = s.tryRemove.2.lit.cursor ↔ k < s.lit.cursor) ∧
      (k < s.lit.cursor → s.tryRemove.2.Coupled) := by
  have hcursor := h.cursor
  have hst : s.tryRemove.2 =
      { s.incrementModCount with
        target.list := s.target.list.eraseIdx k
        lit := ⟨if k < s.lit.cursor then s.lit.cursor - 1 else s.lit.cursor, none⟩
        lastReturned := -1
        cursor := s.cursor - 1 } := by
    change (match s.lit.remove s.target.list with
      | .error failure => _
      | .ok (list, lit) => _ : Outcome (Option E) × Iteration E).2 = _
    rw [ListItr.remove, hret]
    rfl
  have hiff : s.offset + (s.cursor - 1) =
      ((if k < s.lit.cursor then s.lit.cursor - 1 else s.lit.cursor : Nat) : Int) ↔
        k < s.lit.cursor := by
    split <;> omega
  rw [hst]
  exact ⟨hiff, fun hk => ⟨rfl, hiff.mpr hk, nofun, nofun⟩⟩

theorem Coupled.remove_iff (h : s.Coupled) :
    (s.Faithful onProposedChange .remove ↔ s.Sound onProposedChange .remove) ∧
      (s.Sound onProposedChange .remove → (s.call onProposedChange .remove).state.Coupled) := by
  by_cases hlast : s.lastReturned = -1
  · have hcall : s.call onProposedChange .remove = ⟨[], .error (.illegalState ""), s⟩ :=
      (h.checked _).trans (if_pos hlast)
    refine ⟨iff_of_true (.of_refused h hcall) ⟨fun _ => hlast, fun _ _ hne => absurd hlast hne⟩,
      fun _ => ?_⟩
    rw [hcall]
    exact h
  · have hcall : s.call onProposedChange .remove = s.proposing onProposedChange
        ⟨[], [s.offset + s.lastReturned, s.offset + s.lastReturned + 1]⟩ s.tryRemove :=
      (h.checked _).trans (if_neg hlast)
    obtain ⟨hprops, hst⟩ := proposing_cases onProposedChange s
      ⟨[], [s.offset + s.lastReturned, s.offset + s.lastReturned + 1]⟩ s.tryRemove
    rw [← hcall] at hprops hst
    cases hret : s.lit.lastRet with
    | none =>
      have haffects : affects s.lit (.remove : IteratorCall E) = none := by
        rw [affects, hret]
        rfl
      exact ⟨iff_of_false (not_faithful_of_proposed hprops haffects) fun hsound =>
        hlast (hsound.1 hret), fun hsound => absurd (hsound.1 hret) hlast⟩
    | some k =>
      rw [h.lastReturned k hret] at hprops hst
      have haffects :
          affects s.lit (.remove : IteratorCall E) = some ⟨[], [(k : Int), k + 1]⟩ := by
        rw [affects, hret]
        rfl
      have hfaithful : (s.call onProposedChange .remove).state.offset +
          (s.call onProposedChange .remove).state.cursor =
            (s.call onProposedChange .remove).state.lit.cursor →
          s.Faithful onProposedChange .remove :=
        .of_proposed hprops haffects
      have hlegal : s.lit.lastRet = none → s.lastReturned = -1 := by
        rw [hret]
        exact nofun
      obtain ⟨hst, hrefused⟩ | ⟨hst, haccepted⟩ := hst
      · have hsound : s.Sound onProposedChange .remove := by
          refine ⟨hlegal, fun k' hret' _ haccepted => ?_⟩
          rw [hret] at hret'
          obtain rfl := Option.some.inj hret'
          exact absurd haccepted hrefused
        rw [hst] at hfaithful ⊢
        exact ⟨iff_of_true (hfaithful h.cursor) hsound, fun _ => h⟩
      · obtain ⟨hiff, hcoupled⟩ := tryRemove_cursor_iff h hret
        have hsound_iff : s.Sound onProposedChange .remove ↔ k < s.lit.cursor := by
          refine ⟨fun hsound => hsound.2 k hret hlast haccepted, fun hk => ⟨hlegal, ?_⟩⟩
          intro k' hret' _ _
          rw [hret] at hret'
          obtain rfl := Option.some.inj hret'
          exact hk
        rw [hsound_iff]
        constructor
        · constructor
          · intro hs
            have hcursor := hs.cursor
            rw [hst] at hcursor
            exact hiff.mp hcursor
          · intro hk
            apply hfaithful
            rw [hst]
            exact hiff.mpr hk
        · rw [hst]
          exact hcoupled

end

variable (onProposedChange : Proposal E → Outcome Unit)

theorem Coupled.call_iff (h : s.Coupled) (c : IteratorCall E) :
    (s.Faithful onProposedChange c ↔ s.Sound onProposedChange c) ∧
      (s.Sound onProposedChange c → (s.call onProposedChange c).state.Coupled) := by
  cases c with
  | next =>
    obtain ⟨hprops, htarget, hcoupled⟩ := h.next
    refine ⟨iff_of_true ⟨?_, ?_, hcoupled.cursor⟩ trivial, fun _ => hcoupled⟩
    · intro p hp
      rw [call, hprops] at hp
      cases hp
    · exact fun hne => absurd (congrArg VetoableList.list htarget) hne
  | previous =>
    obtain ⟨hprops, htarget, hcoupled⟩ := h.previous
    refine ⟨iff_of_true ⟨?_, ?_, hcoupled.cursor⟩ trivial, fun _ => hcoupled⟩
    · intro p hp
      rw [call, hprops] at hp
      cases hp
    · exact fun hne => absurd (congrArg VetoableList.list htarget) hne
  | add e =>
    obtain ⟨hfaithful, hcoupled⟩ := h.add onProposedChange e
    exact ⟨iff_of_true hfaithful trivial, fun _ => hcoupled⟩
  | set e => exact h.set_iff e
  | remove => exact h.remove_iff

theorem Coupled.run_iff (calls : List (IteratorCall E)) (h : s.Coupled) :
    s.FaithfulRun onProposedChange calls ↔ s.SoundRun onProposedChange calls := by
  induction calls generalizing s with
  | nil => exact Iff.rfl
  | cons c calls ih =>
    obtain ⟨hiff, hcoupled⟩ := h.call_iff onProposedChange c
    rw [FaithfulRun, hiff]
    exact and_congr_right fun hsound => ih (hcoupled hsound)

theorem listIterator_coupled {v : VetoableList E} {index : Nat}
    (h : listIterator v index = .ok s) : s.Coupled := by
  rw [listIterator] at h
  split at h
  · cases h
    exact ⟨rfl, Int.add_zero _, nofun, nofun⟩
  · cases h

/-- The runs of a list iterator in which every proposal is right are those of sound calls. -/
theorem listIterator_faithfulRun_iff {v : VetoableList E} {index : Nat}
    (h : listIterator v index = .ok s) (calls : List (IteratorCall E)) :
    s.FaithfulRun onProposedChange calls ↔ s.SoundRun onProposedChange calls :=
  (listIterator_coupled h).run_iff onProposedChange calls

/-- An element is replaced, removed and another one added. -/
theorem listIterator_faithfulRun_edits :
    FaithfulRun (fun _ : Proposal Nat => .ok ()) ⟨⟨[1, 2], 0⟩, ⟨1, none⟩, 0, 1, 0, 0⟩
      [.next, .set 9, .remove, .add 4] := by
  refine (listIterator_faithfulRun_iff (fun _ : Proposal Nat => .ok ())
    (show listIterator ⟨[1, 2], 0⟩ 1 = .ok ⟨⟨[1, 2], 0⟩, ⟨1, none⟩, 0, 1, 0, 0⟩ from rfl)
    [.next, .set 9, .remove, .add 4]).mpr ⟨trivial, nofun, ⟨nofun, ?_⟩, trivial, trivial⟩
  rintro k ⟨⟩ - -
  decide

/-- A new iterator proposes to replace an element that it has not returned, and a removal after
`previous` leaves the cursor of the decorator behind. -/
theorem listIterator_strays :
    listIterator ⟨[1, 2], 0⟩ 0 = .ok ⟨⟨[1, 2], 0⟩, ⟨0, none⟩, 0, 0, 0, 0⟩ ∧
      ¬FaithfulRun (fun _ : Proposal Nat => .ok ()) ⟨⟨[1, 2], 0⟩, ⟨0, none⟩, 0, 0, 0, 0⟩
        [.set 5] ∧
      ¬FaithfulRun (fun _ : Proposal Nat => .ok ()) ⟨⟨[1, 2], 0⟩, ⟨0, none⟩, 0, 0, 0, 0⟩
        [.next, .previous, .remove] := by
  refine ⟨rfl, ?_, ?_⟩
  · rintro ⟨hset, -⟩
    exact absurd (hset.proposed ⟨[5], [0, 1]⟩ (by decide)) (by decide)
  · rintro ⟨-, -, hremove, -⟩
    exact absurd hremove.cursor (by decide)

end Iteration

end OpenJfx.Collections.VetoableListDecorator
