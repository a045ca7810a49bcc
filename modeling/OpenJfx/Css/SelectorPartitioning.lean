import OpenJfx.Java.HashMap
import OpenJfx.Css.CompoundSelector
import OpenJfx.Data.FilterPerm

namespace OpenJfx.Css

open Java

inductive Selector
  | simple (selector : SimpleSelector)
  | compound (selector : CompoundSelector) (hparts : selector.selectors ≠ [])

def Selector.last : Selector → SimpleSelector
  | .simple selector => selector
  | .compound selector hparts => selector.selectors.getLast hparts

namespace SelectorPartitioning

inductive PartitionKey
  | name (key : String)
  | styleClasses (key : BitSet)
  deriving DecidableEq

structure Slot (S R : Type) where
  key : PartitionKey
  slots : HashMap PartitionKey R
  selectors : List S

abbrev StyleSlot (S : Type) := Slot S Empty

abbrev TypeSlot (S : Type) := Slot S (StyleSlot S)

abbrev IdPartition (S : Type) := Slot S (TypeSlot S)

variable {S R : Type}

def Slot.new (key : PartitionKey) : Slot S R := ⟨key, .empty, []⟩

def Slot.addSelector (s : Slot S R) (selector : S) : Slot S R :=
  { s with selectors := s.selectors ++ [selector] }

def getPartition (id : PartitionKey) (map : HashMap PartitionKey (Slot S R)) :
    Slot S R × HashMap PartitionKey (Slot S R) :=
  match map.get id with
  | some partition => (partition, map)
  | none => (.new id, map.put id (.new id))

/-- `partition(id, map)`: the slot for a key, with the map in which its partition has been
looked up. The slot is put into the slots once it is changed. -/
def Slot.partition {R' : Type} (s : Slot S (Slot S R)) (id : PartitionKey)
    (map : HashMap PartitionKey (Slot S R')) : Slot S R × HashMap PartitionKey (Slot S R') :=
  match s.slots.get id with
  | some slot => (slot, map)
  | none =>
    let (partition, map) := getPartition id map
    (.new partition.key, map)

def Slot.put (s : Slot S R) (id : PartitionKey) (slot : R) : Slot S R :=
  { s with slots := s.slots.put id slot }

/-- A selector that has been partitioned, with its ordinal. -/
abbrev Filed := Selector × Nat

structure Partitioning where
  idMap : HashMap PartitionKey (IdPartition Filed)
  typeMap : HashMap PartitionKey (TypeSlot Filed)
  styleClassMap : HashMap PartitionKey (StyleSlot Filed)
  ordinal : Nat

namespace Partitioning

def new : Partitioning := ⟨.empty, .empty, .empty, 0⟩

def idKey (selector : SimpleSelector) : Option PartitionKey :=
  if selector.id = "" then none else some (.name selector.id)

def typeKey (selector : SimpleSelector) : Option PartitionKey :=
  if selector.name = "" then none else some (.name selector.name)

def styleClassKey (selector : SimpleSelector) : Option PartitionKey :=
  if selector.styleClassSet.size > 0 then some (.styleClasses selector.styleClassSet) else none

def addToType (slot : TypeSlot Filed) (styleClassKey : Option PartitionKey)
    (styleClassMap : HashMap PartitionKey (StyleSlot Filed)) (selector : Filed) :
    TypeSlot Filed × HashMap PartitionKey (StyleSlot Filed) :=
  match styleClassKey with
  | none => (slot.addSelector selector, styleClassMap)
  | some key =>
    let (styleSlot, styleClassMap) := slot.partition key styleClassMap
    (slot.put key (styleSlot.addSelector selector), styleClassMap)

def partition (p : Partitioning) (selector : Selector) : Partitioning :=
  let filed : Filed := (selector, p.ordinal)
  let ordinal := p.ordinal + 1
  match idKey selector.last, typeKey selector.last with
  | some idKey, some typeKey =>
    let (partition, idMap) := getPartition idKey p.idMap
    let (slot, typeMap) := partition.partition typeKey p.typeMap
    let (slot, styleClassMap) :=
      addToType slot (styleClassKey selector.last) p.styleClassMap filed
    ⟨idMap.put idKey (partition.put typeKey slot), typeMap, styleClassMap, ordinal⟩
  | none, some typeKey =>
    let (partition, typeMap) := getPartition typeKey p.typeMap
    let (partition, styleClassMap) :=
      addToType partition (styleClassKey selector.last) p.styleClassMap filed
    ⟨p.idMap, typeMap.put typeKey partition, styleClassMap, ordinal⟩
  | _, none => { p with ordinal := ordinal }

/-- The keys of the loops over the types: the type itself and `*`. -/
def typeKeys (type : String) : List PartitionKey :=
  if type = "*" then [.name type] else [.name type, .name "*"]

def containsKey (styleClasses : BitSet) : PartitionKey → Bool
  | .name _ => false
  | .styleClasses key => styleClasses.containsAll (some key)

def selectorsOf (order : IterationOrder (PartitionKey × StyleSlot Filed))
    (styleClasses : Option BitSet) (slot : TypeSlot Filed) : List Filed :=
  slot.selectors ++
    match styleClasses with
    | none => []
    | some styleClasses =>
      (order.order slot.slots.entries).flatMap fun entry =>
        if containsKey styleClasses entry.2.key then entry.2.selectors else []

def matchId (order : IterationOrder (PartitionKey × StyleSlot Filed)) (p : Partitioning)
    (id : PartitionKey) (type : String) (styleClasses : Option BitSet) : List Filed :=
  match p.idMap.get id with
  | none => []
  | some partition =>
    partition.selectors ++ (typeKeys type).flatMap fun typePK =>
      match partition.slots.get typePK with
      | none => []
      | some slot => selectorsOf order styleClasses slot

def matchType (order : IterationOrder (PartitionKey × StyleSlot Filed)) (p : Partitioning)
    (type : String) (styleClasses : Option BitSet) : List Filed :=
  (typeKeys type).flatMap fun typePK =>
    match p.typeMap.get typePK with
    | none => []
    | some partition => selectorsOf order styleClasses partition

def match' (order : IterationOrder (PartitionKey × StyleSlot Filed)) (p : Partitioning)
    (selectorId selectorType : Option String) (selectorStyleClass : Option BitSet) : List Filed :=
  let id := selectorId.filter (· ≠ "")
  let styleClasses := selectorStyleClass.filter (·.size > 0)
  let selectors :=
    match selectorType.filter (· ≠ "") with
    | none => []
    | some type =>
      (match id with
        | none => []
        | some id => p.matchId order (.name id) type styleClasses) ++
      p.matchType order type styleClasses
  selectors.mergeSort fun o1 o2 => o1.2 ≤ o2.2

end Partitioning

open List
open Data Data.WordSet

variable {S R : Type}

def slotAt (map : HashMap PartitionKey (Slot S R)) (id : PartitionKey) : Slot S R :=
  (map.get id).getD (.new id)

def Keyed (map : HashMap PartitionKey (Slot S R)) : Prop :=
  ∀ id slot, map.get id = some slot → slot.key = id

theorem slotAt_put (map : HashMap PartitionKey (Slot S R)) (id id' : PartitionKey)
    (slot : Slot S R) :
    slotAt (map.put id slot) id' = if id' = id then slot else slotAt map id' := by
  rw [slotAt, HashMap.get_put]
  split_ifs <;> rfl

variable {map : HashMap PartitionKey (Slot S R)}

theorem slotAt_key (h : Keyed map) (id : PartitionKey) :
    (slotAt map id).key = id := by
  rw [slotAt]
  cases hget : map.get id with
  | none => rfl
  | some slot => exact h id slot hget

theorem Keyed.put (h : Keyed map) {id : PartitionKey} {slot : Slot S R} (hslot : slot.key = id) :
    Keyed (map.put id slot) := by
  intro id' slot' hget
  rw [HashMap.get_put] at hget
  split_ifs at hget with heq
  · rw [← Option.some.inj hget, heq]
    exact hslot
  · exact h id' slot' hget

theorem getPartition_fst (id : PartitionKey) (map : HashMap PartitionKey (Slot S R)) :
    (getPartition id map).1 = slotAt map id := by
  rw [getPartition, slotAt]
  cases map.get id <;> rfl

theorem slotAt_getPartition (id id' : PartitionKey) (map : HashMap PartitionKey (Slot S R)) :
    slotAt (getPartition id map).2 id' = slotAt map id' := by
  rw [getPartition]
  cases hget : map.get id with
  | some slot => rfl
  | none =>
    rw [slotAt_put]
    split_ifs with heq
    · rw [heq, slotAt, hget]
      rfl
    · rfl

theorem Keyed.getPartition (h : Keyed map) (id : PartitionKey) : Keyed (getPartition id map).2 := by
  rw [SelectorPartitioning.getPartition]
  cases map.get id with
  | some slot => exact h
  | none => exact h.put rfl

theorem partition_fst {R' : Type} (s : Slot S (Slot S R)) (id : PartitionKey)
    {map : HashMap PartitionKey (Slot S R')} (h : Keyed map) :
    (s.partition id map).1 = slotAt s.slots id := by
  rw [Slot.partition, slotAt]
  cases s.slots.get id with
  | some slot => rfl
  | none =>
    change Slot.new (SelectorPartitioning.getPartition id map).1.key = _
    rw [getPartition_fst, slotAt_key h]
    rfl

theorem slotAt_partition {R' : Type} (s : Slot S (Slot S R)) (id id' : PartitionKey)
    (map : HashMap PartitionKey (Slot S R')) :
    slotAt (s.partition id map).2 id' = slotAt map id' := by
  rw [Slot.partition]
  cases s.slots.get id with
  | some slot => rfl
  | none => exact slotAt_getPartition id id' map

theorem Keyed.partition {R' : Type} (s : Slot S (Slot S R)) (id : PartitionKey)
    {map : HashMap PartitionKey (Slot S R')} (h : Keyed map) : Keyed (s.partition id map).2 := by
  rw [Slot.partition]
  cases s.slots.get id with
  | some slot => exact h
  | none => exact h.getPartition id

namespace Partitioning

structure Holds (slot : TypeSlot Filed) (l : List Filed) : Prop where
  selectors : slot.selectors = l.filter fun x => styleClassKey x.1.last = none
  styleSlots : ∀ key, (slotAt slot.slots key).selectors =
    l.filter fun x => styleClassKey x.1.last = some key
  keyed : Keyed slot.slots

theorem holds_new (key : PartitionKey) : Holds (.new key) [] :=
  ⟨rfl, fun _ => rfl, fun _ _ h => absurd h (by simp [Slot.new])⟩

theorem Holds.addToType {slot : TypeSlot Filed} {l : List Filed} (h : Holds slot l) (x : Filed)
    {styleClassMap : HashMap PartitionKey (StyleSlot Filed)} (hmap : Keyed styleClassMap) :
    Holds (addToType slot (styleClassKey x.1.last) styleClassMap x).1 (l ++ [x]) ∧
      Keyed (addToType slot (styleClassKey x.1.last) styleClassMap x).2 := by
  cases hkey : styleClassKey x.1.last with
  | none =>
    refine ⟨⟨?_, fun key => ?_, h.keyed⟩, hmap⟩
    · change slot.selectors ++ [x] = _
      rw [h.selectors]
      simp [hkey]
    · change (slotAt slot.slots key).selectors = _
      rw [h.styleSlots]
      simp [hkey]
  | some key =>
    refine ⟨⟨?_, fun key' => ?_, ?_⟩, hmap.partition slot key⟩
    · change slot.selectors = _
      rw [h.selectors]
      simp [hkey]
    · change (slotAt (slot.slots.put key ((slot.partition key styleClassMap).1.addSelector x))
        key').selectors = _
      rw [slotAt_put, partition_fst slot key hmap, filter_append, ← h.styleSlots key']
      by_cases heq : key' = key
      · subst heq
        simp [hkey, Slot.addSelector]
      · have hne : key ≠ key' := fun h' => heq h'.symm
        rw [if_neg heq]
        simp [hkey, hne]
    · refine h.keyed.put ?_
      change (slot.partition key styleClassMap).1.key = key
      rw [partition_fst slot key hmap, slotAt_key h.keyed]

structure Indexes (p : Partitioning) (filed : List Filed) : Prop where
  ordinal : p.ordinal = filed.length
  idSelectors : ∀ id, (slotAt p.idMap id).selectors = []
  withId : ∀ id type, Holds (slotAt (slotAt p.idMap id).slots type)
    (filed.filter fun x => idKey x.1.last = some id ∧ typeKey x.1.last = some type)
  withoutId : ∀ type, Holds (slotAt p.typeMap type)
    (filed.filter fun x => idKey x.1.last = none ∧ typeKey x.1.last = some type)
  typeMap_keyed : Keyed p.typeMap
  styleClassMap_keyed : Keyed p.styleClassMap

theorem new_indexes : Indexes new [] :=
  ⟨rfl, fun _ => rfl, fun _ type => holds_new type, fun type => holds_new type,
    fun _ _ h => absurd h (by simp [new]), fun _ _ h => absurd h (by simp [new])⟩

variable {x : Filed} {p : Filed → Bool}

theorem filter_concat_of_not (l : List Filed) (h : p x = false) :
    (l ++ [x]).filter p = l.filter p := by
  rw [filter_append, filter_singleton, h]
  exact append_nil _

theorem filter_concat_of_pos (l : List Filed) (h : p x = true) :
    (l ++ [x]).filter p = l.filter p ++ [x] := by
  rw [filter_append, filter_singleton, h]
  rfl

theorem holds_concat_of_not {slot : TypeSlot Filed} {filed : List Filed}
    (h : Holds slot (filed.filter p)) (hx : p x = false) :
    Holds slot ((filed ++ [x]).filter p) := by
  rw [filter_concat_of_not filed hx]
  exact h

variable {p : Partitioning} {type : PartitionKey}

theorem Indexes.fileWithId {filed : List Filed} (h : Indexes p filed) {id : PartitionKey}
    (hid : idKey x.1.last = some id) (htype : typeKey x.1.last = some type)
    (id' type' : PartitionKey) :
    Holds (slotAt (slotAt ((getPartition id p.idMap).2.put id ((slotAt p.idMap id).put type
        (addToType (slotAt (slotAt p.idMap id).slots type) (styleClassKey x.1.last)
          p.styleClassMap x).1)) id').slots type')
      ((filed ++ [x]).filter fun x =>
        idKey x.1.last = some id' ∧ typeKey x.1.last = some type') := by
  rw [slotAt_put, slotAt_getPartition]
  by_cases hid' : id' = id
  · subst hid'
    rw [if_pos rfl]
    change Holds (slotAt ((slotAt p.idMap id').slots.put type _) type') _
    rw [slotAt_put]
    by_cases htype' : type' = type
    · subst htype'
      rw [if_pos rfl, filter_concat_of_pos filed (decide_eq_true ⟨hid, htype⟩)]
      exact ((h.withId id' type').addToType x h.styleClassMap_keyed).1
    · rw [if_neg htype']
      refine holds_concat_of_not (h.withId id' type') (decide_eq_false fun hx => htype' ?_)
      exact Option.some.inj (hx.2.symm.trans htype)
  · rw [if_neg hid']
    refine holds_concat_of_not (h.withId id' type') (decide_eq_false fun hx => hid' ?_)
    exact Option.some.inj (hx.1.symm.trans hid)

theorem Indexes.fileWithoutId {filed : List Filed} (h : Indexes p filed)
    (hid : idKey x.1.last = none) (htype : typeKey x.1.last = some type) (type' : PartitionKey) :
    Holds (slotAt ((getPartition type p.typeMap).2.put type
        (addToType (slotAt p.typeMap type) (styleClassKey x.1.last) p.styleClassMap x).1) type')
      ((filed ++ [x]).filter fun x => idKey x.1.last = none ∧ typeKey x.1.last = some type') := by
  rw [slotAt_put, slotAt_getPartition]
  by_cases htype' : type' = type
  · subst htype'
    rw [if_pos rfl, filter_concat_of_pos filed (decide_eq_true ⟨hid, htype⟩)]
    exact ((h.withoutId type').addToType x h.styleClassMap_keyed).1
  · rw [if_neg htype']
    refine holds_concat_of_not (h.withoutId type') (decide_eq_false fun hx => htype' ?_)
    exact Option.some.inj (hx.2.symm.trans htype)

theorem addToType_key (slot : TypeSlot Filed) (key : Option PartitionKey)
    (styleClassMap : HashMap PartitionKey (StyleSlot Filed)) (x : Filed) :
    (addToType slot key styleClassMap x).1.key = slot.key := by
  cases key <;> rfl

theorem partition_withoutId (p : Partitioning) {selector : Selector}
    (hid : idKey selector.last = none) (htype : typeKey selector.last = some type) :
    p.partition selector =
      ⟨p.idMap, (getPartition type p.typeMap).2.put type
        (addToType (slotAt p.typeMap type) (styleClassKey selector.last) p.styleClassMap
          (selector, p.ordinal)).1,
        (addToType (slotAt p.typeMap type) (styleClassKey selector.last) p.styleClassMap
          (selector, p.ordinal)).2, p.ordinal + 1⟩ := by
  rw [Partitioning.partition, htype, hid, ← getPartition_fst]

theorem partition_withId (hp : Keyed p.typeMap) {selector : Selector} {id : PartitionKey}
    (hid : idKey selector.last = some id) (htype : typeKey selector.last = some type) :
    p.partition selector =
      ⟨(getPartition id p.idMap).2.put id ((slotAt p.idMap id).put type
        (addToType (slotAt (slotAt p.idMap id).slots type) (styleClassKey selector.last)
          p.styleClassMap (selector, p.ordinal)).1),
        ((slotAt p.idMap id).partition type p.typeMap).2,
        (addToType (slotAt (slotAt p.idMap id).slots type) (styleClassKey selector.last)
          p.styleClassMap (selector, p.ordinal)).2, p.ordinal + 1⟩ := by
  rw [Partitioning.partition, htype, hid, ← partition_fst _ _ hp, ← getPartition_fst]

theorem Indexes.partition {filed : List Filed} (h : Indexes p filed) (selector : Selector) :
    Indexes (p.partition selector) (filed ++ [(selector, filed.length)]) := by
  rw [← h.ordinal]
  have hlen : p.ordinal + 1 = (filed ++ [(selector, p.ordinal)]).length := by
    rw [length_append, h.ordinal]
    rfl
  cases htype : typeKey selector.last with
  | none =>
    have hp : p.partition selector = { p with ordinal := p.ordinal + 1 } := by
      rw [Partitioning.partition, htype]
      cases idKey selector.last <;> rfl
    rw [hp]
    refine ⟨hlen, h.idSelectors, fun id type => ?_, fun type => ?_, h.typeMap_keyed,
      h.styleClassMap_keyed⟩
    · exact holds_concat_of_not (h.withId id type) (by simp [htype])
    · exact holds_concat_of_not (h.withoutId type) (by simp [htype])
  | some type =>
    cases hid : idKey selector.last with
    | none =>
      have hkeys := (h.withoutId type).addToType (selector, p.ordinal) h.styleClassMap_keyed
      rw [partition_withoutId p hid htype]
      refine ⟨hlen, h.idSelectors, fun id type' => ?_, ?_, ?_, hkeys.2⟩
      · exact holds_concat_of_not (h.withId id type') (by simp [hid])
      · exact h.fileWithoutId (x := (selector, p.ordinal)) hid htype
      · refine (h.typeMap_keyed.getPartition type).put ?_
        rw [addToType_key, slotAt_key h.typeMap_keyed]
    | some id =>
      have hkeys := (h.withId id type).addToType (selector, p.ordinal) h.styleClassMap_keyed
      rw [partition_withId h.typeMap_keyed hid htype]
      refine ⟨hlen, fun id' => ?_, ?_, fun type' => ?_, h.typeMap_keyed.partition _ type,
        hkeys.2⟩
      · rw [slotAt_put, slotAt_getPartition]
        split_ifs
        · exact h.idSelectors id
        · exact h.idSelectors id'
      · exact h.fileWithId (x := (selector, p.ordinal)) hid htype
      · rw [slotAt_partition]
        exact holds_concat_of_not (h.withoutId type') (by simp [hid])

section Match

variable (order : IterationOrder (PartitionKey × StyleSlot Filed))

def styleMatches (styleClasses : Option BitSet) (selector : SimpleSelector) : Bool :=
  match styleClassKey selector, styleClasses with
  | none, _ => true
  | some _, none => false
  | some key, some styleClasses => containsKey styleClasses key

variable {l : List Filed} {slot : TypeSlot Filed}

theorem Holds.entry_selectors (h : Holds slot l) {entry : PartitionKey × StyleSlot Filed}
    (hentry : entry ∈ slot.slots.entries) :
    entry.2.key = entry.1 ∧
      entry.2.selectors = l.filter fun x => styleClassKey x.1.last = some entry.1 := by
  have hget : slot.slots.get entry.1 = some entry.2 := HashMap.get_eq_some_iff.mpr hentry
  refine ⟨h.keyed _ _ hget, ?_⟩
  rw [← h.styleSlots, slotAt, hget]
  rfl

theorem Holds.mem_keys (h : Holds slot l) {x : Filed} (hx : x ∈ l) {key : PartitionKey}
    (hkey : styleClassKey x.1.last = some key) :
    key ∈ slot.slots.entries.map Prod.fst := by
  rw [HashMap.mem_keys_iff]
  cases hget : slot.slots.get key with
  | some styleSlot => exact ⟨styleSlot, rfl⟩
  | none =>
    have hmem : x ∈ l.filter fun x => styleClassKey x.1.last = some key :=
      mem_filter.mpr ⟨hx, decide_eq_true hkey⟩
    rw [← h.styleSlots, slotAt, hget] at hmem
    exact absurd hmem (not_mem_nil)

theorem flatMap_if_eq {α β γ : Type} (f : α → β) (p : β → Bool) (g : β → List γ) (l : List α) :
    (l.flatMap fun a => if p (f a) then g (f a) else []) = ((l.map f).filter p).flatMap g := by
  induction l with
  | nil => rfl
  | cons a l ih =>
    rw [flatMap_cons, map_cons, filter_cons, ih]
    cases p (f a) with
    | true => rfl
    | false => rfl

theorem Holds.styleSlots_perm (h : Holds slot l) (styleClasses : BitSet) :
    ((order.order slot.slots.entries).flatMap fun entry =>
        if containsKey styleClasses entry.2.key then entry.2.selectors else []).Perm
      (l.filter fun x => (styleClassKey x.1.last).any (containsKey styleClasses)) := by
  have hentries : (slot.slots.entries.flatMap fun entry =>
        if containsKey styleClasses entry.2.key then entry.2.selectors else []) =
      ((slot.slots.entries.map Prod.fst).filter (containsKey styleClasses)).flatMap fun key =>
        l.filter fun x => styleClassKey x.1.last = some key := by
    rw [← flatMap_if_eq]
    refine flatMap_congr fun entry hentry => ?_
    rw [(h.entry_selectors hentry).1, (h.entry_selectors hentry).2]
  refine ((order.perm slot.slots.entries).flatMap_right _).trans ?_
  rw [hentries]
  refine (flatMap_filter_perm (fun x : Filed => styleClassKey x.1.last) l
    (slot.slots.keys_nodup.filter _)).trans (List.Perm.of_eq ?_)
  refine filter_congr fun x hx => ?_
  cases hkey : styleClassKey x.1.last with
  | none => simp
  | some key =>
    rw [Option.any_some, Bool.eq_iff_iff, decide_eq_true_eq,
      mem_map_of_injective (Option.some_injective _), mem_filter,
      and_iff_right (h.mem_keys hx hkey)]

theorem Holds.selectorsOf_perm (h : Holds slot l) (styleClasses : Option BitSet) :
    (selectorsOf order styleClasses slot).Perm
      (l.filter fun x => styleMatches styleClasses x.1.last) := by
  unfold selectorsOf
  rw [h.selectors]
  cases styleClasses with
  | none =>
    rw [append_nil]
    refine List.Perm.of_eq (filter_congr fun x _ => ?_)
    unfold styleMatches
    cases styleClassKey x.1.last <;> simp
  | some styleClasses =>
    refine ((h.styleSlots_perm order styleClasses).append_left _).trans
      ((filter_append_filter_perm fun x _ hx => ?_).trans (List.Perm.of_eq ?_))
    · rw [decide_eq_true_eq] at hx
      rw [hx]
      rfl
    · refine filter_congr fun x _ => ?_
      unfold styleMatches
      cases styleClassKey x.1.last <;> simp

theorem selectorsOf_new (styleClasses : Option BitSet) (key : PartitionKey) :
    selectorsOf order styleClasses (.new key) = [] :=
  List.Perm.eq_nil (by simpa using (holds_new key).selectorsOf_perm order styleClasses)

theorem flatMap_typeKeys_perm (map : HashMap PartitionKey (TypeSlot Filed)) {filed : List Filed}
    {p : Filed → Bool}
    (h : ∀ type, Holds (slotAt map type)
      (filed.filter fun x => p x = true ∧ typeKey x.1.last = some type))
    (type : String) (styleClasses : Option BitSet) :
    ((typeKeys type).flatMap fun typePK =>
        match map.get typePK with
        | none => []
        | some slot => selectorsOf order styleClasses slot).Perm
      (filed.filter fun x => p x && styleMatches styleClasses x.1.last &&
        decide (typeKey x.1.last ∈ (typeKeys type).map some)) := by
  have hnd : (typeKeys type).Nodup := by
    rw [typeKeys]
    split_ifs with heq
    · exact nodup_singleton _
    · simp [heq]
  have hslots : ∀ typePK ∈ typeKeys type,
      (match map.get typePK with
        | none => []
        | some slot => selectorsOf order styleClasses slot).Perm
      ((filed.filter fun x => p x && styleMatches styleClasses x.1.last).filter fun x =>
        typeKey x.1.last = some typePK) := by
    intro typePK _
    have hslot : (match map.get typePK with
        | none => []
        | some slot => selectorsOf order styleClasses slot) =
        selectorsOf order styleClasses (slotAt map typePK) := by
      rw [slotAt]
      cases map.get typePK with
      | none => exact (selectorsOf_new order styleClasses typePK).symm
      | some slot => rfl
    rw [hslot]
    refine ((h typePK).selectorsOf_perm order styleClasses).trans (List.Perm.of_eq ?_)
    rw [filter_filter, filter_filter]
    refine filter_congr fun x _ => ?_
    cases p x <;> cases styleMatches styleClasses x.1.last <;> simp
  refine (List.Perm.flatMap_left (typeKeys type) hslots).trans
    ((flatMap_filter_perm (fun x : Filed => typeKey x.1.last) _ hnd).trans (List.Perm.of_eq ?_))
  rw [filter_filter]
  refine filter_congr fun x _ => ?_
  rw [Bool.and_comm]

def isFound (id : Option String) (type : String) (styleClasses : Option BitSet)
    (selector : SimpleSelector) : Bool :=
  (idKey selector == none || id.any fun id => idKey selector == some (.name id)) &&
    styleMatches styleClasses selector &&
    decide (typeKey selector ∈ (typeKeys type).map some)

theorem Indexes.matchType_perm {p : Partitioning} {filed : List Filed} (h : Indexes p filed)
    (type : String) (styleClasses : Option BitSet) :
    (p.matchType order type styleClasses).Perm
      (filed.filter fun x => idKey x.1.last == none && styleMatches styleClasses x.1.last &&
        decide (typeKey x.1.last ∈ (typeKeys type).map some)) :=
  flatMap_typeKeys_perm order _ (p := fun x => idKey x.1.last == none)
    (fun type => by simpa using h.withoutId type) type styleClasses

theorem Indexes.matchId_perm {p : Partitioning} {filed : List Filed} (h : Indexes p filed)
    (id : PartitionKey) (type : String) (styleClasses : Option BitSet) :
    (p.matchId order id type styleClasses).Perm
      (filed.filter fun x => idKey x.1.last == some id && styleMatches styleClasses x.1.last &&
        decide (typeKey x.1.last ∈ (typeKeys type).map some)) := by
  have hperm := flatMap_typeKeys_perm order (slotAt p.idMap id).slots
    (p := fun x => idKey x.1.last == some id) (fun type => by simpa using h.withId id type) type
    styleClasses
  have hsels := h.idSelectors id
  unfold matchId
  rw [slotAt] at hperm hsels
  cases hget : p.idMap.get id with
  | some partition =>
    rw [hget] at hperm hsels
    change (partition.selectors ++ _).Perm _
    change partition.selectors = [] at hsels
    rw [hsels]
    exact hperm
  | none =>
    rw [hget] at hperm
    refine List.Perm.trans (List.Perm.of_eq ?_) hperm
    symm
    rw [flatMap_eq_nil_iff]
    exact fun _ _ => rfl

theorem Indexes.collected_perm {p : Partitioning} {filed : List Filed} (h : Indexes p filed)
    (id : Option String) (type : String) (styleClasses : Option BitSet) :
    ((match id with
        | none => []
        | some id => p.matchId order (.name id) type styleClasses) ++
      p.matchType order type styleClasses).Perm
      (filed.filter fun x => isFound id type styleClasses x.1.last) := by
  cases id with
  | none =>
    refine (h.matchType_perm order type styleClasses).trans (List.Perm.of_eq ?_)
    simp only [isFound, Option.any_none, Bool.or_false]
  | some id =>
    refine ((h.matchId_perm order (.name id) type styleClasses).append
      (h.matchType_perm order type styleClasses)).trans
      ((filter_append_filter_perm fun x _ hx => ?_).trans (List.Perm.of_eq ?_))
    · rw [Bool.and_eq_true, Bool.and_eq_true, beq_iff_eq] at hx
      rw [hx.1.1]
      rfl
    · refine filter_congr fun x _ => ?_
      rw [isFound, Option.any_some, ← Bool.and_or_distrib_right, ← Bool.and_or_distrib_right,
        Bool.or_comm]

end Match

/-- A sequence of calls of `partition`. -/
def partitionAll (selectors : List Selector) : Partitioning :=
  selectors.foldl partition new

def filed (selectors : List Selector) : List Filed :=
  selectors.zipIdx

theorem partitionAll_indexes (selectors : List Selector) :
    Indexes (partitionAll selectors) (filed selectors) := by
  induction selectors using List.reverseRecOn with
  | nil => exact new_indexes
  | append_singleton selectors selector ih =>
    rw [partitionAll, foldl_append, filed, zipIdx_append]
    have hstep := ih.partition selector
    rw [filed, length_zipIdx] at hstep
    rw [Nat.zero_add]
    exact hstep

theorem pairwise_filed (selectors : List Selector) :
    (filed selectors).Pairwise fun o1 o2 => o1.2 < o2.2 := by
  refine pairwise_map.mp ?_
  rw [filed, zipIdx_map_snd]
  exact pairwise_lt_range'

theorem eq_of_ordinal_eq {selectors : List Selector} {a b : Filed} (ha : a ∈ filed selectors)
    (hb : b ∈ filed selectors) (h : a.2 = b.2) : a = b := by
  rcases a with ⟨selector, ordinal⟩
  rcases b with ⟨selector', ordinal'⟩
  subst h
  rw [filed, mem_zipIdx_iff_getElem?] at ha hb
  have heq : selector = selector' := Option.some.inj (ha.symm.trans hb)
  rw [heq]

/-- The selector asks for nothing that the node does not have. -/
def Matches (id : Option String) (type : String) (styleClasses : Option BitSet)
    (selector : SimpleSelector) : Prop :=
  (selector.id = "" ∨ some selector.id = id) ∧ (selector.name = "*" ∨ selector.name = type) ∧
    members selector.styleClassSet.bits ⊆ members (styleClasses.getD BitSet.new).bits

instance (id : Option String) (type : String) (styleClasses : Option BitSet)
    (selector : SimpleSelector) : Decidable (Matches id type styleClasses selector) :=
  have := decidable_of_iff _ (BitSet.containsAll_iff_subset (s := styleClasses.getD BitSet.new)
    selector.styleClassSet_trimmed)
  inferInstanceAs (Decidable (_ ∧ _ ∧ _))

theorem idKey_found_iff (id : Option String) (selector : SimpleSelector) :
    (idKey selector == none ||
        (id.filter (· ≠ "")).any fun id => idKey selector == some (.name id)) = true ↔
      selector.id = "" ∨ some selector.id = id := by
  rw [idKey]
  by_cases hemp : selector.id = ""
  · simp [hemp]
  · rw [if_neg hemp, or_iff_right hemp]
    cases id with
    | none => simp
    | some id =>
      by_cases hid : id = ""
      · simp [Option.filter, hid, hemp]
      · simp [Option.filter, hid]

theorem typeKey_found_iff {type : String} (htype : type ≠ "") (selector : SimpleSelector) :
    typeKey selector ∈ (typeKeys type).map some ↔ selector.name = "*" ∨ selector.name = type := by
  rw [typeKey]
  by_cases hemp : selector.name = ""
  · simp [hemp, htype.symm]
  · rw [if_neg hemp, typeKeys]
    split_ifs with hstar
    · simp [hstar]
    · simp [or_comm]

theorem styleMatches_iff (styleClasses : Option BitSet) (selector : SimpleSelector) :
    styleMatches (styleClasses.filter (·.size > 0)) selector = true ↔
      members selector.styleClassSet.bits ⊆ members (styleClasses.getD BitSet.new).bits := by
  unfold styleMatches
  rw [styleClassKey]
  by_cases hsize : selector.styleClassSet.size > 0
  · -- The selector has style classes, so that an empty query does not contain them.
    have hnonempty := (BitSet.size_pos_iff _).mp hsize
    rw [if_pos hsize]
    cases styleClasses with
    | none => simpa [BitSet.new] using hnonempty.ne_empty
    | some styleClasses =>
      by_cases hquery : styleClasses.size > 0
      · rw [Option.filter_some, if_pos (decide_eq_true hquery)]
        exact BitSet.containsAll_iff_subset selector.styleClassSet_trimmed
      · rw [Option.filter_some, if_neg (by simpa using hquery)]
        rw [BitSet.size_pos_iff, Set.not_nonempty_iff_eq_empty] at hquery
        simpa [hquery] using hnonempty.ne_empty
  · rw [if_neg hsize]
    rw [BitSet.size_pos_iff, Set.not_nonempty_iff_eq_empty] at hsize
    simp [hsize]

theorem isFound_iff_matches {id : Option String} {type : String} (htype : type ≠ "")
    (styleClasses : Option BitSet) (selector : SimpleSelector) :
    isFound (id.filter (· ≠ "")) type (styleClasses.filter (·.size > 0)) selector = true ↔
      Matches id type styleClasses selector := by
  rw [isFound, Bool.and_eq_true, Bool.and_eq_true, idKey_found_iff, styleMatches_iff,
    decide_eq_true_eq, typeKey_found_iff htype, and_assoc]
  exact and_congr_right fun _ => and_comm

theorem match_partitionAll (order : IterationOrder (PartitionKey × StyleSlot Filed))
    (selectors : List Selector) (id : Option String) {type : String} (htype : type ≠ "")
    (styleClasses : Option BitSet) :
    (partitionAll selectors).match' order id (some type) styleClasses =
      (filed selectors).filter fun x => Matches id type styleClasses x.1.last := by
  have hperm := (partitionAll_indexes selectors).collected_perm order (id.filter (· ≠ "")) type
    (styleClasses.filter (·.size > 0))
  have hfound : ((filed selectors).filter fun x =>
      isFound (id.filter (· ≠ "")) type (styleClasses.filter (·.size > 0)) x.1.last) =
      (filed selectors).filter fun x => Matches id type styleClasses x.1.last := by
    refine filter_congr fun x _ => ?_
    rw [Bool.eq_iff_iff, isFound_iff_matches htype, decide_eq_true_eq]
  rw [hfound] at hperm
  -- The ordinals of the selectors are different, so that there is one sorted order.
  have hsorted : ((filed selectors).filter fun x => Matches id type styleClasses x.1.last).Pairwise
      fun o1 o2 => o1.2 < o2.2 :=
    (pairwise_filed selectors).filter _
  have hmatch : (partitionAll selectors).match' order id (some type) styleClasses =
      ((match id.filter (· ≠ "") with
          | none => []
          | some id => (partitionAll selectors).matchId order (.name id) type
              (styleClasses.filter (·.size > 0))) ++
        (partitionAll selectors).matchType order type
          (styleClasses.filter (·.size > 0))).mergeSort fun o1 o2 => o1.2 ≤ o2.2 := by
    have hfilter : (some type).filter (· ≠ "") = some type := by
      rw [Option.filter_some, if_pos (decide_eq_true htype)]
    unfold match'
    generalize (some type).filter (· ≠ "") = query at hfilter ⊢
    subst hfilter
    rfl
  rw [hmatch]
  refine List.Perm.eq_of_pairwise (fun a b ha hb hab hba => ?_) ?_
    (hsorted.imp fun h => decide_eq_true (Nat.le_of_lt h)) ((mergeSort_perm _ _).trans hperm)
  · rw [decide_eq_true_eq] at hab hba
    rw [mem_mergeSort, hperm.mem_iff] at ha
    exact eq_of_ordinal_eq (mem_filter.mp ha).1 (mem_filter.mp hb).1
      (Nat.le_antisymm hab hba)
  · refine pairwise_mergeSort ?_ ?_ _
    · intro a b c hab hbc
      rw [decide_eq_true_eq] at hab hbc ⊢
      exact hab.trans hbc
    · intro a b
      rw [← Bool.decide_or, decide_eq_true_eq]
      exact Nat.le_total a.2 b.2

theorem match_partitionAll_label :
    ((partitionAll [
          .simple (.new ⟨String.length, String.length⟩ none [] [] (some "a")),
          .simple (.new ⟨String.length, String.length⟩ none [some "b"] [] none),
          .simple (.new ⟨String.length, String.length⟩ (some "Button") [] [] none),
          .simple (.new ⟨String.length, String.length⟩ (some "Label") [] [] none)]).match'
        ⟨id, fun _ => .refl _⟩ (some "a") (some "Label")
        (some (SimpleSelector.addNames String.length .new [some "b"]))).map Prod.snd =
      [0, 1, 3] := by
  rw [match_partitionAll ⟨id, fun _ => .refl _⟩ _ (some "a") (by decide)]
  decide

end Partitioning

end SelectorPartitioning

end OpenJfx.Css
