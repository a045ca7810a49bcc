import OpenJfx.Css.BitSetIterator
import OpenJfx.Data.Loop

namespace OpenJfx.Css.StyleClassSet

open Css.BitSet Data Data.TurnLoop Data.WordSet Java.Arrays List

variable {T : Type} (instances : List T)

/-- The array and the variable `index`. -/
abbrev Locals (T : Type) := List (Option T) × Nat

/-- `a[index++] = getStyleClass(index * Long.SIZE + bit)`. -/
def storeClass (s : Locals T) (bit : Nat) : Outcome (Locals T) := do
  let a ← store s.1 s.2 (getT instances (s.2 * 64 + bit : Nat))
  pure (a, s.2 + 1)

def storeBit (state : Word) (s : Locals T) (bit : Nat) : Outcome (Locals T) :=
  let mask := 1#64 <<< bit
  if state &&& mask = mask then storeClass instances s bit else .ok s

def arrayTurn (bits : List Word) (s : Locals T) : Turn (Locals T) (Outcome (List (Option T))) :=
  match bits[s.2]? with
  | none => .ends (.ok s.1)
  | some state =>
    match (List.range 64).foldlM (storeBit instances state) s with
    | .ok s => .goesOn s
    | .error e => .ends (.error e)

def ToArray (s : BitSet) (result : Outcome (List (Option T))) : Prop :=
  Ends (arrayTurn instances s.bits) (List.replicate s.size none, 0) result

/-- The array holds what the set contains, in some order. -/
def HoldsMembers (s : BitSet) (a : List (Option T)) : Prop :=
  a.Perm ((sortedMembers s).map fun i => getT instances (i : Nat))

section Bits

variable {instances} {state : Word}

def setBits (state : Word) : List Nat := (List.range 64).filter fun bit => state.getLsbD bit

theorem mem_setBits {bit : Nat} : bit ∈ setBits state ↔ state.getLsbD bit = true := by
  rw [setBits, mem_filter, mem_range]
  exact ⟨fun h => h.2, fun h => ⟨BitVec.lt_of_getLsbD h, h⟩⟩

theorem bitCount_eq (state : Word) : bitCount state = (setBits state).length := by
  rw [bitCount, countP_eq_length_filter, setBits]

theorem nodup_setBits (state : Word) : (setBits state).Nodup := nodup_range.filter _

theorem foldlM_storeBit_filter (bs : List Nat) (hbs : ∀ bit ∈ bs, bit < 64) :
    ∀ s : Locals T, bs.foldlM (storeBit instances state) s =
      (bs.filter fun bit => state.getLsbD bit).foldlM (storeClass instances) s := by
  induction bs with
  | nil => exact fun _ => rfl
  | cons bit bs ih =>
    intro s
    have hmask := and_one_shiftLeft_eq_iff state (hbs bit mem_cons_self)
    have ih := ih fun bit' hbit' => hbs bit' (mem_cons_of_mem bit hbit')
    rw [foldlM_cons, storeBit, filter_cons]
    simp only [hmask]
    split_ifs with hset
    · congr 1
      funext s'
      exact ih s'
    · exact ih s

theorem foldlM_storeBit (s : Locals T) :
    (List.range 64).foldlM (storeBit instances state) s =
      (setBits state).foldlM (storeClass instances) s :=
  foldlM_storeBit_filter _ (fun _ hbit => mem_range.mp hbit) s

/-- The class at a place of the array has its index in the word of that place. -/
def Owned (instances : List T) (a : List (Option T)) : Prop :=
  ∀ p t, a[p]? = some (some t) → ∃ bit < 64, getT instances (p * 64 + bit : Nat) = some t

theorem Owned.foldlM_storeClass (bs : List Nat) (hbs : ∀ bit ∈ bs, bit < 64) :
    ∀ s s' : Locals T, Owned instances s.1 → bs.foldlM (storeClass instances) s = .ok s' →
      Owned instances s'.1 ∧ s'.2 = s.2 + bs.length := by
  induction bs with
  | nil =>
    intro s s' howned h
    cases h
    exact ⟨howned, rfl⟩
  | cons bit bs ih =>
    intro s s' howned h
    rw [foldlM_cons, storeClass, store] at h
    split_ifs at h with hbound
    · have howned' : Owned instances
          (s.1.set s.2 (getT instances (s.2 * 64 + bit : Nat))) := by
        intro p t hp
        rw [getElem?_set] at hp
        split_ifs at hp with heq hlt
        · rw [Option.some.injEq] at hp
          exact ⟨bit, hbs bit mem_cons_self, heq ▸ hp⟩
        · exact howned p t hp
      obtain ⟨hres, hidx⟩ := ih (fun bit' hbit' => hbs bit' (mem_cons_of_mem bit hbit'))
        _ s' howned' h
      refine ⟨hres, ?_⟩
      rw [length_cons]
      omega
    · cases h

end Bits

section Array

variable {instances} {s : BitSet}

variable {bits : List Word} {st : Locals T}

theorem arrayTurn_goesOn {st' : Locals T} (h : arrayTurn instances bits st = .goesOn st') :
    ∃ state, bits[st.2]? = some state ∧
      (setBits state).foldlM (storeClass instances) st = .ok st' := by
  rw [arrayTurn] at h
  split at h
  · cases h
  · next state hst =>
      rw [foldlM_storeBit] at h
      split at h
      · next st₁ hstore =>
          cases h
          exact ⟨state, hst, hstore⟩
      · cases h

variable {a : List (Option T)}

theorem arrayTurn_ends_ok (h : arrayTurn instances bits st = .ends (.ok a)) :
    bits.length ≤ st.2 ∧ a = st.1 := by
  rw [arrayTurn] at h
  split at h
  · next hnone =>
      cases h
      exact ⟨List.getElem?_eq_none_iff.mp hnone, rfl⟩
  · split at h
    · cases h
    · cases h

theorem owned_of_run (turns : Nat) :
    ∀ st : Locals T, run (arrayTurn instances bits) turns st = some (.ok a) →
      Owned instances st.1 →
      Owned instances a ∧ ((∀ state ∈ bits, (setBits state).length ≤ 1) →
        ∀ p state, st.2 ≤ p → bits[p]? = some state → setBits state ≠ []) := by
  induction turns with
  | zero =>
    intro st hrun
    cases hrun
  | succ turns ih =>
    intro st hrun howned
    cases hturn : arrayTurn instances bits st with
    | goesOn st' =>
      rw [run_goesOn hturn] at hrun
      obtain ⟨state, hst, hstore⟩ := arrayTurn_goesOn hturn
      obtain ⟨howned', hidx⟩ := Owned.foldlM_storeClass (setBits state)
        (fun bit hbit => BitVec.lt_of_getLsbD (mem_setBits.mp hbit)) st st' howned hstore
      obtain ⟨hres, hwords⟩ := ih st' hrun howned'
      refine ⟨hres, ?_⟩
      intro hone p state' hp hst'
      rcases Nat.lt_or_eq_of_le hp with hlt | rfl
      · have hle := hone state (mem_of_getElem? hst)
        exact hwords hone p state' (by omega) hst'
      · rw [hst, Option.some.injEq] at hst'
        subst hst'
        intro hnil
        rw [hnil] at hidx
        exact hwords hone st.2 state hidx.le hst hnil
    | ends result =>
      rw [run_ends hturn, Option.some.injEq] at hrun
      rw [hrun] at hturn
      obtain ⟨hlen, rfl⟩ := arrayTurn_ends_ok hturn
      refine ⟨howned, ?_⟩
      intro _ p state hp hst
      have := (List.getElem?_eq_some_iff.mp hst).1
      omega

theorem getT_eq_some {i : Nat} {t : T} (h : getT instances i = some t) :
    ∃ hi : i < instances.length, instances[i] = t := by
  rw [getT] at h
  split_ifs at h with hi
  exact List.getElem?_eq_some_iff.mp h

variable {state : Word}

theorem mem_members_of_setBits {n bit : Nat} (hst : s.bits[n]? = some state)
    (hbit : bit ∈ setBits state) : n * 64 + bit ∈ members s.bits := by
  have hset := mem_setBits.mp hbit
  rw [Nat.mul_comm, mem_members_iff (BitVec.lt_of_getLsbD hset), word_eq_of_getElem? hst]
  exact hset

theorem getElem?_of_holdsMembers (hs : Registered s instances) (howned : Owned instances a)
    (hmembers : HoldsMembers instances s a) {n bit : Nat} (hst : s.bits[n]? = some state)
    (hbit : bit ∈ setBits state) :
    a[n]? = some (getT instances (n * 64 + bit : Nat)) := by
  have hmem := mem_members_of_setBits hst hbit
  have hlt : bit < 64 := BitVec.lt_of_getLsbD (mem_setBits.mp hbit)
  have hin : getT instances (n * 64 + bit : Nat) ∈ a := by
    apply hmembers.mem_iff.mpr
    exact mem_map.mpr ⟨_, mem_membersFrom.mpr ⟨Nat.zero_le _, hmem⟩, rfl⟩
  obtain ⟨p, hp⟩ := getElem?_of_mem hin
  rw [getT_eq (hs.lt _ hmem)] at hp ⊢
  obtain ⟨bit', hbit', hget⟩ := howned p _ hp
  obtain ⟨hlt', heq⟩ := getT_eq_some hget
  have hidx := hs.nodup.getElem_inj_iff.mp heq
  obtain rfl : p = n := by omega
  exact hp

theorem length_setBits_le (hs : Registered s instances) (howned : Owned instances a)
    (hmembers : HoldsMembers instances s a) (hst : state ∈ s.bits) :
    (setBits state).length ≤ 1 := by
  obtain ⟨n, hn⟩ := getElem?_of_mem hst
  by_contra hlarge
  rcases hbits : setBits state with _ | ⟨b₁, _ | ⟨b₂, rest⟩⟩
  · rw [hbits] at hlarge
    exact hlarge (Nat.zero_le 1)
  · rw [hbits] at hlarge
    exact hlarge le_rfl
  · have h₁ : b₁ ∈ setBits state := by simp [hbits]
    have h₂ : b₂ ∈ setBits state := by simp [hbits]
    have hsame := getElem?_of_holdsMembers hs howned hmembers hn h₁
    rw [getElem?_of_holdsMembers hs howned hmembers hn h₂, Option.some.injEq] at hsame
    have heq := getT_inj hs (mem_members_of_setBits hn h₂) (mem_members_of_setBits hn h₁) hsame
    have hnd := nodup_setBits state
    rw [hbits, nodup_cons] at hnd
    obtain rfl : b₁ = b₂ := by omega
    exact hnd.1 mem_cons_self

def onlyBit (state : Word) : Nat := (setBits state).headD 0

theorem setBits_eq_singleton (h : bitCount state = 1) :
    setBits state = [onlyBit state] := by
  rw [bitCount_eq] at h
  obtain ⟨bit, hbit⟩ := length_eq_one_iff.mp h
  rw [onlyBit, hbit]
  rfl

theorem size_of_bitCount_eq_one (h : ∀ state ∈ bits, bitCount state = 1) :
    WordSet.size bits = bits.length := by
  induction bits with
  | nil => rfl
  | cons state bits ih =>
    have hrest := ih fun state' hst' => h state' (mem_cons_of_mem state hst')
    rw [WordSet.size, map_cons, sum_cons, h state mem_cons_self, ← WordSet.size,
      hrest, length_cons, Nat.add_comm]

theorem toArray_of_bitCount_eq_one (h : ∀ state ∈ s.bits, bitCount state = 1) :
    ∃ a, ToArray instances s (.ok a) ∧ a.length = s.bits.length ∧
      ∀ p state, s.bits[p]? = some state →
        a[p]? = some (getT instances (p * 64 + onlyBit state : Nat)) := by
  have hturn : ∀ bound (st : Locals T), (st.2 + bound = s.bits.length ∧
        st.1.length = s.bits.length ∧ ∀ p < st.2, ∀ state, s.bits[p]? = some state →
          st.1[p]? = some (getT instances (p * 64 + onlyBit state : Nat))) →
      (∃ result, arrayTurn instances s.bits st = .ends result ∧
        ∃ a, result = .ok a ∧ a.length = s.bits.length ∧ ∀ p state, s.bits[p]? = some state →
          a[p]? = some (getT instances (p * 64 + onlyBit state : Nat))) ∨
      ∃ bound' st', arrayTurn instances s.bits st = .goesOn st' ∧ bound' < bound ∧
        st'.2 + bound' = s.bits.length ∧ st'.1.length = s.bits.length ∧
        ∀ p < st'.2, ∀ state, s.bits[p]? = some state →
          st'.1[p]? = some (getT instances (p * 64 + onlyBit state : Nat)) := by
    rintro bound ⟨a, index⟩ ⟨hbound, hlen, hplaces⟩
    dsimp only at hbound hlen hplaces
    rcases Nat.lt_or_ge index s.bits.length with hlt | hge
    · have hst := getElem?_eq_getElem hlt
      generalize s.bits[index] = state at hst
      have hone := setBits_eq_singleton (h state (mem_of_getElem? hst))
      refine .inr ⟨bound - 1, (a.set index (getT instances (index * 64 + onlyBit state : Nat)),
        index + 1), ?_, by omega, by dsimp only; omega, by simpa using hlen, ?_⟩
      · rw [arrayTurn, hst]
        dsimp only
        rw [foldlM_storeBit, hone, foldlM_cons, storeClass,
          store_eq_set _ (by rwa [hlen])]
        rfl
      · intro p hp state' hst'
        rw [getElem?_set]
        split_ifs with heq hin
        · rw [← heq, hst, Option.some.injEq] at hst'
          rw [← heq, hst']
        · omega
        · exact hplaces p (by omega) state' hst'
    · refine .inl ⟨.ok a, ?_, a, rfl, hlen, ?_⟩
      · rw [arrayTurn, getElem?_eq_none hge]
      · intro p state hst
        exact hplaces p ((List.getElem?_eq_some_iff.mp hst).1.trans_le hge) state hst
  have hsize : s.size = s.bits.length := size_of_bitCount_eq_one h
  obtain ⟨result, hends, a, rfl, ha⟩ := ends_of_bound hturn s.bits.length
    (List.replicate s.size none, 0) ⟨Nat.zero_add _, by rw [length_replicate, hsize],
      fun p hp => absurd hp (Nat.not_lt_zero p)⟩
  exact ⟨a, hends, ha⟩

theorem sortedMembers_perm (h : ∀ state ∈ s.bits, bitCount state = 1) :
    ((List.range s.bits.length).map fun p => p * 64 + onlyBit (word s.bits p)).Perm
      (sortedMembers s) := by
  have hword : ∀ p < s.bits.length, setBits (word s.bits p) = [onlyBit (word s.bits p)] := by
    intro p hp
    rw [word_eq_of_getElem? (getElem?_eq_getElem hp)]
    exact setBits_eq_singleton (h _ (getElem_mem hp))
  have hbit : ∀ p < s.bits.length, onlyBit (word s.bits p) < 64 := by
    intro p hp
    have hmem : onlyBit (word s.bits p) ∈ setBits (word s.bits p) := by
      rw [hword p hp]
      exact mem_singleton_self _
    exact BitVec.lt_of_getLsbD (mem_setBits.mp hmem)
  apply (perm_ext_iff_of_nodup ?_ (nodup_membersFrom 0)).mpr
  · intro i
    rw [mem_membersFrom, mem_map]
    constructor
    · rintro ⟨p, hp, rfl⟩
      have hp := mem_range.mp hp
      refine ⟨Nat.zero_le _, ?_⟩
      rw [Nat.mul_comm, mem_members_iff (hbit p hp), ← mem_setBits, hword p hp]
      exact mem_singleton_self _
    · rintro ⟨-, hmem⟩
      have hlt := div_lt_of_mem hmem
      refine ⟨i / 64, mem_range.mpr hlt, ?_⟩
      rw [mem_members, ← mem_setBits, hword _ hlt, mem_singleton] at hmem
      omega
  · apply List.Nodup.map_on _ nodup_range
    intro p hp p' hp' heq
    have := hbit p (mem_range.mp hp)
    have := hbit p' (mem_range.mp hp')
    omega

theorem toArray_iff (hs : Registered s instances) :
    (∃ a, ToArray instances s (.ok a) ∧ HoldsMembers instances s a) ↔
      ∀ state ∈ s.bits, bitCount state = 1 := by
  constructor
  · rintro ⟨a, ⟨turns, hrun⟩, hmembers⟩
    have hemp : Owned instances (List.replicate s.size (none : Option T)) := by
      intro p t hp
      have := eq_of_mem_replicate (mem_of_getElem? hp)
      cases this
    obtain ⟨howned, hwords⟩ := owned_of_run turns _ hrun hemp
    have hle : ∀ state ∈ s.bits, (setBits state).length ≤ 1 := fun _ hst =>
      length_setBits_le hs howned hmembers hst
    intro state hst
    obtain ⟨n, hn⟩ := getElem?_of_mem hst
    have hne := hwords hle n state (Nat.zero_le n) hn
    have hpos := length_pos_iff.mpr hne
    have := hle state hst
    rw [bitCount_eq]
    omega
  · intro h
    obtain ⟨a, hends, hlen, hplaces⟩ := @toArray_of_bitCount_eq_one T instances s h
    refine ⟨a, hends, ?_⟩
    have ha : a = ((List.range s.bits.length).map fun p =>
        p * 64 + onlyBit (word s.bits p)).map fun i => getT instances (i : Nat) := by
      apply ext_getElem?
      intro p
      rw [getElem?_map, getElem?_map]
      rcases Nat.lt_or_ge p s.bits.length with hlt | hge
      · rw [List.getElem?_range hlt, hplaces p _ (getElem?_eq_getElem hlt),
          ← word_eq_of_getElem? (getElem?_eq_getElem hlt)]
        rfl
      · rw [getElem?_eq_none (by omega),
          getElem?_eq_none (by rw [length_range]; exact hge)]
        rfl
    rw [ha]
    exact (sortedMembers_perm h).map _

end Array

/-- The enumerations of a set are right in these cases: the iterator, if it is used in turn, and the
array, if every word has one member. -/
theorem enumeration_iff (s : BitSet) (instances : List T) (hs : Registered s instances)
    (calls : List IteratorCall) :
    (Agrees s instances calls .start (sortedMembers s) ↔ UsedInTurn s calls) ∧
      ((∃ a, ToArray instances s (.ok a) ∧ HoldsMembers instances s a) ↔
        ∀ state ∈ s.bits, bitCount state = 1) :=
  ⟨agrees_start_iff hs calls, toArray_iff hs⟩

/-- The set of two members whose indices are `0` and `1`. -/
def pair : BitSet := ⟨[3]⟩

theorem registered_pair : Registered pair [10, 20] where
  nodup := by decide
  lt := by
    intro i hi
    have hmem : i ∈ sortedMembers pair := mem_membersFrom.mpr ⟨Nat.zero_le i, hi⟩
    have hmembers : sortedMembers pair = [0, 1] := by decide +kernel
    rw [hmembers] at hmem
    rcases mem_pair.mp hmem with rfl | rfl <;> decide
  instances_lt := by decide
  bits_lt := by decide

/-- A second call of `hasNext` skips a member. -/
theorem not_agrees_hasNext_twice :
    ¬ Agrees pair [10, 20] [.hasNext, .hasNext, .next] .start (sortedMembers pair) := by
  intro h
  have hreplies : replies pair.bits [10, 20] [.hasNext, .hasNext, .next] .start =
      .ok [.more true, .more true, .item (some 20)] := by
    decide +kernel
  rw [Agrees, hreplies] at h
  revert h
  decide +kernel

theorem agrees_in_turn :
    Registered pair [10, 20] ∧
      Agrees pair [10, 20] [.hasNext, .next, .hasNext, .next, .hasNext] .start
        (sortedMembers pair) := by
  have hmembers : sortedMembers pair = [0, 1] := by decide +kernel
  refine ⟨registered_pair, (enumeration_iff pair [10, 20] registered_pair _).1.mpr ?_⟩
  rw [UsedInTurn, hmembers]
  exact .inr ⟨2, 1, rfl, .inr ⟨rfl, .inr (by decide)⟩⟩

end OpenJfx.Css.StyleClassSet
