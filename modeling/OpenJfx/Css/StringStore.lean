import OpenJfx.Java.DataStream
import OpenJfx.Java.HashMap

namespace OpenJfx.Css

open Data Java Java.DataStream List

/-- The strings in the order in which they have been added, and the index of each of them. -/
structure StringStore where
  stringMap : HashMap (Option String) Nat
  strings : List (Option String)
  get_eq_some_iff : ∀ s index, stringMap.get s = some index ↔ strings[index]? = some s

namespace StringStore

def new : StringStore := ⟨.empty, [], fun _ _ => by simp⟩

variable {store : StringStore}

theorem not_mem_of_get_eq_none {s : Option String} (h : store.stringMap.get s = none) :
    s ∉ store.strings := by
  intro hmem
  rcases mem_iff_getElem?.mp hmem with ⟨index, hidx⟩
  rw [(store.get_eq_some_iff s index).mpr hidx] at h
  cases h

theorem get_put_iff {s : Option String} (h : store.stringMap.get s = none) (s' : Option String)
    (index : Nat) :
    (store.stringMap.put s store.strings.length).get s' = some index ↔
      (store.strings ++ [s])[index]? = some s' := by
  have hmem := not_mem_of_get_eq_none h
  rw [HashMap.get_put]
  rcases Nat.lt_trichotomy index store.strings.length with hlt | rfl | hgt
  · rw [getElem?_append_left hlt]
    split
    · next heq =>
        subst heq
        refine iff_of_false (fun hsome => ?_) fun hsome => hmem (mem_of_getElem? hsome)
        exact Nat.ne_of_gt hlt (Option.some.inj hsome)
    · exact store.get_eq_some_iff s' index
  · rw [getElem?_concat_length]
    split
    · next heq => exact iff_of_true rfl (congrArg some heq.symm)
    · next hne =>
        refine iff_of_false (fun hsome => ?_) fun hsome => hne (Option.some.inj hsome).symm
        have hlt := List.getElem?_eq_some_iff.mp ((store.get_eq_some_iff s' _).mp hsome)
        exact Nat.lt_irrefl _ hlt.1
  · have hnone : (store.strings ++ [s])[index]? = none := by
      rw [List.getElem?_eq_none_iff, length_append]
      exact hgt
    rw [hnone]
    refine iff_of_false ?_ nofun
    split
    · exact fun hsome => Nat.ne_of_lt hgt (Option.some.inj hsome)
    · intro hsome
      have hlt := List.getElem?_eq_some_iff.mp ((store.get_eq_some_iff s' _).mp hsome)
      exact Nat.lt_asymm hgt hlt.1

def addString (store : StringStore) (s : Option String) : Nat × StringStore :=
  match h : store.stringMap.get s with
  | some index => (index, store)
  | none =>
    (store.strings.length,
      ⟨store.stringMap.put s store.strings.length, store.strings ++ [s], get_put_iff h⟩)

theorem addString_strings (store : StringStore) (s : Option String) :
    store.strings <+: (store.addString s).2.strings ∧
      (store.addString s).2.strings[(store.addString s).1]? = some s := by
  unfold addString
  split
  · next index h => exact ⟨prefix_refl _, (store.get_eq_some_iff s index).mp h⟩
  · exact ⟨prefix_append _ _, getElem?_concat_length⟩

def writeStrings : List (Option String) → Except Thrown (List UInt8)
  | [] => .ok []
  | none :: strings => writeStrings strings
  | some s :: strings => do
    let bytes ← writeUTF s
    let bytes' ← writeStrings strings
    pure (bytes ++ bytes')

/-- `writeBinary(os)`. The index of `null` is `-1` if it is not among the strings. -/
def writeBinary (store : StringStore) : Except Thrown (List UInt8) := do
  let nullIndex := (store.stringMap.get none).getD 65535
  let bytes ← writeStrings store.strings
  pure (writeShort store.strings.length ++ (writeShort nullIndex ++ bytes))

/-- The loop of `readBinary(is)` from `n` on. -/
def readStrings (nullIndex : Int) : Nat → Nat → Decoder Thrown (List (Option String))
  | 0, _ => pure []
  | count + 1, n => do
    let s ← if (n : Int) = nullIndex then pure none else some <$> readUTF
    let strings ← readStrings nullIndex count (n + 1)
    pure (s :: strings)

def readBinary : Decoder Thrown (List (Option String)) := do
  let nStrings ← readShort
  let nullIndex ← readShort
  if nStrings < 0 then throw .negativeArraySize
  readStrings nullIndex nStrings.toNat 0

theorem restores_strings {nullIndex : Int} {strings : List (Option String)} {bytes : List UInt8}
    (hwrite : writeStrings strings = .ok bytes) {n : Nat}
    (hnull : ∀ i s, strings[i]? = some s → (s = none ↔ ((n + i : Nat) : Int) = nullIndex)) :
    Restores (readStrings nullIndex strings.length n) bytes strings := by
  induction strings generalizing bytes n with
  | nil =>
    cases hwrite
    exact .pure []
  | cons s strings ih =>
    have htail : ∀ i s', strings[i]? = some s' →
        (s' = none ↔ ((n + 1 + i : Nat) : Int) = nullIndex) := by
      intro i s' hs'
      rw [hnull (i + 1) s' hs', Nat.add_assoc, Nat.add_comm 1 i]
    have hhead : s = none ↔ (n : Int) = nullIndex := hnull 0 s rfl
    rcases s with _ | s
    · have hstep := (ih hwrite htail).bind_pure (none :: ·)
      rw [length_cons, readStrings, if_pos (hhead.mp rfl)]
      exact hstep
    · rw [writeStrings] at hwrite
      rcases hs : writeUTF s with err | front
      · rw [hs] at hwrite
        cases hwrite
      · rw [hs] at hwrite
        rcases hback : writeStrings strings with err | back
        · rw [hback] at hwrite
          cases hwrite
        · rw [hback] at hwrite
          cases hwrite
          rw [length_cons, readStrings, if_neg fun hn => nomatch hhead.mpr hn]
          exact ((restores_utf hs).map some).bind ((ih hback htail).bind_pure (some s :: ·))

theorem restores_minus_one : Restores readShort (writeShort 65535) (-1) := by
  have hrest := (restores_bigEndian Thrown.eof 2 65535).map (signed 2)
  exact hrest

theorem restores_writeBinary {bytes : List UInt8} (hwrite : store.writeBinary = .ok bytes)
    (hlen : store.strings.length < 32768) :
    Restores readBinary bytes store.strings := by
  unfold writeBinary at hwrite
  rcases hstrs : writeStrings store.strings with err | body
  · rw [hstrs] at hwrite
    cases hwrite
  · rw [hstrs] at hwrite
    cases hwrite
    have hbody : ∀ nullIndex : Int,
        (∀ (i : Nat) s, store.strings[i]? = some s → (s = none ↔ (i : Int) = nullIndex)) →
        Restores (do
          if (store.strings.length : Int) < 0 then throw .negativeArraySize
          readStrings nullIndex (store.strings.length : Int).toNat 0) body store.strings := by
      intro nullIndex hnull
      refine restores_strings hstrs fun i s hs => ?_
      rw [Nat.zero_add]
      exact hnull i s hs
    refine (restores_short hlen).bind ?_
    rcases hnone : store.stringMap.get none with _ | index
    · refine restores_minus_one.bind (hbody (-1) fun i s hs => ?_)
      refine iff_of_false (fun heq => ?_) (by omega)
      rw [heq, ← store.get_eq_some_iff, hnone] at hs
      cases hs
    · have hidx := (store.get_eq_some_iff none index).mp hnone
      have hlt : index < store.strings.length := (List.getElem?_eq_some_iff.mp hidx).1
      refine (restores_short (Nat.lt_trans hlt hlen)).bind (hbody index fun i s hs => ?_)
      constructor
      · intro heq
        rw [heq, ← store.get_eq_some_iff, hnone] at hs
        exact congrArg Nat.cast (Option.some.inj hs).symm
      · intro heq
        rw [Int.natCast_inj.mp heq, hidx] at hs
        exact (Option.some.inj hs).symm

end StringStore

/-- The element of the array `strings` at an index that has been read. -/
def stringAt (strings : List (Option String)) (index : Int) : Except Thrown (Option String) :=
  if index < 0 then .error .indexOutOfBounds
  else
    match strings[index.toNat]? with
    | some s => .ok s
    | none => .error .indexOutOfBounds

def writeString (write : Nat → List UInt8) (s : Option String) : Encoder StringStore Thrown :=
  fun store => .ok (write (store.addString s).1, (store.addString s).2)

def readString (read : Decoder Thrown Int) (strings : List (Option String)) :
    Decoder Thrown (Option String) := do
  let index ← read
  let s ← stringAt strings index
  pure s

/-- The array of strings holds those of the store and is not longer than a `short` can tell. -/
structure Knows (store : StringStore) (strings : List (Option String)) : Prop where
  holds : store.strings <+: strings
  length_lt : strings.length < 32768

theorem writeString_index {write : Nat → List UInt8} {s : Option String}
    {store store' : StringStore}
    {bytes : List UInt8} (hw : writeString write s store = .ok (bytes, store'))
    {strings : List (Option String)} (hknows : Knows store' strings) :
    Knows store strings ∧ ∃ index : Nat, index < strings.length ∧ bytes = write index ∧
      stringAt strings index = .ok s := by
  cases hw
  rcases store.addString_strings s with ⟨hstrs, hidx⟩
  have hat : strings[(store.addString s).1]? = some s := by
    rcases List.getElem?_eq_some_iff.mp hidx with ⟨hlt, heq⟩
    rw [prefix_iff_getElem?.mp hknows.holds _ hlt, heq]
  refine ⟨⟨hstrs.trans hknows.holds, hknows.length_lt⟩, (store.addString s).1,
    (List.getElem?_eq_some_iff.mp hat).1, rfl, ?_⟩
  rw [stringAt, if_neg (by omega), Int.toNat_natCast, hat]

theorem codes_string {write : Nat → List UInt8} {read : Decoder Thrown Int}
    (h : ∀ n < 32768, Restores read (write n) n) (s : Option String) :
    Codes Knows (writeString write s) (readString read) s := by
  intro store bytes store' hw strings hknows
  rcases writeString_index hw hknows with ⟨hknows', index, hlt, rfl, hat⟩
  refine ⟨hknows', fun rest => ?_⟩
  change (read (write index ++ rest) >>= fun p =>
    stringAt strings p.1 >>= fun s => .ok (s, p.2)) = _
  rw [h index (Nat.lt_trans hlt hknows.length_lt)]
  change (stringAt strings index >>= fun s => .ok (s, rest)) = _
  rw [hat]
  rfl

end OpenJfx.Css
