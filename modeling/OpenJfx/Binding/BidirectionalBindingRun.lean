import OpenJfx.Binding.BidirectionalBinding

namespace OpenJfx.Binding.BidirectionalBinding

open Java.Arrays Binding.ListenerArray Binding.ListenerHelper Binding.Notification List

variable {P : Type}

namespace Connected

variable {pairs : List (Sym2 P)} {p q r : P}

theorem refl (p : P) : Connected pairs p p :=
  Relation.EqvGen.refl p

theorem trans (h : Connected pairs p q) (h' : Connected pairs q r) : Connected pairs p r :=
  Relation.EqvGen.trans _ _ _ h h'

theorem of_mem (h : s(p, q) ∈ pairs) : Connected pairs p q :=
  Relation.EqvGen.rel _ _ h

theorem eq_of_forall {α : Type} {f : P → α} (hpairs : ∀ p q, s(p, q) ∈ pairs → f p = f q)
    (h : Connected pairs p q) : f p = f q := by
  induction h with
  | rel p q hmem => exact hpairs p q hmem
  | refl p => rfl
  | symm p q _ ih => exact ih.symm
  | trans p q r _ _ ihpq ihqr => exact ihpq.trans ihqr

end Connected

namespace BidirectionalIntegerBinding

def ends (b : BidirectionalIntegerBinding P) : List P := [b.property1, b.property2]

def pair (b : BidirectionalIntegerBinding P) : Sym2 P := s(b.property1, b.property2)

theorem mem_ends {b : BidirectionalIntegerBinding P} {p : P} :
    p ∈ b.ends ↔ p = b.property1 ∨ p = b.property2 := by
  simp [ends]

theorem connected {bs : List (BidirectionalIntegerBinding P)} {b : BidirectionalIntegerBinding P}
    {p q : P} (hb : b ∈ bs) (hp : p ∈ b.ends) (hq : q ∈ b.ends) :
    Connected (bs.map pair) p q := by
  have hends : Connected (bs.map pair) b.property1 b.property2 :=
    .of_mem (mem_map.mpr ⟨b, hb, rfl⟩)
  rcases mem_ends.mp hp with rfl | rfl
  · rcases mem_ends.mp hq with rfl | rfl
    · exact .refl _
    · exact hends
  · rcases mem_ends.mp hq with rfl | rfl
    · exact Relation.EqvGen.symm _ _ hends
    · exact .refl _

end BidirectionalIntegerBinding

def IntegerProperty.Ready (x : IntegerProperty P) : Prop :=
  match x.helper with
  | .null => True
  | .singleInvalidation _ => True
  | .singleChange _ currentValue => x.valid = true ∧ currentValue = some x.value
  | .generic g => 0 < g.change.size → x.valid = true ∧ g.currentValue = some x.value

theorem represents_setLocked {helper : Helper Empty (BidirectionalIntegerBinding P) Int32}
    {is : List Empty} {cs : List (BidirectionalIntegerBinding P)} (h : helper.Represents is cs)
    (locked : Bool) : (helper.setLocked locked).Represents is cs := by
  cases helper <;> exact h

theorem IntegerProperty.Ready.setLocked {x : IntegerProperty P} (h : x.Ready) (locked : Bool) :
    IntegerProperty.Ready { x with helper := x.helper.setLocked locked } := by
  rcases x with ⟨value, valid, helper⟩
  cases helper <;> exact h

theorem IntegerProperty.Ready.validated {x : IntegerProperty P} (h : x.Ready) :
    IntegerProperty.Ready { x with valid := true } := by
  rcases x with ⟨value, valid, _ | _ | _ | g⟩
  · trivial
  · trivial
  · exact ⟨rfl, h.2⟩
  · exact fun hpos => ⟨rfl, (h hpos).2⟩

variable [DecidableEq P]

/-- The bindings in force at a property, the oldest first. -/
def bindingsOf (bs : List (BidirectionalIntegerBinding P)) (p : P) :
    List (BidirectionalIntegerBinding P) :=
  bs.filter fun b => p ∈ b.ends

theorem mem_bindingsOf {bs : List (BidirectionalIntegerBinding P)}
    {b : BidirectionalIntegerBinding P} {p : P} :
    b ∈ bindingsOf bs p ↔ b ∈ bs ∧ p ∈ b.ends := by
  simp [bindingsOf]

namespace Store

variable {bs : List (BidirectionalIntegerBinding P)} {s s' s'' : Store P} {p q : P}

def value (s : Store P) (p : P) : Int32 := (s.properties p).value

/-- Each property has the bindings that tie it as its listeners. -/
structure Holds (bs : List (BidirectionalIntegerBinding P)) (s : Store P) : Prop where
  registered : ∀ p, (s.properties p).helper.Represents [] (bindingsOf bs p)
  ready : ∀ p, (s.properties p).Ready

/-- Nothing but the bookkeeping of the listeners differs. -/
structure Same (s s' : Store P) : Prop where
  value : ∀ q, s'.value q = s.value q
  updating : s'.updating = s.updating
  allocated : s'.allocated = s.allocated

omit [DecidableEq P] in
theorem Same.refl (s : Store P) : s.Same s := ⟨fun _ => rfl, rfl, rfl⟩

omit [DecidableEq P] in
theorem Same.trans (h : s.Same s') (h' : s'.Same s'') : s.Same s'' :=
  ⟨fun q => (h'.value q).trans (h.value q), h'.updating.trans h.updating,
    h'.allocated.trans h.allocated⟩

@[simp] theorem modify_self (change : IntegerProperty P → IntegerProperty P) :
    (s.modify p change).properties p = change (s.properties p) := by
  simp [modify]

theorem modify_of_ne (h : q ≠ p) (change : IntegerProperty P → IntegerProperty P) :
    (s.modify p change).properties q = s.properties q := by
  simp [modify, h]

variable {change : IntegerProperty P → IntegerProperty P}

theorem same_modify (h : (change (s.properties p)).value = (s.properties p).value) :
    s.Same (s.modify p change) := by
  refine ⟨fun q => ?_, rfl, rfl⟩
  by_cases hq : q = p
  · subst hq
    rw [value, modify_self, h, value]
  · rw [value, modify_of_ne hq, value]

theorem modify_modify (s : Store P) (p : P)
    (change change' : IntegerProperty P → IntegerProperty P) :
    (s.modify p change).modify p change' = s.modify p fun x => change' (change x) := by
  simp [modify]

theorem modify_eq {x : IntegerProperty P} (h : change (s.properties p) = x) :
    s.modify p change = s.modify p fun _ => x := by
  rw [modify, modify, h]

theorem Holds.modify
    (hreg : ∀ q, q ≠ p → (s.properties q).helper.Represents [] (bindingsOf bs q))
    (hready : ∀ q, q ≠ p → (s.properties q).Ready)
    (hreg' : (change (s.properties p)).helper.Represents [] (bindingsOf bs p))
    (hready' : (change (s.properties p)).Ready) : Holds bs (s.modify p change) := by
  constructor
  · intro q
    by_cases hq : q = p
    · subst hq
      rwa [modify_self]
    · rw [modify_of_ne hq]
      exact hreg q hq
  · intro q
    by_cases hq : q = p
    · subst hq
      rwa [modify_self]
    · rw [modify_of_ne hq]
      exact hready q hq

theorem Holds.setLocked (h : Holds bs s) (p : P) (locked : Bool) :
    Holds bs (s.setLocked p locked) ∧ s.Same (s.setLocked p locked) :=
  ⟨.modify (fun q _ => h.registered q) (fun q _ => h.ready q)
    (represents_setLocked (h.registered p) locked) ((h.ready p).setLocked locked), same_modify rfl⟩

theorem Holds.get (h : Holds bs s) (p : P) : Holds bs (s.get p).2 ∧ s.Same (s.get p).2 := by
  change Holds bs (s.modify p fun x => { x with valid := true }) ∧
    s.Same (s.modify p fun x => { x with valid := true })
  refine ⟨?_, same_modify rfl⟩
  exact .modify (fun q _ => h.registered q) (fun q _ => h.ready q) (h.registered p)
    (h.ready p).validated

theorem Holds.currentValue (h : Holds bs s) {b : BidirectionalIntegerBinding P} (hb : b ∈ bs)
    (hp : p ∈ b.ends) : s.currentValue p = some (s.value p) := by
  have hmem : b ∈ bindingsOf bs p := mem_bindingsOf.mpr ⟨hb, hp⟩
  have hreg := h.registered p
  have hready := h.ready p
  rw [IntegerProperty.Ready] at hready
  rw [Store.currentValue]
  rcases hhelp : (s.properties p).helper with _ | listener | _ | g <;> rw [hhelp] at hreg hready
  · rw [hreg.2] at hmem
    exact absurd hmem not_mem_nil
  · exact nomatch listener
  · exact hready.2
  · exact (hready (hreg.2.1 ▸ length_pos_of_mem hmem)).2

theorem Holds.of_same_properties (h : Holds bs s) (hproperties : s'.properties = s.properties) :
    Holds bs s' :=
  ⟨by rw [hproperties]; exact h.registered, by rw [hproperties]; exact h.ready⟩

end Store

section

variable (set : Store P → P → Int32 → Option (Store P))

omit [DecidableEq P] in
theorem listenerAt_append (ls : List (BidirectionalIntegerBinding P))
    (b : BidirectionalIntegerBinding P) (rest : List (Option (BidirectionalIntegerBinding P))) :
    listenerAt (ls.map some ++ some b :: rest) (ls.length : Int) = .ok b := by
  have hload := load_append (ls.map some) rest (some b)
  rw [length_map] at hload
  rw [listenerAt, hload, ok_bind]

theorem notifyChange_eq {l : Listeners (BidirectionalIntegerBinding P)}
    {ls : List (BidirectionalIntegerBinding P)} (h : l.Represents ls) (s : Store P) (p : P) :
    notifyChange set l s p = ls.foldlM (fun s b => b.notified set s p) s := by
  obtain ⟨hsize, harray⟩ := h
  have hslots : ∀ (ls : List (BidirectionalIntegerBinding P))
      (rest : List (Option (BidirectionalIntegerBinding P))),
      notifyChange set ⟨some (ls.map some ++ rest), ls.length⟩ s p =
        ls.foldlM (fun s b => b.notified set s p) s := by
    intro ls
    induction ls using List.reverseRecOn with
    | nil => exact fun _ => rfl
    | append_singleton ls b ih =>
      intro rest
      have hfront := ih (some b :: rest)
      rw [notifyChange] at hfront ⊢
      rw [length_append, length_singleton, range_succ, foldlM_append,
        foldlM_append, map_append, append_assoc]
      simp only [map_cons, map_nil, cons_append, nil_append, Option.getD_some] at hfront ⊢
      rw [hfront]
      simp only [foldlM_cons, foldlM_nil, listenerAt_append]
  rcases hl : l.array with _ | array
  · simp only [hl] at harray
    subst harray
    rw [notifyChange, hsize]
    rfl
  · simp only [hl] at harray
    obtain ⟨rest, rfl⟩ := harray
    rw [notifyChange, hsize, hl]
    exact hslots ls rest

/-- To set `p` to `v` notifies its bindings, with some bookkeeping before and after. -/
def Notifies (bs : List (BidirectionalIntegerBinding P)) (s : Store P) (p : P) (v : Int32) : Prop :=
  ∃ (s₁ : Store P) (finish : Store P → Store P),
    s₁.Holds bs ∧ (s.modify p fun x => { x with value := v }).Same s₁ ∧
    (∀ s', s'.Holds bs → (finish s').Holds bs ∧ s'.Same (finish s')) ∧
    markInvalid set (s.modify p fun x => { x with value := v }) p =
      ((bindingsOf bs p).foldlM (fun s (b : BidirectionalIntegerBinding P) =>
        b.notified set s p) s₁).map finish

theorem markInvalid_spec {bs : List (BidirectionalIntegerBinding P)} {s : Store P} {p : P}
    {v : Int32} (h : s.Holds bs) (hv : s.value p ≠ v) : Notifies set bs s p v := by
  have hreg := h.registered p
  have hready := h.ready p
  have hagain : ∀ x : IntegerProperty P, x.value = v →
      (s.modify p fun x => { x with value := v }).Same (s.modify p fun _ => x) := by
    intro x hx
    have hsame : (s.modify p fun x => { x with value := v }).Same
        ((s.modify p fun x => { x with value := v }).modify p fun _ => x) :=
      Store.same_modify (by rw [hx, Store.modify_self])
    rwa [Store.modify_modify] at hsame
  have hidle : ∀ valid helper, helper.Represents [] (bindingsOf bs p) → bindingsOf bs p = [] →
      IntegerProperty.Ready ⟨v, valid, helper⟩ →
      markInvalid set (s.modify p fun x => { x with value := v }) p =
        some (s.modify p fun _ => ⟨v, valid, helper⟩) → Notifies set bs s p v := by
    intro valid helper hrep hnil hready' hmark
    refine ⟨_, id, .modify (fun q _ => h.registered q) (fun q _ => h.ready q) hrep hready',
      hagain _ rfl, fun s' hs' => ⟨hs', .refl s'⟩, ?_⟩
    rw [hmark, hnil]
    rfl
  rw [IntegerProperty.Ready] at hready
  rcases hhelp : (s.properties p).helper with _ | listener | ⟨listener, currentValue⟩ | g
  · rw [hhelp] at hreg
    rcases hvalid : (s.properties p).valid with _ | _
    · refine hidle false .null hreg hreg.2 trivial ?_
      rw [Store.modify_eq (by rw [hvalid, hhelp])]
      simp [markInvalid]
    · refine hidle false .null hreg hreg.2 trivial ?_
      rw [Store.modify_eq (by rw [hvalid, hhelp])]
      simp [markInvalid, fireValueChangedEvent, Store.modify_modify]
  · exact nomatch listener
  · rw [hhelp] at hreg hready
    obtain ⟨-, hone⟩ := hreg
    obtain ⟨hvalid, hcur⟩ := hready
    refine ⟨s.modify p fun _ => ⟨v, true, .singleChange listener (some v)⟩, id, ?_, hagain _ rfl,
      ?_, ?_⟩
    · exact .modify (fun q _ => h.registered q) (fun q _ => h.ready q) ⟨rfl, hone⟩ ⟨rfl, rfl⟩
    · exact fun s' hs' => ⟨hs', .refl s'⟩
    · rw [Store.modify_eq (by rw [hvalid, hhelp]), hone]
      have hchanged : hasChanged currentValue v = true := by
        simpa [hasChanged, HelperClass.hasChanged, hcur, Store.value] using hv
      simp [markInvalid, fireValueChangedEvent, Store.modify_modify, Store.get,
        Store.setCurrentValue, hchanged]
  · rw [hhelp] at hreg hready
    obtain ⟨hnone, hchange⟩ := hreg
    rcases Nat.eq_zero_or_pos g.change.size with hzero | hpos
    · have hnil : bindingsOf bs p = [] :=
        eq_nil_of_length_eq_zero (hchange.1.symm.trans hzero)
      rcases hvalid : (s.properties p).valid with _ | _
      · refine hidle false (.generic g) ⟨hnone, hchange⟩ hnil ?_ ?_
        · exact fun hpos => absurd hzero hpos.ne'
        · rw [Store.modify_eq (by rw [hvalid, hhelp])]
          simp [markInvalid]
      · refine hidle false (.generic { g with locked := false }) ⟨hnone, hchange⟩ hnil ?_ ?_
        · exact fun hpos => absurd hzero hpos.ne'
        · rw [Store.modify_eq (by rw [hvalid, hhelp])]
          simp [markInvalid, fireValueChangedEvent, Store.modify_modify, hzero, Store.setLocked,
            Helper.setLocked]
    · obtain ⟨hvalid, hcur⟩ := hready hpos
      refine ⟨s.modify p fun _ => ⟨v, true, .generic ⟨g.invalidation, g.change, true, some v⟩⟩,
        fun s => s.setLocked p false, ?_, hagain _ rfl, fun s' hs' => hs'.setLocked p false, ?_⟩
      · exact .modify (fun q _ => h.registered q) (fun q _ => h.ready q) ⟨hnone, hchange⟩
          fun _ => ⟨rfl, rfl⟩
      · rw [Store.modify_eq (by rw [hvalid, hhelp]), ← notifyChange_eq set hchange]
        have hchanged : hasChanged g.currentValue v = true := by
          simpa [hasChanged, HelperClass.hasChanged, hcur, Store.value] using hv
        simp [markInvalid, fireValueChangedEvent, Store.modify_modify, Store.get, Store.setLocked,
          Helper.setLocked, Store.setCurrentValue, hchanged, hpos]

end

def BidirectionalIntegerBinding.Settled (v : Int32) (s : Store P)
    (b : BidirectionalIntegerBinding P) : Prop :=
  ∀ q ∈ b.ends, s.value q = v

structure Cascade (bs : List (BidirectionalIntegerBinding P)) (v : Int32) (p : P)
    (s s' : Store P) : Prop where
  holds : s'.Holds bs
  updating : s'.updating = s.updating
  allocated : s'.allocated = s.allocated
  values : ∀ q, s'.value q = s.value q ∨
    s'.value q = v ∧ Connected (bs.map BidirectionalIntegerBinding.pair) p q
  settled : ∀ q, s.value q ≠ v → s'.value q = v → ∀ b ∈ bs, q ∈ b.ends → b.Settled v s'

namespace Cascade

variable {bs : List (BidirectionalIntegerBinding P)} {v : Int32} {p q : P} {s s' s'' : Store P}

theorem refl (h : s.Holds bs) : Cascade bs v p s s :=
  ⟨h, rfl, rfl, fun _ => .inl rfl, fun _ hne heq => absurd heq hne⟩

theorem keeps (h : Cascade bs v p s s') (hq : s.value q = v) : s'.value q = v := by
  rcases h.values q with hsame | ⟨hv, -⟩
  · exact hsame.trans hq
  · exact hv

theorem keeps_settled (h : Cascade bs v p s s') {b : BidirectionalIntegerBinding P}
    (hb : b.Settled v s) : b.Settled v s' :=
  fun q hq => h.keeps (hb q hq)

theorem trans (h : Cascade bs v p s s') (h' : Cascade bs v p s' s'') : Cascade bs v p s s'' := by
  refine ⟨h'.holds, h'.updating.trans h.updating, h'.allocated.trans h.allocated, ?_, ?_⟩
  · intro q
    rcases h'.values q with hsame' | hchanged'
    · rw [hsame']
      exact h.values q
    · exact .inr hchanged'
  · intro q hne heq b hb hq
    by_cases hmid : s'.value q = v
    · exact h'.keeps_settled (h.settled q hne hmid b hb hq)
    · exact h'.settled q hmid heq b hb hq

theorem of_connected (hpq : Connected (bs.map BidirectionalIntegerBinding.pair) p q)
    (h : Cascade bs v q s s') : Cascade bs v p s s' :=
  ⟨h.holds, h.updating, h.allocated,
    fun r => (h.values r).imp_right fun hr => ⟨hr.1, hpq.trans hr.2⟩, h.settled⟩

end Cascade

/-- How many of the bindings are not handing a value on. -/
def free (bs : List (BidirectionalIntegerBinding P)) (s : Store P) : Nat :=
  bs.countP fun b => !s.updating b.identity

section

variable {bs : List (BidirectionalIntegerBinding P)} {v : Int32} {p : P} {s : Store P}
  {b : BidirectionalIntegerBinding P}

omit [DecidableEq P] in
theorem free_setUpdating_lt (hb : b ∈ bs) (hfree : s.updating b.identity = false) :
    free bs (s.setUpdating b true) < free bs s := by
  have hmono : ∀ ls : List (BidirectionalIntegerBinding P),
      free ls (s.setUpdating b true) ≤ free ls s := by
    intro ls
    refine countP_mono_left fun b' _ hb' => ?_
    by_cases heq : b'.identity = b.identity
    · rw [heq, hfree]
      rfl
    · simpa [Store.setUpdating, heq] using hb'
  obtain ⟨front, back, rfl⟩ := append_of_mem hb
  have hfront := hmono front
  have hback := hmono back
  rw [free, free] at hfront hback ⊢
  have hbusy : (s.setUpdating b true).updating b.identity = true := by simp [Store.setUpdating]
  rw [countP_append, countP_append, countP_cons_of_neg (by simp [hbusy]),
    countP_cons_of_pos (by simp [hfree])]
  omega

def Distinct (bs : List (BidirectionalIntegerBinding P)) : Prop :=
  ∀ b ∈ bs, ∀ b' ∈ bs, b.identity = b'.identity → b = b'

/-- `set` reaches all that is to be reached while less than `n` bindings are free. -/
def HandsOn (bs : List (BidirectionalIntegerBinding P)) (v : Int32) (n : Nat)
    (set : Store P → P → Int32 → Option (Store P)) : Prop :=
  ∀ s p, s.Holds bs →
    (∀ b ∈ bs, s.updating b.identity = true → ∀ q ∈ b.ends, q = p ∨ s.value q = v) →
    free bs s < n → ∃ s', set s p v = some s' ∧ Cascade bs v p s s' ∧ s'.value p = v

theorem ends_of_source (hp : p ∈ b.ends) :
    ∀ q ∈ b.ends, q = p ∨ q = if b.property1 = p then b.property2 else b.property1 := by
  intro q hq
  rcases BidirectionalIntegerBinding.mem_ends.mp hq with rfl | rfl
  · by_cases h : b.property1 = p
    · exact .inl h
    · exact .inr (if_neg h).symm
  · by_cases h : b.property1 = p
    · exact .inr (if_pos h).symm
    · exact .inl ((BidirectionalIntegerBinding.mem_ends.mp hp).resolve_left (Ne.symm h)).symm

theorem changed_spec {n : Nat} {set : Store P → P → Int32 → Option (Store P)}
    (hset : HandsOn bs v n set) (hdist : Distinct bs) (hb : b ∈ bs) (hp : p ∈ b.ends)
    (h : s.Holds bs) (hv : s.value p = v)
    (hbusy : ∀ b ∈ bs, s.updating b.identity = true → b.Settled v s) (hfuel : free bs s ≤ n) :
    ∃ s', b.changed set s p v = some s' ∧ Cascade bs v p s s' ∧ b.Settled v s' := by
  rcases hupdating : s.updating b.identity with _ | _
  · obtain ⟨q, hq⟩ : ∃ q, q = if b.property1 = p then b.property2 else b.property1 := ⟨_, rfl⟩
    have hends := ends_of_source hp
    rw [← hq] at hends
    have hqmem : q ∈ b.ends := by
      rw [hq, BidirectionalIntegerBinding.mem_ends]
      split
      · exact .inr rfl
      · exact .inl rfl
    have hbusy' : ∀ b' ∈ bs, (s.setUpdating b true).updating b'.identity = true →
        ∀ r ∈ b'.ends, r = q ∨ (s.setUpdating b true).value r = v := by
      intro b' hb' hupdating' r hr
      by_cases heq : b'.identity = b.identity
      · rw [hdist b' hb' b hb heq] at hr
        rcases hends r hr with rfl | rfl
        · exact .inr hv
        · exact .inl rfl
      · exact .inr (hbusy b' hb' (by simpa [Store.setUpdating, heq] using hupdating') r hr)
    obtain ⟨s', hrun, hcascade, hval⟩ := hset (s.setUpdating b true) q (h.of_same_properties rfl)
      hbusy' (Nat.lt_of_lt_of_le (free_setUpdating_lt hb hupdating) hfuel)
    have hrestored : (s'.setUpdating b false).updating = s.updating := by
      funext identity
      by_cases heq : identity = b.identity
      · simp [Store.setUpdating, heq, hupdating]
      · simp [Store.setUpdating, heq, hcascade.updating]
    refine ⟨s'.setUpdating b false, ?_, ?_, ?_⟩
    · simp [BidirectionalIntegerBinding.changed, hupdating, ← hq, hrun]
    · exact ⟨hcascade.holds.of_same_properties rfl, hrestored, hcascade.allocated,
        (hcascade.of_connected (BidirectionalIntegerBinding.connected hb hp hqmem)).values,
        hcascade.settled⟩
    · intro r hr
      rcases hends r hr with rfl | rfl
      · exact hcascade.keeps hv
      · exact hval
  · refine ⟨s, ?_, .refl h, hbusy b hb hupdating⟩
    simp [BidirectionalIntegerBinding.changed, hupdating]

theorem notify_spec {n : Nat} {set : Store P → P → Int32 → Option (Store P)}
    (hset : HandsOn bs v n set) (hdist : Distinct bs)
    (ls : List (BidirectionalIntegerBinding P)) (hls : ∀ b ∈ ls, b ∈ bs ∧ p ∈ b.ends)
    (h : s.Holds bs) (hv : s.value p = v)
    (hbusy : ∀ b ∈ bs, s.updating b.identity = true → b.Settled v s) (hfuel : free bs s ≤ n) :
    ∃ s', ls.foldlM (fun s (b : BidirectionalIntegerBinding P) => b.notified set s p) s = some s' ∧
      Cascade bs v p s s' ∧ ∀ b ∈ ls, b.Settled v s' := by
  induction ls generalizing s with
  | nil => exact ⟨s, rfl, .refl h, fun _ hb => nomatch hb⟩
  | cons b ls ih =>
    obtain ⟨hb, hp⟩ := hls b mem_cons_self
    obtain ⟨s₁, hchanged, hcascade, hsettled⟩ :=
      changed_spec hset hdist hb hp h hv hbusy hfuel
    have hbusy₁ : ∀ b ∈ bs, s₁.updating b.identity = true → b.Settled v s₁ := by
      intro b hb hupdating
      rw [hcascade.updating] at hupdating
      exact hcascade.keeps_settled (hbusy b hb hupdating)
    have hfuel₁ : free bs s₁ ≤ n := by
      rwa [free, hcascade.updating]
    obtain ⟨s₂, hrest, hcascade', hsettled'⟩ :=
      ih (fun b hb => hls b (mem_cons_of_mem _ hb)) hcascade.holds (hcascade.keeps hv) hbusy₁
        hfuel₁
    refine ⟨s₂, ?_, hcascade.trans hcascade', ?_⟩
    · rw [foldlM_cons, BidirectionalIntegerBinding.notified, h.currentValue hb hp, hv]
      dsimp only
      rw [hchanged]
      exact hrest
    · intro b' hb'
      rcases mem_cons.mp hb' with rfl | hb'
      · exact hcascade'.keeps_settled hsettled
      · exact hsettled' b' hb'

theorem set_handsOn (hdist : Distinct bs) (n : Nat) : HandsOn bs v n (set n) := by
  induction n with
  | zero => exact fun s p _ _ hfuel => absurd hfuel (Nat.not_lt_zero _)
  | succ n ih =>
    intro s p h hbusy hfuel
    by_cases hv : s.value p = v
    · exact ⟨s, if_neg (not_not.mpr hv), .refl h, hv⟩
    · obtain ⟨s₁, finish, h₁, hsame, hfinish, hmark⟩ := markInvalid_spec (set n) h hv
      have hp₁ : s₁.value p = v := by
        rw [hsame.value, Store.value, Store.modify_self]
      have hother : ∀ q, q ≠ p → s₁.value q = s.value q := by
        intro q hq
        rw [hsame.value, Store.value, Store.modify_of_ne hq, Store.value]
      have hbusy₁ : ∀ b ∈ bs, s₁.updating b.identity = true → b.Settled v s₁ := by
        intro b hb hupdating q hq
        rw [hsame.updating] at hupdating
        by_cases hqp : q = p
        · rw [hqp, hp₁]
        · rw [hother q hqp]
          exact (hbusy b hb hupdating q hq).resolve_left hqp
      have hfuel₁ : free bs s₁ ≤ n := by
        rw [free, hsame.updating]
        exact Nat.le_of_lt_succ hfuel
      obtain ⟨s₂, hloop, hcascade, hsettled⟩ := notify_spec ih hdist (bindingsOf bs p)
        (fun b hb => mem_bindingsOf.mp hb) h₁ hp₁ hbusy₁ hfuel₁
      obtain ⟨h₃, hsame₃⟩ := hfinish s₂ hcascade.holds
      refine ⟨finish s₂, ?_, ⟨h₃, ?_, ?_, ?_, ?_⟩, ?_⟩
      · rw [set, if_pos (show (s.properties p).value ≠ v from hv), hmark, hloop]
        rfl
      · rw [hsame₃.updating, hcascade.updating, hsame.updating]
        rfl
      · rw [hsame₃.allocated, hcascade.allocated, hsame.allocated]
        rfl
      · intro q
        rw [hsame₃.value]
        by_cases hqp : q = p
        · subst hqp
          exact .inr ⟨hcascade.keeps hp₁, .refl q⟩
        · rw [← hother q hqp]
          exact hcascade.values q
      · intro q hne heq b hb hq r hr
        rw [hsame₃.value] at heq ⊢
        by_cases hqp : q = p
        · subst hqp
          exact hsettled b (mem_bindingsOf.mpr ⟨hb, hq⟩) r hr
        · rw [← hother q hqp] at hne
          exact hcascade.settled q hne heq b hb hq r hr
      · rw [hsame₃.value]
        exact hcascade.keeps hp₁

structure Rests (bs : List (BidirectionalIntegerBinding P)) (s : Store P) : Prop where
  holds : s.Holds bs
  distinct : Distinct bs
  idle : ∀ identity, s.updating identity = false
  made : ∀ b ∈ bs, b.identity < s.allocated
  equal : ∀ b ∈ bs, s.value b.property1 = s.value b.property2

theorem set_spec {n : Nat} (h : Rests bs s) (hfuel : bs.length < n) :
    ∃ s', set n s p v = some s' ∧ Rests bs s' ∧ s'.value p = v ∧
      s'.allocated = s.allocated ∧
      ∀ q, s'.value q = s.value q ∨
        s'.value q = v ∧ Connected (bs.map BidirectionalIntegerBinding.pair) p q := by
  have hbusy : ∀ b ∈ bs, s.updating b.identity = true → ∀ q ∈ b.ends, q = p ∨ s.value q = v := by
    intro b _ hupdating
    rw [h.idle] at hupdating
    exact nomatch hupdating
  obtain ⟨s', hrun, hcascade, hval⟩ := set_handsOn h.distinct n s p h.holds hbusy
    (Nat.lt_of_le_of_lt countP_le_length hfuel)
  refine ⟨s', hrun, ⟨hcascade.holds, h.distinct, ?_, ?_, ?_⟩, hval, hcascade.allocated,
    hcascade.values⟩
  · intro identity
    rw [hcascade.updating]
    exact h.idle identity
  · rw [hcascade.allocated]
    exact h.made
  · intro b hb
    have hequal := h.equal b hb
    have hsettled : ∀ q ∈ b.ends, s'.value q = s.value q ∨ b.Settled v s' := by
      intro q hq
      rcases hcascade.values q with hsame | ⟨hv, -⟩
      · exact .inl hsame
      · by_cases hne : s.value q = v
        · exact .inl (hv.trans hne.symm)
        · exact .inr (hcascade.settled q hne hv b hb hq)
    have hmem₁ := BidirectionalIntegerBinding.mem_ends.mpr (.inl (rfl : b.property1 = _))
    have hmem₂ := BidirectionalIntegerBinding.mem_ends.mpr (.inr (rfl : b.property2 = _))
    rcases hsettled b.property1 hmem₁ with hsame₁ | hboth
    · rcases hsettled b.property2 hmem₂ with hsame₂ | hboth
      · rw [hsame₁, hsame₂, hequal]
      · rw [hboth _ hmem₁, hboth _ hmem₂]
    · rw [hboth _ hmem₁, hboth _ hmem₂]

end

/-- What an edit of the listeners of one property leaves. -/
structure Edits (p : P) (after : List (BidirectionalIntegerBinding P)) (s s' : Store P) : Prop where
  same : s.Same s'
  registered : (s'.properties p).helper.Represents [] after
  ready : (s'.properties p).Ready
  others : ∀ q, q ≠ p → s'.properties q = s.properties q

section

variable {s : Store P} {p : P} {cs : List (BidirectionalIntegerBinding P)}

theorem edits_modify {after : List (BidirectionalIntegerBinding P)} {x : IntegerProperty P}
    {change : IntegerProperty P → IntegerProperty P} (hx : change (s.properties p) = x)
    (hval : x.value = (s.properties p).value) (hreg : x.helper.Represents [] after)
    (hready : x.Ready) : Edits p after s (s.modify p change) := by
  subst hx
  refine ⟨Store.same_modify hval, ?_, ?_, fun q hq => Store.modify_of_ne hq _⟩
  · rwa [Store.modify_self]
  · rwa [Store.modify_self]

theorem addListener_spec (h : (s.properties p).helper.Represents [] cs)
    (hready : (s.properties p).Ready) (b : BidirectionalIntegerBinding P) :
    ∃ s', s.addListener p b = .ok s' ∧ Edits p (cs ++ [b]) s s' := by
  obtain ⟨helper, cs', hadd, hadds, hrep⟩ := Helper.addChangeListener_spec (s.surroundings p) h b
  have hcs' : cs' = cs ++ [b] := by
    rcases hadds with rfl | rfl
    · rfl
    · simp [Store.surroundings]
  subst hcs'
  refine ⟨_, by rw [Store.addListener, hadd, ok_bind], edits_modify rfl rfl hrep ?_⟩
  rw [IntegerProperty.Ready] at hready ⊢
  rcases hhelp : (s.properties p).helper with _ | listener | ⟨own, currentValue⟩ | g
  · rw [hhelp] at hadd
    cases hadd
    exact ⟨by simp [Store.asksWhenAdded], rfl⟩
  · cases listener
  · rw [hhelp] at hadd
    cases hadd
    exact fun _ => ⟨by simp [Store.asksWhenAdded], rfl⟩
  · rw [hhelp, Helper.addChangeListener] at hadd
    rw [hhelp] at h hready
    rcases hedit : addListener g.locked (s.surroundings p).collectedC g.change b with _ | e
    · rw [hedit] at hadd
      cases hadd
    · rw [hedit] at hadd
      cases hadd
      have hsize : e.size = g.change.size + 1 := by
        rw [h.2.1]
        simpa [Edited.listeners] using hrep.2.1
      by_cases hone : e.size = 1
      · simp [Store.asksWhenAdded, Edited.listeners, hone, Store.surroundings]
      · obtain ⟨hvalid, hcur⟩ := hready (by omega)
        simp [hone, hvalid, hcur]

theorem removeListener_spec (h : (s.properties p).helper.Represents [] cs)
    (hready : (s.properties p).Ready) (b : BidirectionalIntegerBinding P) :
    ∃ s', s.removeListener p b = .ok s' ∧ Edits p (cs.eraseP b.equals) s s' := by
  obtain ⟨helper, hremove, hrep⟩ := Helper.removeChangeListener_spec (s.surroundings p) h b
  refine ⟨_, by rw [Store.removeListener, hremove, ok_bind], edits_modify rfl rfl hrep ?_⟩
  rw [IntegerProperty.Ready] at hready ⊢
  rcases hhelp : (s.properties p).helper with _ | listener | ⟨own, currentValue⟩ | g
  · rw [hhelp] at hremove
    cases hremove
    trivial
  · cases listener
  · rw [hhelp, Helper.removeChangeListener] at hremove
    rw [hhelp] at hready
    split at hremove
    · cases hremove
      trivial
    · cases hremove
      exact ⟨by simp [hready.1], hready.2⟩
  · rw [hhelp, Helper.removeChangeListener] at hremove
    rw [hhelp] at h hready
    rcases hedit : removeListener (s.surroundings p).equalsC g.locked g.change g.invalidation.size b
      with _ | removal
    · rw [hedit] at hremove
      cases hremove
    · rw [hedit, ok_bind] at hremove
      cases removal with
      | absent =>
        cases hremove
        exact fun hpos => ⟨by simp [(hready hpos).1], (hready hpos).2⟩
      | onlyOther =>
        rcases hfst : Helper.firstListener g.invalidation with _ | own
        · simp only [hfst] at hremove
          cases hremove
        · cases own
      | emptied =>
        cases hremove
        exact fun hpos => absurd hpos (Nat.lt_irrefl 0)
      | single own =>
        cases hremove
        exact ⟨by simp [Store.asksWhenRemoved], rfl⟩
      | edited e =>
        cases hremove
        intro hpos
        have hsize : e.size ≤ g.change.size := by
          rw [h.2.1]
          exact hrep.2.1.trans_le length_eraseP_le
        obtain ⟨hvalid, hcur⟩ := hready (Nat.lt_of_lt_of_le hpos hsize)
        exact ⟨by simp [hvalid], hcur⟩

end

theorem eraseP_congr {α : Type} {f g : α → Bool} {l : List α} (h : ∀ x ∈ l, f x = g x) :
    l.eraseP f = l.eraseP g := by
  induction l with
  | nil => rfl
  | cons x l ih =>
    rw [eraseP_cons, eraseP_cons, h x mem_cons_self,
      ih fun y hy => h y (mem_cons_of_mem _ hy)]

theorem filter_eraseP_of_disjoint {α : Type} {f g : α → Bool} {l : List α}
    (h : ∀ x ∈ l, f x = true → g x = false) : (l.eraseP f).filter g = l.filter g := by
  induction l with
  | nil => rfl
  | cons x l ih =>
    rcases hf : f x with _ | _
    · rw [eraseP_cons_of_neg (by simp [hf]), filter_cons, filter_cons,
        ih fun y hy => h y (mem_cons_of_mem _ hy)]
    · have hg := h x mem_cons_self hf
      rw [eraseP_cons_of_pos hf, filter_cons_of_neg (by simp [hg])]

section

variable {bs bs' : List (BidirectionalIntegerBinding P)} {s : Store P} {p q : P}
  {b : BidirectionalIntegerBinding P}

theorem onBoth_spec {edit : Store P → P → BidirectionalIntegerBinding P → Outcome (Store P)}
    (change : List (BidirectionalIntegerBinding P) → List (BidirectionalIntegerBinding P))
    (hedit : ∀ (s : Store P) (p : P) (cs : List (BidirectionalIntegerBinding P)),
      (s.properties p).helper.Represents [] cs → (s.properties p).Ready →
      ∃ s', edit s p b = .ok s' ∧ Edits p (change cs) s s')
    (hends : b.property1 ≠ b.property2) (h : s.Holds bs)
    (htied : ∀ q ∈ b.ends, bindingsOf bs' q = change (bindingsOf bs q))
    (hothers : ∀ q, q ∉ b.ends → bindingsOf bs' q = bindingsOf bs q) :
    ∃ s', onBoth edit s b = (s', .ok ()) ∧ s'.Holds bs' ∧ s.Same s' := by
  obtain ⟨s₁, hedit₁, h₁⟩ := hedit s b.property1 _ (h.registered _) (h.ready _)
  have hsnd := h₁.others b.property2 hends.symm
  obtain ⟨s₂, hedit₂, h₂⟩ := hedit s₁ b.property2 (bindingsOf bs b.property2)
    (by rw [hsnd]; exact h.registered _) (by rw [hsnd]; exact h.ready _)
  have hfst := h₂.others b.property1 hends
  refine ⟨s₂, by rw [onBoth, hedit₁]; simp only [hedit₂], ⟨fun q => ?_, fun q => ?_⟩,
    h₁.same.trans h₂.same⟩
  · by_cases hq : q ∈ b.ends
    · rw [htied q hq]
      rcases BidirectionalIntegerBinding.mem_ends.mp hq with rfl | rfl
      · rw [hfst]
        exact h₁.registered
      · exact h₂.registered
    · rw [BidirectionalIntegerBinding.mem_ends, not_or] at hq
      rw [hothers q (by rwa [BidirectionalIntegerBinding.mem_ends, not_or]), h₂.others q hq.2,
        h₁.others q hq.1]
      exact h.registered q
  · by_cases hq : q ∈ b.ends
    · rcases BidirectionalIntegerBinding.mem_ends.mp hq with rfl | rfl
      · rw [hfst]
        exact h₁.ready
      · exact h₂.ready
    · rw [BidirectionalIntegerBinding.mem_ends, not_or] at hq
      rw [h₂.others q hq.2, h₁.others q hq.1]
      exact h.ready q

theorem addBoth_spec (hends : b.property1 ≠ b.property2) (h : s.Holds bs) :
    ∃ s', onBoth Store.addListener s b = (s', .ok ()) ∧ s'.Holds (bs ++ [b]) ∧ s.Same s' := by
  refine onBoth_spec (fun cs => cs ++ [b])
    (fun s p cs hrep hready => addListener_spec hrep hready b) hends h ?_ ?_
  · intro q hq
    simp [bindingsOf, hq]
  · intro q hq
    simp [bindingsOf, hq]

theorem equals_iff (hfresh : ∀ b' ∈ bs, b'.identity < b.identity) :
    ∀ b' ∈ bs, b.equals b' = (b.pair == b'.pair) := by
  intro b' hb'
  have hne : b.identity ≠ b'.identity := (hfresh b' hb').ne'
  rw [BidirectionalIntegerBinding.equals, if_neg hne, Bool.eq_iff_iff, beq_iff_eq,
    BidirectionalIntegerBinding.pair, BidirectionalIntegerBinding.pair, Sym2.eq_iff]
  split_ifs with hsame hcrossed
  · exact ⟨fun _ => .inl hsame, fun _ => rfl⟩
  · exact ⟨fun _ => .inr hcrossed, fun _ => rfl⟩
  · exact ⟨False.elim, fun hpair => hpair.elim hsame hcrossed⟩

omit [DecidableEq P] in
theorem mem_ends_iff_of_pair {b' : BidirectionalIntegerBinding P} (h : b.pair = b'.pair) :
    q ∈ b.ends ↔ q ∈ b'.ends := by
  have hmem : ∀ b : BidirectionalIntegerBinding P, q ∈ b.ends ↔ q ∈ b.pair := by
    intro b
    rw [BidirectionalIntegerBinding.mem_ends, BidirectionalIntegerBinding.pair, Sym2.mem_iff]
  rw [hmem, hmem, h]

theorem removeBoth_spec (hends : b.property1 ≠ b.property2) (h : s.Holds bs)
    (hfresh : ∀ b' ∈ bs, b'.identity < b.identity) :
    ∃ s', onBoth Store.removeListener s b = (s', .ok ()) ∧ s'.Holds (bs.eraseP b.equals) ∧
      s.Same s' := by
  have hequals : ∀ b' ∈ bs, b.equals b' = true → ∀ q, q ∈ b.ends ↔ q ∈ b'.ends := by
    intro b' hb' heq q
    rw [equals_iff hfresh b' hb', beq_iff_eq] at heq
    exact mem_ends_iff_of_pair heq
  refine onBoth_spec (fun cs => cs.eraseP b.equals)
    (fun s p cs hrep hready => removeListener_spec hrep hready b) hends h ?_ ?_
  · intro q hq
    rw [bindingsOf, bindingsOf, eraseP_filter]
    congr 1
    refine eraseP_congr fun b' hb' => ?_
    rcases heq : b.equals b' with _ | _
    · rfl
    · simp [(hequals b' hb' heq q).mp hq]
  · intro q hq
    refine filter_eraseP_of_disjoint fun b' hb' heq => ?_
    simp [← hequals b' hb' heq q, hq]

theorem map_pair_eraseP (hfresh : ∀ b' ∈ bs, b'.identity < b.identity) :
    (bs.eraseP b.equals).map BidirectionalIntegerBinding.pair =
      (bs.map BidirectionalIntegerBinding.pair).erase b.pair := by
  rw [erase_eq_eraseP, eraseP_map, eraseP_congr (equals_iff hfresh)]
  rfl

theorem rests_initial (values : P → Int32) : Rests [] (Store.initial values) where
  holds := ⟨fun _ => ⟨rfl, rfl⟩, fun _ => trivial⟩
  distinct _ hb := nomatch hb
  idle _ := rfl
  made _ hb := nomatch hb
  equal _ hb := nomatch hb

def Call.Leaves (call : Call P) (bs : List (BidirectionalIntegerBinding P)) (s s' : Store P) :
    Prop :=
  (∃ bs', Rests bs' s' ∧ bs'.length ≤ bs.length + 1 ∧
    bs'.map BidirectionalIntegerBinding.pair =
      call.inForce (bs.map BidirectionalIntegerBinding.pair)) ∧
  ∀ q, (∀ p ∈ call.changes, ¬Connected (bs.map BidirectionalIntegerBinding.pair) p q) →
    s'.value q = s.value q

theorem Rests.edited {s' : Store P} (h : Rests bs s) (hholds : s'.Holds bs') (hsame : s.Same s')
    (hdist : Distinct bs') (hmade : ∀ b ∈ bs', b.identity < s.allocated)
    (hequal : ∀ b ∈ bs', s.value b.property1 = s.value b.property2) : Rests bs' s' where
  holds := hholds
  distinct := hdist
  idle := by
    rw [hsame.updating]
    exact h.idle
  made := by
    rw [hsame.allocated]
    exact hmade
  equal b hb := by
    rw [hsame.value, hsame.value]
    exact hequal b hb

theorem Rests.newBinding (h : Rests bs s) (p q : P) : Rests bs (s.newBinding p q).2 :=
  ⟨h.holds.of_same_properties rfl, h.distinct, h.idle,
    fun b hb => Nat.lt_succ_of_lt (h.made b hb), h.equal⟩

theorem bind_spec {n : Nat} (h : Rests bs s) (hfuel : bs.length < n) (p q : P) :
    ∃ s', (Call.bind p q).run n s = some (s', checkParameters p q) ∧
      (Call.bind p q).Leaves bs s s' := by
  by_cases hpq : p = q
  · refine ⟨s, by simp [Call.run, bind, checkParameters, hpq], ⟨bs, h, Nat.le_succ _, ?_⟩,
      fun _ _ => rfl⟩
    rw [Call.inForce, if_pos hpq]
  · have hnew := h.newBinding p q
    obtain ⟨hget, hsame⟩ := hnew.holds.get q
    have h₁ : Rests bs ((s.newBinding p q).2.get q).2 :=
      hnew.edited hget hsame hnew.distinct hnew.made hnew.equal
    obtain ⟨s₂, hset, h₂, hval, hallocated, hvals⟩ :=
      set_spec (v := s.value q) (p := p) h₁ hfuel
    obtain ⟨b, hb⟩ : ∃ b : BidirectionalIntegerBinding P, b = ⟨s.allocated, p, q⟩ := ⟨_, rfl⟩
    have hb₁ : b.property1 = p := by rw [hb]
    have hb₂ : b.property2 = q := by rw [hb]
    have hidentity : b.identity = s.allocated := by rw [hb]
    obtain ⟨s₃, hadd, h₃, hsame₃⟩ := addBoth_spec (by rwa [hb₁, hb₂]) h₂.holds
    have hmem : ∀ b' ∈ bs ++ [b], b' ∈ bs ∨ b' = b := by simp
    refine ⟨s₃, ?_, ⟨bs ++ [b], h₂.edited h₃ hsame₃ ?_ ?_ ?_, by simp, ?_⟩, ?_⟩
    · have hrun : (Call.bind p q).run n s =
          (set n ((s.newBinding p q).2.get q).2 p (s.value q)).bind fun s' =>
            some (onBoth Store.addListener s' b) := by
        rw [Call.run, bind, checkParameters, if_neg hpq, hb]
        rfl
      rw [hrun, hset, Option.bind_some, hadd, checkParameters, if_neg hpq]
    · intro b₁ hmem₁ b₂ hmem₂ heq
      rcases hmem b₁ hmem₁ with hold₁ | rfl
      · rcases hmem b₂ hmem₂ with hold₂ | rfl
        · exact h₂.distinct b₁ hold₁ b₂ hold₂ heq
        · exact absurd (heq.trans hidentity) (h.made b₁ hold₁).ne
      · rcases hmem b₂ hmem₂ with hold₂ | rfl
        · exact absurd (heq.symm.trans hidentity) (h.made b₂ hold₂).ne
        · rfl
    · intro b' hb'
      rw [hallocated]
      rcases hmem b' hb' with hold | rfl
      · exact Nat.lt_succ_of_lt (h.made b' hold)
      · exact hidentity ▸ Nat.lt_succ_self _
    · intro b' hb'
      rcases hmem b' hb' with hold | rfl
      · exact h₂.equal b' hold
      · rw [hb₁, hb₂, hval]
        rcases hvals q with hunchanged | ⟨hchanged, -⟩
        · rw [hunchanged, hsame.value]
          rfl
        · exact hchanged.symm
    · simp [Call.inForce, hpq, BidirectionalIntegerBinding.pair, hb]
    · intro r hr
      rw [hsame₃.value]
      rcases hvals r with hunchanged | ⟨-, hconnected⟩
      · rw [hunchanged, hsame.value]
        rfl
      · exact absurd hconnected (hr p (by simp [Call.changes, hpq]))

theorem unbind_spec (n : Nat) (h : Rests bs s) (p q : P) :
    ∃ s', (Call.unbind p q).run n s = some (s', checkParameters p q) ∧
      (Call.unbind p q).Leaves bs s s' := by
  by_cases hpq : p = q
  · refine ⟨s, by simp [Call.run, unbind, checkParameters, hpq], ⟨bs, h, Nat.le_succ _, ?_⟩,
      fun _ _ => rfl⟩
    rw [Call.inForce, if_pos hpq]
  · have hnew := h.newBinding p q
    obtain ⟨b, hb⟩ : ∃ b : BidirectionalIntegerBinding P, b = ⟨s.allocated, p, q⟩ := ⟨_, rfl⟩
    have hb₁ : b.property1 = p := by rw [hb]
    have hb₂ : b.property2 = q := by rw [hb]
    have hfresh : ∀ b' ∈ bs, b'.identity < b.identity := by
      rw [hb]
      exact h.made
    obtain ⟨s', hremove, h', hsame⟩ := removeBoth_spec (by rwa [hb₁, hb₂]) hnew.holds hfresh
    have hsub : ∀ b' ∈ bs.eraseP b.equals, b' ∈ bs := fun _ => mem_of_mem_eraseP
    refine ⟨s', ?_, ⟨bs.eraseP b.equals, hnew.edited h' hsame ?_ ?_ ?_, ?_, ?_⟩, ?_⟩
    · rw [Call.run, unbind, checkParameters, if_neg hpq]
      rw [hb] at hremove
      exact congrArg some hremove
    · exact fun b₁ hmem₁ b₂ hmem₂ => hnew.distinct b₁ (hsub b₁ hmem₁) b₂ (hsub b₂ hmem₂)
    · exact fun b' hb' => hnew.made b' (hsub b' hb')
    · exact fun b' hb' => hnew.equal b' (hsub b' hb')
    · exact Nat.le_succ_of_le length_eraseP_le
    · rw [map_pair_eraseP hfresh, Call.inForce, if_neg hpq, BidirectionalIntegerBinding.pair, hb₁,
        hb₂]
    · exact fun r _ => hsame.value r

theorem Call.run_spec {n : Nat} (h : Rests bs s) (hfuel : bs.length < n) (call : Call P) :
    ∃ s', call.run n s = some (s', call.check) ∧ call.Leaves bs s s' := by
  cases call with
  | bind p q => exact bind_spec h hfuel p q
  | unbind p q => exact unbind_spec n h p q
  | set p v =>
    obtain ⟨s', hset, h', -, -, hvals⟩ := set_spec (v := v) (p := p) h hfuel
    refine ⟨s', ?_, ⟨bs, h', Nat.le_succ _, rfl⟩, ?_⟩
    · rw [Call.run, hset]
      rfl
    · intro q hq
      rcases hvals q with hsame | ⟨-, hconnected⟩
      · exact hsame
      · exact absurd hconnected (hq p rfl)

theorem runCalls_spec {n : Nat} (calls : List (Call P)) (h : Rests bs s)
    (hfuel : bs.length + calls.length ≤ n) :
    ∃ s' bs', runCalls n calls s = some s' ∧ Rests bs' s' ∧
      bs'.length ≤ bs.length + calls.length ∧
      bs'.map BidirectionalIntegerBinding.pair =
        calls.foldl Call.inForce (bs.map BidirectionalIntegerBinding.pair) := by
  induction calls generalizing s bs with
  | nil => exact ⟨s, bs, rfl, h, Nat.le_refl _, rfl⟩
  | cons call calls ih =>
    rw [length_cons] at hfuel
    obtain ⟨s₁, hcall, ⟨bs₁, h₁, hlen₁, hpairs₁⟩, -⟩ := call.run_spec (n := n) h (by omega)
    obtain ⟨s₂, bs₂, hcalls, h₂, hlen₂, hpairs₂⟩ := ih h₁ (by omega)
    refine ⟨s₂, bs₂, ?_, h₂, by rw [length_cons]; omega, ?_⟩
    · rw [runCalls, foldlM_cons, hcall]
      exact hcalls
    · rw [hpairs₂, hpairs₁, foldl_cons]

theorem Rests.connected_equal (h : Rests bs s)
    (hpq : Connected (bs.map BidirectionalIntegerBinding.pair) p q) : s.value p = s.value q := by
  refine hpq.eq_of_forall fun p q hmem => ?_
  obtain ⟨b, hb, hpair⟩ := mem_map.mp hmem
  rcases Sym2.eq_iff.mp hpair with ⟨rfl, rfl⟩ | ⟨rfl, rfl⟩
  · exact h.equal b hb
  · exact (h.equal b hb).symm

end

/-- Every call returns, throwing only for its arguments; then connected properties are equal,
and nothing has changed outside of the component of the property that the call sets. -/
theorem run_keepsEqual (values : P → Int32) (calls : List (Call P)) (call : Call P) {fuel : Nat}
    (hfuel : calls.length < fuel) :
    ∃ s s', runCalls fuel calls (.initial values) = some s ∧
      call.run fuel s = some (s', call.check) ∧
      (∀ p q, Connected (inForce (calls ++ [call])) p q → s'.value p = s'.value q) ∧
      ∀ q, (∀ p ∈ call.changes, ¬Connected (inForce calls) p q) → s'.value q = s.value q := by
  obtain ⟨s, bs, hcalls, h, hlength, hpairs⟩ :=
    runCalls_spec (n := fuel) calls (rests_initial values) (by simpa using hfuel.le)
  rw [length_nil, Nat.zero_add] at hlength
  obtain ⟨s', hcall, ⟨bs', h', -, hpairs'⟩, hframe⟩ :=
    call.run_spec h (Nat.lt_of_le_of_lt hlength hfuel)
  refine ⟨s, s', hcalls, hcall, ?_, ?_⟩
  · intro p q hpq
    rw [inForce, foldl_append] at hpq
    refine h'.connected_equal ?_
    rw [hpairs', hpairs]
    exact hpq
  · intro q hq
    refine hframe q ?_
    rw [hpairs]
    exact hq

/-- Three properties tied in a circle, two of them twice: when one of these two bindings has
been taken back, all three still follow the one that is set. A fourth one does not. -/
theorem run_keepsEqual_circle :
    ∃ s s' : Store (Fin 4),
      runCalls 6 [.bind 0 1, .bind 1 2, .bind 2 0, .bind 1 0, .unbind 0 1]
        (.initial fun p => .ofNat p.val) = some s ∧
      (Call.set 1 7).run 6 s = some (s', .ok ()) ∧ s'.value 0 = s'.value 1 ∧
      s'.value 3 = s.value 3 := by
  obtain ⟨s, s', hcalls, hcall, hequal, hframe⟩ := run_keepsEqual (P := Fin 4)
    (fun p => .ofNat p.val) [.bind 0 1, .bind 1 2, .bind 2 0, .bind 1 0, .unbind 0 1] (.set 1 7)
    (show 5 < 6 by decide)
  refine ⟨s, s', hcalls, hcall, hequal 0 1 (.of_mem (by decide)), hframe 3 ?_⟩
  intro p hp hconnected
  cases hp
  have hsame : decide ((1 : Fin 4) = 3) = decide ((3 : Fin 4) = 3) :=
    hconnected.eq_of_forall (f := fun q => decide (q = 3)) (by decide)
  exact absurd hsame (by decide)

end OpenJfx.Binding.BidirectionalBinding
