import OpenJfx.Binding.Notification

/-!
Which listeners a call of `fireValueChangedEvent` notifies. While the array that
it walks over is not overwritten in place, these are the listeners that were
registered when the call started. The flag `locked` is meant to ensure this, but
a nested call resets it when it returns.
-/

namespace OpenJfx.Binding.Notification

open Java.Arrays Binding.ListenerArray Binding.ListenerHelper Binding.ListenerStore List

variable {I C V L : Type}

def Edit.call : Edit I C → Call I C
  | .addInvalidationListener listener => .addInvalidationListener listener
  | .removeInvalidationListener listener => .removeInvalidationListener listener
  | .addChangeListener listener => .addChangeListener listener
  | .removeChangeListener listener => .removeChangeListener listener

namespace Machine

/-- The objects that the observable refers to exist. -/
structure Located (m : Machine I C V) : Prop where
  generic : ∀ id, m.helper = .generic id → ∃ g, m.generics[id]? = some g
  invalidation : ∀ g ∈ m.current, ∀ r ∈ g.invalidation.ref, r < m.invalidationArrays.length
  change : ∀ g ∈ m.current, ∀ r ∈ g.change.ref, r < m.changeArrays.length

/-- Where a call starts to overwrite the array of invalidation listeners. -/
def overwrittenInvalidation (m : Machine I C V) (edit : Edit I C) : Option Nat := do
  let g ← m.current
  match edit with
  | .addInvalidationListener _ =>
    trimmedInPlace m.env.collectedI g.locked (m.valueOf g).invalidation
  | .removeInvalidationListener listener =>
    removedInPlace m.env.equalsI g.locked (m.valueOf g).invalidation g.change.size listener
  | _ => none

/-- Where a call starts to overwrite the array of change listeners. -/
def overwrittenChange (m : Machine I C V) (edit : Edit I C) : Option Nat := do
  let g ← m.current
  match edit with
  | .addChangeListener _ => trimmedInPlace m.env.collectedC g.locked (m.valueOf g).change
  | .removeChangeListener listener =>
    removedInPlace m.env.equalsC g.locked (m.valueOf g).change g.invalidation.size listener
  | _ => none

/-- No loop that is going on has still to read a slot that the call overwrites. -/
def Harmless (m : Machine I C V) (edit : Edit I C) : Prop :=
  ∀ g ∈ m.current, ∀ f ∈ m.frames,
    (f.invalidation.ref = g.invalidation.ref → ∀ k ∈ m.overwrittenInvalidation edit,
      f.invalidation.size ≤ k ∨ f.invalidation.size ≤ f.invalidation.next) ∧
    (f.change.ref = g.change.ref → ∀ k ∈ m.overwrittenChange edit,
      f.change.size ≤ k ∨ f.change.size ≤ f.change.next)

inductive Effect (m : Machine I C V) (edit : Edit I C) : Machine I C V → Prop
  | same : Effect m edit m
  | replaced (helper : HelperField I C V) (h : ∀ id, helper ≠ .generic id) :
      Effect m edit { m with helper := helper }
  | created (g : Generic I C V) : Effect m edit (m.newGeneric g)
  | emptiedInvalidation {id : Nat} {g : GenericObject V} (hid : m.helper = .generic id)
      (hg : m.generics[id]? = some g) :
      Effect m edit (m.setGeneric id { g with invalidation := ⟨none, 0⟩ })
  | emptiedChange {id : Nat} {g : GenericObject V} (hid : m.helper = .generic id)
      (hg : m.generics[id]? = some g) :
      Effect m edit (m.setGeneric id { g with change := ⟨none, 0⟩ })
  | editedInvalidation {id : Nat} {g : GenericObject V} {e : Edited I}
      (hid : m.helper = .generic id) (hg : m.generics[id]? = some g)
      (hkeeps : KeepsBelow (m.overwrittenInvalidation edit) (m.valueOf g).invalidation e) :
      Effect m edit (m.putInvalidation id g e)
  | editedChange {id : Nat} {g : GenericObject V} {e : Edited C} (value : Option V)
      (hid : m.helper = .generic id) (hg : m.generics[id]? = some g)
      (hkeeps : KeepsBelow (m.overwrittenChange edit) (m.valueOf g).change e) :
      Effect m edit (m.putChange id { g with currentValue := value } e)

section

variable {m m' : Machine I C V} {id : Nat} {g : GenericObject V}

theorem current_eq (hid : m.helper = .generic id) (hg : m.generics[id]? = some g) :
    m.current = some g := by
  rw [current, hid]
  exact hg

theorem current_eq_none (h : ∀ id, m.helper ≠ .generic id) : m.current = none := by
  unfold current
  split
  · exact absurd ‹_› (h _)
  · rfl

theorem view_eq (hid : m.helper = .generic id) (hg : m.generics[id]? = some g) :
    m.view = .generic (m.valueOf g) := by
  simp only [view, hid, hg]

theorem valueOf_locked : (m.valueOf g).locked = g.locked := rfl

theorem valueOf_invalidation_size : (m.valueOf g).invalidation.size = g.invalidation.size := rfl

theorem valueOf_change_size : (m.valueOf g).change.size = g.change.size := rfl

theorem current_setGeneric (hid : m.helper = .generic id) (hg : m.generics[id]? = some g)
    (g' : GenericObject V) : (m.setGeneric id g').current = some g' := by
  have hlt : id < m.generics.length := (List.getElem?_eq_some_iff.mp hg).1
  exact current_eq hid (getElem?_set_self hlt)

theorem current_newGeneric (m : Machine I C V) (g : Generic I C V) :
    (m.newGeneric g).current = some ⟨(place m.invalidationArrays g.invalidation).2,
      (place m.changeArrays g.change).2, g.locked, g.currentValue⟩ := by
  simp [current, newGeneric]

theorem view_newGeneric (m : Machine I C V) (g : Generic I C V) :
    (m.newGeneric g).view = .generic g := by
  rw [view_eq rfl (current_newGeneric m g)]
  simp only [valueOf, newGeneric, place_listeners]

theorem view_setGeneric (hid : m.helper = .generic id) (hg : m.generics[id]? = some g)
    (g' : GenericObject V) : (m.setGeneric id g').view = .generic (m.valueOf g') :=
  view_eq hid (by
    have hlt : id < m.generics.length := (List.getElem?_eq_some_iff.mp hg).1
    exact getElem?_set_self hlt)

theorem view_putInvalidation (h : m.Located) (hid : m.helper = .generic id)
    (hg : m.generics[id]? = some g) (e : Edited I) :
    (m.putInvalidation id g e).view =
      .generic { m.valueOf g with invalidation := Edited.listeners e } := by
  have hlt : id < m.generics.length := (List.getElem?_eq_some_iff.mp hg).1
  rw [view_eq (m := m.putInvalidation id g e) hid (getElem?_set_self hlt)]
  have := put_listeners (h.invalidation g (current_eq hid hg)) e
  simp only [valueOf, putInvalidation, this]
  rfl

theorem view_putChange (h : m.Located) (hid : m.helper = .generic id)
    (hg : m.generics[id]? = some g) (e : Edited C) (value : Option V) :
    (m.putChange id { g with currentValue := value } e).view =
      .generic { m.valueOf g with change := Edited.listeners e, currentValue := value } := by
  have hlt : id < m.generics.length := (List.getElem?_eq_some_iff.mp hg).1
  rw [view_eq (m := m.putChange id _ e) hid (getElem?_set_self hlt)]
  have := put_listeners (h.change g (current_eq hid hg)) e
  simp only [valueOf, putChange, this]
  rfl

theorem addInvalidationListener_view (h : m.Located) (listener : I) :
    (m.addInvalidationListener listener).map view =
      Helper.addInvalidationListener m.env m.view listener := by
  cases hhelp : m.helper with
  | null =>
    simp [addInvalidationListener, view, hhelp, Except.map, Helper.addInvalidationListener]
  | singleInvalidation own | singleChange own value =>
    simp only [addInvalidationListener, hhelp, Except.map, view_newGeneric]
    simp only [view, hhelp, Helper.addInvalidationListener]
  | generic id =>
    obtain ⟨g, hg⟩ := h.generic id hhelp
    simp only [addInvalidationListener, hhelp, hg, view_eq hhelp hg,
      Helper.addInvalidationListener]
    simp only [valueOf]
    rcases addListener g.locked m.env.collectedI (g.invalidation.listeners m.invalidationArrays)
      listener with _ | e
    · rfl
    · simp only [ok_bind, Except.map, view_putInvalidation h hhelp hg]
      rfl

theorem addChangeListener_view (h : m.Located) (listener : C) :
    (m.addChangeListener listener).map view =
      Helper.addChangeListener m.env m.view listener := by
  cases hhelp : m.helper with
  | null => simp [addChangeListener, view, hhelp, Except.map, Helper.addChangeListener]
  | singleInvalidation own | singleChange own value =>
    simp only [addChangeListener, hhelp, Except.map, view_newGeneric]
    simp only [view, hhelp, Helper.addChangeListener]
  | generic id =>
    obtain ⟨g, hg⟩ := h.generic id hhelp
    simp only [addChangeListener, hhelp, hg, view_eq hhelp hg, Helper.addChangeListener]
    simp only [valueOf]
    rcases addListener g.locked m.env.collectedC (g.change.listeners m.changeArrays)
      listener with _ | e
    · rfl
    · simp only [ok_bind, Except.map, view_putChange h hhelp hg]
      rfl

theorem removeInvalidationListener_view (h : m.Located) (listener : I) :
    (m.removeInvalidationListener listener).map view =
      Helper.removeInvalidationListener m.env m.view listener := by
  cases hhelp : m.helper with
  | null | singleChange own value =>
    simp [removeInvalidationListener, view, hhelp, Except.map,
      Helper.removeInvalidationListener]
  | singleInvalidation own =>
    by_cases heq : m.env.equalsI listener own <;>
      simp [removeInvalidationListener, view, hhelp, Except.map,
        Helper.removeInvalidationListener, heq]
  | generic id =>
    obtain ⟨g, hg⟩ := h.generic id hhelp
    simp only [removeInvalidationListener, hhelp, hg, view_eq hhelp hg,
      Helper.removeInvalidationListener, valueOf_locked, valueOf_change_size]
    rcases removeListener m.env.equalsI g.locked (m.valueOf g).invalidation g.change.size
      listener with _ | removal
    · rfl
    · cases removal with
      | absent => simp only [ok_bind, Except.map, view_eq hhelp hg]
      | onlyOther =>
        rcases Helper.firstListener (m.valueOf g).change with _ | own
        · rfl
        · rfl
      | emptied =>
        simp only [ok_bind, Except.map, view_setGeneric hhelp hg]
        rfl
      | single own => rfl
      | edited e =>
        simp only [ok_bind, Except.map, view_putInvalidation h hhelp hg]
        rfl

theorem removeChangeListener_view (h : m.Located) (listener : C) :
    (m.removeChangeListener listener).map view =
      Helper.removeChangeListener m.env m.view listener := by
  cases hhelp : m.helper with
  | null => simp [removeChangeListener, view, hhelp, Except.map, Helper.removeChangeListener]
  | singleInvalidation own =>
    simp [removeChangeListener, view, hhelp, Except.map, Helper.removeChangeListener]
  | singleChange own value =>
    by_cases heq : m.env.equalsC listener own <;>
      simp [removeChangeListener, view, hhelp, Except.map, Helper.removeChangeListener, heq]
  | generic id =>
    obtain ⟨g, hg⟩ := h.generic id hhelp
    simp only [removeChangeListener, hhelp, hg, view_eq hhelp hg,
      Helper.removeChangeListener, valueOf_locked, valueOf_invalidation_size]
    rcases removeListener m.env.equalsC g.locked (m.valueOf g).change g.invalidation.size
      listener with _ | removal
    · rfl
    · cases removal with
      | absent => simp only [ok_bind, Except.map, view_eq hhelp hg]
      | onlyOther =>
        rcases Helper.firstListener (m.valueOf g).invalidation with _ | own
        · rfl
        · rfl
      | emptied =>
        simp only [ok_bind, Except.map, view_setGeneric hhelp hg]
        rfl
      | single own => rfl
      | edited e =>
        have := view_putChange h hhelp hg e g.currentValue
        simp only [ok_bind, Except.map, this]
        rfl

theorem edit_view (h : m.Located) (edit : Edit I C) :
    (m.edit edit).map view = edit.call.run m.env m.view := by
  cases edit with
  | addInvalidationListener listener => exact addInvalidationListener_view h listener
  | removeInvalidationListener listener => exact removeInvalidationListener_view h listener
  | addChangeListener listener => exact addChangeListener_view h listener
  | removeChangeListener listener => exact removeChangeListener_view h listener

variable {is : List I} {cs : List C}

theorem represents_valueOf (hid : m.helper = .generic id) (hg : m.generics[id]? = some g)
    (h : m.view.Represents is cs) :
    (m.valueOf g).invalidation.Represents is ∧ (m.valueOf g).change.Represents cs := by
  rw [view_eq hid hg] at h
  exact h

theorem addInvalidationListener_effect (h : m.Located) (hview : m.view.Represents is cs)
    {listener : I} (hrun : m.addInvalidationListener listener = .ok m') :
    m.Effect (.addInvalidationListener listener) m' := by
  cases hhelp : m.helper with
  | null =>
    simp only [addInvalidationListener, hhelp, Except.ok.injEq] at hrun
    subst hrun
    exact .replaced _ (by simp)
  | singleInvalidation own | singleChange own value =>
    simp only [addInvalidationListener, hhelp, Except.ok.injEq] at hrun
    subst hrun
    exact .created _
  | generic id =>
    obtain ⟨g, hg⟩ := h.generic id hhelp
    simp only [addInvalidationListener, hhelp, hg] at hrun
    rcases hadd : addListener g.locked m.env.collectedI (m.valueOf g).invalidation listener
      with _ | e
    · simp [hadd, error_bind] at hrun
    · simp only [hadd, ok_bind, Except.ok.injEq] at hrun
      subst hrun
      refine .editedInvalidation hhelp hg ?_
      have := addListener_keepsBelow g.locked m.env.collectedI
        (represents_valueOf hhelp hg hview).1 hadd
      simpa [overwrittenInvalidation, current_eq hhelp hg] using this

theorem addChangeListener_effect (h : m.Located) (hview : m.view.Represents is cs) {listener : C}
    (hrun : m.addChangeListener listener = .ok m') :
    m.Effect (.addChangeListener listener) m' := by
  cases hhelp : m.helper with
  | null =>
    simp only [addChangeListener, hhelp, Except.ok.injEq] at hrun
    subst hrun
    exact .replaced _ (by simp)
  | singleInvalidation own | singleChange own value =>
    simp only [addChangeListener, hhelp, Except.ok.injEq] at hrun
    subst hrun
    exact .created _
  | generic id =>
    obtain ⟨g, hg⟩ := h.generic id hhelp
    simp only [addChangeListener, hhelp, hg] at hrun
    rcases hadd : addListener g.locked m.env.collectedC (m.valueOf g).change listener with _ | e
    · simp [hadd, error_bind] at hrun
    · simp only [hadd, ok_bind, Except.ok.injEq] at hrun
      subst hrun
      refine .editedChange _ hhelp hg ?_
      have := addListener_keepsBelow g.locked m.env.collectedC
        (represents_valueOf hhelp hg hview).2 hadd
      simpa [overwrittenChange, current_eq hhelp hg] using this

theorem removeInvalidationListener_effect (h : m.Located) (hview : m.view.Represents is cs)
    {listener : I} (hrun : m.removeInvalidationListener listener = .ok m') :
    m.Effect (.removeInvalidationListener listener) m' := by
  cases hhelp : m.helper with
  | null | singleChange own value =>
    simp only [removeInvalidationListener, hhelp, Except.ok.injEq] at hrun
    subst hrun
    exact .same
  | singleInvalidation own =>
    simp only [removeInvalidationListener, hhelp] at hrun
    split at hrun
    · obtain rfl := Except.ok.inj hrun
      exact .replaced _ (by simp)
    · obtain rfl := Except.ok.inj hrun
      exact .same
  | generic id =>
    obtain ⟨g, hg⟩ := h.generic id hhelp
    simp only [removeInvalidationListener, hhelp, hg] at hrun
    rcases hremove : removeListener m.env.equalsI g.locked (m.valueOf g).invalidation
      g.change.size listener with _ | removal
    · simp [hremove, error_bind] at hrun
    · rw [hremove, ok_bind] at hrun
      cases removal with
      | absent =>
        obtain rfl := Except.ok.inj hrun
        exact .same
      | onlyOther =>
        rcases hfst : Helper.firstListener (m.valueOf g).change with _ | own
        · simp [hfst, error_bind] at hrun
        · simp only [hfst, ok_bind, Except.ok.injEq] at hrun
          subst hrun
          exact .replaced _ (by simp)
      | emptied =>
        obtain rfl := Except.ok.inj hrun
        exact .emptiedInvalidation hhelp hg
      | single own =>
        obtain rfl := Except.ok.inj hrun
        exact .replaced _ (by simp)
      | edited e =>
        obtain rfl := Except.ok.inj hrun
        refine .editedInvalidation hhelp hg ?_
        have := removeListener_keepsBelow m.env.equalsI g.locked
          (represents_valueOf hhelp hg hview).1 hremove
        simpa [overwrittenInvalidation, current_eq hhelp hg] using this

theorem removeChangeListener_effect (h : m.Located) (hview : m.view.Represents is cs) {listener : C}
    (hrun : m.removeChangeListener listener = .ok m') :
    m.Effect (.removeChangeListener listener) m' := by
  cases hhelp : m.helper with
  | null | singleInvalidation own =>
    simp only [removeChangeListener, hhelp, Except.ok.injEq] at hrun
    subst hrun
    exact .same
  | singleChange own value =>
    simp only [removeChangeListener, hhelp] at hrun
    split at hrun
    · obtain rfl := Except.ok.inj hrun
      exact .replaced _ (by simp)
    · obtain rfl := Except.ok.inj hrun
      exact .same
  | generic id =>
    obtain ⟨g, hg⟩ := h.generic id hhelp
    simp only [removeChangeListener, hhelp, hg] at hrun
    rcases hremove : removeListener m.env.equalsC g.locked (m.valueOf g).change
      g.invalidation.size listener with _ | removal
    · simp [hremove, error_bind] at hrun
    · rw [hremove, ok_bind] at hrun
      cases removal with
      | absent =>
        obtain rfl := Except.ok.inj hrun
        exact .same
      | onlyOther =>
        rcases hfst : Helper.firstListener (m.valueOf g).invalidation with _ | own
        · simp [hfst, error_bind] at hrun
        · simp only [hfst, ok_bind, Except.ok.injEq] at hrun
          subst hrun
          exact .replaced _ (by simp)
      | emptied =>
        obtain rfl := Except.ok.inj hrun
        exact .emptiedChange hhelp hg
      | single own =>
        obtain rfl := Except.ok.inj hrun
        exact .replaced _ (by simp)
      | edited e =>
        obtain rfl := Except.ok.inj hrun
        refine .editedChange g.currentValue hhelp hg ?_
        have := removeListener_keepsBelow m.env.equalsC g.locked
          (represents_valueOf hhelp hg hview).2 hremove
        simpa [overwrittenChange, current_eq hhelp hg] using this

theorem edit_effect (h : m.Located) (hview : m.view.Represents is cs) {edit : Edit I C}
    (hrun : m.edit edit = .ok m') : m.Effect edit m' := by
  cases edit with
  | addInvalidationListener listener => exact addInvalidationListener_effect h hview hrun
  | removeInvalidationListener listener => exact removeInvalidationListener_effect h hview hrun
  | addChangeListener listener => exact addChangeListener_effect h hview hrun
  | removeChangeListener listener => exact removeChangeListener_effect h hview hrun

end

theorem Effect.frames_eq {m m' : Machine I C V} {edit : Edit I C} (heffect : m.Effect edit m') :
    m'.frames = m.frames := by
  cases heffect <;> rfl

theorem Effect.located {m m' : Machine I C V} {edit : Edit I C} (heffect : m.Effect edit m')
    (h : m.Located) : m'.Located := by
  have hset : ∀ {m₁ : Machine I C V} {id : Nat} {g₁ : GenericObject V},
      m₁.helper = .generic id → m₁.generics[id]? = some g₁ →
      (∀ r ∈ g₁.invalidation.ref, r < m₁.invalidationArrays.length) →
      (∀ r ∈ g₁.change.ref, r < m₁.changeArrays.length) → m₁.Located := by
    intro m₁ id g₁ hid hg hi hc
    refine ⟨?_, ?_, ?_⟩
    · intro id' hid'
      obtain rfl := HelperField.generic.inj (hid.symm.trans hid')
      exact ⟨g₁, hg⟩
    · intro g hmem
      obtain rfl := Option.some.inj ((current_eq hid hg).symm.trans hmem)
      exact hi
    · intro g hmem
      obtain rfl := Option.some.inj ((current_eq hid hg).symm.trans hmem)
      exact hc
  cases heffect with
  | same => exact h
  | replaced helper hne =>
    have hnone : current { m with helper := helper } = none := current_eq_none hne
    exact ⟨fun id hid => absurd hid (hne id), by simp [hnone], by simp [hnone]⟩
  | created g =>
    exact hset rfl (current_newGeneric m g) (place_ref m.invalidationArrays g.invalidation)
      (place_ref m.changeArrays g.change)
  | @emptiedInvalidation id g hid hg =>
    exact hset hid (getElem?_set_self (List.getElem?_eq_some_iff.mp hg).1) (by simp)
      (h.change g (current_eq hid hg))
  | @emptiedChange id g hid hg =>
    exact hset hid (getElem?_set_self (List.getElem?_eq_some_iff.mp hg).1)
      (h.invalidation g (current_eq hid hg)) (by simp)
  | @editedInvalidation id g e hid hg hkeeps =>
    exact hset hid (getElem?_set_self (List.getElem?_eq_some_iff.mp hg).1)
      (put_ref (h.invalidation g (current_eq hid hg)) e) (h.change g (current_eq hid hg))
  | @editedChange id g e value hid hg hkeeps =>
    exact hset hid (getElem?_set_self (List.getElem?_eq_some_iff.mp hg).1)
      (h.invalidation g (current_eq hid hg)) (put_ref (h.change g (current_eq hid hg)) e)

end Machine

/-- Both loops of a call will find the listeners that were there at its start. -/
structure Frame.Holds (m : Machine I C V) (is : List I) (cs : List C) (f : Frame I C V) :
    Prop where
  start : f.start.Represents is cs
  invalidation : f.invalidation.Intact m.invalidationArrays (m.current.map (·.invalidation)) is
  change : f.change.Intact m.changeArrays (m.current.map (·.change)) cs

theorem Machine.Effect.holds {m m' : Machine I C V} {edit : Edit I C} (heffect : m.Effect edit m')
    (h : m.Located) (hharmless : m.Harmless edit) {f : Frame I C V} (hf : f ∈ m.frames)
    {is : List I} {cs : List C} (hholds : f.Holds m is cs) : f.Holds m' is cs := by
  obtain ⟨hstart, hi, hc⟩ := hholds
  cases heffect with
  | same => exact ⟨hstart, hi, hc⟩
  | replaced helper hne =>
    have hnone : current { m with helper := helper } = none := current_eq_none hne
    exact ⟨hstart, hi.detach (by simp [hnone]), hc.detach (by simp [hnone])⟩
  | created g =>
    refine ⟨hstart, ?_, ?_⟩
    · rw [current_newGeneric]
      exact hi.place g.invalidation
    · rw [current_newGeneric]
      exact hc.place g.change
  | @emptiedInvalidation id g hid hg =>
    refine ⟨hstart, ?_, ?_⟩
    · rw [current_setGeneric hid hg]
      exact hi.detach (by simp)
    · rw [current_setGeneric hid hg]
      rw [current_eq hid hg] at hc
      exact hc
  | @emptiedChange id g hid hg =>
    refine ⟨hstart, ?_, ?_⟩
    · rw [current_setGeneric hid hg]
      rw [current_eq hid hg] at hi
      exact hi
    · rw [current_setGeneric hid hg]
      exact hc.detach (by simp)
  | @editedInvalidation id g e hid hg hkeeps =>
    have hcur := current_eq hid hg
    have hcur' : (m.putInvalidation id g e).current = _ := current_setGeneric hid hg _
    rw [hcur] at hi hc
    refine ⟨hstart, ?_, ?_⟩
    · rw [hcur']
      exact hi.put (h.invalidation g hcur) hkeeps (hharmless g hcur f hf).1
    · rw [hcur']
      exact hc
  | @editedChange id g e value hid hg hkeeps =>
    have hcur := current_eq hid hg
    have hcur' : (m.putChange id { g with currentValue := value } e).current = _ :=
      current_setGeneric hid hg _
    rw [hcur] at hi hc
    refine ⟨hstart, ?_, ?_⟩
    · rw [hcur']
      exact hi
    · rw [hcur']
      exact hc.put (h.change g hcur) hkeeps (hharmless g hcur f hf).2

/-- The objects exist, and the helper keeps some listeners of both kinds. -/
def Machine.Valid (m : Machine I C V) : Prop :=
  m.Located ∧ ∃ is cs, m.view.Represents is cs

section

variable {m m' : Machine I C V}

theorem Machine.edit_spec (h : m.Valid) (edit : Edit I C) :
    ∃ m', m.edit edit = .ok m' ∧ m'.Valid ∧ m'.frames = m.frames ∧
      (m.Harmless edit → ∀ f ∈ m.frames, ∀ is cs, f.Holds m is cs → f.Holds m' is cs) := by
  obtain ⟨hlocated, is, cs, hview⟩ := h
  have hpair : m.view.Represents (is, cs).1 (is, cs).2 := hview
  obtain ⟨helper, lists, hcall, -, hlists⟩ := Call.run_spec m.env hpair edit.call
  rw [← edit_view hlocated] at hcall
  rcases hedit : m.edit edit with _ | m'
  · simp [hedit, Except.map] at hcall
  · simp only [hedit, Except.map, Except.ok.injEq] at hcall
    have heffect := edit_effect hlocated hview hedit
    refine ⟨m', rfl, ⟨heffect.located hlocated, lists.1, lists.2, ?_⟩, heffect.frames_eq, ?_⟩
    · rw [hcall]
      exact hlists
    · intro hharmless f hf is cs hholds
      exact heffect.holds hlocated hharmless hf hholds

/-- The two machines differ in nothing that the arrays of the helper depend on. -/
structure Machine.Agrees (m m' : Machine I C V) : Prop where
  invalidationArrays : m'.invalidationArrays = m.invalidationArrays
  changeArrays : m'.changeArrays = m.changeArrays
  helper : ∀ id, m'.helper = .generic id ↔ m.helper = .generic id
  invalidation : ∀ id : Nat, m'.generics[id]?.map GenericObject.invalidation =
    m.generics[id]?.map GenericObject.invalidation
  change : ∀ id : Nat, m'.generics[id]?.map GenericObject.change =
    m.generics[id]?.map GenericObject.change
  single : m.current = none → ∀ is cs, m.view.Represents is cs → m'.view.Represents is cs

namespace Machine.Agrees

theorem current_map {α : Type} (h : m.Agrees m') (field : GenericObject V → α)
    (hfield : ∀ id : Nat, m'.generics[id]?.map field = m.generics[id]?.map field) :
    m'.current.map field = m.current.map field := by
  cases hhelp : m.helper with
  | generic id => simp only [current, hhelp, (h.helper id).mpr hhelp, hfield]
  | _ =>
    rw [current_eq_none, current_eq_none]
    · simp [hhelp]
    · intro id hid
      simp [(h.helper id).mp hid] at hhelp

theorem holds (h : m.Agrees m') {f : Frame I C V} {is : List I} {cs : List C}
    (hf : f.Holds m is cs) : f.Holds m' is cs := by
  refine ⟨hf.start, ?_, ?_⟩
  · rw [h.invalidationArrays, h.current_map _ h.invalidation]
    exact hf.invalidation
  · rw [h.changeArrays, h.current_map _ h.change]
    exact hf.change

theorem valid (h : m.Agrees m') (hm : m.Valid) : m'.Valid := by
  obtain ⟨hlocated, is, cs, hview⟩ := hm
  have hi := h.current_map _ h.invalidation
  have hc := h.current_map _ h.change
  refine ⟨⟨?_, ?_, ?_⟩, is, cs, ?_⟩
  · intro id hid
    obtain ⟨g, hg⟩ := hlocated.generic id ((h.helper id).mp hid)
    have := h.change id
    rw [hg, Option.map_some, Option.map_eq_some_iff] at this
    obtain ⟨g', hg', -⟩ := this
    exact ⟨g', hg'⟩
  · intro g' hg' r hr
    rw [hg', Option.map_some, eq_comm, Option.map_eq_some_iff] at hi
    obtain ⟨g, hg, heq⟩ := hi
    rw [h.invalidationArrays]
    exact hlocated.invalidation g hg r (heq ▸ hr)
  · intro g' hg' r hr
    rw [hg', Option.map_some, eq_comm, Option.map_eq_some_iff] at hc
    obtain ⟨g, hg, heq⟩ := hc
    rw [h.changeArrays]
    exact hlocated.change g hg r (heq ▸ hr)
  · cases hhelp : m.helper with
    | generic id =>
      obtain ⟨g, hg⟩ := hlocated.generic id hhelp
      rw [current_eq hhelp hg, Option.map_some, Option.map_eq_some_iff] at hi hc
      obtain ⟨g', hg', hi⟩ := hi
      obtain ⟨_, hg'', hc⟩ := hc
      obtain rfl := Option.some.inj (hg'.symm.trans hg'')
      have hhelp' := (h.helper id).mpr hhelp
      rw [current, hhelp'] at hg'
      rw [view_eq hhelp hg] at hview
      rw [view_eq hhelp' hg']
      refine ⟨?_, ?_⟩
      · simp only [valueOf, h.invalidationArrays, hi]
        exact hview.1
      · simp only [valueOf, h.changeArrays, hc]
        exact hview.2
    | _ => exact h.single (current_eq_none (by simp [hhelp])) is cs hview

theorem map_getElem?_modify {α : Type} {field : GenericObject V → α}
    {change : GenericObject V → GenericObject V} (h : ∀ g, field (change g) = field g)
    (generics : List (GenericObject V)) (id id' : Nat) :
    (generics.modify id change)[id']?.map field = generics[id']?.map field := by
  rw [getElem?_modify]
  rcases generics[id']? with _ | g
  · rfl
  · by_cases hid : id = id'
    · simp [hid, h]
    · simp [hid]

theorem modifyGeneric (m : Machine I C V) (id : Nat) (change : GenericObject V → GenericObject V)
    (hi : ∀ g, (change g).invalidation = g.invalidation)
    (hc : ∀ g, (change g).change = g.change) (env : Surroundings I C V)
    (frames : List (Frame I C V)) :
    m.Agrees { m.modifyGeneric id change with env := env, frames := frames } := by
  refine ⟨rfl, rfl, fun _ => Iff.rfl, map_getElem?_modify hi m.generics id,
    map_getElem?_modify hc m.generics id, ?_⟩
  · intro hnone is cs hview
    cases hhelp : m.helper with
    | generic id' =>
      simp only [current, hhelp] at hnone
      have hnone' : (m.generics.modify id change)[id']? = none := by
        rw [getElem?_modify, hnone]
        rfl
      simpa [view, hhelp, hnone, hnone', Machine.modifyGeneric] using hview
    | _ => simpa [view, hhelp, Machine.modifyGeneric] using hview

theorem frames (m : Machine I C V) (env : Surroundings I C V) (frames : List (Frame I C V)) :
    m.Agrees { m with env := env, frames := frames } := by
  refine ⟨rfl, rfl, fun _ => Iff.rfl, fun _ => rfl, fun _ => rfl, ?_⟩
  intro _ is cs hview
  exact hview

end Machine.Agrees

theorem Machine.agrees_singleChange {listener : C} {oldValue : Option V}
    (h : m.helper = .singleChange listener oldValue) (newValue : Option V) :
    m.Agrees { m with helper := .singleChange listener newValue } := by
  refine ⟨rfl, rfl, by simp [h], fun _ => rfl, fun _ => rfl, ?_⟩
  intro _ is cs hview
  simp only [view, h] at hview ⊢
  exact hview

end

/-- The registered listeners have been called, each once and in order; the change
listeners only if the class finds that the value has changed. -/
def Report.Exact (cls : HelperClass) (equals : V → Option V → Bool) (r : Report I C V) : Prop :=
  ∃ is cs, r.start.Represents is cs ∧ r.invalidated = is.map some ∧
    r.changed = if cls.hasChanged equals r.oldValue r.newValue then cs.map some else []

def Event.Exact (cls : HelperClass) (equals : V → Option V → Bool) : Event I C V → Prop
  | .edited _ _ => True
  | .fired report => report.Exact cls equals

def Event.Harmless : Event I C V → Prop
  | .edited before edit => before.Harmless edit
  | .fired _ => True

section

variable (cls : HelperClass) (equals : V → Option V → Bool)

def Grows (st st' : State I C V) (p : Prop) : Prop :=
  ∃ events, st'.log = st.log ++ events ∧ ((∀ e ∈ events, e.Harmless) →
    (∀ e ∈ events, e.Exact cls equals) ∧ p)

def KeepsFrames (frames : List (Frame I C V)) (m m' : Machine I C V) : Prop :=
  ∀ f ∈ frames, ∀ is cs, f.Holds m is cs → f.Holds m' is cs

/-- A piece of code that comes back and does not disturb the calls going on. -/
def Behaves (code : State I C V → Outcome (State I C V)) : Prop :=
  ∀ st, st.Valid → ∃ st', code st = .ok st' ∧ st'.Valid ∧ st'.frames = st.frames ∧
    Grows cls equals st st' (KeepsFrames st.frames st.toMachine st'.toMachine)

variable {cls equals}

variable {st st' : State I C V}

theorem Grows.of_log_eq (h : st'.log = st.log) {p : Prop} (hp : p) :
    Grows cls equals st st' p :=
  ⟨[], by rw [h, append_nil], fun _ => ⟨by simp, hp⟩⟩

theorem Grows.trans {st₁ st₂ : State I C V} {p q r : Prop} (h₁ : Grows cls equals st st₁ p)
    (h₂ : Grows cls equals st₁ st₂ q) (hr : p → q → r) : Grows cls equals st st₂ r := by
  obtain ⟨events₁, hlog₁, h₁⟩ := h₁
  obtain ⟨events₂, hlog₂, h₂⟩ := h₂
  refine ⟨events₁ ++ events₂, by rw [hlog₂, hlog₁, append_assoc], ?_⟩
  intro hharmless
  obtain ⟨hexact₁, hp⟩ := h₁ fun e he => hharmless e (mem_append_left _ he)
  obtain ⟨hexact₂, hq⟩ := h₂ fun e he => hharmless e (mem_append_right _ he)
  refine ⟨?_, hr hp hq⟩
  intro e he
  rcases mem_append.mp he with he | he
  · exact hexact₁ e he
  · exact hexact₂ e he

theorem Grows.mono {p q : Prop} (h : Grows cls equals st st' p) (hq : p → q) :
    Grows cls equals st st' q := by
  obtain ⟨events, hlog, h⟩ := h
  exact ⟨events, hlog, fun hharmless => ⟨(h hharmless).1, hq (h hharmless).2⟩⟩

theorem Grows.record {p : Prop} {event : Event I C V} (h : Grows cls equals st st' p)
    (hevent : p → event.Exact cls equals) :
    Grows cls equals st (st'.record event) p := by
  obtain ⟨events, hlog, h⟩ := h
  refine ⟨events ++ [event], by rw [State.record, hlog, append_assoc], ?_⟩
  intro hharmless
  obtain ⟨hexact, hp⟩ := h fun e he => hharmless e (mem_append_left _ he)
  refine ⟨?_, hp⟩
  intro e he
  rcases mem_append.mp he with he | he
  · exact hexact e he
  · obtain rfl := mem_singleton.mp he
    exact hevent hp

theorem KeepsFrames.trans {frames : List (Frame I C V)} {m m₁ m₂ : Machine I C V}
    (h₁ : KeepsFrames frames m m₁) (h₂ : KeepsFrames frames m₁ m₂) : KeepsFrames frames m m₂ :=
  fun f hf is cs hholds => h₂ f hf is cs (h₁ f hf is cs hholds)

theorem Machine.Agrees.keepsFrames {m m' : Machine I C V} (h : m.Agrees m')
    (frames : List (Frame I C V)) : KeepsFrames frames m m' :=
  fun _ _ _ _ hholds => h.holds hholds

/-- What the proof about a loop needs to know about its side. -/
structure Side.Lawful (side : Side I C V L) (pick : List I → List C → List L) : Prop where
  intact : ∀ {m : Machine I C V} {is cs} {f : Frame I C V}, f.Holds m is cs →
    ∃ current, (side.cursor f).Intact (side.arrays m) current (pick is cs)
  advance : ∀ {m : Machine I C V} {is cs} {f : Frame I C V} {next : Nat}, f.Holds m is cs →
    (side.cursor f).next ≤ next → (side.advance next f).Holds m is cs
  cursor : ∀ (f : Frame I C V) next,
    side.cursor (side.advance next f) = { side.cursor f with next := next }
  twice : ∀ (f : Frame I C V) k n, side.advance n (side.advance k f) = side.advance n f
  same : ∀ f : Frame I C V, side.advance (side.cursor f).next f = f

theorem lawful_invalidationSide :
    (invalidationSide : Side I C V I).Lawful fun is _ => is where
  intact hholds := ⟨_, hholds.invalidation⟩
  advance hholds hnext := ⟨hholds.start, hholds.invalidation.advance hnext, hholds.change⟩
  cursor _ _ := rfl
  twice _ _ _ := rfl
  same _ := rfl

theorem lawful_changeSide : (changeSide : Side I C V C).Lawful fun _ cs => cs where
  intact hholds := ⟨_, hholds.change⟩
  advance hholds hnext := ⟨hholds.start, hholds.invalidation, hholds.change.advance hnext⟩
  cursor _ _ := rfl
  twice _ _ _ := rfl
  same _ := rfl

theorem callListener_behaves {respond : L → State I C V → Outcome (State I C V)}
    (hresp : ∀ listener, Behaves cls equals (respond listener)) (slot : Option L) :
    Behaves cls equals (callListener respond slot) := by
  rcases slot with _ | listener
  · intro st hst
    exact ⟨st, rfl, hst, rfl, .of_log_eq rfl fun _ _ _ _ hholds => hholds⟩
  · exact hresp listener

theorem notifyEach_spec {side : Side I C V L} {pick : List I → List C → List L}
    (hside : side.Lawful pick) {respond : Nat → L → State I C V → Outcome (State I C V)}
    (hresp : ∀ index listener, Behaves cls equals (respond index listener)) (count : Nat) :
    ∀ (index : Nat) (st : State I C V) (f : Frame I C V) (fs : List (Frame I C V)), st.Valid →
      st.frames = f :: fs → (side.cursor f).next = index → index + count = (side.cursor f).size →
      ∃ st' told, notifyEach side respond count index st = .ok (st', told) ∧ st'.Valid ∧
        st'.frames = side.advance (index + count) f :: fs ∧
        Grows cls equals st st' (KeepsFrames fs st.toMachine st'.toMachine ∧
          ∀ is cs, f.Holds st.toMachine is cs →
            (side.advance (index + count) f).Holds st'.toMachine is cs ∧
              told = ((pick is cs).drop index).map some) := by
  induction count with
  | zero =>
    intro index st f fs hst hframes hnext hsize
    refine ⟨st, [], rfl, hst, ?_, .of_log_eq rfl ⟨fun _ _ _ _ hholds => hholds, ?_⟩⟩
    · rw [hframes, Nat.add_zero, ← hnext, hside.same]
    · intro is cs hholds
      obtain ⟨current, hintact⟩ := hside.intact hholds
      refine ⟨?_, ?_⟩
      · rw [Nat.add_zero, ← hnext, hside.same]
        exact hholds
      · rw [drop_eq_nil_of_le (by rw [← hintact.size]; omega), map_nil]
  | succ count ih =>
    intro index st f fs hst hframes hnext hsize
    have hread : side.readSlot index st =
        (slotAt (side.arrays st.toMachine) (side.cursor f).ref index,
          { st with frames := side.advance (index + 1) f :: fs }) := by
      rw [Side.readSlot, hframes]
    have hagrees := Machine.Agrees.frames st.toMachine st.env (side.advance (index + 1) f :: fs)
    obtain ⟨st₁, hcall, hst₁, hframes₁, hgrows₁⟩ :=
      callListener_behaves (hresp index)
        (slotAt (side.arrays st.toMachine) (side.cursor f).ref index)
        { st with frames := side.advance (index + 1) f :: fs } (hagrees.valid hst)
    have hcursor := hside.cursor f (index + 1)
    obtain ⟨st₂, told, hrun, hst₂, hframes₂, hgrows₂⟩ :=
      ih (index + 1) st₁ (side.advance (index + 1) f) fs hst₁ hframes₁
        (by rw [hcursor]) (by rw [hcursor]; simp only; omega)
    rw [hside.twice, show index + 1 + count = index + (count + 1) by omega] at hframes₂ hgrows₂
    refine ⟨st₂, slotAt (side.arrays st.toMachine) (side.cursor f).ref index :: told, ?_, hst₂,
      hframes₂, ?_⟩
    · simp only [notifyEach, hread, hcall, ok_bind, hrun]
    · refine hgrows₁.trans hgrows₂ ?_
      rintro hkeeps₁ ⟨hkeeps₂, htold⟩
      refine ⟨?_, ?_⟩
      · intro g hg is cs hholds
        exact hkeeps₂ g hg is cs
          (hkeeps₁ g (mem_cons_of_mem _ hg) is cs (hagrees.holds hholds))
      · intro is cs hholds
        obtain ⟨current, hintact⟩ := hside.intact hholds
        have hadvanced := hagrees.holds (hside.advance hholds (by omega : _ ≤ index + 1))
        obtain ⟨hholds₂, rfl⟩ := htold is cs (hkeeps₁ _ mem_cons_self is cs hadvanced)
        have hlt : index < (pick is cs).length := by
          rw [← hintact.size]
          omega
        refine ⟨hholds₂, ?_⟩
        rw [hintact.slots index hnext.le (by omega), drop_eq_getElem_cons hlt,
          map_cons, getElem?_eq_getElem hlt]

theorem takeValue_agrees (id : Nat) (st : State I C V) :
    st.Agrees (takeValue id st).2.toMachine :=
  .modifyGeneric st.toMachine id (fun g => { g with currentValue := st.env.value })
    (fun _ => rfl) (fun _ => rfl) st.env st.frames

theorem notifyChange_spec {respond : Nat → C → State I C V → Outcome (State I C V)}
    (hresp : ∀ index listener, Behaves cls equals (respond index listener)) (id : Nat)
    (start : Helper I C V) (hst : st.Valid) {f : Frame I C V} {fs : List (Frame I C V)}
    (hframes : st.frames = f :: fs) (hnext : f.change.next = 0) {size : Nat}
    (hf : f.change.size = size) (invalidated : List (Option I)) :
    ∃ st' f' oldValue newValue changed,
      notifyChange cls equals respond id size start st invalidated =
        .ok (st', ⟨start, invalidated, oldValue, newValue, changed⟩) ∧ st'.Valid ∧
      st'.frames = f' :: fs ∧
      Grows cls equals st st' (KeepsFrames fs st.toMachine st'.toMachine ∧
        ∀ is cs, f.Holds st.toMachine is cs →
          changed = if cls.hasChanged equals oldValue newValue then cs.map some else []) := by
  have hagrees := takeValue_agrees id st
  by_cases hsize : 0 < size
  · rcases hchanged : cls.hasChanged equals (takeValue id st).1 st.env.value with _ | _
    · refine ⟨(takeValue id st).2, f, (takeValue id st).1, st.env.value, [], ?_,
        hagrees.valid hst, hframes, .of_log_eq rfl ⟨hagrees.keepsFrames fs, ?_⟩⟩
      · simp [notifyChange, hsize, hchanged]
      · intro is cs _
        rw [hchanged, if_neg (by simp)]
    · obtain ⟨st', told, hrun, hst', hframes', hgrows⟩ :=
        notifyEach_spec lawful_changeSide hresp size 0 (takeValue id st).2 f fs
          (hagrees.valid hst) hframes hnext ((Nat.zero_add _).trans hf.symm)
      refine ⟨st', _, (takeValue id st).1, st.env.value, told, ?_, hst', hframes', ?_⟩
      · simp only [notifyChange, hsize, hchanged, if_true, hrun, ok_bind]
      · have htake : Grows cls equals st (takeValue id st).2 True := .of_log_eq rfl trivial
        refine htake.trans hgrows ?_
        rintro - ⟨hkeeps, htold⟩
        refine ⟨(hagrees.keepsFrames fs).trans hkeeps, ?_⟩
        intro is cs hholds
        rw [hchanged, if_pos rfl, (htold is cs (hagrees.holds hholds)).2, drop_zero]
  · refine ⟨st, f, none, none, [], by simp only [notifyChange, hsize, if_false], hst, hframes,
      .of_log_eq rfl ⟨fun _ _ _ _ hholds => hholds, ?_⟩⟩
    intro is cs hholds
    have hnil : cs = [] := eq_nil_of_length_eq_zero (by
      have := hholds.change.size
      omega)
    rw [hnil, map_nil, ite_self]

theorem intact_cursor {arrays : Arrays L} {s : Slots} {ls : List L}
    (h : (s.listeners arrays).Represents ls) (hs : ∀ r ∈ s.ref, r < arrays.length) :
    s.cursor.Intact arrays (some s) ls := by
  obtain ⟨ref, size⟩ := s
  obtain ⟨hsize, harray⟩ := h
  simp only [Slots.listeners] at hsize harray
  refine ⟨hsize, hs, ?_, ?_⟩
  · intro index _ hlt
    simp only [Slots.cursor] at hlt ⊢
    rcases ref with _ | r
    · simp only [Option.bind_none] at harray
      simp [slotAt, harray]
    · have hget := getElem?_eq_getElem (hs r rfl)
      rw [Option.bind_some, hget] at harray
      obtain ⟨rest, harray⟩ := harray
      simp only [slotAt, Option.bind_eq_bind, Option.bind_some, hget, harray]
      rw [getElem?_append_left (by rw [length_map]; omega), getElem?_map]
      cases ls[index]? <;> rfl
  · intro s' hs' _ _ _
    obtain rfl := Option.some.inj hs'
    exact .inl le_rfl

variable {respond : Nat → I ⊕ C → State I C V → Outcome (State I C V)}

theorem fireGeneric_behaves
    (hresp : ∀ index listener, Behaves cls equals (respond index listener)) {id : Nat}
    {g : GenericObject V} (hst : st.Valid) (hid : st.helper = .generic id)
    (hg : st.generics[id]? = some g) :
    ∃ st', fireGeneric cls equals respond id g st = .ok st' ∧ st'.Valid ∧
      st'.frames = st.frames ∧
      Grows cls equals st st' (KeepsFrames st.frames st.toMachine st'.toMachine) := by
  have henter : st.Agrees (enter id g st).toMachine :=
    .modifyGeneric st.toMachine id (fun g => { g with locked := true })
      (fun _ => rfl) (fun _ => rfl) st.env _
  have hlocated := hst.1
  obtain ⟨is, cs, hview⟩ := hst.2
  have hcur := Machine.current_eq hid hg
  obtain ⟨hi, hc⟩ := Machine.represents_valueOf hid hg hview
  have hholds : Frame.Holds (enter id g st).toMachine is cs
      ⟨g.invalidation.cursor, g.change.cursor, st.view⟩ := by
    refine henter.holds ⟨hview, ?_, ?_⟩
    · rw [hcur]
      exact intact_cursor hi (hlocated.invalidation g hcur)
    · rw [hcur]
      exact intact_cursor hc (hlocated.change g hcur)
  obtain ⟨st₁, told, hrun₁, hst₁, hframes₁, hgrows₁⟩ :=
    notifyEach_spec lawful_invalidationSide (fun index listener => hresp index (.inl listener))
      g.invalidation.size 0 (enter id g st) _ st.frames (henter.valid hst) rfl rfl
      (Nat.zero_add _)
  obtain ⟨st₂, f, oldValue, newValue, changed, hrun₂, hst₂, hframes₂, hgrows₂⟩ :=
    notifyChange_spec (fun index listener => hresp index (.inr listener)) id st.view hst₁
      hframes₁ rfl (show _ = g.change.size from rfl) told
  have hleave : st₂.Agrees (leave id st₂).toMachine :=
    .modifyGeneric st₂.toMachine id (fun g => { g with locked := false })
      (fun _ => rfl) (fun _ => rfl) st₂.env _
  refine ⟨(leave id st₂).record (.fired ⟨st.view, told, oldValue, newValue, changed⟩), ?_,
    hleave.valid hst₂, ?_, ?_⟩
  · rw [fireGeneric, hrun₁, ok_bind]
    simp only
    rw [hrun₂, ok_bind]
  · rw [show st.frames = st₂.frames.tail by rw [hframes₂, tail_cons]]
    rfl
  · have hgrows : Grows cls equals (enter id g st) st₂
        (KeepsFrames st.frames (enter id g st).toMachine st₂.toMachine ∧
          Report.Exact cls equals ⟨st.view, told, oldValue, newValue, changed⟩) := by
      refine hgrows₁.trans hgrows₂ ?_
      rintro ⟨hkeeps₁, htold⟩ ⟨hkeeps₂, hchanged⟩
      obtain ⟨hholds₁, htold⟩ := htold is cs hholds
      exact ⟨hkeeps₁.trans hkeeps₂, is, cs, hview, by rw [htold, drop_zero],
        hchanged is cs hholds₁⟩
    have hstart : Grows cls equals st (enter id g st) True := .of_log_eq rfl trivial
    have hend : Grows cls equals st₂ (leave id st₂) True := .of_log_eq rfl trivial
    have hall := (hstart.trans hgrows fun _ h => h).trans hend fun h _ => h
    refine Grows.mono (hall.record fun h => h.2) ?_
    rintro ⟨hkeeps, -⟩
    exact ((henter.keepsFrames _).trans hkeeps).trans (hleave.keepsFrames _)

theorem fireValueChangedEvent_behaves
    (hresp : ∀ index listener, Behaves cls equals (respond index listener)) :
    Behaves cls equals (fireValueChangedEvent cls equals respond) := by
  intro st hst
  rw [fireValueChangedEvent]
  cases hhelp : st.helper with
  | null => exact ⟨st, rfl, hst, rfl, .of_log_eq rfl fun _ _ _ _ hholds => hholds⟩
  | singleInvalidation listener =>
    obtain ⟨st', hrun, hst', hframes, hgrows⟩ := hresp 0 (.inl listener) st hst
    refine ⟨st'.record (.fired ⟨st.view, [some listener], none, none, []⟩),
      by simp only [hrun, ok_bind], hst', hframes, hgrows.record fun _ => ?_⟩
    exact ⟨[listener], [], by simp [Machine.view, hhelp, Helper.Represents], rfl, by simp⟩
  | singleChange listener oldValue =>
    have hagrees := Machine.agrees_singleChange hhelp st.env.value
    have hview : st.view.Represents [] [listener] := by
      simp [Machine.view, hhelp, Helper.Represents]
    rcases hchanged : cls.hasChanged equals oldValue st.env.value with _ | _
    · refine ⟨State.record { st with helper := .singleChange listener st.env.value }
          (.fired ⟨st.view, [], oldValue, st.env.value, []⟩), by simp [hchanged],
        hagrees.valid hst, rfl,
        Grows.record (.of_log_eq rfl (hagrees.keepsFrames st.frames)) fun _ => ?_⟩
      exact ⟨[], [listener], hview, rfl, by simp [hchanged]⟩
    · obtain ⟨st', hrun, hst', hframes, hgrows⟩ := hresp 0 (.inr listener)
        { st with helper := .singleChange listener st.env.value } (hagrees.valid hst)
      have hgrows' : Grows cls equals st st'
          (KeepsFrames st.frames st.toMachine st'.toMachine) := by
        obtain ⟨events, hlog, hgrows⟩ := hgrows
        refine ⟨events, hlog, fun hharmless => ⟨(hgrows hharmless).1, ?_⟩⟩
        exact (hagrees.keepsFrames _).trans (hgrows hharmless).2
      refine ⟨st'.record (.fired ⟨st.view, [], oldValue, st.env.value, [some listener]⟩),
        by simp only [hchanged, if_true, hrun, ok_bind], hst', hframes,
        hgrows'.record fun _ => ?_⟩
      exact ⟨[], [listener], hview, rfl, by simp [hchanged]⟩
  | generic id =>
    obtain ⟨g, hg⟩ := hst.1.generic id hhelp
    simp only [hg]
    exact fireGeneric_behaves hresp hst hhelp hg

variable (cls equals) in
theorem run_behaves (script : Script I C V) : Behaves cls equals (run cls equals script) := by
  induction script with
  | done => exact fun st hst => ⟨st, rfl, hst, rfl, .of_log_eq rfl fun _ _ _ _ hholds => hholds⟩
  | edit edit rest ih =>
    intro st hst
    obtain ⟨m, hedit, hm, hframes, hkeeps⟩ := Machine.edit_spec hst edit
    obtain ⟨st', hrun, hst', hframes', hgrows⟩ :=
      ih { toMachine := m, log := st.log ++ [.edited st.toMachine edit] } hm
    refine ⟨st', by rw [run, hedit, ok_bind, hrun], hst', hframes'.trans hframes, ?_⟩
    have hstep : Grows cls equals st
        { toMachine := m, log := st.log ++ [.edited st.toMachine edit] }
        (KeepsFrames st.frames st.toMachine m) := by
      refine ⟨[.edited st.toMachine edit], rfl, fun hharmless => ⟨by simp [Event.Exact], ?_⟩⟩
      exact hkeeps (hharmless _ (mem_singleton.mpr rfl))
    refine hstep.trans hgrows ?_
    intro hkeeps₁ hkeeps₂
    rw [hframes] at hkeeps₂
    exact hkeeps₁.trans hkeeps₂
  | surround env rest ih =>
    intro st hst
    have hagrees := Machine.Agrees.frames st.toMachine env st.frames
    obtain ⟨st', hrun, hst', hframes, events, hlog, hgrows⟩ :=
      ih { st with env := env } (hagrees.valid hst)
    refine ⟨st', hrun, hst', hframes, events, hlog,
      fun hharmless => ⟨(hgrows hharmless).1, ?_⟩⟩
    exact (hagrees.keepsFrames _).trans (hgrows hharmless).2
  | fire respond rest ihrespond ih =>
    intro st hst
    obtain ⟨st₁, hfire, hst₁, hframes₁, hgrows₁⟩ := fireValueChangedEvent_behaves ihrespond st hst
    obtain ⟨st₂, hrun, hst₂, hframes₂, hgrows₂⟩ := ih st₁ hst₁
    refine ⟨st₂, by rw [run, hfire, ok_bind, hrun], hst₂, hframes₂.trans hframes₁, ?_⟩
    refine hgrows₁.trans hgrows₂ ?_
    intro hkeeps₁ hkeeps₂
    rw [hframes₁] at hkeeps₂
    exact hkeeps₁.trans hkeeps₂

end

/-- A script on an observable that has no listeners yet always runs to its end. If
none of its calls overwrites a slot that a loop has still to read, every call of
`fireValueChangedEvent` notifies the listeners registered at its start. -/
theorem fire_notifies_snapshot (cls : HelperClass) (equals : V → Option V → Bool)
    (env : Surroundings I C V) (script : Script I C V) :
    ∃ st, run cls equals script (State.initial env) = .ok st ∧
      ((∀ before edit, .edited before edit ∈ st.log → before.Harmless edit) →
        ∀ report, .fired report ∈ st.log → report.Exact cls equals) := by
  have hvalid : (State.initial env : State I C V).Valid := by
    refine ⟨⟨by simp [State.initial], ?_, ?_⟩, [], [], rfl, rfl⟩
    · simp [State.initial, Machine.current]
    · simp [State.initial, Machine.current]
  obtain ⟨st, hrun, -, -, events, hlog, hgrows⟩ := run_behaves cls equals script _ hvalid
  refine ⟨st, hrun, ?_⟩
  intro hedits report hreport
  have hst : st.log = events := by rw [hlog, State.initial, nil_append]
  rw [hst] at hedits hreport
  refine (hgrows ?_).1 _ hreport
  rintro (⟨before, edit⟩ | report) he
  · exact hedits before edit he
  · trivial

def threeListeners (first : Script Nat Nat Nat) : Script Nat Nat Nat :=
  .edit (.addChangeListener 1) <| .edit (.addChangeListener 2) <| .edit (.addChangeListener 3) <|
    .fire (fun index _ => if index = 0 then first else .done) .done

def plainSurroundings : Surroundings Nat Nat Nat :=
  ⟨(· == ·), (· == ·), fun _ => false, fun _ => false, none⟩

/-- The first listener removes itself and adds another one. -/
theorem fire_notifies_snapshot_removal :
    ∃ st, run .listListenerHelper (fun a b => some a == b)
        (threeListeners (.edit (.removeChangeListener 1) (.edit (.addChangeListener 4) .done)))
        (State.initial plainSurroundings) = .ok st ∧
      ∀ report, .fired report ∈ st.log →
        report.Exact .listListenerHelper (fun a b => some a == b) := by
  obtain ⟨st, hrun, h⟩ := fire_notifies_snapshot .listListenerHelper (fun a b => some a == b)
    plainSurroundings
    (threeListeners (.edit (.removeChangeListener 1) (.edit (.addChangeListener 4) .done)))
  refine ⟨st, hrun, h ?_⟩
  obtain rfl := Except.ok.inj hrun
  intro before edit hmem
  -- the first three calls find no loop, the other two a locked helper
  iterate 3
    rcases mem_cons.mp hmem with h | hmem
    · injection h with h₁ h₂
      subst h₁ h₂
      exact fun _ _ _ hf => by cases hf
  iterate 2
    rcases mem_cons.mp hmem with h | hmem
    · injection h with h₁ h₂
      subst h₁ h₂
      intro g hg f hf
      constructor
      · rintro - k ⟨⟩
      · rintro - k ⟨⟩
  rcases mem_cons.mp hmem with h | hmem
  · cases h
  · cases hmem

/-- The first listener fires another event and then removes itself. The nested call
has unlocked the helper, so the array is overwritten under the outer call, which
skips the second listener and runs into an empty slot. -/
theorem fire_not_notifies_snapshot :
    ∃ st report, run .listListenerHelper (fun a b => some a == b)
        (threeListeners (.fire (fun _ _ => .done) (.edit (.removeChangeListener 1) .done)))
        (State.initial plainSurroundings) = .ok st ∧
      .fired report ∈ st.log ∧ report.start.Represents [] [1, 2, 3] ∧
      report.changed = [some 1, some 3, none] ∧
      ¬ report.Exact .listListenerHelper (fun a b => some a == b) := by
  refine ⟨_, ⟨.generic ⟨⟨none, 0⟩, ⟨some [some 1, some 2, some 3, none], 3⟩, false, none⟩, [], none,
    none, [some 1, some 3, none]⟩, rfl, mem_of_getElem? (i := 5) rfl, ?_, rfl, ?_⟩
  · exact ⟨⟨rfl, rfl⟩, rfl, [none], rfl⟩
  · rintro ⟨is, cs, -, -, hchanged⟩
    have hnone : none ∈ cs.map some := by
      rw [show cs.map some = [some 1, some 3, none] from hchanged.symm]
      simp
    simp at hnone

end OpenJfx.Binding.Notification
