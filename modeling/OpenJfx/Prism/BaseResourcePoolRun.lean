import OpenJfx.Prism.BaseResourcePool
import Mathlib.Algebra.Order.BigOperators.Group.List

namespace OpenJfx.Prism

open Data List

namespace BaseResourcePool

structure Books (p : BaseResourcePool) (away : Option Nat) : Prop where
  managed : p.managedSize = (p.linked.map fun link => (link.size : Int)).sum
  distinct : (p.linked.map Link.resource).Nodup
  known : ∀ link ∈ p.linked, link.resource < p.created
  listed : ∀ id, (p.resources id).hasResource = true → (p.resources id).collected = false →
    id ∈ p.linked.map Link.resource
  live : ∀ link ∈ p.linked, (p.resources link.resource).collected = false →
    some link.resource ≠ away → (p.resources link.resource).hasResource = true
  unused : ∀ id, p.created ≤ id → p.resources id = .unused
  freed : ∀ id, (p.resources id).frees ≤ 1 ∧
    ((p.resources id).hasResource = true → (p.resources id).frees = 0)
  accounted : ∀ e ∈ p.thrown, e = .illegalTarget
  spared : ∀ f ∈ p.freedByCleanup,
    f.disposalRequested = true ∨ f.locked = false ∧ f.permanent = false

inductive Settled (p : BaseResourcePool) : Control → Prop
  | idle (books : p.Books none) : Settled p .idle
  | freeing {freed index : Nat} (books : p.Books (some freed))
      (alive : (p.resources freed).collected = false)
      (disposed : (p.resources freed).hasResource = false)
      (ahead : freed ∈ (p.linked.drop index).map Link.resource) :
      Settled p (.freeing freed index)
  | start {traversal : Traversal} {index : Nat} (books : p.Books none) :
      Settled p (.traversing traversal index .start)
  | holding {traversal : Traversal} {index id : Nat} (books : p.Books none)
      (alive : (p.resources id).collected = false)
      (current : p.linked[index]?.map Link.resource = some id) :
      Settled p (.traversing traversal index (.holding id))
  | unrequested {traversal : Traversal} {index id : Nat} (books : p.Books none)
      (alive : (p.resources id).collected = false)
      (current : p.linked[index]?.map Link.resource = some id)
      (read : (p.resources id).disposalRequested = false) :
      Settled p (.traversing traversal index (.unrequested id))

section

variable {p : BaseResourcePool} {away : Option Nat} {id index : Nat} {link : Link}

theorem books_new (target max : Int) : (new target max).Books none := by
  constructor <;> simp [new, ManagedResource.unused]

theorem Books.congr {p' : BaseResourcePool} (h : p.Books away)
    (hmanaged : p'.managedSize = p.managedSize) (hlinked : p'.linked = p.linked)
    (hresources : p'.resources = p.resources) (hcreated : p'.created = p.created)
    (hthrown : ∀ e ∈ p'.thrown, e = .illegalTarget)
    (hfreed : ∀ f ∈ p'.freedByCleanup,
      f.disposalRequested = true ∨ f.locked = false ∧ f.permanent = false) : p'.Books away := by
  constructor
  · rw [hmanaged, hlinked, h.managed]
  · rw [hlinked]; exact h.distinct
  · rw [hlinked, hcreated]; exact h.known
  · rw [hresources, hlinked]; exact h.listed
  · rw [hresources, hlinked]; exact h.live
  · rw [hresources, hcreated]; exact h.unused
  · rw [hresources]; exact h.freed
  · exact hthrown
  · exact hfreed

theorem Books.goto (h : p.Books away) (control : Control) : (p.goto control).Books away :=
  h.congr rfl rfl rfl rfl h.accounted h.spared

theorem Books.setTarget (h : p.Books away) (newTarget : Int) :
    (p.setTarget newTarget).Books away := by
  rw [BaseResourcePool.setTarget]
  split
  · refine h.congr rfl rfl rfl rfl ?_ h.spared
    intro e he
    rcases mem_append.mp he with hmem | hmem
    · exact h.accounted e hmem
    · exact mem_singleton.mp hmem
  · exact h.congr rfl rfl rfl rfl h.accounted h.spared

theorem resources_modify_self (p : BaseResourcePool) (id : Nat)
    (f : ManagedResource → ManagedResource) :
    (p.modify id f).resources id = f (p.resources id) :=
  Function.update_self ..

theorem resources_modify_of_ne (p : BaseResourcePool) {id' : Nat} (hne : id' ≠ id)
    (f : ManagedResource → ManagedResource) :
    (p.modify id f).resources id' = p.resources id' :=
  Function.update_of_ne hne ..

theorem modify_modify (p : BaseResourcePool) (id : Nat)
    (f g : ManagedResource → ManagedResource) :
    (p.modify id f).modify id g = p.modify id fun mr => g (f mr) := by
  simp [modify]

/-- A change of a resource that leaves alone whether it is there and how often it was freed. -/
structure Harmless (f : ManagedResource → ManagedResource) : Prop where
  hasResource : ∀ mr, (f mr).hasResource = mr.hasResource
  collected : ∀ mr, mr.collected = true → (f mr).collected = true
  frees : ∀ mr, (f mr).frees = mr.frees

theorem Books.modify (h : p.Books away) (hid : id < p.created)
    {f : ManagedResource → ManagedResource} (hf : Harmless f) : (p.modify id f).Books away := by
  have hhas : ∀ id', ((p.modify id f).resources id').hasResource =
      (p.resources id').hasResource := by
    intro id'
    by_cases hsame : id' = id
    · rw [hsame, resources_modify_self, hf.hasResource]
    · rw [resources_modify_of_ne p hsame]
  have hfrees : ∀ id', ((p.modify id f).resources id').frees = (p.resources id').frees := by
    intro id'
    by_cases hsame : id' = id
    · rw [hsame, resources_modify_self, hf.frees]
    · rw [resources_modify_of_ne p hsame]
  have halive : ∀ id', ((p.modify id f).resources id').collected = false →
      (p.resources id').collected = false := by
    intro id' hcoll
    by_cases hsame : id' = id
    · rw [hsame, resources_modify_self] at hcoll
      by_contra hgone
      rw [hsame, Bool.not_eq_false] at hgone
      rw [hf.collected _ hgone] at hcoll
      cases hcoll
    · rw [resources_modify_of_ne p hsame] at hcoll
      exact hcoll
  refine ⟨h.managed, h.distinct, h.known, ?_, ?_, ?_, ?_, h.accounted, h.spared⟩
  · intro id' hhas' hcoll
    rw [hhas] at hhas'
    exact h.listed id' hhas' (halive id' hcoll)
  · intro link hlink hcoll haway
    rw [hhas]
    exact h.live link hlink (halive _ hcoll) haway
  · intro id' hid'
    have hne : id' ≠ id := fun hsame => absurd hid (not_lt.mpr (hsame ▸ hid'))
    rw [resources_modify_of_ne p hne]
    exact h.unused id' hid'
  · intro id'
    rw [hhas, hfrees]
    exact h.freed id'

theorem Books.free (h : p.Books none) (hid : id < p.created)
    (hhas : (p.resources id).hasResource = true) :
    (p.modify id ManagedResource.free).Books (some id) := by
  refine ⟨h.managed, h.distinct, h.known, ?_, ?_, ?_, ?_, h.accounted, h.spared⟩
  · intro id' hhas' hcoll
    by_cases hsame : id' = id
    · rw [hsame, resources_modify_self] at hhas'
      cases hhas'
    · rw [resources_modify_of_ne p hsame] at hhas' hcoll
      exact h.listed id' hhas' hcoll
  · intro link hlink hcoll haway
    have hne : link.resource ≠ id := fun hsame => haway (by rw [hsame])
    rw [resources_modify_of_ne p hne] at hcoll ⊢
    exact h.live link hlink hcoll (by simp)
  · intro id' hid'
    have hne : id' ≠ id := fun hsame => absurd hid (not_lt.mpr (hsame ▸ hid'))
    rw [resources_modify_of_ne p hne]
    exact h.unused id' hid'
  · intro id'
    by_cases hsame : id' = id
    · rw [hsame, resources_modify_self]
      have hfrees := (h.freed id).2 hhas
      exact ⟨by change (p.resources id).frees + 1 ≤ 1; omega, by simp [ManagedResource.free]⟩
    · rw [resources_modify_of_ne p hsame]
      exact h.freed id'

theorem Books.freeIn (h : p.Books none) (hid : id < p.created)
    (hhas : (p.resources id).hasResource = true) (traversal : Traversal)
    (hspared : (p.resources id).disposalRequested = true ∨
      (p.resources id).isLocked = false ∧ (p.resources id).permanent = false) :
    (p.freeIn traversal id).Books (some id) := by
  have hfree := h.free hid hhas
  rcases traversal with c | forgiveStaleLocks
  · refine hfree.congr rfl rfl rfl rfl h.accounted ?_
    intro f hf
    rcases mem_append.mp hf with hmem | hmem
    · exact h.spared f hmem
    · rw [mem_singleton.mp hmem]
      exact hspared
  · exact hfree

theorem sizes_nonneg (links : List Link) : 0 ≤ (links.map fun link => (link.size : Int)).sum := by
  apply sum_nonneg
  intro n hn
  rcases mem_map.mp hn with ⟨link, -, rfl⟩
  exact Int.natCast_nonneg link.size

theorem perm_eraseIdx {links : List Link} (hlink : links[index]? = some link) :
    (link :: links.eraseIdx index).Perm links := by
  rcases List.getElem?_eq_some_iff.mp hlink with ⟨hidx, rfl⟩
  exact getElem_cons_eraseIdx_perm hidx

theorem unlink_eq (h : p.Books away) (hlink : p.linked[index]? = some link) (next : Control) :
    p.unlink index link next =
      { p with
        managedSize := p.managedSize - link.size
        linked := p.linked.eraseIdx index
        control := next } := by
  have hperm := (perm_eraseIdx hlink).map fun link => (link.size : Int)
  have hsum := hperm.sum_eq
  rw [map_cons, sum_cons, ← h.managed] at hsum
  have hrest := sizes_nonneg (p.linked.eraseIdx index)
  rw [unlink, if_neg (by change ¬p.managedSize - link.size < 0; omega)]

theorem Books.unlink {away' : Option Nat} (h : p.Books away)
    (hlink : p.linked[index]? = some link)
    (hgone : (p.resources link.resource).hasResource = true →
      (p.resources link.resource).collected = true)
    (haway : ∀ id, some id ≠ away' → id ≠ link.resource → some id ≠ away) (next : Control) :
    (p.unlink index link next).Books away' := by
  rw [unlink_eq h hlink]
  have hperm := perm_eraseIdx hlink
  have hresources := hperm.map Link.resource
  have hdist := hresources.nodup_iff.mpr h.distinct
  rw [map_cons, nodup_cons] at hdist
  have hmem : ∀ link' ∈ p.linked.eraseIdx index, link' ∈ p.linked := fun link' hlink' =>
    hperm.mem_iff.mp (mem_cons_of_mem link hlink')
  refine ⟨?_, hdist.2, ?_, ?_, ?_, h.unused, h.freed, h.accounted, h.spared⟩
  · have hsum := (hperm.map fun link => (link.size : Int)).sum_eq
    rw [map_cons, sum_cons, ← h.managed] at hsum
    change p.managedSize - link.size =
      ((p.linked.eraseIdx index).map fun link => (link.size : Int)).sum
    omega
  · intro link' hlink'
    exact h.known link' (hmem link' hlink')
  · intro id hhas hcoll
    have hlisted := hresources.mem_iff.mpr (h.listed id hhas hcoll)
    rcases mem_cons.mp hlisted with hsame | hrest
    · rw [hsame] at hhas hcoll
      exact absurd (hgone hhas) (by rw [hcoll]; simp)
    · exact hrest
  · intro link' hlink' hcoll hne
    have hother : link'.resource ≠ link.resource := by
      intro hsame
      apply hdist.1
      rw [← hsame]
      exact mem_map_of_mem hlink'
    exact h.live link' (hmem link' hlink') hcoll (haway _ hne hother)

theorem Books.create (h : p.Books none) (size : Nat) : (p.create size).Books none := by
  have hother : ∀ link ∈ p.linked, link.resource ≠ p.created := fun link hlink =>
    Nat.ne_of_lt (h.known link hlink)
  have hself : (p.create size).resources p.created = .new := Function.update_self ..
  have hrest : ∀ id, id ≠ p.created → (p.create size).resources id = p.resources id :=
    fun id hne => Function.update_of_ne hne ..
  refine ⟨?_, ?_, ?_, ?_, ?_, ?_, ?_, h.accounted, h.spared⟩
  · change p.managedSize + size = _
    rw [h.managed]
    simp [BaseResourcePool.create, add_comm]
  · apply nodup_cons.mpr
    refine ⟨?_, h.distinct⟩
    intro hmem
    rcases mem_map.mp hmem with ⟨link, hlink, hsame⟩
    exact hother link hlink hsame
  · intro link hlink
    rcases mem_cons.mp hlink with rfl | hmem
    · exact Nat.lt_succ_self _
    · exact Nat.lt_succ_of_lt (h.known link hmem)
  · intro id hhas hcoll
    by_cases hsame : id = p.created
    · exact mem_cons.mpr (.inl hsame)
    · rw [hrest id hsame] at hhas hcoll
      exact mem_cons_of_mem _ (h.listed id hhas hcoll)
  · intro link hlink hcoll _
    rcases mem_cons.mp hlink with rfl | hmem
    · rw [hself]
      rfl
    · rw [hrest _ (hother link hmem)] at hcoll ⊢
      exact h.live link hmem hcoll (by simp)
  · intro id hid
    have hne : id ≠ p.created := Nat.ne_of_gt hid
    rw [hrest id hne]
    exact h.unused id (Nat.le_of_succ_le hid)
  · intro id
    by_cases hsame : id = p.created
    · rw [hsame, hself]
      exact ⟨by decide, fun _ => rfl⟩
    · rw [hrest id hsame]
      exact h.freed id

end

/-- The resource whose flag has been read once by the check for it. -/
def checking (p : BaseResourcePool) : Option Nat :=
  match p.control with
  | .traversing _ _ (.unrequested id) => some id
  | .traversing _ _ .start | .traversing _ _ (.holding _) | .freeing _ _ | .idle => none

/-- The condition on the steps of other threads: no disposal is requested for a resource between
the two readings of its flag. -/
def RequestsApart (p : BaseResourcePool) (i : Step) : Prop :=
  ∀ id ∈ p.checking, i ≠ .request id

instance (p : BaseResourcePool) (i : Step) : Decidable (p.RequestsApart i) :=
  inferInstanceAs (Decidable (∀ id ∈ p.checking, i ≠ .request id))

section

variable {p q : BaseResourcePool} {id index : Nat} {link : Link}

theorem Settled.toBooks {control : Control} (h : p.Settled control) : ∃ away, p.Books away := by
  cases h with
  | idle books
  | freeing books _ _ _
  | start books
  | holding books _ _
  | unrequested books _ _ _ => exact ⟨_, books⟩

theorem settled_idle (h : p.Books none) : (p.goto .idle).Settled (p.goto .idle).control :=
  .idle (h.goto .idle)

theorem settled_start (h : p.Books none) (traversal : Traversal) (index : Nat) :
    (p.goto (.traversing traversal index .start)).Settled
      (p.goto (.traversing traversal index .start)).control :=
  .start (h.goto _)

theorem settled_setTarget (h : p.Books none) (newTarget : Int) :
    (p.setTarget newTarget).Settled (p.setTarget newTarget).control := by
  have hbooks := h.setTarget newTarget
  have hctl : (p.setTarget newTarget).control = .idle := by
    rw [setTarget]
    split <;> rfl
  rw [hctl]
  exact .idle hbooks

theorem settled_afterPass (h : p.Books none) (c : Cleanup) :
    (p.afterPass c).Settled (p.afterPass c).control := by
  simp only [afterPass, grow]
  split_ifs
  all_goals first
    | exact settled_idle h
    | exact settled_start h _ _
    | exact settled_setTarget h _

theorem control_unlink {away : Option Nat} (h : p.Books away)
    (hlink : p.linked[index]? = some link) (next : Control) :
    (p.unlink index link next).control = next := by
  rw [unlink_eq h hlink]

theorem settled_unlink {away : Option Nat} (h : p.Books away)
    (hlink : p.linked[index]? = some link)
    (hgone : (p.resources link.resource).hasResource = true →
      (p.resources link.resource).collected = true)
    (haway : ∀ id, id ≠ link.resource → some id ≠ away) (traversal : Traversal) :
    (p.unlink index link (.traversing traversal index .start)).Settled
      (p.unlink index link (.traversing traversal index .start)).control := by
  rw [control_unlink h hlink]
  exact .start (h.unlink hlink hgone (fun id _ => haway id) _)

theorem linked_freeIn (p : BaseResourcePool) (traversal : Traversal) (id : Nat) :
    (p.freeIn traversal id).linked = p.linked := by
  cases traversal <;> rfl

theorem created_freeIn (p : BaseResourcePool) (traversal : Traversal) (id : Nat) :
    (p.freeIn traversal id).created = p.created := by
  cases traversal <;> rfl

theorem resources_freeIn (p : BaseResourcePool) (traversal : Traversal) (id : Nat) :
    (p.freeIn traversal id).resources id = (p.resources id).free := by
  cases traversal <;> exact resources_modify_self ..

theorem settled_unlink_freed (h : p.Books (some link.resource))
    (hlink : p.linked[index]? = some link)
    (hfreed : (p.resources link.resource).hasResource = false) (traversal : Traversal) :
    (p.unlink index link (.traversing traversal index .start)).Settled
      (p.unlink index link (.traversing traversal index .start)).control := by
  apply settled_unlink h hlink
  · intro hthere
    rw [hfreed] at hthere
    cases hthere
  · intro id hne hsame
    exact hne (Option.some.inj hsame)

theorem harmless_lock : Harmless .lock := ⟨fun _ => rfl, fun _ h => h, fun _ => rfl⟩

theorem harmless_unlock : Harmless .unlock := ⟨fun _ => rfl, fun _ h => h, fun _ => rfl⟩

theorem harmless_request : Harmless .request := ⟨fun _ => rfl, fun _ h => h, fun _ => rfl⟩

theorem harmless_unrequest : Harmless .unrequest := ⟨fun _ => rfl, fun _ h => h, fun _ => rfl⟩

theorem harmless_collect : Harmless .collect := ⟨fun _ => rfl, fun _ _ => rfl, fun _ => rfl⟩

theorem harmless_contentsNotUseful : Harmless .contentsNotUseful :=
  ⟨fun _ => rfl, fun _ h => h, fun _ => rfl⟩

variable {f : ManagedResource → ManagedResource}

theorem harmless_ite (hf : Harmless f) (c : ManagedResource → Bool) :
    Harmless fun mr => if c mr then f mr else mr := by
  constructor
  · intro mr
    split
    · exact hf.hasResource mr
    · rfl
  · intro mr hcoll
    split
    · exact hf.collected mr hcoll
    · exact hcoll
  · intro mr
    split
    · exact hf.frees mr
    · rfl

theorem harmless_makePermanent : Harmless .makePermanent :=
  harmless_ite (f := fun mr => { mr with permanent := true })
    ⟨fun _ => rfl, fun _ h => h, fun _ => rfl⟩ ManagedResource.isLocked

theorem harmless_contentsUseful : Harmless .contentsUseful :=
  harmless_ite (f := fun mr => { mr with employcount := mr.employcount + 1 })
    ⟨fun _ => rfl, fun _ h => h, fun _ => rfl⟩ ManagedResource.isLocked

theorem harmless_check (forgiveStaleLocks : Bool) : Harmless (.check forgiveStaleLocks) := by
  constructor
  · intro mr
    simp only [ManagedResource.check, ManagedResource.bumpAge]
    split_ifs <;> rfl
  · intro mr hcoll
    simp only [ManagedResource.check, ManagedResource.bumpAge]
    split_ifs <;> exact hcoll
  · intro mr
    simp only [ManagedResource.check, ManagedResource.bumpAge]
    split_ifs <;> rfl

theorem settled_keepOrPrune (h : p.Books none) (hlink : p.linked[index]? = some link)
    (halive : (p.resources link.resource).collected = false) (traversal : Traversal) :
    (p.keepOrPrune traversal index link).Settled
      (p.keepOrPrune traversal index link).control := by
  have hmem : link ∈ p.linked := mem_of_getElem? hlink
  have hknown := h.known link hmem
  rcases traversal with c | forgiveStaleLocks
  · simp only [keepOrPrune]
    split
    · rename_i hprune
      simp only [Bool.and_eq_true, Bool.not_eq_true'] at hprune
      have hhas := h.live link hmem halive (by simp)
      have hfreed := h.freeIn hknown hhas (.cleanup c) (.inr ⟨hprune.1.2, hprune.1.1⟩)
      apply settled_unlink_freed hfreed
      · rw [linked_freeIn, hlink]
      · rw [resources_freeIn]
        rfl
    · exact settled_start h _ _
  · exact settled_start (h.modify hknown (harmless_check forgiveStaleLocks)) _ _

theorem settled_requested (h : p.Books none) (hlink : p.linked[index]? = some link)
    (halive : (p.resources link.resource).collected = false)
    (hrequested : (p.resources link.resource).disposalRequested = true) (traversal : Traversal) :
    (((p.freeIn traversal link.resource).modify link.resource .unrequest).unlink index link
        (.traversing traversal index .start)).Settled
      (((p.freeIn traversal link.resource).modify link.resource .unrequest).unlink index link
        (.traversing traversal index .start)).control := by
  have hmem : link ∈ p.linked := mem_of_getElem? hlink
  have hknown := h.known link hmem
  have hhas := h.live link hmem halive (by simp)
  have hfreed := h.freeIn hknown hhas traversal (.inl hrequested)
  have hcreated : link.resource < (p.freeIn traversal link.resource).created := by
    rw [created_freeIn]
    exact hknown
  apply settled_unlink_freed (hfreed.modify hcreated harmless_unrequest)
  · change (p.freeIn traversal link.resource).linked[index]? = _
    rw [linked_freeIn, hlink]
  · rw [resources_modify_self, resources_freeIn]
    rfl

theorem settled_traverse {traversal : Traversal} {visit : Visit}
    (h : p.Settled (.traversing traversal index visit)) :
    (p.traverse traversal index visit).Settled (p.traverse traversal index visit).control := by
  have hbooks : p.Books none := by
    cases h with
    | start books => exact books
    | holding books _ _ => exact books
    | unrequested books _ _ _ => exact books
  rcases hlink : p.linked[index]? with _ | link
  · rcases traversal with c | forgiveStaleLocks
    · simp only [traverse, hlink]
      exact settled_afterPass hbooks c
    · simp only [traverse, hlink]
      exact settled_idle hbooks
  · simp only [traverse, hlink]
    have hmem : link ∈ p.linked := mem_of_getElem? hlink
    cases h with
    | start _ =>
      dsimp only
      split
      · rename_i hcoll
        exact settled_unlink hbooks hlink (fun _ => hcoll) (by simp) traversal
      · rename_i halive
        rw [Bool.not_eq_true] at halive
        refine .holding (hbooks.goto _) halive ?_
        change p.linked[index]?.map Link.resource = _
        rw [hlink]
        rfl
    | @holding _ _ id _ alive current =>
      rw [hlink] at current
      cases current
      dsimp only
      split
      · rename_i hrequested
        exact settled_requested hbooks hlink alive hrequested traversal
      · rename_i hread
        rw [Bool.not_eq_true] at hread
        refine .unrequested (hbooks.goto _) alive ?_ hread
        change p.linked[index]?.map Link.resource = _
        rw [hlink]
        rfl
    | @unrequested _ _ id _ alive current read =>
      rw [hlink] at current
      cases current
      -- the flag is still what it was, so the resource is valid
      have hvalid : (p.resources link.resource).isValid = true := by
        rw [ManagedResource.isValid, hbooks.live link hmem alive (by simp), read]
        rfl
      simp only [if_pos hvalid]
      exact settled_keepOrPrune hbooks hlink alive traversal

theorem drop_of_getElem? {links : List Link} (hlink : links[index]? = some link) :
    links.drop index = link :: links.drop (index + 1) := by
  rcases List.getElem?_eq_some_iff.mp hlink with ⟨hidx, rfl⟩
  exact drop_eq_getElem_cons hidx

theorem drop_eraseIdx (links : List Link) (index : Nat) :
    (links.eraseIdx index).drop index = links.drop (index + 1) := by
  induction links generalizing index with
  | nil => simp
  | cons link links ih =>
    rcases index with _ | index
    · rfl
    · simpa using ih index

theorem settled_resourceFreed {freed : Nat} (h : p.Settled (.freeing freed index)) :
    (p.resourceFreed freed index).Settled (p.resourceFreed freed index).control := by
  cases h with
  | freeing books alive disposed ahead =>
    rcases hlink : p.linked[index]? with _ | link
    · rw [drop_eq_nil_of_le (List.getElem?_eq_none_iff.mp hlink)] at ahead
      simp at ahead
    · rw [drop_of_getElem? hlink, map_cons, mem_cons] at ahead
      simp only [resourceFreed, hlink]
      split
      · rename_i hcoll
        have hrest : freed ∈ (p.linked.drop (index + 1)).map Link.resource := by
          refine ahead.resolve_left ?_
          rintro rfl
          rw [alive] at hcoll
          cases hcoll
        rw [control_unlink books hlink]
        have hunlinked := books.unlink hlink (fun _ => hcoll) (fun _ hne _ => hne)
          (.freeing freed index)
        refine .freeing hunlinked ?_ ?_ ?_
        · rw [unlink_eq books hlink]
          exact alive
        · rw [unlink_eq books hlink]
          exact disposed
        · rw [unlink_eq books hlink]
          rw [drop_eraseIdx]
          exact hrest
      · split
        · rename_i hsame
          subst hsame
          rw [control_unlink books hlink]
          apply Settled.idle
          apply books.unlink hlink
          · intro hthere
            rw [disposed] at hthere
            cases hthere
          · intro id _ hne hsame
            exact hne (Option.some.inj hsame)
        · rename_i hne
          refine .freeing (books.goto _) alive disposed ?_
          exact ahead.resolve_left fun hsame => hne hsame.symm

theorem settled_onResource (h : p.Settled p.control) (hf : Harmless f)
    (hstep : p.onResource id f = some q) : q.Settled q.control := by
  rw [onResource] at hstep
  split at hstep
  · rename_i hguard
    cases hstep
    rw [hguard.1] at h
    cases h with
    | idle books =>
      have hknown : id < p.created := by
        have hreach := hguard.2
        rw [isReachable, Bool.and_eq_true, decide_eq_true_eq] at hreach
        exact hreach.1
      rw [show (p.modify id f).control = .idle from hguard.1]
      exact .idle (books.modify hknown hf)
  · cases hstep

theorem settled_dispose (h : p.Books none) (hidle : p.control = .idle)
    (hreach : p.isReachable id = true) : (p.dispose id).Settled (p.dispose id).control := by
  rw [isReachable, Bool.and_eq_true, decide_eq_true_eq, Bool.not_eq_true'] at hreach
  rw [dispose]
  split
  · rename_i hhas
    have hbooks := (h.free hreach.1 hhas).modify (p := p.modify id .free) hreach.1
      harmless_unrequest
    rw [modify_modify] at hbooks
    refine .freeing (hbooks.goto _) ?_ ?_ (h.listed id hhas hreach.2)
    · change ((p.modify id fun mr => mr.free.unrequest).resources id).collected = false
      rw [resources_modify_self]
      exact hreach.2
    · change ((p.modify id fun mr => mr.free.unrequest).resources id).hasResource = false
      rw [resources_modify_self]
      rfl
  · rw [hidle]
    exact .idle h

/-- A step of another thread changes a resource, but nothing that the manager thread relies on. -/
theorem settled_modify (h : p.Settled p.control) (hknown : id < p.created) (hf : Harmless f)
    (hcoll : p.held = some id → (f (p.resources id)).collected = (p.resources id).collected)
    (hrequested : ∀ traversal index, p.control = .traversing traversal index (.unrequested id) →
      (f (p.resources id)).disposalRequested = (p.resources id).disposalRequested) :
    (p.modify id f).Settled (p.modify id f).control := by
  have halive : ∀ id', p.held = some id' →
      ((p.modify id f).resources id').collected = (p.resources id').collected := by
    intro id' hheld
    by_cases hsame : id' = id
    · subst hsame
      rw [resources_modify_self]
      exact hcoll hheld
    · rw [resources_modify_of_ne p hsame]
  change (p.modify id f).Settled p.control
  generalize hctl : p.control = control at h hrequested
  cases h with
  | idle books => exact .idle (books.modify hknown hf)
  | @freeing freed index books alive disposed ahead =>
    refine .freeing (books.modify hknown hf) ?_ ?_ ahead
    · rw [halive freed (by simp [held, hctl])]
      exact alive
    · by_cases hsame : freed = id
      · subst hsame
        rw [resources_modify_self, hf.hasResource]
        exact disposed
      · rw [resources_modify_of_ne p hsame]
        exact disposed
  | start books => exact .start (books.modify hknown hf)
  | @holding _ _ visited books alive current =>
    refine .holding (books.modify hknown hf) ?_ current
    rw [halive visited (by simp [held, hctl])]
    exact alive
  | @unrequested traversal index visited books alive current read =>
    refine .unrequested (books.modify hknown hf) ?_ current ?_
    · rw [halive visited (by simp [held, hctl])]
      exact alive
    · by_cases hsame : visited = id
      · subst hsame
        rw [resources_modify_self, hrequested traversal index rfl]
        exact read
      · rw [resources_modify_of_ne p hsame]
        exact read

theorem lt_created_of_isReachable (h : p.isReachable id = true) : id < p.created := by
  rw [isReachable, Bool.and_eq_true, decide_eq_true_eq] at h
  exact h.1

theorem settled_step (h : p.Settled p.control) {i : Step} (hi : p.RequestsApart i)
    (hstep : p.step i = some q) : q.Settled q.control := by
  have hidle : p.control = .idle → p.Books none := by
    intro hctl
    rw [hctl] at h
    cases h with
    | idle books => exact books
  cases i with
  | create size =>
    simp only [step, Option.ite_none_right_eq_some, Option.some.injEq] at hstep
    rcases hstep with ⟨hctl, rfl⟩
    rw [show (p.create size).control = .idle from hctl]
    exact .idle ((hidle hctl).create size)
  | lock id => exact settled_onResource h harmless_lock hstep
  | unlock id => exact settled_onResource h harmless_unlock hstep
  | makePermanent id => exact settled_onResource h harmless_makePermanent hstep
  | contentsUseful id => exact settled_onResource h harmless_contentsUseful hstep
  | contentsNotUseful id => exact settled_onResource h harmless_contentsNotUseful hstep
  | dispose id =>
    simp only [step, Option.ite_none_right_eq_some, Option.some.injEq] at hstep
    rcases hstep with ⟨⟨hctl, hreach⟩, rfl⟩
    exact settled_dispose (hidle hctl) hctl hreach
  | cleanup needed =>
    simp only [step, Option.ite_none_right_eq_some, Option.some.injEq] at hstep
    rcases hstep with ⟨hctl, rfl⟩
    rw [cleanup]
    split
    · exact h
    · exact settled_start (hidle hctl) _ _
  | freeDisposalRequestedAndCheckResources forgiveStaleLocks =>
    simp only [step, Option.ite_none_right_eq_some, Option.some.injEq] at hstep
    rcases hstep with ⟨hctl, rfl⟩
    exact settled_start (hidle hctl) _ _
  | proceed =>
    rcases hctl : p.control with _ | ⟨freed, index⟩ | ⟨traversal, index, visit⟩
    · simp [step, hctl] at hstep
    · simp only [step, hctl, Option.some.injEq] at hstep
      subst hstep
      exact settled_resourceFreed (hctl ▸ h)
    · simp only [step, hctl, Option.some.injEq] at hstep
      subst hstep
      exact settled_traverse (hctl ▸ h)
  | request id =>
    simp only [step, Option.ite_none_right_eq_some, Option.some.injEq] at hstep
    rcases hstep with ⟨hreach, rfl⟩
    apply settled_modify h (lt_created_of_isReachable hreach) harmless_request
    · intro _
      rfl
    · intro traversal index hctl
      have hchecking : id ∈ p.checking := by simp [checking, hctl]
      exact absurd rfl (hi id hchecking)
  | collect id =>
    simp only [step, Option.ite_none_right_eq_some, Option.some.injEq] at hstep
    rcases hstep with ⟨⟨hreach, hheld⟩, rfl⟩
    apply settled_modify h (lt_created_of_isReachable hreach) harmless_collect
    · intro hsame
      exact absurd hsame hheld
    · intro traversal index _
      rfl

end

/-- The managed size is the sum, and nothing is freed twice. -/
structure Accounted (p : BaseResourcePool) : Prop where
  managed : p.managedSize = (p.linked.map fun link => (link.size : Int)).sum
  nonneg : 0 ≤ p.managedSize
  noException : .negativeAmount ∉ p.thrown ∧ .unmanagedResourceFreed ∉ p.thrown
  freedOnce : ∀ id, (p.resources id).frees ≤ 1

def Spared (p : BaseResourcePool) : Prop :=
  ∀ f ∈ p.freedByCleanup, f.locked = false ∧ f.permanent = false

/-- The same, but for resources whose disposal had been requested. -/
def SparedUnrequested (p : BaseResourcePool) : Prop :=
  ∀ f ∈ p.freedByCleanup, f.disposalRequested = false → f.locked = false ∧ f.permanent = false

theorem Books.accountedAll {p : BaseResourcePool} {away : Option Nat} (h : p.Books away) :
    p.Accounted ∧ p.SparedUnrequested := by
  refine ⟨⟨h.managed, ?_, ⟨?_, ?_⟩, fun id => (h.freed id).1⟩, ?_⟩
  · rw [h.managed]
    exact sizes_nonneg p.linked
  · intro hmem
    cases h.accounted _ hmem
  · intro hmem
    cases h.accounted _ hmem
  · intro f hf hrequested
    refine (h.spared f hf).resolve_left ?_
    rw [hrequested]
    simp

/-- In every interleaving in which no disposal is requested during the check of the same
resource, the accounting is right, and `cleanup` spares what is locked or permanent unless its
disposal was requested. -/
theorem accounted_along (target max : Int) (steps : List Step) (p : BaseResourcePool)
    (hapart : EachStep step RequestsApart (new target max) steps)
    (hrun : runSteps step (new target max) steps = some p) :
    p.Accounted ∧ p.SparedUnrequested := by
  have hsettled : p.Settled p.control := by
    apply runSteps_keeps (P := fun p => p.Settled p.control) ?_ steps (new target max) p
      (.idle (books_new target max)) hapart hrun
    intro s i t hs hi hstep
    exact settled_step hs hi hstep
  rcases hsettled.toBooks with ⟨away, hbooks⟩
  exact hbooks.accountedAll

/-- One resource is disposed of by another thread, one is collected, and one is disposed of by the
manager thread. -/
def disposalSteps : List Step :=
  [.create 4, .create 8, .create 2, .unlock 2, .cleanup 3, .proceed, .request 1, .collect 0,
    .proceed, .proceed, .proceed, .proceed, .proceed, .proceed, .dispose 2, .proceed]

theorem accounted_along_disposals :
    ∃ p, runSteps step (new 8 16) disposalSteps = some p ∧ p.Accounted ∧ p.SparedUnrequested := by
  have hsome : (runSteps step (new 8 16) disposalSteps).isSome = true := by decide +kernel
  rcases Option.isSome_iff_exists.mp hsome with ⟨p, hp⟩
  exact ⟨p, hp, accounted_along 8 16 disposalSteps p (by decide +kernel) hp⟩

/-- A disposal that is requested between the two reads of the flag: the resource is unlinked but
not freed, and `resourceFreed` does not find it later. -/
example : (runSteps step (new 4 8) [.create 4, .cleanup 1, .proceed, .proceed, .request 0, .proceed,
    .proceed, .dispose 0, .proceed]).map thrown = some [.unmanagedResourceFreed] := by
  decide +kernel

theorem locked_freed : ¬∀ (target max : Int) (steps : List Step) (p : BaseResourcePool),
    runSteps step (new target max) steps = some p → p.Accounted ∧ p.Spared := by
  intro h
  let steps : List Step := [.create 4, .request 0, .cleanup 1, .proceed, .proceed]
  have hsome : (runSteps step (new 4 8) steps).isSome = true := by decide +kernel
  rcases Option.isSome_iff_exists.mp hsome with ⟨p, hp⟩
  have hfreed : (runSteps step (new 4 8) steps).map freedByCleanup =
      some [⟨0, true, false, true⟩] := by decide +kernel
  rw [hp, Option.map_some, Option.some.injEq] at hfreed
  have hspared := (h 4 8 steps p hp).2 ⟨0, true, false, true⟩ (by rw [hfreed]; simp)
  cases hspared.1

end BaseResourcePool

end OpenJfx.Prism
