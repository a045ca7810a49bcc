import OpenJfx.Java.Arrays

namespace OpenJfx.Event.EventDispatchChainImpl

open Java.Arrays List

variable {D Ev : Type}

def capacityGrowthFactor : Nat := 8

/-- The fields of the class. Arrays that are still null have no slots. -/
structure Chain (D : Type) where
  dispatchers : List (Option D)
  nextLinks : List Nat
  reservedCount : Nat
  activeCount : Nat
  headIndex : Nat
  tailIndex : Nat

namespace Chain

def new : Chain D := ⟨[], [], 0, 0, 0, 0⟩

def ensureCapacity (s : Chain D) (size : Nat) : Outcome (Chain D) :=
  let newCapacity := roundUp capacityGrowthFactor size
  if newCapacity = 0 then .ok s
  else if s.dispatchers.length < newCapacity then do
    let newDispatchers ← grown none s.dispatchers s.reservedCount newCapacity
    let newLinks ← grown 0 s.nextLinks s.reservedCount newCapacity
    .ok { s with dispatchers := newDispatchers, nextLinks := newLinks }
  else .ok s

def insertFirst (s : Chain D) (eventDispatcher : D) : Outcome (Chain D) := do
  let dispatchers ← store s.dispatchers s.reservedCount (some eventDispatcher)
  .ok { s with
    dispatchers := dispatchers
    headIndex := s.reservedCount
    tailIndex := s.reservedCount
    activeCount := 1
    reservedCount := s.reservedCount + 1 }

def append (s : Chain D) (eventDispatcher : D) : Outcome (Chain D) := do
  let s ← s.ensureCapacity (s.reservedCount + 1)
  if s.activeCount = 0 then s.insertFirst eventDispatcher
  else do
    let dispatchers ← store s.dispatchers s.reservedCount (some eventDispatcher)
    let nextLinks ← store s.nextLinks s.tailIndex s.reservedCount
    .ok { s with
      dispatchers := dispatchers
      nextLinks := nextLinks
      tailIndex := s.reservedCount
      activeCount := s.activeCount + 1
      reservedCount := s.reservedCount + 1 }

def prepend (s : Chain D) (eventDispatcher : D) : Outcome (Chain D) := do
  let s ← s.ensureCapacity (s.reservedCount + 1)
  if s.activeCount = 0 then s.insertFirst eventDispatcher
  else do
    let dispatchers ← store s.dispatchers s.reservedCount (some eventDispatcher)
    let nextLinks ← store s.nextLinks s.reservedCount s.headIndex
    .ok { s with
      dispatchers := dispatchers
      nextLinks := nextLinks
      headIndex := s.reservedCount
      activeCount := s.activeCount + 1
      reservedCount := s.reservedCount + 1 }

def dispatcherAt (s : Chain D) (index : Nat) : Outcome D := do
  match ← load s.dispatchers index with
  | some dispatcher => .ok dispatcher
  | none => .error .nullPointer

def walk (s : Chain D) : Nat → Nat → Outcome (List D)
  | 0, _ => .ok []
  | count + 1, index => do
    let dispatcher ← s.dispatcherAt index
    let next ← load s.nextLinks index
    let rest ← s.walk count next
    .ok (dispatcher :: rest)

def contents (s : Chain D) : Outcome (List D) := s.walk s.activeCount s.headIndex

end Chain

/-- A dispatcher that was called, with the tail of the chain it was given. -/
structure Visit (D : Type) where
  dispatcher : D
  tail : List D

/-- What a call leaves: the returned event, the chain and the visits so far. -/
structure Result (Ev State Visited : Type) where
  event : Ev
  state : State
  visits : List Visited

/-- The calls that the holder of a chain makes on it. What the next dispatcher
does with its tail is part of a `dispatchEvent` call, for whichever dispatcher
that turns out to be; what comes after it may depend on the returned event. -/
inductive Script (D Ev : Type)
  | ret (event : Ev)
  | append (dispatcher : D) (rest : Script D Ev)
  | prepend (dispatcher : D) (rest : Script D Ev)
  | dispatchEvent (event : Ev) (callee : D → Script D Ev) (rest : Ev → Script D Ev)

namespace Chain

def pop (s : Chain D) : Outcome (D × Chain D) := do
  let nextEventDispatcher ← s.dispatcherAt s.headIndex
  let headIndex ← load s.nextLinks s.headIndex
  .ok (nextEventDispatcher, { s with headIndex := headIndex, activeCount := s.activeCount - 1 })

/-- The saved counters put back; the arrays stay as they are. -/
def restore (s saved : Chain D) : Chain D :=
  { s with
    headIndex := saved.headIndex
    tailIndex := saved.tailIndex
    activeCount := saved.activeCount
    reservedCount := saved.reservedCount }

def dispatchEvent (s : Chain D) (event : Ev)
    (call : D → Chain D → Outcome (Result Ev (Chain D) (Visit D))) :
    Outcome (Result Ev (Chain D) (Visit D)) :=
  if s.activeCount = 0 then .ok ⟨event, s, []⟩
  else do
    let (nextEventDispatcher, tail) ← s.pop
    let seen ← tail.contents
    let result ← call nextEventDispatcher tail
    .ok ⟨result.event, result.state.restore s, ⟨nextEventDispatcher, seen⟩ :: result.visits⟩

def run : Script D Ev → Chain D → Outcome (Result Ev (Chain D) (Visit D))
  | .ret event, s => .ok ⟨event, s, []⟩
  | .append dispatcher rest, s => do
    let s ← s.append dispatcher
    run rest s
  | .prepend dispatcher rest, s => do
    let s ← s.prepend dispatcher
    run rest s
  | .dispatchEvent event callee rest, s => do
    let first ← s.dispatchEvent event fun dispatcher => run (callee dispatcher)
    let last ← run (rest first.event) first.state
    .ok { last with visits := first.visits ++ last.visits }

end Chain

def Script.onList : Script D Ev → List D → Result Ev (List D) (Visit D)
  | .ret event, l => ⟨event, l, []⟩
  | .append dispatcher rest, l => rest.onList (l ++ [dispatcher])
  | .prepend dispatcher rest, l => rest.onList (dispatcher :: l)
  | .dispatchEvent event _ rest, [] => (rest event).onList []
  | .dispatchEvent _ callee rest, dispatcher :: tail =>
    let called := (callee dispatcher).onList tail
    let last := (rest called.event).onList (dispatcher :: tail)
    { last with visits := ⟨dispatcher, tail⟩ :: called.visits ++ last.visits }

inductive Linked (dispatchers : List (Option D)) (nextLinks : List Nat) :
    List Nat → List D → Prop
  | nil : Linked dispatchers nextLinks [] []
  | last {i : Nat} {d : D} (hd : dispatchers[i]? = some (some d)) :
      Linked dispatchers nextLinks [i] [d]
  | link {i j : Nat} {path : List Nat} {d : D} {l : List D}
      (hd : dispatchers[i]? = some (some d)) (hlink : nextLinks[i]? = some j)
      (htail : Linked dispatchers nextLinks (j :: path) l) :
      Linked dispatchers nextLinks (i :: j :: path) (d :: l)

namespace Linked

variable {dispatchers dispatchers' : List (Option D)} {nextLinks nextLinks' : List Nat}

variable {l : List D} {path : List Nat}

theorem congr (h : Linked dispatchers nextLinks path l)
    (hd : ∀ i ∈ path, dispatchers'[i]? = dispatchers[i]?)
    (hlinks : ∀ i ∈ path.dropLast, nextLinks'[i]? = nextLinks[i]?) :
    Linked dispatchers' nextLinks' path l := by
  induction h with
  | nil => exact .nil
  | last hslot => exact .last ((hd _ (by simp)).trans hslot)
  | link hslot hlink _ ih =>
    refine .link ((hd _ (by simp)).trans hslot) ((hlinks _ (by simp)).trans hlink) ?_
    exact ih (fun i hi => hd i (mem_cons_of_mem _ hi)) fun i hi => hlinks i (by
      exact mem_cons_of_mem _ hi)

theorem length_eq (h : Linked dispatchers nextLinks path l) :
    path.length = l.length := by
  induction h with
  | nil => rfl
  | last => rfl
  | link _ _ _ ih => simp only [length_cons] at ih ⊢; omega

theorem tail {i : Nat} {d : D} (h : Linked dispatchers nextLinks (i :: path) (d :: l)) :
    Linked dispatchers nextLinks path l := by
  cases h with
  | last => exact .nil
  | link _ _ htail => exact htail

theorem concat (h : Linked dispatchers nextLinks path l) {r : Nat} {d : D}
    (hd : dispatchers[r]? = some (some d)) (hlink : ∀ i ∈ path.getLast?, nextLinks[i]? = some r) :
    Linked dispatchers nextLinks (path ++ [r]) (l ++ [d]) := by
  induction h with
  | nil => exact .last hd
  | last hslot => exact .link hslot (hlink _ (by simp)) (.last hd)
  | link hslot hnext _ ih =>
    exact .link hslot hnext (ih fun i hi => hlink i (by
      rwa [getLast?_cons_cons]))

theorem cons (h : Linked dispatchers nextLinks path l) {r : Nat} {d : D}
    (hd : dispatchers[r]? = some (some d)) (hlink : ∀ i ∈ path.head?, nextLinks[r]? = some i) :
    Linked dispatchers nextLinks (r :: path) (d :: l) := by
  cases h with
  | nil => exact .last hd
  | last hslot => exact .link hd (hlink _ (by simp)) (.last hslot)
  | link hslot hnext htail => exact .link hd (hlink _ (by simp)) (.link hslot hnext htail)

end Linked

namespace Chain

/-- Both arrays have the same length and hold all reserved slots. -/
structure Sized (s : Chain D) : Prop where
  length_eq : s.nextLinks.length = s.dispatchers.length
  reserved_le : s.reservedCount ≤ s.dispatchers.length

structure Represents (s : Chain D) (l : List D) : Prop where
  sized : s.Sized
  activeCount_eq : s.activeCount = l.length
  path : ∃ path : List Nat, Linked s.dispatchers s.nextLinks path l ∧ path.Nodup ∧
    (∀ i ∈ path, i < s.reservedCount) ∧ (∀ i ∈ path.head?, i = s.headIndex) ∧
    ∀ i ∈ path.getLast?, i = s.tailIndex

theorem new_represents : (new : Chain D).Represents [] :=
  ⟨⟨rfl, Nat.le_refl _⟩, rfl, [], .nil, nodup_nil, by simp, by simp, by simp⟩

/-- What a call may do to the slots that were reserved before it: their
dispatchers stay, and only the link of the tail may be redirected. -/
structure Keeps (s s' : Chain D) : Prop where
  sized : s'.Sized
  reserved_le : s.reservedCount ≤ s'.reservedCount
  dispatchers : ∀ i, i < s.reservedCount → s'.dispatchers[i]? = s.dispatchers[i]?
  links : ∀ i, i < s.reservedCount → i ≠ s.tailIndex → s'.nextLinks[i]? = s.nextLinks[i]?
  tail : s'.tailIndex = s.tailIndex ∨ s.reservedCount ≤ s'.tailIndex

variable {s : Chain D}

theorem Keeps.refl (h : s.Sized) : s.Keeps s :=
  ⟨h, Nat.le_refl _, fun _ _ => rfl, fun _ _ _ => rfl, .inl rfl⟩

theorem Keeps.trans {s₁ s₂ s₃ : Chain D} (h : s₁.Keeps s₂) (h' : s₂.Keeps s₃) : s₁.Keeps s₃ := by
  have hle := h.reserved_le
  refine ⟨h'.sized, hle.trans h'.reserved_le, ?_, ?_, ?_⟩
  · intro i hi
    rw [h'.dispatchers i (by omega), h.dispatchers i hi]
  · intro i hi hne
    have hne' : i ≠ s₂.tailIndex := by
      rcases h.tail with htail | htail
      · rwa [htail]
      · omega
    rw [h'.links i (by omega) hne', h.links i hi hne]
  · rcases h'.tail with htail | htail
    · rw [htail]
      exact h.tail
    · exact .inr (by omega)

variable {s' : Chain D} {l : List D}

theorem Represents.restore (h : s.Represents l) (hkeeps : s.Keeps s') :
    (s'.restore s).Represents l := by
  obtain ⟨path, hlinked, hnd, hlt, hhead, hlast⟩ := h.path
  have hle := hkeeps.reserved_le
  have hle' := hkeeps.sized.reserved_le
  refine ⟨⟨hkeeps.sized.length_eq, by show s.reservedCount ≤ s'.dispatchers.length; omega⟩,
    h.activeCount_eq, path, ?_, hnd, hlt, hhead, hlast⟩
  refine hlinked.congr (fun i hi => hkeeps.dispatchers i (hlt i hi)) ?_
  intro i hi
  have hmem : i ∈ path := mem_of_mem_dropLast hi
  refine hkeeps.links i (hlt i hmem) ?_
  rintro rfl
  rcases eq_nil_or_concat path with rfl | ⟨front, j, rfl⟩
  · simp at hmem
  · rw [concat_eq_append, dropLast_concat] at hi
    have hj : j = s.tailIndex := hlast j (by simp)
    rw [concat_eq_append, nodup_append] at hnd
    exact hnd.2.2 _ hi j (by simp) hj.symm

theorem ensureCapacity_spec (h : s.Represents l) :
    ∃ s', s.ensureCapacity (s.reservedCount + 1) = .ok s' ∧ s'.Represents l ∧ s.Keeps s' ∧
      s'.reservedCount < s'.dispatchers.length := by
  have hcap := le_roundUp (show 0 < capacityGrowthFactor by decide) (s.reservedCount + 1)
  have hlinks := h.sized.length_eq
  have hle := h.sized.reserved_le
  rw [ensureCapacity]
  generalize roundUp capacityGrowthFactor (s.reservedCount + 1) = newCapacity at hcap
  simp only [show newCapacity ≠ 0 by omega, if_false]
  by_cases hgrow : s.dispatchers.length < newCapacity
  · obtain ⟨ds, hds, hdslen, hdseq⟩ := grown_spec none hle (show _ ≤ newCapacity by omega)
    obtain ⟨ls, hls, hlslen, hlseq⟩ :=
      grown_spec 0 (hlinks ▸ hle : s.reservedCount ≤ s.nextLinks.length)
        (show _ ≤ newCapacity by omega)
    have hkeeps : s.Keeps { s with dispatchers := ds, nextLinks := ls } := by
      refine ⟨⟨hlslen.trans hdslen.symm, ?_⟩, Nat.le_refl _, hdseq, fun i hi _ => hlseq i hi,
        .inl rfl⟩
      show s.reservedCount ≤ ds.length
      omega
    refine ⟨_, ?_, h.restore hkeeps, hkeeps, ?_⟩
    · rw [if_pos hgrow, hds, ok_bind, hls, ok_bind]
      rfl
    · show s.reservedCount < ds.length
      omega
  · exact ⟨s, by rw [if_neg hgrow], h, .refl h.sized, by omega⟩

theorem keeps_newSlot (hsized : s.Sized) (hroom : s.reservedCount < s.dispatchers.length) (d : D)
    (source target count head tail : Nat)
    (hsrc : source = s.tailIndex ∨ source = s.reservedCount)
    (htail : tail = s.tailIndex ∨ s.reservedCount ≤ tail) :
    s.Keeps ⟨s.dispatchers.set s.reservedCount (some d), s.nextLinks.set source target,
      s.reservedCount + 1, count, head, tail⟩ := by
  refine ⟨⟨?_, ?_⟩, Nat.le_succ _, ?_, ?_, htail⟩
  · simpa using hsized.length_eq
  · simpa using Nat.succ_le_of_lt hroom
  · intro i hi
    exact getElem?_set_ne (by omega)
  · intro i hi hne
    exact getElem?_set_ne (by omega)

theorem insertFirst_spec (hsized : s.Sized) (hroom : s.reservedCount < s.dispatchers.length)
    (d : D) :
    ∃ s', s.insertFirst d = .ok s' ∧ s'.Represents [d] ∧ s.Keeps s' := by
  refine ⟨_, by rw [insertFirst, store_eq_set _ hroom, ok_bind], ?_, ?_⟩
  · refine ⟨⟨?_, ?_⟩, rfl, [s.reservedCount], .last ?_, by simp, by simp, by simp, by simp⟩
    · simpa using hsized.length_eq
    · simpa using Nat.succ_le_of_lt hroom
    · simp [hroom]
  · refine ⟨⟨?_, ?_⟩, Nat.le_succ _, ?_, fun _ _ _ => rfl, .inr (Nat.le_refl _)⟩
    · simpa using hsized.length_eq
    · simpa using Nat.succ_le_of_lt hroom
    · intro i hi
      exact getElem?_set_ne (by omega)

theorem append_spec (h : s.Represents l) (d : D) :
    ∃ s', s.append d = .ok s' ∧ s'.Represents (l ++ [d]) ∧ s.Keeps s' := by
  obtain ⟨s₁, hs₁, h₁, hkeeps, hroom⟩ := ensureCapacity_spec h
  rw [append, hs₁, ok_bind]
  by_cases hemp : s₁.activeCount = 0
  · obtain rfl : l = [] := eq_nil_of_length_eq_zero (h₁.activeCount_eq ▸ hemp)
    obtain ⟨s', hs', h', hkeeps'⟩ := insertFirst_spec h₁.sized hroom d
    exact ⟨s', by rw [if_pos hemp, hs'], h', hkeeps.trans hkeeps'⟩
  · obtain ⟨path, hlinked, hnd, hlt, hhead, hlast⟩ := h₁.path
    have hlen := hlinked.length_eq
    have hactive := h₁.activeCount_eq
    rcases eq_nil_or_concat path with rfl | ⟨front, t, rfl⟩
    · simp only [length_nil] at hlen
      omega
    simp only [concat_eq_append] at hlinked hnd hlt hhead hlast
    obtain rfl : t = s₁.tailIndex := hlast t (by simp)
    have htail : s₁.tailIndex < s₁.nextLinks.length := by
      have := hlt s₁.tailIndex (by simp)
      have := h₁.sized.length_eq
      omega
    have hkeeps' := keeps_newSlot h₁.sized hroom d s₁.tailIndex s₁.reservedCount
      (s₁.activeCount + 1) s₁.headIndex s₁.reservedCount (.inl rfl) (.inr (Nat.le_refl _))
    refine ⟨_, by rw [if_neg hemp, store_eq_set _ hroom, ok_bind, store_eq_set _ htail, ok_bind],
      ?_, hkeeps.trans hkeeps'⟩
    have hfresh : s₁.reservedCount ∉ front ++ [s₁.tailIndex] :=
      fun hmem => Nat.lt_irrefl _ (hlt _ hmem)
    refine ⟨hkeeps'.sized, by simp [hactive], front ++ [s₁.tailIndex] ++ [s₁.reservedCount],
      ?_, ?_, ?_, ?_, ?_⟩
    · refine Linked.concat (hlinked.congr ?_ ?_) ?_ ?_
      · intro i hi
        exact hkeeps'.dispatchers i (hlt i hi)
      · intro i hi
        rw [dropLast_concat] at hi
        refine hkeeps'.links i (hlt i (mem_append_left _ hi)) ?_
        rintro rfl
        rw [nodup_append] at hnd
        exact hnd.2.2 _ hi _ (by simp) rfl
      · simp [hroom]
      · simp [htail]
    · rw [nodup_append]
      refine ⟨hnd, by simp, ?_⟩
      intro i hi j hj
      rintro rfl
      exact hfresh (mem_singleton.mp hj ▸ hi)
    · intro i hi
      rcases mem_append.mp hi with hi | hi
      · exact Nat.lt_succ_of_lt (hlt i hi)
      · exact mem_singleton.mp hi ▸ Nat.lt_succ_self _
    · intro i hi
      refine hhead i ?_
      rwa [head?_append_of_ne_nil _ (by simp)] at hi
    · simp

theorem prepend_spec (h : s.Represents l) (d : D) :
    ∃ s', s.prepend d = .ok s' ∧ s'.Represents (d :: l) ∧ s.Keeps s' := by
  obtain ⟨s₁, hs₁, h₁, hkeeps, hroom⟩ := ensureCapacity_spec h
  rw [prepend, hs₁, ok_bind]
  by_cases hemp : s₁.activeCount = 0
  · obtain rfl : l = [] := eq_nil_of_length_eq_zero (h₁.activeCount_eq ▸ hemp)
    obtain ⟨s', hs', h', hkeeps'⟩ := insertFirst_spec h₁.sized hroom d
    exact ⟨s', by rw [if_pos hemp, hs'], h', hkeeps.trans hkeeps'⟩
  · obtain ⟨path, hlinked, hnd, hlt, hhead, hlast⟩ := h₁.path
    have hlen := hlinked.length_eq
    have hactive := h₁.activeCount_eq
    rcases path with _ | ⟨first, path⟩
    · simp only [length_nil] at hlen
      omega
    obtain rfl : first = s₁.headIndex := hhead first (by simp)
    have hlinkRoom : s₁.reservedCount < s₁.nextLinks.length := h₁.sized.length_eq ▸ hroom
    have hkeeps' := keeps_newSlot h₁.sized hroom d s₁.reservedCount s₁.headIndex
      (s₁.activeCount + 1) s₁.reservedCount s₁.tailIndex (.inr rfl) (.inl rfl)
    refine ⟨_, by
      rw [if_neg hemp, store_eq_set _ hroom, ok_bind, store_eq_set _ hlinkRoom, ok_bind],
      ?_, hkeeps.trans hkeeps'⟩
    refine ⟨hkeeps'.sized, by simp [hactive], s₁.reservedCount :: s₁.headIndex :: path,
      ?_, ?_, ?_, by simp, ?_⟩
    · refine Linked.cons (hlinked.congr ?_ ?_) ?_ ?_
      · intro i hi
        exact hkeeps'.dispatchers i (hlt i hi)
      · intro i hi
        have := hlt i (mem_of_mem_dropLast hi)
        exact getElem?_set_ne (by omega)
      · simp [hroom]
      · simp [hlinkRoom]
    · exact nodup_cons.mpr ⟨fun hmem => Nat.lt_irrefl _ (hlt _ hmem), hnd⟩
    · intro i hi
      rcases mem_cons.mp hi with rfl | hi
      · exact Nat.lt_succ_self _
      · exact Nat.lt_succ_of_lt (hlt i hi)
    · intro i hi
      exact hlast i hi

theorem walk_eq (hsized : s.nextLinks.length = s.dispatchers.length) {path : List Nat}
    (h : Linked s.dispatchers s.nextLinks path l) :
    ∀ i, (∀ j ∈ path.head?, j = i) → s.walk l.length i = .ok l := by
  induction h with
  | nil =>
    intro i _
    rfl
  | @last i d hd =>
    intro j hj
    obtain rfl : i = j := hj i (by simp)
    obtain ⟨hlt, -⟩ := List.getElem?_eq_some_iff.mp hd
    rw [← hsized] at hlt
    simp [walk, dispatcherAt, load_eq_ok hd, hlt]
  | @link i next path d l hd hlink _ ih =>
    intro j hj
    obtain rfl : i = j := hj i (by simp)
    simp [walk, dispatcherAt, load_eq_ok hd, load_eq_ok hlink, ih next (by simp)]

theorem Represents.contents_eq (h : s.Represents l) :
    s.contents = .ok l := by
  obtain ⟨path, hlinked, -, -, hhead, -⟩ := h.path
  rw [contents, h.activeCount_eq]
  exact walk_eq h.sized.length_eq hlinked s.headIndex hhead

theorem Represents.pop_eq {d : D} (h : s.Represents (d :: l)) :
    ∃ tail, s.pop = .ok (d, tail) ∧ tail.Represents l ∧ ∀ s', tail.Keeps s' → s.Keeps s' := by
  obtain ⟨path, hlinked, hnd, hlt, hhead, hlast⟩ := h.path
  have hactive : s.activeCount - 1 = l.length := by simp [h.activeCount_eq]
  rcases path with _ | ⟨first, path⟩
  · cases hlinked
  obtain rfl : first = s.headIndex := hhead first (by simp)
  have hhead_lt : s.headIndex < s.nextLinks.length := by
    have := hlt s.headIndex (by simp)
    have := h.sized.length_eq
    have := h.sized.reserved_le
    omega
  have hrest : ∀ i ∈ path.getLast?, i = s.tailIndex := by
    rcases path with _ | ⟨second, path⟩
    · simp
    · rwa [getLast?_cons_cons] at hlast
  have hd : s.dispatchers[s.headIndex]? = some (some d) := by
    cases hlinked with
    | last hd => exact hd
    | link hd => exact hd
  refine ⟨{ s with headIndex := s.nextLinks[s.headIndex], activeCount := s.activeCount - 1 }, ?_,
    ⟨⟨h.sized.length_eq, h.sized.reserved_le⟩, hactive, path, hlinked.tail,
    (nodup_cons.mp hnd).2, fun i hi => hlt i (mem_cons_of_mem _ hi), ?_, hrest⟩, ?_⟩
  · rw [Chain.pop, dispatcherAt, load_eq_ok hd, ok_bind, ok_bind, load_natCast _ _ hhead_lt,
      ok_bind]
  · intro i hi
    cases hlinked with
    | last => simp at hi
    | link _ hlink _ =>
      obtain rfl : _ = i := by simpa using hi
      rw [getElem?_eq_getElem hhead_lt] at hlink
      exact (Option.some.inj hlink).symm
  · rintro s' ⟨h₁, h₂, h₃, h₄, h₅⟩
    exact ⟨h₁, h₂, h₃, h₄, h₅⟩

theorem Keeps.restore (h : s.Keeps s') : s.Keeps (s'.restore s) :=
  ⟨⟨h.sized.length_eq, h.reserved_le.trans h.sized.reserved_le⟩, Nat.le_refl _, h.dispatchers,
    h.links, .inl rfl⟩

theorem run_spec (script : Script D Ev) :
    ∀ {s : Chain D} {l : List D}, s.Represents l →
      ∃ s', run script s = .ok ⟨(script.onList l).event, s', (script.onList l).visits⟩ ∧
        s'.Represents (script.onList l).state ∧ s.Keeps s' := by
  induction script with
  | ret event =>
    intro s l h
    exact ⟨s, rfl, h, .refl h.sized⟩
  | append dispatcher rest ih =>
    intro s l h
    obtain ⟨s₁, hs₁, h₁, hkeeps₁⟩ := append_spec h dispatcher
    obtain ⟨s₂, hs₂, h₂, hkeeps₂⟩ := ih h₁
    exact ⟨s₂, by rw [run, hs₁, ok_bind, hs₂]; rfl, h₂, hkeeps₁.trans hkeeps₂⟩
  | prepend dispatcher rest ih =>
    intro s l h
    obtain ⟨s₁, hs₁, h₁, hkeeps₁⟩ := prepend_spec h dispatcher
    obtain ⟨s₂, hs₂, h₂, hkeeps₂⟩ := ih h₁
    exact ⟨s₂, by rw [run, hs₁, ok_bind, hs₂]; rfl, h₂, hkeeps₁.trans hkeeps₂⟩
  | dispatchEvent event callee rest ihcallee ihrest =>
    intro s l h
    cases l with
    | nil =>
      have hemp : s.activeCount = 0 := h.activeCount_eq
      obtain ⟨s', hs', h', hkeeps⟩ := ihrest event h
      refine ⟨s', ?_, h', hkeeps⟩
      rw [run, Chain.dispatchEvent, if_pos hemp, ok_bind, hs']
      rfl
    | cons d tail =>
      have hactive : s.activeCount ≠ 0 := by simp [h.activeCount_eq]
      obtain ⟨popped, hpop, hpopped, hback⟩ := h.pop_eq
      obtain ⟨s₁, hs₁, -, hkeeps₁⟩ := ihcallee d hpopped
      have hkeeps := hback s₁ hkeeps₁
      obtain ⟨s₂, hs₂, h₂, hkeeps₂⟩ :=
        ihrest ((callee d).onList tail).event (h.restore hkeeps)
      refine ⟨s₂, ?_, h₂, hkeeps.restore.trans hkeeps₂⟩
      rw [run, Chain.dispatchEvent, if_neg hactive, hpop]
      simp only [hpopped.contents_eq, ok_bind, hs₁, hs₂]
      rfl

theorem dispatchEvent_refines {s : Chain D} {l : List D} (h : s.Represents l) (event : Ev)
    (callee : D → Script D Ev) :
    ∃ s', s.dispatchEvent event (fun dispatcher => run (callee dispatcher)) =
        .ok ⟨((Script.dispatchEvent event callee .ret).onList l).event, s',
          ((Script.dispatchEvent event callee .ret).onList l).visits⟩ ∧
      s'.Represents l ∧ s'.contents = s.contents ∧ s'.restore s = s' := by
  cases l with
  | nil =>
    have hempty : s.activeCount = 0 := h.activeCount_eq
    refine ⟨s, ?_, h, rfl, rfl⟩
    rw [Chain.dispatchEvent, if_pos hempty]
    rfl
  | cons d tail =>
    have hactive : s.activeCount ≠ 0 := by simp [h.activeCount_eq]
    obtain ⟨popped, hpop, hpopped, hback⟩ := h.pop_eq
    obtain ⟨s₁, hs₁, -, hkeeps₁⟩ := run_spec (callee d) hpopped
    have hrestored := h.restore (hback s₁ hkeeps₁)
    refine ⟨s₁.restore s, ?_, hrestored, ?_, rfl⟩
    · rw [Chain.dispatchEvent, if_neg hactive, hpop, ok_bind]
      simp only [hpopped.contents_eq, ok_bind, hs₁]
      simp [Script.onList]
    · rw [hrestored.contents_eq, h.contents_eq]

/-- Two dispatchers; the first one extends its tail at both ends and forwards
twice. -/
theorem dispatchEvent_refines_extended_tail :
    ∃ s : Chain Nat, (do (← new.append 1).append 2) = .ok s ∧
      ∃ s', s.dispatchEvent 0 (fun d => run (if d = 1
          then .append 3 (.prepend 4 (.dispatchEvent 5 (fun _ => .ret 6) fun _ =>
            .dispatchEvent 7 (fun _ => .dispatchEvent 8 (fun _ => .ret 9) .ret) .ret))
          else .ret d)) =
        .ok ⟨9, s', [⟨1, [2]⟩, ⟨4, [2, 3]⟩, ⟨4, [2, 3]⟩, ⟨2, [3]⟩]⟩ ∧ s'.contents = .ok [1, 2] := by
  obtain ⟨s₁, hs₁, h₁, -⟩ := append_spec (new_represents (D := Nat)) 1
  obtain ⟨s₂, hs₂, h₂, -⟩ := append_spec h₁ 2
  refine ⟨s₂, by rw [hs₁, ok_bind, hs₂], ?_⟩
  obtain ⟨s', hs', h', -, -⟩ := dispatchEvent_refines h₂ 0 (fun d => if d = 1
    then .append 3 (.prepend 4 (.dispatchEvent 5 (fun _ => .ret 6) fun _ =>
      .dispatchEvent 7 (fun _ => .dispatchEvent 8 (fun _ => .ret 9) .ret) .ret))
    else .ret d)
  exact ⟨s', hs', h'.contents_eq⟩

end Chain

end OpenJfx.Event.EventDispatchChainImpl
