import OpenJfx.Event.CompositeEventHandler
import Mathlib.Data.List.Nodup
import Mathlib.Data.List.TakeWhile

namespace OpenJfx.Event.CompositeEventHandler

open List

variable {H : Type} [DecidableEq H]

structure Visit (H : Type) where
  record : Nat
  eventProcessor : H
  invoked : Bool
  state : CompositeEventHandler H
  edits : List (Edit H)

structure Dispatch (H : Type) where
  visits : List (Visit H)
  state : CompositeEventHandler H
  script : List (List (Edit H))
  ended : Bool

/-- The loop with one more record before it. -/
def Dispatch.after (d : Dispatch H) (visit : Visit H) : Dispatch H :=
  { d with visits := visit :: d.visits }

def handle (isFilter : Bool) (r : Nat) (record : EventProcessorRecord H)
    (c : CompositeEventHandler H) (script : List (List (Edit H))) :
    Visit H × CompositeEventHandler H × List (List (Edit H)) :=
  if c.isDisconnected record then
    (⟨r, record.eventProcessor, false, c, []⟩, c.remove r, script)
  else if record.isFilter = isFilter then
    (⟨r, record.eventProcessor, true, c, script.headD []⟩, c.performAll (script.headD []),
      script.tail)
  else (⟨r, record.eventProcessor, false, c, []⟩, c, script)

def dispatchFrom (isFilter : Bool) :
    Nat → Option Nat → CompositeEventHandler H → List (List (Edit H)) → Dispatch H
  | 0, _, c, script => ⟨[], c, script, false⟩
  | _ + 1, none, c, script => ⟨[], c, script, true⟩
  | fuel + 1, some r, c, script =>
    match c.records[r]? with
    | none => ⟨[], c, script, false⟩
    | some record =>
      let (visit, c, script) := handle isFilter r record c script
      (dispatchFrom isFilter fuel (c.next r) c script).after visit

/-- The loop comes to every record at most once, also to those that are added in the meantime. -/
def dispatch (c : CompositeEventHandler H) (isFilter : Bool) (script : List (List (Edit H))) :
    Dispatch H :=
  dispatchFrom isFilter (c.records.length + script.flatten.length + 1) c.firstRecord c script

def dispatchCapturingEvent (c : CompositeEventHandler H) (script : List (List (Edit H))) :
    Dispatch H × CompositeEventHandler H :=
  let d := c.dispatch true script
  (d, d.state)

def dispatchBubblingEvent (c : CompositeEventHandler H) (script : List (List (Edit H))) :
    Dispatch H × CompositeEventHandler H :=
  let d := c.dispatch false script
  match d.state.eventHandler with
  | some _ => (d, d.state.performAll (d.script.headD []))
  | none => (d, d.state)

section Conditions

def removedBy (c : CompositeEventHandler H) : Edit H → List Nat
  | .addEventHandler e => c.dropped e false
  | .addEventFilter e => c.dropped e true
  | .removeEventHandler e => c.dropped e false ++ (c.found e false).toList
  | .removeEventFilter e => c.dropped e true ++ (c.found e true).toList
  | .setEventHandler _ | .collect _ => []

def addedBy (c : CompositeEventHandler H) : Edit H → Option (H × Bool)
  | .addEventHandler e => if c.found e false = none then some (e, false) else none
  | .addEventFilter e => if c.found e true = none then some (e, true) else none
  | .removeEventHandler _ | .removeEventFilter _ | .setEventHandler _ | .collect _ => none

def keepsNext (c : CompositeEventHandler H) (current : Nat) (edit : Edit H) : Bool :=
  (c.registered.contains current && !(c.removedBy edit).contains current) ||
    (c.next current).all fun r => !(c.removedBy edit).contains r

def addsNew (c : CompositeEventHandler H) (isFilter : Bool) (invoked : List H) (edit : Edit H) :
    Bool :=
  (c.addedBy edit).all fun added => !(added.2 == isFilter && invoked.contains added.1)

def editsMeet (isFilter : Bool) (current : Nat) (invoked : List H) :
    CompositeEventHandler H → List (Edit H) → Bool
  | _, [] => true
  | c, edit :: edits =>
    c.keepsNext current edit && c.addsNew isFilter invoked edit &&
      editsMeet isFilter current invoked (c.perform edit) edits

def visitsMeet (isFilter : Bool) : List H → List (Visit H) → Bool
  | _, [] => true
  | invoked, v :: visits =>
    let invoked := if v.invoked then v.eventProcessor :: invoked else invoked
    editsMeet isFilter v.record invoked v.state v.edits && visitsMeet isFilter invoked visits

end Conditions

def Dispatch.turn (d : Dispatch H) (r : Nat) : CompositeEventHandler H :=
  ((d.visits.find? fun v => decide (r ≤ v.record)).map Visit.state).getD d.state

def Dispatch.invoked (d : Dispatch H) : List (Visit H) := d.visits.filter Visit.invoked

/-- Those registered when the walk comes to them are invoked, once. -/
structure Faithful (c : CompositeEventHandler H) (isFilter : Bool) (d : Dispatch H) : Prop where
  ended : d.ended = true
  registered : ∀ v ∈ d.invoked, v.record ∈ v.state.registered
  /-- in the order of registration -/
  ascending : (d.invoked.map Visit.record).Pairwise (· < ·)
  once : (d.invoked.map Visit.eventProcessor).Nodup
  turns : ∀ r ∈ c.registered, r ∈ d.invoked.map Visit.record ↔
    r ∈ (d.turn r).registered ∧ (d.turn r).disconnected r = false ∧
      (c.processor r).map Prod.snd = some isFilter

/-- The walk goes on at the first of the registered records from `low` on. If it ends, no record
below `bound` is left. -/
structure Starts (live : List Nat) (bound low : Nat) (start : Option Nat) : Prop where
  next : ∀ s, start = some s → s ∈ live ∧ low ≤ s ∧ ∀ r ∈ live, low ≤ r → s ≤ r
  end_ : start = none → ∀ r ∈ live, low ≤ r → bound ≤ r

/-- The walk goes on after `current`. -/
abbrev Follows (c : CompositeEventHandler H) (live : List Nat) (bound current : Nat) : Prop :=
  Starts live bound (current + 1) (c.next current)

variable {c : CompositeEventHandler H} {live : List Nat} {bound current : Nat}

omit [DecidableEq H] in
theorem Registered.follows (h : Registered c live) (hcur : current ∈ live) :
    Follows c live bound current := by
  obtain ⟨pre, post, rfl⟩ := append_of_mem hcur
  obtain ⟨-, hsort, hpre⟩ := pairwise_append.mp h.sorted
  obtain ⟨hpost, hpost'⟩ := pairwise_cons.mp hsort
  have hlater : ∀ r ∈ pre ++ current :: post, current < r → r ∈ post := by
    intro r hr hlt
    rcases mem_append.mp hr with hr | hr
    · exact absurd (hpre r hr current (by simp)) (Nat.lt_asymm hlt)
    · exact (mem_cons.mp hr).resolve_left (Nat.ne_of_gt hlt)
  constructor
  · intro s hs
    rw [h.next_eq] at hs
    have hmem := mem_of_head? hs
    refine ⟨by simp [hmem], hpost s hmem, ?_⟩
    intro r hr hlt
    cases post with
    | nil => exact nomatch hs
    | cons x post =>
      obtain rfl := Option.some.inj hs
      rcases mem_cons.mp (hlater r hr hlt) with rfl | hr
      · exact Nat.le_refl _
      · exact Nat.le_of_lt ((pairwise_cons.mp hpost').1 r hr)
  · intro hs r hr hlt
    rw [h.next_eq, head?_eq_none_iff] at hs
    have hmem := hlater r hr hlt
    rw [hs] at hmem
    exact absurd hmem not_mem_nil

structure RemovesAll (c : CompositeEventHandler H) (live rs : List Nat)
    (c' : CompositeEventHandler H) (live' : List Nat) : Prop where
  registered : Registered c' live'
  frames : Frames c c'
  mem_iff : ∀ r, r ∈ live' ↔ r ∈ live ∧ r ∉ rs
  next : ∀ current, (∀ s, c.next current = some s → s ∉ rs) → c'.next current = c.next current

omit [DecidableEq H] in
theorem Registered.removeAll (h : Registered c live) {rs : List Nat} (hsub : rs ⊆ live)
    (hnd : rs.Nodup) : ∃ live', RemovesAll c live rs (c.removeAll rs) live' := by
  induction rs generalizing c live with
  | nil =>
    exact ⟨live, h, ⟨rfl, rfl, rfl, rfl⟩, fun r => ⟨fun hr => ⟨hr, nofun⟩, And.left⟩,
      fun _ _ => rfl⟩
  | cons r rs ih =>
    obtain ⟨hr, hnd⟩ := nodup_cons.mp hnd
    obtain ⟨pre, post, rfl⟩ := append_of_mem (hsub (by simp : r ∈ r :: rs))
    obtain ⟨hremove, hframes, hnext⟩ := h.remove
    obtain ⟨hnd₁, hnd₂, hapart⟩ := nodup_append.mp h.nodup
    have hmem : ∀ s, s ∈ pre ++ post ↔ s ∈ pre ++ r :: post ∧ s ≠ r := by
      intro s
      rw [mem_append, mem_append, mem_cons]
      constructor
      · rintro (hs | hs)
        · exact ⟨.inl hs, hapart s hs r (by simp)⟩
        · refine ⟨.inr (.inr hs), ?_⟩
          rintro rfl
          exact (nodup_cons.mp hnd₂).1 hs
      · rintro ⟨hs | rfl | hs, hne⟩
        · exact .inl hs
        · exact absurd rfl hne
        · exact .inr hs
    have hsub' : rs ⊆ pre ++ post := by
      intro s hs
      refine (hmem s).mpr ⟨hsub (mem_cons_of_mem r hs), ?_⟩
      rintro rfl
      exact hr hs
    obtain ⟨live', hreg, hframes', hmem', hnext'⟩ := ih hremove hsub' hnd
    refine ⟨live', hreg, hframes.trans hframes', ?_, ?_⟩
    · intro s
      rw [hmem', hmem, mem_cons, not_or, and_assoc]
    · intro current hkeeps
      -- only the record before `r` gets another one after it
      have hne : pre.getLast? ≠ some current := by
        intro hlast
        obtain ⟨pre, rfl⟩ := getLast?_eq_some_iff.mp hlast
        have hcur : c.next current = some r := by
          have h' : Registered c (pre ++ current :: (r :: post)) := by simpa using h
          rw [h'.next_eq, head?_cons]
        exact hkeeps r hcur (by simp)
      have hsame := hnext current hne
      refine (hnext' current fun s hs => ?_).trans hsame
      rw [hsame] at hs
      exact fun hmem => hkeeps s hs (mem_cons_of_mem r hmem)

def GoesOn (c : CompositeEventHandler H) (live : List Nat) (bound current : Nat) : Prop :=
  current ∈ live ∨ Follows c live bound current

omit [DecidableEq H] in
theorem GoesOn.follows (hgoes : GoesOn c live bound current) (h : Registered c live) :
    Follows c live bound current := hgoes.elim h.follows id

variable {c' : CompositeEventHandler H} {live' : List Nat}

omit [DecidableEq H] in
theorem RemovesAll.goesOn {rs : List Nat} (hremoves : RemovesAll c live rs c' live')
    (h : Registered c live) (hgoes : GoesOn c live bound current)
    (hkeeps : current ∈ live ∧ current ∉ rs ∨ ∀ s, c.next current = some s → s ∉ rs) :
    GoesOn c' live' bound current := by
  rcases hkeeps with hkeeps | hkeeps
  · exact .inl ((hremoves.mem_iff current).mpr hkeeps)
  · obtain ⟨hnext, hend⟩ := hgoes.follows h
    refine .inr ⟨?_, ?_⟩
    · intro s hs
      rw [hremoves.next current hkeeps] at hs
      obtain ⟨hmem, hlt, hleast⟩ := hnext s hs
      exact ⟨(hremoves.mem_iff s).mpr ⟨hmem, hkeeps s hs⟩, hlt,
        fun r hr => hleast r ((hremoves.mem_iff r).mp hr).1⟩
    · intro hs r hr
      rw [hremoves.next current hkeeps] at hs
      exact hend hs r ((hremoves.mem_iff r).mp hr).1

omit [DecidableEq H] in
theorem Appends.goesOn {e : H} {f : Bool} (happends : Appends c c' e f) (h : Registered c live)
    (hgoes : GoesOn c live bound current) (hcur : current < c.records.length)
    (hbound : bound ≤ c.records.length) :
    GoesOn c' (live ++ [c.records.length]) bound current := by
  by_cases hmem : current ∈ live
  · exact .inl (mem_append_left _ hmem)
  obtain ⟨hnext, hend⟩ := hgoes.resolve_left hmem
  have hsame : c'.next current = c.next current := by
    refine happends.next current (fun hlast => hmem ?_) (Nat.ne_of_lt hcur)
    rw [h.last] at hlast
    exact mem_of_getLast? hlast
  refine .inr ⟨?_, ?_⟩
  · intro s hs
    rw [hsame] at hs
    obtain ⟨hs, hlt, hleast⟩ := hnext s hs
    refine ⟨mem_append_left _ hs, hlt, fun r hr hltr => ?_⟩
    rcases mem_append.mp hr with hr | hr
    · exact hleast r hr hltr
    · rw [mem_singleton.mp hr]
      exact Nat.le_of_lt (h.lt s hs)
  · intro hs r hr hltr
    rw [hsame] at hs
    rcases mem_append.mp hr with hr | hr
    · exact hend hs r hr hltr
    · rw [mem_singleton.mp hr]
      exact hbound

structure Performs (c : CompositeEventHandler H) (live : List Nat) (edit : Edit H)
    (c' : CompositeEventHandler H) (live' : List Nat) : Prop where
  registered : Registered c' live'
  length_le : c.records.length ≤ c'.records.length
  le_length : c'.records.length ≤ c.records.length + 1
  processor : ∀ r, r < c.records.length → c'.processor r = c.processor r
  mem : ∀ r ∈ live', r ∈ live ∨ ∃ added, c.addedBy edit = some added ∧ c'.processor r = some added
  goesOn : ∀ bound current, current < c.records.length → bound ≤ c.records.length →
    GoesOn c live bound current → c.keepsNext current edit = true → GoesOn c' live' bound current

theorem keepsNext_iff (h : Registered c live) (edit : Edit H) :
    c.keepsNext current edit = true ↔
      current ∈ live ∧ current ∉ c.removedBy edit ∨
        ∀ s, c.next current = some s → s ∉ c.removedBy edit := by
  rw [keepsNext, h.registered_eq, Bool.or_eq_true, Option.all_eq_true]
  simp

theorem performs_of_removesAll (h : Registered c live) {edit : Edit H}
    (hperform : c.perform edit = c.removeAll (c.removedBy edit)) (hsub : c.removedBy edit ⊆ live)
    (hnd : (c.removedBy edit).Nodup) : ∃ live', Performs c live edit (c.perform edit) live' := by
  rw [hperform]
  obtain ⟨live', hremoves⟩ := h.removeAll hsub hnd
  refine ⟨live', hremoves.registered, ?_, ?_, ?_, ?_, ?_⟩
  · exact Nat.le_of_eq hremoves.frames.length.symm
  · rw [hremoves.frames.length]
    exact Nat.le_succ _
  · intro r _
    rw [hremoves.frames.processor]
  · intro r hr
    exact .inl ((hremoves.mem_iff r).mp hr).1
  · intro bound current _ _ hgoes hkeeps
    exact hremoves.goesOn h hgoes ((keepsNext_iff h edit).mp hkeeps)

theorem dropped_subset (h : Registered c live) (e : H) (f : Bool) : c.dropped e f ⊆ live := by
  intro r hr
  rw [dropped, h.registered_eq] at hr
  exact (takeWhile_sublist _).subset (mem_filter.mp hr).1

theorem nodup_dropped (h : Registered c live) (e : H) (f : Bool) : (c.dropped e f).Nodup := by
  rw [dropped, h.registered_eq]
  exact (h.nodup.sublist (takeWhile_sublist _)).filter _

theorem found_spec (h : Registered c live) {e : H} {f : Bool} {r : Nat}
    (hfound : c.found e f = some r) : r ∈ live ∧ c.holds e f r = true := by
  rw [found, h.registered_eq] at hfound
  exact ⟨mem_of_find?_eq_some hfound, find?_some hfound⟩

theorem removeFound_eq (h : Registered c live) (e : H) (f : Bool) :
    c.removeFound e f = c.removeAll (c.dropped e f ++ (c.found e f).toList) := by
  rw [removeFound, h.find_eq]
  cases c.found e f with
  | none => rw [Option.toList_none, append_nil]
  | some r =>
    rw [removeAll, removeAll, foldl_append]
    rfl

theorem removedFound_subset (h : Registered c live) (e : H) (f : Bool) :
    c.dropped e f ++ (c.found e f).toList ⊆ live := by
  refine append_subset.mpr ⟨dropped_subset h e f, fun r hr => ?_⟩
  rw [Option.mem_toList] at hr
  exact (found_spec h hr).1

theorem nodup_removedFound (h : Registered c live) (e : H) (f : Bool) :
    (c.dropped e f ++ (c.found e f).toList).Nodup := by
  refine nodup_append.mpr ⟨nodup_dropped h e f, ?_, ?_⟩
  · cases c.found e f with
    | none => exact nodup_nil
    | some r => exact pairwise_singleton _ r
  · rintro r hr s hs rfl
    rw [Option.mem_toList] at hs
    have hholds := (found_spec h hs).2
    have hdisc := (mem_filter.mp hr).2
    rw [holds, hdisc] at hholds
    cases hholds

theorem performs_of_add (h : Registered c live) {e : H} {f : Bool} {edit : Edit H}
    (hperform : c.perform edit = c.add e f) (hrem : c.removedBy edit = c.dropped e f)
    (hadded : c.addedBy edit = if c.found e f = none then some (e, f) else none) :
    ∃ live', Performs c live edit (c.perform edit) live' := by
  have hadd : c.add e f = if c.found e f = none then
      ((c.removeAll (c.dropped e f)).create e f).append (c.removeAll (c.dropped e f)).lastRecord
        (c.removeAll (c.dropped e f)).records.length
      else c.removeAll (c.dropped e f) := by
    rw [add, h.find_eq]
  by_cases hfound : c.found e f = none
  · rw [if_pos hfound] at hadd hadded
    obtain ⟨live', hremoves⟩ := h.removeAll (dropped_subset h e f) (nodup_dropped h e f)
    have hframes := hremoves.frames
    have hnew : some (e, f) ∉ live'.map (c.removeAll (c.dropped e f)).processor := by
      intro hmem
      obtain ⟨r, hr, hproc⟩ := mem_map.mp hmem
      rw [hframes.processor] at hproc
      obtain ⟨hlive, hkept⟩ := (hremoves.mem_iff r).mp hr
      rw [found, h.registered_eq, find?_eq_none] at hfound
      rw [dropped, h.registered_eq, takeWhile_eq_self_iff.mpr (by simpa using hfound),
        mem_filter, not_and] at hkept
      refine hfound r hlive ?_
      rw [holds, hproc, Bool.eq_false_iff.mpr (hkept hlive)]
      simp
    obtain ⟨hreg, happends⟩ := hremoves.registered.append hnew
    rw [hperform, hadd]
    refine ⟨_, hreg, ?_, ?_, ?_, ?_, ?_⟩
    · rw [happends.length, hframes.length]
      exact Nat.le_succ _
    · exact Nat.le_of_eq (happends.length.trans (congrArg Nat.succ hframes.length))
    · intro r hr
      rw [happends.processor, hframes.length, Function.update_of_ne (Nat.ne_of_lt hr),
        hframes.processor]
    · intro r hr
      rcases mem_append.mp hr with hr | hr
      · exact .inl ((hremoves.mem_iff r).mp hr).1
      · refine .inr ⟨(e, f), hadded, ?_⟩
        rw [mem_singleton.mp hr, happends.processor, Function.update_self]
    · intro bound current hcur hbound hgoes hkeeps
      rw [keepsNext_iff h, hrem] at hkeeps
      rw [← hframes.length] at hcur hbound
      exact happends.goesOn hremoves.registered (hremoves.goesOn h hgoes hkeeps) hcur hbound
  · rw [if_neg hfound] at hadd
    rw [← hrem] at hadd
    refine performs_of_removesAll h (hperform.trans hadd) ?_ ?_
    · rw [hrem]
      exact dropped_subset h e f
    · rw [hrem]
      exact nodup_dropped h e f

theorem Registered.perform (h : Registered c live) (edit : Edit H) :
    ∃ live', Performs c live edit (c.perform edit) live' := by
  cases edit with
  | addEventHandler e | addEventFilter e => exact performs_of_add h rfl rfl rfl
  | removeEventHandler e =>
    exact performs_of_removesAll h (removeFound_eq h e false) (removedFound_subset h e false)
      (nodup_removedFound h e false)
  | removeEventFilter e =>
    exact performs_of_removesAll h (removeFound_eq h e true) (removedFound_subset h e true)
      (nodup_removedFound h e true)
  | setEventHandler _ | collect _ =>
    refine ⟨live, ⟨h.sorted, h.lt, h.first, h.last, h.linked, h.distinct⟩, Nat.le_refl _,
      Nat.le_succ _, fun _ _ => rfl, fun r hr => .inl hr, fun bound current _ _ hgoes _ => ?_⟩
    exact hgoes.imp id fun hfollows => ⟨hfollows.next, hfollows.end_⟩

/-- The handlers from `low` on have not been invoked yet. -/
def Unseen (c : CompositeEventHandler H) (live : List Nat) (isFilter : Bool) (low : Nat)
    (seen : List H) : Prop :=
  ∀ r ∈ live, low ≤ r → ∀ e, c.processor r = some (e, isFilter) → e ∉ seen

variable {isFilter : Bool} {low : Nat} {seen : List H}

omit [DecidableEq H] in
theorem Unseen.mono {low' : Nat} (h : Unseen c live isFilter low seen) (hle : low ≤ low') :
    Unseen c live isFilter low' seen :=
  fun r hr hlow => h r hr (hle.trans hlow)

structure PerformsAll (c : CompositeEventHandler H) (count : Nat) (c' : CompositeEventHandler H)
    (live' : List Nat) : Prop where
  registered : Registered c' live'
  length_le : c.records.length ≤ c'.records.length
  le_length : c'.records.length ≤ c.records.length + count
  processor : ∀ r, r < c.records.length → c'.processor r = c.processor r

theorem Registered.performAll (edits : List (Edit H)) :
    ∀ {c : CompositeEventHandler H} {live : List Nat}, Registered c live →
      ∃ live', PerformsAll c edits.length (c.performAll edits) live' := by
  induction edits with
  | nil => exact fun h => ⟨_, h, Nat.le_refl _, Nat.le_refl _, fun _ _ => rfl⟩
  | cons edit edits ih =>
    intro c live h
    obtain ⟨live₁, hperforms⟩ := h.perform edit
    obtain ⟨live', hreg, hle, hle', hproc⟩ := ih hperforms.registered
    have hlen := hperforms.length_le
    have hlen' := hperforms.le_length
    refine ⟨live', hreg, hlen.trans hle, ?_, fun r hr => ?_⟩
    · rw [length_cons]
      exact hle'.trans (by omega)
    · exact (hproc r (Nat.lt_of_lt_of_le hr hlen)).trans (hperforms.processor r hr)

theorem performAll_meets {invoked : List H} (edits : List (Edit H)) :
    ∀ {c : CompositeEventHandler H} {live : List Nat}, Registered c live →
      current < c.records.length → bound ≤ c.records.length → GoesOn c live bound current →
      Unseen c live isFilter (current + 1) invoked →
      editsMeet isFilter current invoked c edits = true →
      ∃ live', PerformsAll c edits.length (c.performAll edits) live' ∧
        GoesOn (c.performAll edits) live' bound current ∧
        Unseen (c.performAll edits) live' isFilter (current + 1) invoked := by
  induction edits with
  | nil =>
    intro c live h _ _ hgoes hunseen _
    exact ⟨live, ⟨h, Nat.le_refl _, Nat.le_refl _, fun _ _ => rfl⟩, hgoes, hunseen⟩
  | cons edit edits ih =>
    intro c live h hcur hbound hgoes hunseen hmeet
    rw [editsMeet, Bool.and_eq_true, Bool.and_eq_true] at hmeet
    obtain ⟨⟨hkeeps, hnew⟩, hmeet⟩ := hmeet
    obtain ⟨live₁, hperforms⟩ := h.perform edit
    have hlen := hperforms.length_le
    have hlen' := hperforms.le_length
    have hunseen₁ : Unseen (c.perform edit) live₁ isFilter (current + 1) invoked := by
      intro r hr hlow e hproc
      rcases hperforms.mem r hr with hr | ⟨added, hadded, hproc'⟩
      · rw [hperforms.processor r (h.lt r hr)] at hproc
        exact hunseen r hr hlow e hproc
      · rw [hproc] at hproc'
        rw [addsNew, hadded, ← Option.some.inj hproc'] at hnew
        simpa using hnew
    obtain ⟨live', ⟨hreg, hle, hle', hproc⟩, hgoes', hunseen'⟩ :=
      ih hperforms.registered (Nat.lt_of_lt_of_le hcur hlen) (hbound.trans hlen)
        (hperforms.goesOn bound current hcur hbound hgoes hkeeps) hunseen₁ hmeet
    refine ⟨live', ⟨hreg, hlen.trans hle, ?_, fun r hr => ?_⟩, hgoes', hunseen'⟩
    · rw [length_cons]
      exact hle'.trans (by omega)
    · exact (hproc r (Nat.lt_of_lt_of_le hr hlen)).trans (hperforms.processor r hr)

structure Handles (c : CompositeEventHandler H) (bound : Nat) (isFilter : Bool) (r : Nat)
    (script : List (List (Edit H))) (seen : List H) (v : Visit H) (c' : CompositeEventHandler H)
    (script' : List (List (Edit H))) (live' : List Nat) : Prop where
  registered : Registered c' live'
  record : v.record = r
  state : v.state = c
  processor_invoked : v.invoked = true → c.processor r = some (v.eventProcessor, isFilter)
  invoked_iff : v.invoked = true ↔
    c.disconnected r = false ∧ (c.processor r).map Prod.snd = some isFilter
  length_le : c.records.length ≤ c'.records.length
  le_length : c'.records.length + script'.flatten.length ≤
    c.records.length + script.flatten.length
  processor : ∀ s, s < c.records.length → c'.processor s = c.processor s
  follows : Follows c' live' bound r
  unseen : Unseen c' live' isFilter (r + 1)
    (if v.invoked then v.eventProcessor :: seen else seen)

theorem handle_spec (h : Registered c live) {r : Nat} (hr : r ∈ live)
    {record : EventProcessorRecord H} (hrec : c.records[r]? = some record)
    (script : List (List (Edit H))) (hbound : bound ≤ c.records.length)
    (hunseen : Unseen c live isFilter r seen) (hmeet : editsMeet isFilter r
      (if (handle isFilter r record c script).1.invoked then
        (handle isFilter r record c script).1.eventProcessor :: seen else seen)
      (handle isFilter r record c script).1.state (handle isFilter r record c script).1.edits =
        true) :
    ∃ live', Handles c bound isFilter r script seen (handle isFilter r record c script).1
      (handle isFilter r record c script).2.1 (handle isFilter r record c script).2.2 live' := by
  have hlt := h.lt r hr
  have hproc : c.processor r = some (record.eventProcessor, record.isFilter) := by
    rw [processor, hrec]
    rfl
  have hdisc : c.disconnected r = c.isDisconnected record := by
    rw [disconnected, hproc]
    rfl
  have hunseen' := hunseen.mono (Nat.le_succ r)
  by_cases hd : c.isDisconnected record = true
  · have hhandle : handle isFilter r record c script =
        (⟨r, record.eventProcessor, false, c, []⟩, c.remove r, script) := if_pos hd
    rw [hhandle]
    have hsingle : [r] ⊆ live := cons_subset.mpr ⟨hr, nil_subset live⟩
    obtain ⟨live', hremoves⟩ := h.removeAll hsingle (pairwise_singleton _ r)
    have hgoes : GoesOn (c.remove r) live' bound r := by
      refine hremoves.goesOn h (.inl hr) (.inr fun s hs hmem => ?_)
      have hfollows : Follows c live bound r := h.follows hr
      exact Nat.ne_of_gt (hfollows.next s hs).2.1 (mem_singleton.mp hmem)
    have hframes := hremoves.frames
    refine ⟨live', hremoves.registered, rfl, rfl, Bool.noConfusion, ?_, ?_, ?_, fun s _ => ?_,
      ?_, ?_⟩
    · refine iff_of_false Bool.noConfusion fun hinvoked => ?_
      rw [hdisc, hd] at hinvoked
      cases hinvoked.1
    · exact Nat.le_of_eq hframes.length.symm
    · exact Nat.le_of_eq (congrArg (· + _) hframes.length)
    · exact congrFun hframes.processor s
    · exact hgoes.follows hremoves.registered
    · intro s hs hlow e hproc
      rw [show (c.remove r).processor = c.processor from hframes.processor] at hproc
      exact hunseen' s ((hremoves.mem_iff s).mp hs).1 hlow e hproc
  · by_cases hf : record.isFilter = isFilter
    · have hhandle : handle isFilter r record c script =
          (⟨r, record.eventProcessor, true, c, script.headD []⟩, c.performAll (script.headD []),
            script.tail) := (if_neg hd).trans (if_pos hf)
      rw [hhandle] at hmeet ⊢
      -- the records of other handlers do not have the handler of this one
      have hnotself : Unseen c live isFilter (r + 1) (record.eventProcessor :: seen) := by
        intro s hs hlow e hproc' hmem
        rcases mem_cons.mp hmem with rfl | hmem
        · have heq : s = r := by
            refine inj_on_of_nodup_map h.distinct hs hr ?_
            rw [hproc', hproc, hf]
          exact absurd heq (Nat.ne_of_gt hlow)
        · exact hunseen' s hs hlow e hproc' hmem
      obtain ⟨live', ⟨hreg, hle, hle', hprocessors⟩, hgoes, hunseen''⟩ :=
        performAll_meets (script.headD []) h hlt hbound (.inl hr) hnotself hmeet
      refine ⟨live', hreg, rfl, rfl, fun _ => ?_, iff_of_true rfl ⟨?_, ?_⟩, hle, ?_,
        hprocessors, hgoes.follows hreg, hunseen''⟩
      · rw [hproc, hf]
      · rw [hdisc]
        exact Bool.eq_false_iff.mpr hd
      · rw [hproc, hf]
        rfl
      · cases script with
        | nil => simpa using hle'
        | cons edits script =>
          rw [flatten_cons, length_append, ← Nat.add_assoc]
          exact Nat.add_le_add_right hle' _
    · have hhandle : handle isFilter r record c script =
          (⟨r, record.eventProcessor, false, c, []⟩, c, script) := (if_neg hd).trans (if_neg hf)
      rw [hhandle]
      refine ⟨live, h, rfl, rfl, Bool.noConfusion, iff_of_false Bool.noConfusion
        fun hinvoked => hf ?_, Nat.le_refl _, Nat.le_refl _, fun _ _ => rfl, h.follows hr, hunseen'⟩
      have hsnd := hinvoked.2
      rw [hproc] at hsnd
      exact Option.some.inj hsnd

omit [DecidableEq H] in
theorem Dispatch.turn_after (d : Dispatch H) (v : Visit H) (r : Nat) :
    (d.after v).turn r = if r ≤ v.record then v.state else d.turn r := by
  rw [Dispatch.turn, Dispatch.after, find?_cons]
  by_cases hr : r ≤ v.record
  · rw [if_pos hr, decide_eq_true hr]
    rfl
  · rw [if_neg hr, decide_eq_false hr]
    rfl

omit [DecidableEq H] in
theorem Dispatch.mem_invoked_after (d : Dispatch H) (v w : Visit H) :
    w ∈ (d.after v).invoked ↔ w = v ∧ v.invoked = true ∨ w ∈ d.invoked := by
  rw [Dispatch.invoked, Dispatch.after, mem_filter, mem_cons, Dispatch.invoked,
    mem_filter, or_and_right]
  exact or_congr_left (and_congr_right fun heq => by rw [heq])

/-- What the loop does from `low` on if the edits meet the conditions. -/
structure Walks (c : CompositeEventHandler H) (bound : Nat) (isFilter : Bool) (low : Nat)
    (seen : List H) (d : Dispatch H) : Prop where
  registered : ∃ live, Registered d.state live
  ended : d.ended = true
  visits : ∀ v ∈ d.visits, low ≤ v.record ∧ v.record ∈ v.state.registered
  ascending : (d.visits.map Visit.record).Pairwise (· < ·)
  once : (d.invoked.map Visit.eventProcessor).Nodup
  unseen : ∀ v ∈ d.invoked, v.eventProcessor ∉ seen
  turns : ∀ r, low ≤ r → r < bound → (r ∈ d.invoked.map Visit.record ↔
    r ∈ (d.turn r).registered ∧ (d.turn r).disconnected r = false ∧
      (c.processor r).map Prod.snd = some isFilter)

theorem Handles.walks {r : Nat} {script script' : List (List (Edit H))} {v : Visit H}
    {d : Dispatch H} (h : Registered c live) (hr : r ∈ live) (hlow : low ≤ r)
    (hleast : ∀ s ∈ live, low ≤ s → r ≤ s) (hbound : bound ≤ c.records.length)
    (hunseen : Unseen c live isFilter low seen)
    (hhandles : Handles c bound isFilter r script seen v c' script' live')
    (hd : Walks c' bound isFilter (r + 1) (if v.invoked then v.eventProcessor :: seen else seen)
      d) : Walks c bound isFilter low seen (d.after v) := by
  have hrec := hhandles.record
  have hinvoked : ∀ w ∈ d.invoked, r < w.record := fun w hw =>
    (hd.visits w (mem_filter.mp hw).1).1
  refine ⟨hd.registered, hd.ended, ?_, ?_, ?_, ?_, ?_⟩
  · intro w hw
    rcases mem_cons.mp hw with rfl | hw
    · rw [hrec, hhandles.state, h.registered_eq]
      exact ⟨hlow, hr⟩
    · obtain ⟨hlt, hmem⟩ := hd.visits w hw
      exact ⟨hlow.trans (Nat.le_of_lt hlt), hmem⟩
  · refine pairwise_cons.mpr ⟨fun s hs => ?_, hd.ascending⟩
    obtain ⟨w, hw, rfl⟩ := mem_map.mp hs
    rw [hrec]
    exact (hd.visits w hw).1
  · have hunseen' := hd.unseen
    rw [Dispatch.invoked, Dispatch.after, filter_cons]
    split_ifs with hv
    · rw [if_pos hv] at hunseen'
      refine nodup_cons.mpr ⟨fun hmem => ?_, hd.once⟩
      obtain ⟨w, hw, heq⟩ := mem_map.mp hmem
      exact hunseen' w hw (by rw [heq]; exact mem_cons_self)
    · exact hd.once
  · intro w hw
    rcases (d.mem_invoked_after v w).mp hw with ⟨rfl, hv⟩ | hw
    · exact hunseen r hr hlow _ (hhandles.processor_invoked hv)
    · have hfresh := hd.unseen w hw
      split_ifs at hfresh with hv
      · exact fun hmem => hfresh (mem_cons_of_mem _ hmem)
      · exact hfresh
  · intro s hs hlt
    have hmem : s ∈ (d.after v).invoked.map Visit.record ↔
        s = r ∧ v.invoked = true ∨ s ∈ d.invoked.map Visit.record := by
      rw [mem_map, mem_map]
      constructor
      · rintro ⟨w, hw, rfl⟩
        rcases (d.mem_invoked_after v w).mp hw with ⟨rfl, hv⟩ | hw
        · exact .inl ⟨hrec, hv⟩
        · exact .inr ⟨w, hw, rfl⟩
      · rintro (⟨rfl, hv⟩ | ⟨w, hw, rfl⟩)
        · exact ⟨v, (d.mem_invoked_after v v).mpr (.inl ⟨rfl, hv⟩), hrec⟩
        · exact ⟨w, (d.mem_invoked_after v w).mpr (.inr hw), rfl⟩
    have hlater : s ∈ d.invoked.map Visit.record → r < s := by
      intro hs
      obtain ⟨w, hw, rfl⟩ := mem_map.mp hs
      exact hinvoked w hw
    rw [hmem, d.turn_after, hrec, hhandles.state]
    rcases Nat.lt_trichotomy s r with hsr | rfl | hrs
    · -- no record that is registered is passed over
      rw [if_pos (Nat.le_of_lt hsr), h.registered_eq]
      refine iff_of_false ?_ fun hmem => Nat.not_le_of_lt hsr (hleast s hmem.1 hs)
      rintro (⟨rfl, -⟩ | hmem)
      · exact Nat.lt_irrefl _ hsr
      · exact Nat.lt_asymm hsr (hlater hmem)
    · rw [if_pos (Nat.le_refl _), h.registered_eq, ← hhandles.invoked_iff]
      constructor
      · rintro (⟨-, hv⟩ | hmem)
        · exact ⟨hr, hv⟩
        · exact absurd (hlater hmem) (Nat.lt_irrefl _)
      · exact fun hv => .inl ⟨rfl, hv.2⟩
    · rw [if_neg (Nat.not_le_of_lt hrs), ← hhandles.processor s (Nat.lt_of_lt_of_le hlt hbound),
        ← hd.turns s hrs hlt]
      refine or_iff_right ?_
      rintro ⟨rfl, -⟩
      exact Nat.lt_irrefl _ hrs

theorem dispatchFrom_spec : ∀ (fuel low : Nat) (start : Option Nat)
    (c : CompositeEventHandler H) (live : List Nat) (script : List (List (Edit H))) (seen : List H),
    Registered c live → Starts live bound low start → bound ≤ c.records.length → 0 < fuel →
    (∀ s, start = some s → c.records.length + script.flatten.length < s + fuel) →
    Unseen c live isFilter low seen →
    visitsMeet isFilter seen (dispatchFrom isFilter fuel start c script).visits = true →
    Walks c bound isFilter low seen (dispatchFrom isFilter fuel start c script) := by
  intro fuel
  induction fuel with
  | zero => exact fun _ _ _ _ _ _ _ _ _ hpos => absurd hpos (Nat.lt_irrefl 0)
  | succ fuel ih =>
    intro low start c live script seen h hstarts hbound _ hfuel hunseen hmeet
    cases start with
    | none =>
      refine ⟨⟨live, h⟩, rfl, nofun, .nil, .nil, nofun, fun r hlow hlt => ?_⟩
      refine iff_of_false not_mem_nil fun hmem => ?_
      have hr : r ∈ c.registered := hmem.1
      rw [h.registered_eq] at hr
      exact absurd (hstarts.end_ rfl r hr hlow) (Nat.not_le_of_lt hlt)
    | some r =>
      obtain ⟨hr, hlow, hleast⟩ := hstarts.next r rfl
      have hlt := h.lt r hr
      obtain ⟨record, hrec⟩ : ∃ record, c.records[r]? = some record :=
        ⟨_, getElem?_eq_getElem hlt⟩
      have hstep : dispatchFrom isFilter (fuel + 1) (some r) c script =
          (dispatchFrom isFilter fuel ((handle isFilter r record c script).2.1.next r)
            (handle isFilter r record c script).2.1
            (handle isFilter r record c script).2.2).after
              (handle isFilter r record c script).1 := by
        rw [dispatchFrom, hrec]
      rw [hstep] at hmeet ⊢
      rw [Dispatch.after, visitsMeet, Bool.and_eq_true] at hmeet
      obtain ⟨hedits, hmeet⟩ := hmeet
      have hrec' : (handle isFilter r record c script).1.record = r := by
        unfold handle
        split_ifs <;> rfl
      rw [hrec'] at hedits
      obtain ⟨live', hhandles⟩ :=
        handle_spec h hr hrec script hbound (hunseen.mono hlow) hedits
      have hfuel' := hfuel r rfl
      refine hhandles.walks h hr hlow hleast hbound hunseen ?_
      refine ih (r + 1) _ _ live' _ _ hhandles.registered hhandles.follows
        (hbound.trans hhandles.length_le) (by omega) (fun s hs => ?_) hhandles.unseen hmeet
      have hle := hhandles.le_length
      have hnext := (hhandles.follows.next s hs).2.1
      omega

theorem dispatch_spec (h : Registered c live) {script : List (List (Edit H))}
    (hmeet : visitsMeet isFilter [] (c.dispatch isFilter script).visits = true) :
    Walks c c.records.length isFilter 0 [] (c.dispatch isFilter script) := by
  refine dispatchFrom_spec _ 0 _ c live script [] h ⟨?_, ?_⟩ (Nat.le_refl _) (Nat.succ_pos _) ?_
    (fun _ _ _ _ _ => not_mem_nil) hmeet
  · intro s hs
    rw [h.first] at hs
    refine ⟨mem_of_head? hs, Nat.zero_le s, fun r hr _ => ?_⟩
    have hsort := h.sorted
    obtain ⟨later, rfl⟩ := head?_eq_some_iff.mp hs
    rcases mem_cons.mp hr with rfl | hr
    · exact Nat.le_refl _
    · exact Nat.le_of_lt ((pairwise_cons.mp hsort).1 r hr)
  · intro hs r hr
    rw [h.first, head?_eq_none_iff] at hs
    rw [hs] at hr
    exact absurd hr not_mem_nil
  · intro s _
    omega

theorem Walks.faithful (h : Registered c live) {d : Dispatch H}
    (hd : Walks c c.records.length isFilter 0 [] d) : Faithful c isFilter d := by
  refine ⟨hd.ended, fun v hv => (hd.visits v (mem_filter.mp hv).1).2, ?_, hd.once, ?_⟩
  · exact hd.ascending.sublist (filter_sublist.map _)
  · intro r hr
    rw [h.registered_eq] at hr
    exact hd.turns r (Nat.zero_le r) (h.lt r hr)

/-- The calls that an application makes. The edits of a dispatch are those of the handlers, in the
order in which they are invoked. -/
inductive Call (H : Type)
  | edit (edit : Edit H)
  | dispatchCapturingEvent (script : List (List (Edit H)))
  | dispatchBubblingEvent (script : List (List (Edit H)))

structure Dispatched (H : Type) where
  before : CompositeEventHandler H
  isFilter : Bool
  dispatch : Dispatch H

def Dispatched.meets (d : Dispatched H) : Bool := visitsMeet d.isFilter [] d.dispatch.visits

def dispatches : CompositeEventHandler H → List (Call H) → List (Dispatched H)
  | _, [] => []
  | c, .edit edit :: calls => dispatches (c.perform edit) calls
  | c, .dispatchCapturingEvent script :: calls =>
    ⟨c, true, (c.dispatchCapturingEvent script).1⟩ ::
      dispatches (c.dispatchCapturingEvent script).2 calls
  | c, .dispatchBubblingEvent script :: calls =>
    ⟨c, false, (c.dispatchBubblingEvent script).1⟩ ::
      dispatches (c.dispatchBubblingEvent script).2 calls

theorem dispatches_spec (calls : List (Call H)) :
    ∀ {c : CompositeEventHandler H} {live : List Nat}, Registered c live →
      (∀ d ∈ c.dispatches calls, d.meets = true) →
      ∀ d ∈ c.dispatches calls, Faithful d.before d.isFilter d.dispatch := by
  induction calls with
  | nil => exact fun _ _ d hd => absurd hd not_mem_nil
  | cons call calls ih =>
    intro c live h hmeet
    cases call with
    | edit edit =>
      obtain ⟨live', hperforms⟩ := h.perform edit
      exact ih hperforms.registered hmeet
    | dispatchCapturingEvent script =>
      obtain ⟨hfst, hmeet⟩ := forall_mem_cons.mp hmeet
      have hwalks := dispatch_spec h hfst
      obtain ⟨live', hreg⟩ := hwalks.registered
      exact forall_mem_cons.mpr ⟨hwalks.faithful h, ih hreg hmeet⟩
    | dispatchBubblingEvent script =>
      have hdispatch : (c.dispatchBubblingEvent script).1 = c.dispatch false script := by
        unfold dispatchBubblingEvent
        dsimp only
        split <;> rfl
      rw [dispatches, hdispatch] at hmeet ⊢
      obtain ⟨hfst, hmeet⟩ := forall_mem_cons.mp hmeet
      have hwalks := dispatch_spec h hfst
      obtain ⟨live', hreg⟩ := hwalks.registered
      refine forall_mem_cons.mpr ⟨hwalks.faithful h, ?_⟩
      obtain ⟨live'', hafter⟩ :
          ∃ live'', Registered (c.dispatchBubblingEvent script).2 live'' := by
        unfold dispatchBubblingEvent
        dsimp only
        split
        · obtain ⟨live'', hperforms⟩ := hreg.performAll
            ((c.dispatch false script).script.headD [])
          exact ⟨live'', hperforms.registered⟩
        · exact ⟨live', hreg⟩
      exact ih hafter hmeet

/-- Every dispatch of every run is faithful if none of its edits removes the record after the
current one when the current one is not registered any more, and none adds a handler again that has
been invoked. -/
theorem dispatches_faithful (calls : List (Call H))
    (hmeet : ∀ d ∈ (new : CompositeEventHandler H).dispatches calls, d.meets = true) :
    ∀ d ∈ (new : CompositeEventHandler H).dispatches calls,
      Faithful d.before d.isFilter d.dispatch :=
  dispatches_spec calls registered_new hmeet

def selfRemovingCalls : List (Call Nat) :=
  [.edit (.addEventHandler 0), .edit (.addEventHandler 1), .edit (.addEventHandler 2),
    .dispatchBubblingEvent [[.removeEventHandler 0, .removeEventHandler 2, .addEventHandler 3]]]

/-- The handler of the first record removes itself and the last record, and adds a handler. -/
theorem dispatches_faithful_three :
    ((new : CompositeEventHandler Nat).dispatches selfRemovingCalls).length = 1 ∧
      ∀ d ∈ (new : CompositeEventHandler Nat).dispatches selfRemovingCalls,
        Faithful d.before d.isFilter d.dispatch :=
  ⟨by decide, dispatches_faithful _ (by decide)⟩

theorem removed_invoked : ¬∀ d ∈ (new : CompositeEventHandler Nat).dispatches
    [.edit (.addEventHandler 0), .edit (.addEventHandler 1),
      .dispatchBubblingEvent [[.removeEventHandler 0, .removeEventHandler 1]]],
    Faithful d.before d.isFilter d.dispatch := by
  intro h
  have hregistered := (h _ mem_cons_self).registered
  revert hregistered
  decide

end OpenJfx.Event.CompositeEventHandler
