import OpenJfx.Control.SelectedIndicesList
import Mathlib.Data.List.Dedup

namespace OpenJfx.Control

open Java.Arrays Java.BitSets Collections.ListChange Collections.ListChangeBuilder List

/-- The reported elements are deleted, and those of the range are inserted. There is no result
when other elements stand at that position. -/
def replaySubChange (list l : List Nat) (c : SubChange Nat) : Option (List Nat) :=
  if 0 ≤ c.fromIdx ∧ c.fromIdx ≤ c.toIdx ∧ c.toIdx ≤ list.length ∧ c.fromIdx ≤ l.length ∧
      (l.drop c.fromIdx.toNat).take c.getRemovedSize = c.getRemoved then
    some (l.take c.fromIdx.toNat ++ subList list c.fromIdx c.toIdx ++
      l.drop (c.fromIdx.toNat + c.getRemovedSize))
  else none

def replayChange (l : List Nat) (c : Change) : Option (List Nat) :=
  c.subChanges.foldlM (replaySubChange c.list) l

/-- All changes, in the order in which they were fired. -/
def replay (fired : List Change) (l : List Nat) : Option (List Nat) := fired.foldlM replayChange l

theorem replay_append (fired later : List Change) (l : List Nat) :
    replay (fired ++ later) l = (replay fired l).bind (replay later) := by
  rw [replay, foldlM_append]
  rfl

theorem replay_singleton (c : Change) (l : List Nat) : replay [c] l = replayChange l c := by
  rw [replay, foldlM_cons]
  cases replayChange l c <;> rfl

theorem replaySubChange_eq {list l front kept removed added rest back : List Nat}
    (hlist : list = front ++ added ++ rest) (hl : l = kept ++ removed ++ back)
    (hlen : front.length = kept.length) :
    replaySubChange list l
        ⟨kept.length, kept.length + added.length, some removed, [], false⟩ =
      some (kept ++ added ++ back) := by
  subst hlist hl
  have hrem : (⟨kept.length, kept.length + added.length, some removed, [], false⟩ :
      SubChange Nat).getRemoved = removed := rfl
  have hsub : subList (front ++ added ++ rest) kept.length (kept.length + added.length) = added :=
    subList_append front added rest (by rw [hlen]) rfl
  rw [replaySubChange, SubChange.getRemovedSize, hrem]
  dsimp only
  rw [hsub, Int.toNat_natCast, if_pos]
  · rw [append_assoc kept removed back, take_left, ← append_assoc kept removed back,
      ← length_append, drop_left]
  · refine ⟨Int.natCast_nonneg _, by omega, ?_, ?_, ?_⟩
    · simp only [length_append]
      omega
    · simp only [length_append]
      omega
    · rw [append_assoc, drop_left, take_left]

namespace SelectedIndicesList

variable {s s' : SelectedIndicesList}

theorem report_of_atomic (h : 0 < s.atomicityCount) (calls : Builder Nat → Outcome (Builder Nat)) :
    s.report calls = .ok s := by
  rw [report, isAtomic, if_pos (by simpa using h)]
  rfl

theorem report_nextAdd (h : s.atomicityCount = 0) (start stop : Int) :
    s.report (fun b => b.nextAdd start stop) =
      .ok (s.callObservers [⟨start, stop, some [], [], false⟩]) := by
  rw [report, isAtomic, h]
  rfl

theorem report_nextRemove (h : s.atomicityCount = 0) (position : Int) (index : Nat) :
    s.report (fun b => b.nextRemove position index) =
      .ok (s.callObservers [⟨position, position, some [index], [], false⟩]) := by
  rw [report, isAtomic, h]
  rfl

theorem foldlM_nextRemove (x : Nat) (removed before : List Nat) :
    removed.foldlM (fun (b : Builder Nat) e => b.nextRemove 0 e)
        ⟨1, [⟨0, 0, some (before ++ [x]), [], false⟩], [], none⟩ =
      .ok ⟨1, [⟨0, 0, some (before ++ [x] ++ removed), [], false⟩], [], none⟩ := by
  induction removed generalizing before x with
  | nil =>
    rw [append_nil]
    rfl
  | cons y removed ih =>
    have hrest := ih y (before ++ [x])
    rw [append_assoc (before ++ [x]) [y] removed] at hrest
    exact hrest

theorem report_nextRemoveAll (h : s.atomicityCount = 0) (removed : List Nat) :
    s.report (fun b => b.nextRemoveAll 0 removed) =
      .ok (if removed = [] then s else s.callObservers [⟨0, 0, some removed, [], false⟩]) := by
  rw [report, isAtomic, h]
  cases removed with
  | nil => rfl
  | cons x removed =>
    have hloop := foldlM_nextRemove x removed []
    rw [nil_append] at hloop
    change ((removed.foldlM (fun (b : Builder Nat) e => b.nextRemove 0 e)
      ⟨1, [⟨0, 0, some [x], [], false⟩], [], none⟩) >>= _) = _
    rw [hloop]
    rfl

structure Told (s s' : SelectedIndicesList) : Prop where
  atomicity : s'.atomicityCount = s.atomicityCount
  fired : ∃ changes, s'.fired = s.fired ++ changes ∧ replay changes s.elements = some s'.elements

theorem Told.refl (s : SelectedIndicesList) : s.Told s :=
  ⟨rfl, [], (append_nil _).symm, rfl⟩

theorem Told.trans {s'' : SelectedIndicesList} (h : s.Told s') (h' : s'.Told s'') : s.Told s'' := by
  rcases h with ⟨hatom, changes, hfired, hreplay⟩
  rcases h' with ⟨hatom', changes', hfired', hreplay'⟩
  refine ⟨hatom'.trans hatom, changes ++ changes', ?_, ?_⟩
  · rw [hfired', hfired, append_assoc]
  · rw [replay_append, hreplay]
    exact hreplay'

theorem told_callObservers {cs : List (SubChange Nat)}
    (hatom : s'.atomicityCount = s.atomicityCount) (hfired : s'.fired = s.fired)
    (hreplay : cs.foldlM (replaySubChange s'.elements) s.elements = some s'.elements) :
    s.Told (s'.callObservers cs) := by
  refine ⟨hatom, [⟨s'.elements, cs⟩], ?_, ?_⟩
  · rw [callObservers, hfired]
  · rw [replay_singleton]
    exact hreplay

theorem told_replaced (s' : SelectedIndicesList) {kept removed added back : List Nat}
    {start stop : Int} (hatom : s'.atomicityCount = s.atomicityCount)
    (hfired : s'.fired = s.fired) (hbef : s.elements = kept ++ removed ++ back)
    (hafter : s'.elements = kept ++ added ++ back) (hstart : start = kept.length)
    (hstop : stop = start + added.length) :
    s.Told (s'.callObservers [⟨start, stop, some removed, [], false⟩]) := by
  subst hstart hstop
  refine told_callObservers hatom hfired ?_
  rw [foldlM_cons, replaySubChange_eq hafter hbef rfl, hafter]
  rfl

variable {itemCount : Nat}

def withElement (elements : List Nat) (index : Nat) : List Nat :=
  elements.filter (· < index) ++ index :: elements.filter (index + 1 ≤ ·)

variable {elements : List Nat}

theorem filter_ne_eq (helems : elements.Pairwise (· < ·)) (index : Nat) :
    elements.filter (· ≠ index) =
      elements.filter (· < index) ++ elements.filter (index + 1 ≤ ·) := by
  apply BitSet.bits_eq_of_mem_iff (helems.filter _)
  · exact BitSet.sorted_between helems .nil (fun _ hi => absurd hi not_mem_nil)
      (Nat.le_succ index)
  · intro i
    simp only [mem_append, mem_filter, decide_eq_true_eq]
    constructor
    · rintro ⟨hi, hne⟩
      rcases Nat.lt_or_gt_of_ne hne with hlt | hgt
      · exact .inl ⟨hi, hlt⟩
      · exact .inr ⟨hi, hgt⟩
    · rintro (⟨hi, hlt⟩ | ⟨hi, hgt⟩)
      · exact ⟨hi, Nat.ne_of_lt hlt⟩
      · exact ⟨hi, Nat.ne_of_gt hgt⟩

variable {index : Nat}

theorem elements_eq_of_notMem (helems : elements.Pairwise (· < ·)) (h : index ∉ elements) :
    elements = elements.filter (· < index) ++ elements.filter (index + 1 ≤ ·) := by
  rw [← filter_ne_eq helems, eq_comm, filter_eq_self]
  intro i hi
  rw [decide_eq_true_eq]
  rintro rfl
  exact h hi

theorem withElement_of_mem (helems : elements.Pairwise (· < ·)) (h : index ∈ elements) :
    withElement elements index = elements := by
  refine BitSet.bits_eq_of_mem_iff ?_ helems ?_
  · refine BitSet.sorted_between helems (pairwise_singleton _ index) ?_ (Nat.le_succ index)
    intro i hi
    rw [mem_singleton.mp hi]
    exact ⟨Nat.le_refl _, Nat.lt_succ_self _⟩
  · intro i
    simp only [withElement, mem_append, mem_cons, mem_filter, decide_eq_true_eq]
    constructor
    · rintro (⟨hi, -⟩ | rfl | ⟨hi, -⟩)
      · exact hi
      · exact h
      · exact hi
    · intro hi
      rcases Nat.lt_trichotomy i index with hlt | rfl | hgt
      · exact .inl ⟨hi, hlt⟩
      · exact .inr (.inl rfl)
      · exact .inr (.inr ⟨hi, hgt⟩)

theorem idxOf_withElement (elements : List Nat) (index : Nat) :
    (withElement elements index).idxOf index = (elements.filter (· < index)).length := by
  have hnot : index ∉ elements.filter (· < index) := by
    simp
  rw [withElement, idxOf_append_of_notMem hnot, idxOf_cons_self, Nat.add_zero]

theorem set_told (itemCount : Nat) (h : s.atomicityCount = 0) (index : Int) :
    ∃ s', s.set itemCount index = .ok s' ∧ s.Told s' ∧
      (IsValidIndex itemCount index → index.toNat ∈ s'.elements) := by
  rw [set]
  split
  case isTrue hnew =>
    rcases hnew with ⟨-, hnot⟩
    rw [isSelected, BitSet.get, decide_eq_false_iff_not] at hnot
    let t : SelectedIndicesList := { s with bitset := s.bitset.set index.toNat }
    have helems : t.elements = withElement s.elements index.toNat := rfl
    have hidx : t.indexOf index.toNat =
        ((s.elements.filter (· < index.toNat)).length : Int) := by
      rw [indexOf, helems, if_pos (by simp [withElement]), idxOf_withElement]
    have hbef : s.elements = s.elements.filter (· < index.toNat) ++ [] ++
        s.elements.filter (index.toNat + 1 ≤ ·) := by
      rw [append_nil]
      exact elements_eq_of_notMem s.bitset.sorted hnot
    have hafter : t.elements = s.elements.filter (· < index.toNat) ++ [index.toNat] ++
        s.elements.filter (index.toNat + 1 ≤ ·) := by
      rw [append_assoc]
      rfl
    refine ⟨_, report_nextAdd (s := t) h _ _, told_replaced t rfl rfl hbef hafter hidx rfl,
      fun _ => ?_⟩
    exact BitSet.mem_set.mpr (.inr rfl)
  case isFalse hold =>
    refine ⟨s, rfl, .refl s, fun hvalid => ?_⟩
    by_contra hnot
    exact hold ⟨hvalid, decide_eq_false hnot⟩

theorem clearAll_told (h : s.atomicityCount = 0) :
    ∃ s', s.clearAll = .ok s' ∧ s.Told s' ∧ s'.elements = [] := by
  let t : SelectedIndicesList := { s with bitset := s.bitset.clearAll }
  refine ⟨_, report_nextRemoveAll (s := t) h s.elements, ?_, ?_⟩
  · split
    case isTrue hemp =>
      refine ⟨rfl, [], (append_nil _).symm, ?_⟩
      rw [hemp]
      rfl
    case isFalse =>
      have hbef : s.elements = [] ++ s.elements ++ [] := by
        rw [nil_append, append_nil]
      have hafter : t.elements = [] ++ [] ++ [] := rfl
      exact told_replaced t rfl rfl hbef hafter rfl rfl
  · split <;> rfl

theorem clear_told (h : s.atomicityCount = 0)
    (hpos : index ∉ s.elements ∨ (s.elements.filter (· < index)).length = index) :
    ∃ s', s.clear index = .ok s' ∧ s.Told s' := by
  rw [clear]
  split
  case isTrue hmem =>
    rw [isSelected, BitSet.get, decide_eq_true_eq] at hmem
    let t : SelectedIndicesList := { s with bitset := s.bitset.clear index }
    have hlen := hpos.resolve_left (not_not_intro hmem)
    have hbef : s.elements =
        s.elements.filter (· < index) ++ [index] ++ s.elements.filter (index + 1 ≤ ·) := by
      rw [append_assoc]
      exact (withElement_of_mem s.bitset.sorted hmem).symm
    have hafter : t.elements =
        s.elements.filter (· < index) ++ [] ++ s.elements.filter (index + 1 ≤ ·) := by
      rw [append_nil]
      exact filter_ne_eq s.bitset.sorted index
    exact ⟨_, report_nextRemove (s := t) h _ _, told_replaced t rfl rfl hbef hafter
      (congrArg Nat.cast hlen.symm) (Int.add_zero _).symm⟩
  case isFalse => exact ⟨s, rfl, .refl s⟩

theorem setRange_told (h : s.atomicityCount = 0) (hemp : s.elements = []) {span : Nat}
    (hspan : 0 < span) : ∃ s', s.setRange 0 span = .ok s' ∧ s.Told s' := by
  let t : SelectedIndicesList := { s with bitset := s.bitset.setRange 0 span }
  have helems : t.elements = List.range' 0 span := by
    change s.elements.filter _ ++ (List.range' 0 span ++ s.elements.filter _) = _
    rw [hemp, filter_nil, nil_append, filter_nil, append_nil]
  have hidx : t.indexOf 0 = 0 := by
    obtain ⟨n, rfl⟩ := Nat.exists_eq_succ_of_ne_zero hspan.ne'
    rw [indexOf, helems]
    rfl
  have hafter : t.elements = [] ++ List.range' 0 span ++ [] := by
    rw [helems, nil_append, append_nil]
  exact ⟨_, report_nextAdd (s := t) h _ _,
    told_replaced t rfl rfl hemp hafter hidx (by rw [length_range'])⟩

section Batch

def EndsWithGap : Nat → List Nat → Prop
  | _, [] => False
  | i, [j] => i + 1 ≠ j
  | _, i :: j :: rest => EndsWithGap i (j :: rest)

def added (start stop : Nat) : Builder Nat := ⟨1, [⟨start, stop, some [], [], false⟩], [], none⟩

theorem nextAdd_added (start stop : Nat) (stop' : Int) :
    (added start stop).nextAdd stop stop' =
      .ok ⟨1, [⟨start, stop', some [], [], false⟩], [], none⟩ := by
  simp [added, Builder.nextAdd, addToAddRemove]
  rfl

variable {size pos : Nat} {b : Builder Nat}

theorem reportRuns_consecutive {previous : Nat} {rest : List Nat} {start endIndex : Int}
    (hchain : (previous :: rest).IsChain fun i j => i + 1 = j) (hrest : rest ≠ [])
    (hsize : pos + rest.length = size) {b' : Builder Nat}
    (hadd : b.nextAdd start (start + size) = .ok b') :
    reportRuns size rest pos start endIndex previous b = .ok b' := by
  induction rest generalizing previous pos endIndex with
  | nil => exact absurd rfl hrest
  | cons endValue rest ih =>
    rw [isChain_cons_cons] at hchain
    rw [reportRuns, if_neg (not_not_intro hchain.1)]
    rw [length_cons] at hsize
    cases rest with
    | nil =>
      have hlast : pos + 1 = size := by simpa using hsize
      have hstop : start + ((pos : Int) + 1) = start + size := by omega
      rw [if_pos hlast, hstop, hadd]
      rfl
    | cons next rest =>
      rw [length_cons] at hsize
      rw [if_neg (by omega)]
      exact ih hchain.2 (cons_ne_nil _ _) (by rw [length_cons]; omega)

theorem reportRuns_gap {previous : Nat} {rest : List Nat} {start : Int} {first endIndex : Nat}
    (hgap : EndsWithGap previous rest) (hsize : pos + rest.length = size)
    (hadd : ∀ stop : Int,
      b.nextAdd start stop = .ok ⟨1, [⟨first, stop, some [], [], false⟩], [], none⟩) :
    reportRuns size rest pos start endIndex previous b =
      .ok (added first (endIndex + rest.length)) := by
  induction rest generalizing previous pos start endIndex b with
  | nil => exact absurd hgap (by simp [EndsWithGap])
  | cons endValue rest ih =>
    rw [length_cons] at hsize
    rw [reportRuns]
    rcases eq_or_ne (previous + 1) endValue with heq | hne
    · rw [if_neg (not_not_intro heq)]
      cases rest with
      | nil => exact absurd heq hgap
      | cons next rest =>
        rw [length_cons] at hsize
        rw [if_neg (by omega)]
        have hrest : reportRuns size (next :: rest) (pos + 1) start ((endIndex + 1 : Nat) : Int)
            endValue b = .ok (added first (endIndex + 1 + (next :: rest).length)) :=
          ih hgap (by rw [length_cons]; omega) hadd
        have hlen : endIndex + 1 + (next :: rest).length =
            endIndex + (endValue :: next :: rest).length := by
          simp only [length_cons]
          omega
        rw [← hlen]
        exact hrest
    · rw [if_pos hne, hadd, ok_bind]
      cases rest with
      | nil =>
        rfl
      | cons next rest =>
        have hrest : reportRuns size (next :: rest) (pos + 1) ((endIndex + 1 : Nat) : Int)
            ((endIndex + 1 : Nat) : Int) endValue (added first (endIndex + 1)) =
            .ok (added first (endIndex + 1 + (next :: rest).length)) :=
          ih hgap (by omega) (nextAdd_added first (endIndex + 1))
        have hlen : endIndex + 1 + (next :: rest).length =
            endIndex + (endValue :: next :: rest).length := by
          simp only [length_cons]
          omega
        rw [← hlen]
        exact hrest

end Batch

theorem report_added (h : s.atomicityCount = 0) {calls : Builder Nat → Outcome (Builder Nat)}
    {start stop : Nat} (hcalls : calls Builder.new.beginChange = .ok (added start stop)) :
    s.report calls = .ok (s.callObservers [⟨start, stop, some [], [], false⟩]) := by
  rw [report, isAtomic, h, hcalls]
  rfl

theorem set_of_atomic (h : 0 < s.atomicityCount) (hvalid : index < itemCount) :
    ∃ bitset, s.set itemCount index = .ok { s with bitset } ∧
      ∀ j, j ∈ bitset.bits ↔ j ∈ s.elements ∨ j = index := by
  have hidx : IsValidIndex itemCount index := ⟨Int.natCast_nonneg _, Int.ofNat_lt.mpr hvalid⟩
  rw [set]
  split
  case isTrue =>
    refine ⟨s.bitset.set index, ?_, fun j => BitSet.mem_set⟩
    exact report_of_atomic (s := { s with bitset := s.bitset.set index }) h _
  case isFalse hnot =>
    refine ⟨s.bitset, rfl, fun j => ?_⟩
    have hmem : index ∈ s.elements := by
      by_contra hmem
      exact hnot ⟨hidx, decide_eq_false hmem⟩
    constructor
    · exact .inl
    · rintro (hj | rfl)
      · exact hj
      · exact hmem

theorem foldlM_set (h : 0 < s.atomicityCount) {indices : List Nat}
    (hvalid : ∀ i ∈ indices, i < itemCount) :
    ∃ bitset, indices.foldlM (fun s i => s.set itemCount i) s = .ok { s with bitset } ∧
      ∀ j, j ∈ bitset.bits ↔ j ∈ s.elements ∨ j ∈ indices := by
  induction indices generalizing s with
  | nil => exact ⟨s.bitset, rfl, fun j => by simp [elements]⟩
  | cons i indices ih =>
    rcases set_of_atomic h (hvalid i mem_cons_self) with ⟨first, hfst, hmem⟩
    rcases ih (s := { s with bitset := first }) h
      (fun j hj => hvalid j (mem_cons_of_mem i hj)) with ⟨bitset, hok, hmem'⟩
    refine ⟨bitset, ?_, fun j => ?_⟩
    · rw [foldlM_cons, hfst, ok_bind, hok]
    · rw [hmem' j, mem_cons, ← or_assoc]
      exact or_congr_left (hmem j)

theorem mem_sortedNewIndices {indices : List Int} {i : Nat}
    (hi : i ∈ s.sortedNewIndices itemCount indices) : i < itemCount ∧ i ∉ s.elements := by
  rw [sortedNewIndices, mem_insertionSort, mem_filter, mem_map] at hi
  rcases hi with ⟨⟨j, hj, rfl⟩, hnot⟩
  have hvalid : IsValidIndex itemCount j := by simpa using of_mem_filter hj
  refine ⟨?_, by simpa [isSelected, BitSet.get, elements] using hnot⟩
  have hnn := hvalid.1
  have hlt := hvalid.2
  omega

theorem pairwise_sortedNewIndices (s : SelectedIndicesList) (itemCount : Nat)
    (indices : List Int) : (s.sortedNewIndices itemCount indices).Pairwise (· < ·) := by
  have hnd : (s.sortedNewIndices itemCount indices).Nodup := by
    rw [sortedNewIndices, (perm_insertionSort _ _).nodup_iff]
    apply List.Nodup.filter
    apply List.Nodup.map_on _ ((nodup_dedup indices).filter _)
    intro i hi j hj heq
    have hi' : IsValidIndex itemCount i := by simpa using of_mem_filter hi
    have hj' : IsValidIndex itemCount j := by simpa using of_mem_filter hj
    have hnn := hi'.1
    have hnn' := hj'.1
    omega
  have hsort : (s.sortedNewIndices itemCount indices).Pairwise (· ≤ ·) :=
    pairwise_insertionSort _ _
  exact hsort.imp₂ (fun i j hle hne => Nat.lt_of_le_of_ne hle hne) hnd

/-- When the report of new indices is right: a single one has to be at its own position, and
several have to follow each other in the list, without gaps or with one before the last. -/
def RunReported (elements : List Nat) : List Nat → Prop
  | [] => True
  | [i] => (elements.filter (· < i)).length = i
  | i :: rest => (∀ j ∈ elements, j < i ∨ ∀ k ∈ rest, k < j) ∧
      ((i :: rest).IsChain (fun j k => j + 1 = k) ∨ EndsWithGap i rest)

theorem elements_eq_stretch {elements after rest : List Nat} {i : Nat}
    (helems : elements.Pairwise (· < ·)) (hsort : (i :: rest).Pairwise (· < ·))
    (hafter : after.Pairwise (· < ·))
    (hmem : ∀ j, j ∈ after ↔ j ∈ elements ∨ j ∈ i :: rest)
    (hapart : ∀ j ∈ elements, j < i ∨ ∀ k ∈ i :: rest, k < j) :
    elements = elements.filter (· < i) ++ [] ++ elements.filter (i ≤ ·) ∧
      after = elements.filter (· < i) ++ (i :: rest) ++ elements.filter (i ≤ ·) := by
  have hbelow : ∀ j ∈ elements.filter (· < i), j < i := by
    simp
  have hsplit : ∀ j, j ∈ elements ↔
      j ∈ elements.filter (· < i) ∨ j ∈ elements.filter (i ≤ ·) := by
    intro j
    simp only [mem_filter, decide_eq_true_eq, ← and_or_left]
    exact (and_iff_left (Nat.lt_or_ge j i)).symm
  constructor
  · rw [append_nil]
    refine BitSet.bits_eq_of_mem_iff helems ?_ fun j => ?_
    · exact BitSet.sorted_between helems .nil (fun _ hj => absurd hj not_mem_nil)
        (Nat.le_refl i)
    · rw [hsplit j, mem_append]
  · refine BitSet.bits_eq_of_mem_iff hafter ?_ fun j => ?_
    · rw [append_assoc, pairwise_append, pairwise_append]
      refine ⟨helems.filter _, ⟨hsort, helems.filter _, ?_⟩, ?_⟩
      · intro k hk j hj
        rcases mem_filter.mp hj with ⟨hj', hle⟩
        rw [decide_eq_true_eq] at hle
        exact (hapart j hj').resolve_left (Nat.not_lt.mpr hle) k hk
      · intro j hj k hk
        have hlt := hbelow j hj
        rcases mem_append.mp hk with hk | hk
        · rcases mem_cons.mp hk with rfl | hk
          · exact hlt
          · exact hlt.trans ((pairwise_cons.mp hsort).1 k hk)
        · rcases mem_filter.mp hk with ⟨-, hle⟩
          rw [decide_eq_true_eq] at hle
          exact Nat.lt_of_lt_of_le hlt hle
    · rw [hmem j, hsplit j, mem_append, mem_append, or_right_comm]

theorem indexOf_stretch {below above rest : List Nat} {i : Nat}
    (h : s.elements = below ++ (i :: rest) ++ above) (hbelow : ∀ j ∈ below, j < i) :
    s.indexOf i = (below.length : Int) := by
  have hnot : i ∉ below := fun hi => Nat.lt_irrefl i (hbelow i hi)
  rw [indexOf, h, if_pos (by simp), append_assoc, idxOf_append_of_notMem hnot,
    cons_append, idxOf_cons_self, Nat.add_zero]

theorem reportRuns_added {i : Nat} {rest : List Nat} (start : Nat) (hrest : rest ≠ [])
    (hruns : (i :: rest).IsChain (fun j k => j + 1 = k) ∨ EndsWithGap i rest) :
    reportRuns (i :: rest).length rest 1 start ((start : Int) + 1) i Builder.new.beginChange =
      .ok (added start (start + (i :: rest).length)) := by
  have hsize : 1 + rest.length = (i :: rest).length := by
    rw [length_cons, Nat.add_comm]
  rcases hruns with hchain | hgap
  · exact reportRuns_consecutive hchain hrest hsize rfl
  · have hruns : reportRuns (i :: rest).length rest 1 start ((start + 1 : Nat) : Int) i
        Builder.new.beginChange = .ok (added start (start + 1 + rest.length)) :=
      reportRuns_gap hgap hsize fun _ => rfl
    rw [Nat.add_assoc, hsize] at hruns
    exact hruns

theorem setAll_told (h : s.atomicityCount = 0) (index : Int) {indices : List Int}
    (hidxs : indices ≠ [])
    (hrept : RunReported s.elements (s.sortedNewIndices itemCount (index :: indices))) :
    ∃ s', s.setAll itemCount index indices = .ok s' ∧ s.Told s' := by
  have hnew : ∀ i ∈ s.sortedNewIndices itemCount (index :: indices),
      i < itemCount ∧ i ∉ s.elements := fun i hi => mem_sortedNewIndices hi
  have hsort := pairwise_sortedNewIndices s itemCount (index :: indices)
  rcases foldlM_set (s := s.startAtomic) (Nat.succ_pos _) (fun i hi => (hnew i hi).1) with
    ⟨bitset, hfold, hmem⟩
  rw [setAll, if_neg hidxs]
  dsimp only
  rw [hfold]
  generalize s.sortedNewIndices itemCount (index :: indices) = newIndices at *
  let t : SelectedIndicesList := { s with bitset }
  rcases newIndices with - | ⟨i, - | ⟨j, rest⟩⟩
  · refine ⟨t, rfl, rfl, [], (append_nil _).symm, congrArg some ?_⟩
    exact BitSet.bits_eq_of_mem_iff s.bitset.sorted bitset.sorted fun j =>
      ((hmem j).trans (or_iff_left not_mem_nil)).symm
  · have hapart : ∀ j ∈ s.elements, j < i ∨ ∀ k ∈ [i], k < j := by
      intro j hj
      rcases Nat.lt_trichotomy j i with hlt | rfl | hgt
      · exact .inl hlt
      · exact absurd hj (hnew j mem_cons_self).2
      · refine .inr fun k hk => ?_
        rw [mem_singleton.mp hk]
        exact hgt
    have hpos : (s.elements.filter (· < i)).length = i := hrept
    rcases elements_eq_stretch s.bitset.sorted hsort bitset.sorted hmem hapart with
      ⟨hbef, hafter⟩
    exact ⟨_, report_nextAdd (s := t) h _ _, told_replaced t rfl rfl hbef hafter
      (congrArg Nat.cast hpos.symm) rfl⟩
  · rcases hrept with ⟨hapart, hruns⟩
    have hapart' : ∀ k ∈ s.elements, k < i ∨ ∀ l ∈ i :: j :: rest, l < k := by
      intro k hk
      refine (hapart k hk).imp_right fun habove l hl => ?_
      rcases mem_cons.mp hl with rfl | hl
      · exact ((pairwise_cons.mp hsort).1 j mem_cons_self).trans
          (habove j mem_cons_self)
      · exact habove l hl
    rcases elements_eq_stretch s.bitset.sorted hsort bitset.sorted hmem hapart' with
      ⟨hbef, hafter⟩
    have hidx : t.indexOf i = ((s.elements.filter (· < i)).length : Int) := by
      refine indexOf_stretch hafter fun k hk => ?_
      simpa using of_mem_filter hk
    have hadded := reportRuns_added (s.elements.filter (· < i)).length (cons_ne_nil j rest)
      hruns
    rw [← hidx] at hadded
    exact ⟨_, report_added (s := t) h hadded, told_replaced t rfl rfl hbef hafter rfl
      (Int.natCast_add _ _)⟩

end SelectedIndicesList

end OpenJfx.Control
