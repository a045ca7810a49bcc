import OpenJfx.Java.Arrays
import Mathlib.Data.List.Nodup
import Mathlib.Data.List.Perm.Subperm

namespace OpenJfx.Collections.ListChange

open Java.Arrays List

variable {E : Type}

/-- A sub-change: the range `[fromIdx, toIdx)` of the changed list, the
elements removed there (`none` for a null list), the permutation of the range
and the update flag. -/
structure SubChange (E : Type) where
  fromIdx : Int
  toIdx : Int
  removed : Option (List E)
  perm : List Int
  updated : Bool

namespace SubChange

/-- `getRemoved()`: a null list has been replaced by the empty one before the
change is fired. -/
def getRemoved (c : SubChange E) : List E := c.removed.getD []

def getRemovedSize (c : SubChange E) : Nat := c.getRemoved.length

def wasPermutated (c : SubChange E) : Bool := c.perm.length != 0

def wasUpdated (c : SubChange E) : Bool := c.updated

def wasAdded (c : SubChange E) : Bool :=
  !c.wasPermutated && !c.wasUpdated && decide (c.fromIdx < c.toIdx)

def wasRemoved (c : SubChange E) : Bool := !c.getRemoved.isEmpty

def getAddedSize (c : SubChange E) : Int :=
  if c.wasAdded then c.toIdx - c.fromIdx else 0

def getPermutation (c : SubChange E) (i : Int) : Outcome Int :=
  if c.wasPermutated then load c.perm (i - c.fromIdx)
  else .error (.illegalState "Not a permutation change")

/-- Both bounds moved by `delta`. -/
def shift (delta : Int) (c : SubChange E) : SubChange E :=
  { c with fromIdx := c.fromIdx + delta, toIdx := c.toIdx + delta }

@[simp] theorem shift_fromIdx (delta : Int) (c : SubChange E) :
    (c.shift delta).fromIdx = c.fromIdx + delta := rfl

@[simp] theorem shift_toIdx (delta : Int) (c : SubChange E) :
    (c.shift delta).toIdx = c.toIdx + delta := rfl

end SubChange

def subList (l : List E) (fromIdx toIdx : Int) : List E :=
  (l.drop fromIdx.toNat).take (toIdx - fromIdx).toNat

variable {fromIdx toIdx : Int}

theorem length_subList (l : List E) (hfrom : 0 ≤ fromIdx) (hto : toIdx ≤ l.length) :
    (subList l fromIdx toIdx).length = (toIdx - fromIdx).toNat := by
  simp only [subList, length_take, length_drop]
  omega

theorem subList_append (kept added rest : List E) (hfrom : fromIdx = kept.length)
    (hto : toIdx = fromIdx + added.length) :
    subList (kept ++ added ++ rest) fromIdx toIdx = added := by
  have hlen : (toIdx - fromIdx).toNat = added.length := by omega
  have hpos : fromIdx.toNat = kept.length := by omega
  rw [subList, hlen, hpos, append_assoc, drop_left, take_left]

theorem exists_cut (l : List E) (hfrom : 0 ≤ fromIdx) (hle : fromIdx ≤ toIdx)
    (hto : toIdx ≤ l.length) : ∃ front middle back, l = front ++ middle ++ back ∧
      (front.length : Int) = fromIdx ∧ (middle.length : Int) = toIdx - fromIdx := by
  refine ⟨l.take fromIdx.toNat, (l.drop fromIdx.toNat).take (toIdx - fromIdx).toNat,
    (l.drop fromIdx.toNat).drop (toIdx - fromIdx).toNat, ?_, ?_, ?_⟩
  · rw [append_assoc, take_append_drop, take_append_drop]
  · simp only [length_take]
    omega
  · simp only [length_take, length_drop]
    omega

/-- Replaying sub-changes in order on `cur`: at its `from` each one deletes
exactly the elements it lists as removed and inserts the elements that `final`
holds in its range. The last list reached must be `final`. -/
def Replays (final : List E) : List (SubChange E) → List E → Prop
  | [], cur => cur = final
  | c :: cs, cur =>
    c.fromIdx ≤ c.toIdx ∧ c.toIdx ≤ final.length ∧
      ∃ kept rest, cur = kept ++ c.getRemoved ++ rest ∧
        (kept.length : Int) = c.fromIdx ∧
        Replays final cs (kept ++ subList final c.fromIdx c.toIdx ++ rest)

theorem replays_cons_iff (final : List E) (c : SubChange E) (cs : List (SubChange E))
    (cur : List E) :
    Replays final (c :: cs) cur ↔
      c.fromIdx ≤ c.toIdx ∧ c.toIdx ≤ final.length ∧ 0 ≤ c.fromIdx ∧
        c.fromIdx.toNat ≤ cur.length ∧
        (cur.drop c.fromIdx.toNat).take c.getRemoved.length = c.getRemoved ∧
        Replays final cs (cur.take c.fromIdx.toNat ++ subList final c.fromIdx c.toIdx ++
          cur.drop (c.fromIdx.toNat + c.getRemoved.length)) := by
  constructor
  · rintro ⟨hle, hto, kept, rest, rfl, hkept, hrest⟩
    have hpos : c.fromIdx.toNat = kept.length := by omega
    refine ⟨hle, hto, by omega, ?_, ?_, ?_⟩
    · simp only [length_append]
      omega
    · rw [hpos, append_assoc, drop_left, take_left]
    · have htake : (kept ++ c.getRemoved ++ rest).take kept.length = kept := by
        rw [append_assoc, take_left]
      have hdrop : (kept ++ c.getRemoved ++ rest).drop (kept.length + c.getRemoved.length) =
          rest := by
        rw [← length_append, drop_left]
      rw [hpos, htake, hdrop]
      exact hrest
  · rintro ⟨hle, hto, hnn, hlen, hrem, hrest⟩
    refine ⟨hle, hto, cur.take c.fromIdx.toNat,
      cur.drop (c.fromIdx.toNat + c.getRemoved.length), ?_, ?_, hrest⟩
    · have hsplit := take_append_drop c.getRemoved.length (cur.drop c.fromIdx.toNat)
      rw [hrem, drop_drop] at hsplit
      rw [append_assoc, hsplit, take_append_drop]
    · simp only [length_take]
      omega

instance decidableReplays [DecidableEq E] (final : List E) :
    (cs : List (SubChange E)) → (cur : List E) → Decidable (Replays final cs cur)
  | [], cur => inferInstanceAs (Decidable (cur = final))
  | c :: cs, cur =>
    have := decidableReplays final cs (cur.take c.fromIdx.toNat ++
      subList final c.fromIdx c.toIdx ++ cur.drop (c.fromIdx.toNat + c.getRemoved.length))
    decidable_of_iff _ (replays_cons_iff final c cs cur).symm

/-- Sorted by `from`, with disjoint ranges. -/
def Separate (cs : List (SubChange E)) : Prop :=
  cs.Pairwise fun c d => c.fromIdx ≤ d.fromIdx ∧ c.toIdx ≤ d.fromIdx

/-- Both lists cut into the same kept stretches, with what a sub-change removed
standing in the first list where the second has what it added. The counter is
the position in the second list at which the stretch begins. -/
inductive Aligned : Int → List (SubChange E) → List E → List E → Prop
  | nil (p : Int) (kept : List E) : Aligned p [] kept kept
  | cons {p : Int} {c : SubChange E} {cs : List (SubChange E)}
      (kept added : List E) {before after : List E}
      (hfrom : c.fromIdx = p + kept.length)
      (hto : c.toIdx = c.fromIdx + added.length)
      (htail : Aligned c.toIdx cs before after) :
      Aligned p (c :: cs) (kept ++ c.getRemoved ++ before) (kept ++ added ++ after)

namespace Aligned

variable {p : Int} {cs : List (SubChange E)} {before : List E}

variable {after : List E}

theorem shift (h : Aligned p cs before after) (delta : Int) :
    Aligned (p + delta) (cs.map (SubChange.shift delta)) before after := by
  induction h with
  | nil p kept => exact .nil _ kept
  | cons kept added hfrom hto _ ih =>
    exact .cons kept added (by simp only [SubChange.shift_fromIdx]; omega)
      (by simp only [SubChange.shift_fromIdx, SubChange.shift_toIdx]; omega) ih

theorem prepend {q : Int} (kept : List E) (h : Aligned q cs before after)
    (hq : q = p + kept.length) :
    Aligned p cs (kept ++ before) (kept ++ after) := by
  cases h with
  | nil _ rest => exact .nil _ _
  | cons kept' added hfrom hto htail =>
    have := Aligned.cons (kept ++ kept') added (p := p)
      (by rw [hfrom, hq, length_append]; omega) hto htail
    simpa only [append_assoc] using this

variable {cs' : List (SubChange E)}

theorem append {q : Int} {after before' after' : List E} (h : Aligned p cs before after)
    (h' : Aligned q cs' before' after') (hq : q = p + after.length) :
    Aligned p (cs ++ cs') (before ++ before') (after ++ after') := by
  induction h with
  | nil p kept => exact prepend kept h' hq
  | @cons p c cs kept added before after hfrom hto _ ih =>
    have htail := ih (by
      simp only [length_append] at hq
      omega)
    have := Aligned.cons kept added hfrom hto htail
    simpa only [append_assoc, cons_append] using this

/-- Cutting after the first sub-changes. The first part ends right behind the
last of them, so every kept element in between belongs to the second part. -/
theorem split (h : Aligned p (cs ++ cs') before after) :
    ∃ before₁ before₂ after₁ after₂, before = before₁ ++ before₂ ∧ after = after₁ ++ after₂ ∧
      Aligned p cs before₁ after₁ ∧ Aligned (p + after₁.length) cs' before₂ after₂ ∧
      (∀ c ∈ cs.getLast?, c.toIdx = p + after₁.length) ∧ (cs = [] → after₁ = []) := by
  induction cs generalizing p before after with
  | nil => exact ⟨[], before, [], after, rfl, rfl, .nil p [], by simpa using h, by simp, by simp⟩
  | cons c cs ih =>
    cases h with
    | @cons _ _ _ kept added before after hfrom hto htail =>
      obtain ⟨b₁, b₂, a₁, a₂, rfl, rfl, h₁, h₂, hlast, hnil⟩ := ih htail
      have hpos : c.toIdx + (a₁.length : Int) =
          p + ((kept ++ added ++ a₁).length : Nat) := by
        simp only [length_append]
        omega
      refine ⟨kept ++ c.getRemoved ++ b₁, b₂, kept ++ added ++ a₁, a₂,
        by simp only [append_assoc], by simp only [append_assoc],
        .cons kept added hfrom hto h₁, hpos ▸ h₂, ?_, by simp⟩
      intro d hd
      rcases cs with _ | ⟨e, cs⟩
      · have hcd : c = d := by simpa using hd
        subst hcd
        rw [← hpos, hnil rfl]
        simp
      · rw [← hpos]
        exact hlast d (by simpa [getLast?_cons_cons] using hd)

theorem dropKept (h : Aligned p cs before after) (n : Nat) (hn : n ≤ after.length)
    (hfst : ∀ c ∈ cs.head?, p + n ≤ c.fromIdx) :
    ∃ kept before' after', kept.length = n ∧ before = kept ++ before' ∧
      after = kept ++ after' ∧ Aligned (p + n) cs before' after' := by
  cases h with
  | nil =>
    exact ⟨before.take n, before.drop n, before.drop n, by simp [hn], by simp, by simp,
      .nil _ _⟩
  | @cons _ c cs kept added before after hfrom hto htail =>
    have hc : p + n ≤ c.fromIdx := hfst c (by simp)
    have hlen : n ≤ kept.length := by omega
    refine ⟨kept.take n, kept.drop n ++ c.getRemoved ++ before,
      kept.drop n ++ added ++ after, by simp [hlen], ?_, ?_, ?_⟩
    · simp only [← append_assoc, take_append_drop]
    · simp only [← append_assoc, take_append_drop]
    · exact .cons _ added (by simp only [length_drop]; omega) hto htail

theorem bounds (h : Aligned p cs before after) :
    ∀ c ∈ cs, p ≤ c.fromIdx ∧ c.fromIdx ≤ c.toIdx ∧ c.toIdx ≤ p + after.length := by
  induction h with
  | nil => simp
  | @cons p c cs kept added before after hfrom hto _ ih =>
    intro d hd
    simp only [length_append]
    rcases mem_cons.mp hd with rfl | hd
    · omega
    · obtain ⟨h₁, h₂, h₃⟩ := ih d hd
      omega

theorem separate (h : Aligned p cs before after) : Separate cs := by
  induction h with
  | nil => exact List.Pairwise.nil
  | cons kept added hfrom hto htail ih =>
    refine List.Pairwise.cons ?_ ih
    intro d hd
    obtain ⟨hd₁, _, _⟩ := htail.bounds d hd
    omega

/-- What has been rewritten so far (`done`) is not touched again, so the whole
sequence can be replayed. -/
theorem replays_append (h : Aligned p cs before after) :
    ∀ done : List E, (done.length : Int) = p → Replays (done ++ after) cs (done ++ before) := by
  induction h with
  | nil => intro done _; rfl
  | @cons p c cs kept added before after hfrom hto htail ih =>
    intro done hdone
    refine ⟨by omega, ?_, done ++ kept, before, by simp, ?_, ?_⟩
    · simp only [length_append]
      omega
    · simp only [length_append]
      omega
    · have hsub : subList (done ++ (kept ++ added ++ after)) c.fromIdx c.toIdx = added := by
        have hstart : c.fromIdx = ((done ++ kept).length : Nat) := by
          simp only [length_append]
          omega
        have := subList_append (done ++ kept) added after hstart hto
        simpa only [append_assoc] using this
      rw [hsub]
      have := ih (done ++ kept ++ added) (by simp only [length_append]; omega)
      simpa only [append_assoc] using this

theorem replays (h : Aligned 0 cs before after) : Replays after cs before := by
  simpa using h.replays_append [] rfl

theorem cutAt (h : Aligned p (cs ++ cs') before after) (n : Nat) (hn : n ≤ after.length)
    (hleft : ∀ c ∈ cs, c.toIdx ≤ p + n) (hright : ∀ c ∈ cs', p + n ≤ c.fromIdx) :
    ∃ before₁ before₂ after₁ after₂, before = before₁ ++ before₂ ∧ after = after₁ ++ after₂ ∧
      after₁.length = n ∧ Aligned p cs before₁ after₁ ∧ Aligned (p + n) cs' before₂ after₂ := by
  obtain ⟨b₁, b₂, a₁, a₂, rfl, rfl, h₁, h₂, hlast, hnil⟩ := h.split
  have hle : a₁.length ≤ n := by
    rcases eq_nil_or_concat cs with rfl | ⟨front, c, rfl⟩
    · simp [hnil rfl]
    · have hc := hlast c (by simp)
      have := hleft c (by simp)
      omega
  simp only [length_append] at hn
  obtain ⟨kept, b', a', hkept, rfl, rfl, h'⟩ := h₂.dropKept (n - a₁.length) (by omega) (by
    intro c hc
    have := hright c (mem_of_mem_head? hc)
    omega)
  refine ⟨b₁ ++ kept, b', a₁ ++ kept, a', by simp, by simp, ?_, ?_, ?_⟩
  · simp only [length_append]
    omega
  · simpa using h₁.append (Aligned.nil _ kept) rfl
  · have hpos : p + (a₁.length : Int) + ((n - a₁.length : Nat) : Int) = p + n := by omega
    rwa [hpos] at h'

theorem around {c : SubChange E} (h : Aligned p (cs ++ c :: cs') before after) :
    ∃ before₁ before₂ after₁ added after₂, before = before₁ ++ c.getRemoved ++ before₂ ∧
      after = after₁ ++ added ++ after₂ ∧ Aligned p cs before₁ after₁ ∧
      c.fromIdx = p + after₁.length ∧ c.toIdx = c.fromIdx + added.length ∧
      Aligned c.toIdx cs' before₂ after₂ := by
  obtain ⟨b₁, b₂, a₁, a₂, rfl, rfl, h₁, h₂, -, -⟩ := h.split
  cases h₂ with
  | @cons _ _ _ kept added before after hfrom hto htail =>
    refine ⟨b₁ ++ kept, before, a₁ ++ kept, added, after, by simp, by simp, ?_, ?_, hto, htail⟩
    · simpa using h₁.append (Aligned.nil _ kept) rfl
    · simp only [length_append]
      omega

theorem glue {q : Int} {before₁ before₂ after₁ after₂ : List E} (c : SubChange E) (added : List E)
    (delta : Int) (h₁ : Aligned p cs before₁ after₁) (h₂ : Aligned q cs' before₂ after₂)
    (hfrom : c.fromIdx = p + after₁.length) (hto : c.toIdx = c.fromIdx + added.length)
    (hdelta : q + delta = c.toIdx) :
    Aligned p (cs ++ c :: cs'.map (SubChange.shift delta))
      (before₁ ++ c.getRemoved ++ before₂) (after₁ ++ added ++ after₂) := by
  have htail : Aligned c.toIdx (cs'.map (SubChange.shift delta)) before₂ after₂ :=
    hdelta ▸ h₂.shift delta
  have hmid : Aligned c.fromIdx (c :: cs'.map (SubChange.shift delta))
      ([] ++ c.getRemoved ++ before₂) ([] ++ added ++ after₂) :=
    .cons [] added (by simp) hto htail
  simpa only [append_assoc, nil_append] using h₁.append hmid hfrom

end Aligned

theorem Replays.take_eq {final : List E} :
    ∀ (cs : List (SubChange E)) (cur : List E) (n : Nat), Replays final cs cur →
      (∀ c ∈ cs, (n : Int) ≤ c.fromIdx) → cur.take n = final.take n := by
  intro cs
  induction cs with
  | nil =>
    intro cur n h _
    rw [show cur = final from h]
  | cons c cs ih =>
    intro cur n h hn
    obtain ⟨-, -, kept, rest, rfl, hkept, hrest⟩ := h
    have hle : n ≤ kept.length := by
      have := hn c (by simp)
      omega
    rw [← ih _ n hrest (fun d hd => hn d (by simp [hd])), append_assoc, append_assoc,
      take_append_of_le_length hle, take_append_of_le_length hle]

theorem aligned_of_replays_append :
    ∀ (cs : List (SubChange E)) (done before after : List E), Separate cs →
      (∀ c ∈ cs, (done.length : Int) ≤ c.fromIdx) →
      Replays (done ++ after) cs (done ++ before) → Aligned done.length cs before after := by
  intro cs
  induction cs with
  | nil =>
    intro done before after _ _ h
    obtain rfl : before = after := append_cancel_left h
    exact .nil _ _
  | cons c cs ih =>
    intro done before after hsep hfst h
    obtain ⟨hle, hto, kept, rest, hcur, hkept, hrest⟩ := h
    obtain ⟨hc, hsep'⟩ := pairwise_cons.mp hsep
    have hstart := hfst c (by simp)
    obtain ⟨kept', rfl⟩ : done <+: kept := by
      have hkept' : kept <+: done ++ before := by
        rw [hcur, append_assoc]
        exact prefix_append _ _
      exact prefix_of_prefix_length_le (prefix_append _ _) hkept' (by omega)
    have hbef : before = kept' ++ c.getRemoved ++ rest := by
      simpa only [append_assoc, append_cancel_left_eq] using hcur
    simp only [length_append] at hkept hto
    have hsublen := length_subList (done ++ after)
      (show 0 ≤ c.fromIdx by omega) (show c.toIdx ≤ _ by simp only [length_append]; omega)
    -- The part of the final list up to `to` stands already.
    obtain ⟨after', hafter⟩ : ∃ after', after =
        kept' ++ subList (done ++ after) c.fromIdx c.toIdx ++ after' := by
      have htake := Replays.take_eq cs _ c.toIdx.toNat hrest (fun d hd => by
        have := hc d hd
        omega)
      rw [take_append_of_le_length (by simp only [length_append]; omega),
        take_of_length_le (by simp only [length_append]; omega),
        append_assoc, take_append, take_of_length_le (by omega)] at htake
      refine ⟨after.drop (c.toIdx.toNat - done.length), ?_⟩
      rw [append_cancel_left htake, take_append_drop]
    have htail := ih (done ++ kept' ++ subList (done ++ after) c.fromIdx c.toIdx) rest after'
      hsep' (fun d hd => by
        have := hc d hd
        simp only [length_append]
        omega) (by
        have hfinal : done ++ kept' ++ subList (done ++ after) c.fromIdx c.toIdx ++ after' =
            done ++ after := by
          conv_rhs => rw [hafter]
          simp only [append_assoc]
        rw [hfinal]
        exact hrest)
    rw [hbef]
    conv => rw [hafter]
    have hpos : ((done ++ kept' ++ subList (done ++ after) c.fromIdx c.toIdx).length : Int) =
        c.toIdx := by
      simp only [length_append]
      omega
    rw [hpos] at htail
    exact .cons kept' _ (by omega) (by omega) htail

theorem Replays.fromIdx_nonneg {final : List E} :
    ∀ (cs : List (SubChange E)) (cur : List E), Replays final cs cur →
      ∀ c ∈ cs, 0 ≤ c.fromIdx := by
  intro cs
  induction cs with
  | nil => simp
  | cons c cs ih =>
    rintro cur ⟨-, -, kept, rest, -, hkept, hrest⟩ d hd
    rcases mem_cons.mp hd with rfl | hd
    · omega
    · exact ih _ hrest d hd

variable {cs : List (SubChange E)}

theorem aligned_of_replays {before after : List E} (hsep : Separate cs)
    (h : Replays after cs before) : Aligned 0 cs before after := by
  refine aligned_of_replays_append cs [] before after hsep ?_ h
  intro c hc
  simpa using Replays.fromIdx_nonneg cs before h c hc

/-- The sub-changes report additions and removals, with no null list of removed
elements. -/
def AddRemoves (cs : List (SubChange E)) : Prop :=
  ∀ c ∈ cs, c.removed ≠ none ∧ c.perm = [] ∧ c.updated = false

theorem AddRemoves.shift (h : AddRemoves cs) (delta : Int) :
    AddRemoves (cs.map (SubChange.shift delta)) := by
  intro c hc
  obtain ⟨d, hd, rfl⟩ := mem_map.mp hc
  exact h d hd

theorem addRemoves_append {cs' : List (SubChange E)} :
    AddRemoves (cs ++ cs') ↔ AddRemoves cs ∧ AddRemoves cs' := by
  simp only [AddRemoves, mem_append]
  constructor
  · intro h
    exact ⟨fun c hc => h c (.inl hc), fun c hc => h c (.inr hc)⟩
  · rintro ⟨h, h'⟩ c (hc | hc)
    · exact h c hc
    · exact h' c hc

theorem addRemoves_cons {c : SubChange E} :
    AddRemoves (c :: cs) ↔
      (c.removed ≠ none ∧ c.perm = [] ∧ c.updated = false) ∧ AddRemoves cs := by
  simp [AddRemoves]

theorem AddRemoves.replace {front back : List (SubChange E)} {c d : SubChange E}
    (h : AddRemoves (front ++ c :: back)) (hrem : d.removed ≠ none) (hperm : d.perm = c.perm)
    (hupdd : d.updated = c.updated) (delta : Int) :
    AddRemoves (front ++ d :: back.map (SubChange.shift delta)) := by
  obtain ⟨hfront, hcons⟩ := addRemoves_append.mp h
  obtain ⟨hc, hback⟩ := addRemoves_cons.mp hcons
  refine addRemoves_append.mpr ⟨hfront, addRemoves_cons.mpr ⟨⟨hrem, ?_, ?_⟩, hback.shift delta⟩⟩
  · rw [hperm, hc.2.1]
  · rw [hupdd, hc.2.2]

theorem AddRemoves.insert {front back : List (SubChange E)} (h : AddRemoves (front ++ back))
    (fromIdx toIdx delta : Int) (removed : List E) :
    AddRemoves (front ++ ⟨fromIdx, toIdx, some removed, [], false⟩ ::
      back.map (SubChange.shift delta)) := by
  obtain ⟨hfront, hback⟩ := addRemoves_append.mp h
  exact addRemoves_append.mpr ⟨hfront, addRemoves_cons.mpr ⟨by simp, hback.shift delta⟩⟩

namespace SubChange

/-- The new index of the element at index `i`: inside the range it is read from
the permutation. -/
def newIndex (c : SubChange E) (i : Nat) : Nat :=
  if c.fromIdx ≤ i ∧ i < c.toIdx then (c.perm.getD (i - c.fromIdx).toNat 0).toNat else i

/-- A permutation of a non-empty range of a list with `n` elements. -/
structure IsPermutation (c : SubChange E) (n : Nat) : Prop where
  fromIdx_nonneg : 0 ≤ c.fromIdx
  fromIdx_lt : c.fromIdx < c.toIdx
  toIdx_le : c.toIdx ≤ n
  length_perm : (c.perm.length : Int) = c.toIdx - c.fromIdx
  mem_range : ∀ p ∈ c.perm, c.fromIdx ≤ p ∧ p < c.toIdx
  nodup : c.perm.Nodup
  noRemoved : c.getRemoved = []
  notUpdated : c.updated = false

variable {c : SubChange E} {n i : Nat}

theorem IsPermutation.getPermutation_eq (h : c.IsPermutation n) (hfrom : c.fromIdx ≤ i)
    (hto : i < c.toIdx) :
    c.getPermutation i = .ok (c.newIndex i : Int) ∧ c.fromIdx ≤ c.newIndex i ∧
      c.newIndex i < c.toIdx := by
  have hlen := h.length_perm
  obtain ⟨j, hj⟩ : ∃ j : Nat, (i : Int) - c.fromIdx = j := ⟨(i - c.fromIdx).toNat, by omega⟩
  have hjlt : j < c.perm.length := by omega
  obtain ⟨hlow, hhigh⟩ := h.mem_range _ (getElem_mem hjlt)
  have hnn := h.fromIdx_nonneg
  have hnew : (c.newIndex i : Int) = c.perm[j] := by
    rw [newIndex, if_pos ⟨hfrom, hto⟩, hj, Int.toNat_natCast, getD_eq_getElem?_getD,
      getElem?_eq_getElem hjlt, Option.getD_some,
      Int.toNat_of_nonneg (by omega)]
  have hne : c.perm ≠ [] := ne_nil_of_length_pos (by omega)
  rw [hnew, getPermutation, if_pos (by simp [wasPermutated, hne]), hj, load_natCast _ _ hjlt]
  exact ⟨rfl, hlow, hhigh⟩

theorem IsPermutation.wasPermutated (h : c.IsPermutation n) :
    c.wasPermutated = true := by
  have hlen := h.length_perm
  have hlt := h.fromIdx_lt
  have hne : c.perm ≠ [] := ne_nil_of_length_pos (by omega)
  simp [SubChange.wasPermutated, hne]

theorem IsPermutation.getPermutation_outside (h : c.IsPermutation n) {i : Int}
    (hout : ¬(c.fromIdx ≤ i ∧ i < c.toIdx)) :
    c.getPermutation i = .error .indexOutOfBounds := by
  have hlen := h.length_perm
  rw [getPermutation, if_pos h.wasPermutated, load]
  split
  case isTrue hnn => rw [getElem?_eq_none (by omega)]
  case isFalse => rfl

theorem IsPermutation.newIndex_lt (h : c.IsPermutation n) (hi : i < n) : c.newIndex i < n := by
  by_cases hrange : c.fromIdx ≤ i ∧ i < c.toIdx
  · have := (h.getPermutation_eq hrange.1 hrange.2).2
    have := h.toIdx_le
    omega
  · rwa [newIndex, if_neg hrange]

theorem IsPermutation.newIndex_inj (h : c.IsPermutation n) {j : Nat}
    (heq : c.newIndex i = c.newIndex j) : i = j := by
  by_cases hi : c.fromIdx ≤ i ∧ i < c.toIdx
  · have hi' := (h.getPermutation_eq hi.1 hi.2).2
    by_cases hj : c.fromIdx ≤ j ∧ j < c.toIdx
    · have hnn := h.fromIdx_nonneg
      have hlen := h.length_perm
      have hilt : (i - c.fromIdx).toNat < c.perm.length := by omega
      have hjlt : (j - c.fromIdx).toNat < c.perm.length := by omega
      have hpi := h.mem_range _ (getElem_mem hilt)
      have hpj := h.mem_range _ (getElem_mem hjlt)
      rw [newIndex, newIndex, if_pos hi, if_pos hj, getD_eq_getElem?_getD,
        getD_eq_getElem?_getD, getElem?_eq_getElem hilt, getElem?_eq_getElem hjlt,
        Option.getD_some, Option.getD_some] at heq
      have hval : c.perm[(i - c.fromIdx).toNat] = c.perm[(j - c.fromIdx).toNat] := by omega
      have := h.nodup.getElem_inj_iff.mp hval
      omega
    · rw [newIndex.eq_def c j, if_neg hj] at heq
      omega
  · by_cases hj : c.fromIdx ≤ j ∧ j < c.toIdx
    · have hj' := (h.getPermutation_eq hj.1 hj.2).2
      rw [newIndex.eq_def c i, if_neg hi] at heq
      omega
    · rwa [newIndex, newIndex, if_neg hi, if_neg hj] at heq

theorem IsPermutation.exists_newIndex (h : c.IsPermutation n) {k : Nat} (hk : k < n) :
    ∃ i, i < n ∧ c.newIndex i = k ∧
      (c.fromIdx ≤ k ∧ k < c.toIdx ↔ c.fromIdx ≤ i ∧ i < c.toIdx) := by
  by_cases hrange : c.fromIdx ≤ k ∧ k < c.toIdx
  · -- the entries are distinct and as many as the range has indexes
    have hlen := h.length_perm
    have hnn := h.fromIdx_nonneg
    have hto := h.toIdx_le
    have hsub : c.perm ⊆ (List.range c.perm.length).map fun j : Nat => c.fromIdx + (j : Int) := by
      intro p hp
      obtain ⟨hlow, hhigh⟩ := h.mem_range p hp
      exact mem_map.mpr ⟨(p - c.fromIdx).toNat, List.mem_range.mpr (by omega), by omega⟩
    have hperm := (subperm_of_subset h.nodup hsub).perm_of_length_le (by simp)
    have hmem : (k : Int) ∈ c.perm :=
      hperm.mem_iff.mpr (mem_map.mpr ⟨(k - c.fromIdx).toNat, List.mem_range.mpr (by omega),
        by omega⟩)
    obtain ⟨j, hj, hjk⟩ := getElem_of_mem hmem
    obtain ⟨i, hi⟩ : ∃ i : Nat, (i : Int) = c.fromIdx + j := ⟨(c.fromIdx + j).toNat, by omega⟩
    have hdiff : ((i : Int) - c.fromIdx).toNat = j := by omega
    refine ⟨i, by omega, ?_, by omega⟩
    rw [newIndex, if_pos (by omega), hdiff, getD_eq_getElem?_getD,
      getElem?_eq_getElem hj, Option.getD_some, hjk, Int.toNat_natCast]
  · exact ⟨k, hk, by rw [newIndex, if_neg hrange], Iff.rfl⟩

/-- Every element of `before` stands at its new index in `after`. -/
def Permutes (c : SubChange E) (before after : List E) : Prop :=
  after.length = before.length ∧ ∀ i, i < before.length → after[c.newIndex i]? = before[i]?

end SubChange

/-- The parts of a change, in the order in which they are iterated over. -/
structure ChangeParts (E : Type) where
  permutation : Option (SubChange E)
  addRemoves : List (SubChange E)
  updates : List (SubChange E)

namespace ChangeParts

def changes (parts : ChangeParts E) : List (SubChange E) :=
  parts.permutation.toList ++ parts.addRemoves ++ parts.updates

/-- A change from `before` to `after`. The permutation, if there is one, leads to
`middle`; the add/remove sub-changes lead from there to `after`; the updates
lie in the range of `after`. -/
structure WellFormed (parts : ChangeParts E) (before middle after : List E) : Prop where
  permutes : match parts.permutation with
    | some c => c.IsPermutation before.length ∧ c.Permutes before middle
    | none => middle = before
  addRemoves : AddRemoves parts.addRemoves
  separate : Separate parts.addRemoves
  replays : Replays after parts.addRemoves middle
  updates : ∀ c ∈ parts.updates, c.updated = true ∧ c.perm = [] ∧ c.getRemoved = [] ∧
    0 ≤ c.fromIdx ∧ c.fromIdx ≤ c.toIdx ∧ c.toIdx ≤ after.length

end ChangeParts

end OpenJfx.Collections.ListChange
