import OpenJfx.Collections.ListChangeBuilder

namespace OpenJfx.Collections.ListChangeBuilderReplay

open Java.Arrays Java.BinarySearch Collections.ListChange Collections.ListChangeBuilder List

variable {E : Type}

theorem updateAt_append (front back : List (SubChange E)) (c : SubChange E)
    (f : SubChange E → Outcome (SubChange E)) :
    updateAt (front ++ c :: back) front.length f =
      f c >>= fun c' => .ok (front ++ c' :: back) := by
  simp only [updateAt, getElem?_append_right (Nat.le_refl _), Nat.sub_self,
    getElem?_cons_zero]
  cases f c with
  | error => rfl
  | ok c' => simp

theorem shiftFrom_append (front back : List (SubChange E)) (delta : Int) :
    shiftFrom front.length delta (front ++ back) = front ++ back.map (SubChange.shift delta) := by
  simp [shiftFrom]

theorem shiftFrom_append_cons (front back : List (SubChange E)) (c : SubChange E) (delta : Int) :
    shiftFrom (front.length + 1) delta (front ++ c :: back) =
      front ++ c :: back.map (SubChange.shift delta) := by
  have := shiftFrom_append (front ++ [c]) back delta
  simpa using this

variable {cs : List (SubChange E)} {i : Nat}

theorem shiftFrom_of_length_le (h : cs.length ≤ i) (delta : Int) : shiftFrom i delta cs = cs := by
  simp [shiftFrom, take_of_length_le h, drop_eq_nil_of_le h]

theorem insertIdx_append (front back : List (SubChange E)) (c : SubChange E) :
    (front ++ back).insertIdx front.length c = front ++ c :: back := by
  induction front with
  | nil => simp
  | cons d front ih => simp [ih]

theorem previousEndsAt_append (front back : List (SubChange E)) (pos : Int) :
    previousEndsAt (front ++ back) front.length pos = true ↔
      ∃ front' c, front = front' ++ [c] ∧ c.toIdx = pos := by
  rcases eq_nil_or_concat front with rfl | ⟨front', c, rfl⟩
  · simp [previousEndsAt]
  · simp [previousEndsAt]

theorem nextStartsAt_append (front back : List (SubChange E)) (pos : Int) :
    nextStartsAt (front ++ back) front.length pos = true ↔
      ∃ c back', back = c :: back' ∧ c.fromIdx = pos := by
  rcases back with _ | ⟨c, back⟩
  · simp [nextStartsAt]
  · simp [nextStartsAt]

/-- Where the binary search ends in a sorted sequence of disjoint ranges. -/
inductive Found (idx : Int) (cs : List (SubChange E)) : SearchResult → Prop
  | inside (front back : List (SubChange E)) (c : SubChange E) (hcs : cs = front ++ c :: back)
      (hfrom : c.fromIdx ≤ idx) (hto : idx < c.toIdx) : Found idx cs (.found front.length)
  | between (front back : List (SubChange E)) (hcs : cs = front ++ back)
      (hfront : ∀ c ∈ front, c.toIdx ≤ idx) (hback : ∀ c ∈ back, idx < c.fromIdx) :
      Found idx cs (.insertAt front.length)

theorem side_eq_lt_iff {idx : Int} (hi : i < cs.length) :
    side idx cs i = .lt ↔ cs[i].toIdx ≤ idx := by
  simp only [side, getElem?_eq_getElem hi]
  split_ifs with h₁ h₂
  · exact iff_of_true rfl h₁
  · exact iff_of_false (by decide) h₁
  · exact iff_of_false (by decide) h₁

theorem side_eq_gt_iff {idx : Int} (hi : i < cs.length) :
    side idx cs i = .gt ↔ idx < cs[i].toIdx ∧ idx < cs[i].fromIdx := by
  simp only [side, getElem?_eq_getElem hi]
  split_ifs with h₁ h₂
  · exact iff_of_false (by decide) (by omega)
  · exact iff_of_true rfl ⟨by omega, h₂⟩
  · exact iff_of_false (by decide) (by omega)

theorem side_eq_eq_iff {idx : Int} (hi : i < cs.length) :
    side idx cs i = .eq ↔ cs[i].fromIdx ≤ idx ∧ idx < cs[i].toIdx := by
  simp only [side, getElem?_eq_getElem hi]
  split_ifs with h₁ h₂
  · exact iff_of_false (by decide) (by omega)
  · exact iff_of_false (by decide) (by omega)
  · exact iff_of_true rfl ⟨by omega, by omega⟩

theorem side_ordered (hsep : Separate cs) (hle : ∀ c ∈ cs, c.fromIdx ≤ c.toIdx) (idx : Int) :
    Ordered (side idx cs) cs.length := by
  intro i j hij hj
  have hi : i < cs.length := by omega
  rw [side_eq_lt_iff hi, side_eq_lt_iff hj, side_eq_gt_iff hi, side_eq_gt_iff hj]
  have hj' := hle _ (getElem_mem hj)
  rcases Nat.eq_or_lt_of_le hij with rfl | hlt
  · exact ⟨id, id⟩
  · have hpair := (pairwise_iff_getElem.mp hsep) i j hi hj hlt
    constructor
    · intro h
      omega
    · rintro ⟨h₁, h₂⟩
      constructor <;> omega

theorem findSubChange_found (hsep : Separate cs) (hle : ∀ c ∈ cs, c.fromIdx ≤ c.toIdx) (idx : Int) :
    Found idx cs (findSubChange idx cs) := by
  have hrange := binarySearch_inRange (side idx cs) cs.length
  have hsplit := binarySearch_splits (side idx cs) cs.length (side_ordered hsep hle idx)
  rw [findSubChange]
  cases hres : binarySearch (side idx cs) cs.length with
  | found i =>
    rw [hres] at hrange
    obtain ⟨hi, heq⟩ := hrange
    obtain ⟨hfrom, hto⟩ := (side_eq_eq_iff hi).mp heq
    have hcs : cs = cs.take i ++ cs[i] :: cs.drop (i + 1) := by simp
    have hlen : (cs.take i).length = i := by simp; omega
    have := Found.inside (cs.take i) (cs.drop (i + 1)) cs[i] hcs hfrom hto
    rwa [hlen] at this
  | insertAt i =>
    rw [hres] at hrange hsplit
    have hi : i ≤ cs.length := hrange
    obtain ⟨hbef, hafter⟩ := hsplit
    have hlen : (cs.take i).length = i := by simp [hi]
    have hfound : Found idx cs (.insertAt (cs.take i).length) := Found.between (cs.take i)
      (cs.drop i) (take_append_drop i cs).symm
      (by
        intro c hc
        obtain ⟨j, hj, rfl⟩ := mem_iff_getElem.mp hc
        rw [hlen] at hj
        rw [getElem_take]
        exact (side_eq_lt_iff (by omega)).mp (hbef j hj))
      (by
        intro c hc
        obtain ⟨j, hj, rfl⟩ := mem_iff_getElem.mp hc
        rw [length_drop] at hj
        rw [getElem_drop]
        exact ((side_eq_gt_iff (by omega)).mp (hafter (i + j) (by omega) (by omega))).2)
    rwa [hlen] at hfound

variable {front back : List (SubChange E)} {c : SubChange E} {before : List E}

variable {after : List E}

theorem aligned_extend (h : Aligned 0 (front ++ c :: back) before after) (n : Nat) (block : List E)
    (hfrom : c.fromIdx ≤ n) (hto : n ≤ c.toIdx) :
    Aligned 0 (front ++ { c with toIdx := c.toIdx + block.length } ::
        back.map (SubChange.shift block.length)) before
      (after.take n ++ block ++ after.drop n) := by
  obtain ⟨b₁, b₂, a₁, added, a₂, rfl, rfl, h₁, hcfrom, hcto, h₂⟩ := h.around
  have hm : n = a₁.length + (n - a₁.length) := by omega
  have hle : n - a₁.length ≤ added.length := by omega
  have hafter : (a₁ ++ added ++ a₂).take n ++ block ++ (a₁ ++ added ++ a₂).drop n =
      a₁ ++ (added.take (n - a₁.length) ++ block ++ added.drop (n - a₁.length)) ++ a₂ := by
    rw [hm]
    simp [take_append_of_le_length hle, drop_append_of_le_length hle, take_length_add_append]
  rw [hafter]
  refine Aligned.glue { c with toIdx := c.toIdx + block.length } _ _ h₁ h₂ hcfrom ?_ rfl
  simp only [length_append, length_take, length_drop]
  omega

theorem aligned_insert (h : Aligned 0 (front ++ back) before after) (n : Nat) (block : List E)
    (hn : n ≤ after.length) (hfront : ∀ c ∈ front, c.toIdx ≤ n)
    (hback : ∀ c ∈ back, (n : Int) ≤ c.fromIdx) :
    Aligned 0 (front ++ ⟨n, n + block.length, some [], [], false⟩ ::
        back.map (SubChange.shift block.length)) before
      (after.take n ++ block ++ after.drop n) := by
  obtain ⟨b₁, b₂, a₁, a₂, rfl, rfl, hlen, h₁, h₂⟩ := h.cutAt n hn (by simpa using hfront)
    (by simpa using hback)
  subst hlen
  have hglue := Aligned.glue ⟨a₁.length, a₁.length + block.length, some [], [], false⟩ block
    block.length h₁ h₂ (by simp) rfl (by simp)
  simpa [SubChange.getRemoved] using hglue

theorem aligned_shrink (h : Aligned 0 (front ++ c :: back) before after) (n : Nat)
    (hfrom : c.fromIdx ≤ n) (hto : n < c.toIdx) :
    Aligned 0 (front ++ { c with toIdx := c.toIdx - 1 } :: back.map (SubChange.shift (-1)))
      before (after.eraseIdx n) := by
  obtain ⟨b₁, b₂, a₁, added, a₂, rfl, rfl, h₁, hcfrom, hcto, h₂⟩ := h.around
  have hafter : (a₁ ++ added ++ a₂).eraseIdx n =
      a₁ ++ added.eraseIdx (n - a₁.length) ++ a₂ := by
    rw [append_assoc, eraseIdx_append_of_length_le (by omega),
      eraseIdx_append_of_lt_length (by omega), append_assoc]
  rw [hafter]
  refine Aligned.glue { c with toIdx := c.toIdx - 1 } _ _ h₁ h₂ hcfrom ?_ rfl
  rw [length_eraseIdx_of_lt (by omega)]
  change c.toIdx - 1 = c.fromIdx + _
  omega

theorem aligned_drop (h : Aligned 0 (front ++ c :: back) before after) (hemp : c.fromIdx = c.toIdx)
    (hrem : c.getRemoved = []) :
    Aligned 0 (front ++ back) before after := by
  obtain ⟨b₁, b₂, a₁, added, a₂, rfl, rfl, h₁, hcfrom, hcto, h₂⟩ := h.around
  have hadded : added = [] := eq_nil_of_length_eq_zero (by omega)
  subst hadded
  rw [hrem]
  simpa using h₁.append h₂ (by omega)

theorem aligned_removeLast (h : Aligned 0 (front ++ c :: back) before after) (n : Nat) (x : E)
    (hx : after[n]? = some x) (hto : c.toIdx = n) (hback : ∀ d ∈ back, (n : Int) < d.fromIdx) :
    Aligned 0 (front ++ { c with removed := some (c.getRemoved ++ [x]) } ::
      back.map (SubChange.shift (-1))) before (after.eraseIdx n) := by
  obtain ⟨b₁, b₂, a₁, added, a₂, rfl, rfl, h₁, hcfrom, hcto, h₂⟩ := h.around
  have hn : n = (a₁ ++ added).length := by
    simp only [length_append]
    omega
  subst hn
  rcases a₂ with _ | ⟨y, a₂⟩
  · simp at hx
  obtain rfl : y = x := by simpa using hx
  obtain ⟨kept, b', a', hkept, rfl, hcons, h'⟩ := h₂.dropKept 1 (by simp) (by
    intro d hd
    have := hback d (mem_of_mem_head? hd)
    omega)
  obtain ⟨z, rfl⟩ := length_eq_one_iff.mp hkept
  obtain ⟨rfl, rfl⟩ : y = z ∧ a₂ = a' := by simpa using hcons
  have hglue := Aligned.glue { c with removed := some (c.getRemoved ++ [y]) } added (-1) h₁ h'
    hcfrom hcto (by change c.toIdx + 1 + -1 = c.toIdx; omega)
  simpa [SubChange.getRemoved, eraseIdx_append_of_length_le] using hglue

theorem aligned_removeFirst (h : Aligned 0 (front ++ c :: back) before after) (n : Nat) (x : E)
    (hx : after[n]? = some x) (hfrom : c.fromIdx = n + 1) (hfront : ∀ d ∈ front, d.toIdx ≤ n) :
    Aligned 0 (front ++ ⟨c.fromIdx - 1, c.toIdx - 1, some (x :: c.getRemoved), c.perm, c.updated⟩ ::
      back.map (SubChange.shift (-1))) before (after.eraseIdx n) := by
  have hn : n < after.length := (List.getElem?_eq_some_iff.mp hx).1
  obtain ⟨b₁, b₂, a₁, a₂, rfl, rfl, hlen, h₁, h₂⟩ := h.cutAt n (by omega) (by simpa using hfront)
    (by
      intro d hd
      rcases mem_cons.mp hd with rfl | hd
      · omega
      · have hsep := pairwise_append.mp h.separate
        have := (pairwise_cons.mp hsep.2.1).1 d hd
        omega)
  subst hlen
  cases h₂ with
  | @cons _ _ _ kept added before after hcfrom hcto htail =>
    obtain ⟨z, rfl⟩ := length_eq_one_iff.mp (show kept.length = 1 by omega)
    obtain rfl : z = x := by simpa using hx
    have hglue := Aligned.glue
      ⟨c.fromIdx - 1, c.toIdx - 1, some (z :: c.getRemoved), c.perm, c.updated⟩ added (-1)
      h₁ htail (by change c.fromIdx - 1 = _; omega)
      (by change c.toIdx - 1 = c.fromIdx - 1 + _; omega) rfl
    simpa [SubChange.getRemoved, eraseIdx_append_of_length_le] using hglue

theorem aligned_removeNew (h : Aligned 0 (front ++ back) before after) (n : Nat) (x : E)
    (hx : after[n]? = some x) (hfront : ∀ c ∈ front, c.toIdx ≤ n)
    (hback : ∀ c ∈ back, (n : Int) < c.fromIdx) :
    Aligned 0 (front ++ ⟨n, n, some [x], [], false⟩ :: back.map (SubChange.shift (-1)))
      before (after.eraseIdx n) := by
  have hn : n < after.length := (List.getElem?_eq_some_iff.mp hx).1
  obtain ⟨b₁, b₂, a₁, a₂, rfl, rfl, hlen, h₁, h₂⟩ := h.cutAt n (by omega) (by simpa using hfront)
    (fun c hc => by
      have := hback c hc
      omega)
  subst hlen
  simp only [length_append] at hn
  obtain ⟨kept, b', a', hkept, rfl, rfl, h'⟩ := h₂.dropKept 1 (by omega) (by
    intro c hc
    have := hback c (mem_of_mem_head? hc)
    omega)
  obtain ⟨z, rfl⟩ := length_eq_one_iff.mp hkept
  obtain rfl : z = x := by simpa using hx
  have hglue := Aligned.glue ⟨a₁.length, a₁.length, some [z], [], false⟩ [] (-1) h₁ h' (by simp)
    (by simp) (by change 0 + (a₁.length : Int) + 1 + -1 = a₁.length; omega)
  simpa [SubChange.getRemoved, eraseIdx_append_of_length_le] using hglue

theorem addRemovedLast_eq (x : E) (h : c.removed ≠ none) :
    addRemovedLast x c = .ok { c with removed := some (c.getRemoved ++ [x]) } := by
  rw [addRemovedLast]
  cases hr : c.removed with
  | none => exact absurd hr h
  | some r => simp [SubChange.getRemoved, hr]

theorem addRemovedFirst_eq (x : E) (h : c.removed ≠ none) :
    addRemovedFirst x c =
      .ok ⟨c.fromIdx - 1, c.toIdx - 1, some (x :: c.getRemoved), c.perm, c.updated⟩ := by
  rw [addRemovedFirst]
  cases hr : c.removed with
  | none => exact absurd hr h
  | some r => simp [SubChange.getRemoved, hr]

/-- The sub-changes describe the way from `before` to `after`. -/
structure Describes (cs : List (SubChange E)) (before after : List E) : Prop where
  aligned : Aligned 0 cs before after
  addRemoves : AddRemoves cs

theorem Describes.found (h : Describes cs before after) (idx : Int) :
    Found idx cs (findSubChange idx cs) :=
  findSubChange_found h.aligned.separate (fun c hc => (h.aligned.bounds c hc).2.1) idx

/-- The last sub-change begins right behind `idx`, and the one before it reaches
up to there: the element at `idx` is then wrongly taken into the last one. -/
def LastTwoMeet (idx : Int) (cs : List (SubChange E)) : Prop :=
  ∃ last ∈ cs.getLast?, last.fromIdx = idx + 1 ∧
    ∃ prev ∈ cs.dropLast.getLast?, prev.toIdx = idx + 1

def EmptiesInner (idx : Int) (cs : List (SubChange E)) : Prop :=
  ∃ c ∈ cs.dropLast, c.fromIdx = idx ∧ c.toIdx = idx + 1 ∧ c.getRemoved.isEmpty = true

/-- Neither slip of `nextRemove` is reached. -/
def RemoveSafe (idx : Int) (cs : List (SubChange E)) : Prop :=
  ¬ LastTwoMeet idx cs ∧ ¬ EmptiesInner idx cs

theorem insertRemoved_describes (h : Describes cs before after) (n : Nat) (x : E)
    (hx : after[n]? = some x) (hsafe : ¬ EmptiesInner n cs) :
    ∃ cs', insertRemoved n x cs = .ok cs' ∧ Describes cs' before (after.eraseIdx n) := by
  have hfound := h.found n
  rw [insertRemoved]
  generalize findSubChange (n : Int) cs = result at hfound ⊢
  cases hfound with
  | inside front back c hcs hfrom hto =>
    subst hcs
    have hshrink := aligned_shrink h.aligned n hfrom hto
    have hnull : c.removed ≠ none := (h.addRemoves c (by simp)).1
    simp only [updateAt_append, ok_bind, pure_eq_ok]
    by_cases hemp : insertRemoved.emptiedAt
        (front ++ { c with toIdx := c.toIdx - 1 } :: back) front.length = true
    · have hc : c.fromIdx = c.toIdx - 1 ∧ c.getRemoved = [] := by
        simpa [insertRemoved.emptiedAt, SubChange.getRemoved] using hemp
      have hback : back = [] := by
        rcases back with _ | ⟨next, back⟩
        · rfl
        · exact absurd ⟨c, by simp, by omega, by omega, by simp [hc.2]⟩ hsafe
      subst hback
      refine ⟨front, ?_, ?_, (addRemoves_append.mp h.addRemoves).1⟩
      · rw [if_pos hemp, eraseIdx_append_of_length_le (Nat.le_refl _), Nat.sub_self,
          eraseIdx_cons_zero, append_nil, shiftFrom_of_length_le (by omega)]
      · simpa using aligned_drop hshrink hc.1 hc.2
    · refine
        ⟨_, ?_, hshrink, h.addRemoves.replace (d := { c with toIdx := c.toIdx - 1 }) hnull rfl
        rfl (-1)⟩
      rw [if_neg hemp, shiftFrom_append_cons]
  | between front back hcs hfront hback =>
    subst hcs
    dsimp only
    by_cases hprev : previousEndsAt (front ++ back) front.length n = true
    · rw [if_pos hprev]
      obtain ⟨front', c, rfl, hc⟩ := (previousEndsAt_append _ _ _).mp hprev
      have hlen : (front' ++ [c]).length - 1 = front'.length := by simp
      have hnull : c.removed ≠ none := (h.addRemoves c (by simp)).1
      have hal : Aligned 0 (front' ++ c :: back) before after := by simpa using h.aligned
      have har : AddRemoves (front' ++ c :: back) := by simpa using h.addRemoves
      have hassoc : front' ++ [c] ++ back = front' ++ c :: back := by simp
      rw [hlen, hassoc, updateAt_append, addRemovedLast_eq x hnull]
      refine ⟨_, ?_, aligned_removeLast hal n x hx hc hback, har.replace
        (d := { c with removed := some (c.getRemoved ++ [x]) }) (by simp) rfl rfl (-1)⟩
      simp only [ok_bind, pure_eq_ok, length_append, length_singleton]
      rw [shiftFrom_append_cons]
    · rw [if_neg hprev]
      by_cases hnext : nextStartsAt (front ++ back) front.length (n + 1) = true
      · rw [if_pos hnext]
        obtain ⟨c, back', rfl, hc⟩ := (nextStartsAt_append _ _ _).mp hnext
        have hnull : c.removed ≠ none := (h.addRemoves c (by simp)).1
        rw [updateAt_append, addRemovedFirst_eq x hnull]
        refine ⟨_, ?_, aligned_removeFirst h.aligned n x hx hc hfront, h.addRemoves.replace
          (d := ⟨c.fromIdx - 1, c.toIdx - 1, some (x :: c.getRemoved), c.perm, c.updated⟩)
          (by simp) rfl rfl (-1)⟩
        simp only [ok_bind, pure_eq_ok]
        rw [shiftFrom_append_cons]
      · rw [if_neg hnext]
        refine ⟨_, ?_, aligned_removeNew h.aligned n x hx hfront hback,
          h.addRemoves.insert _ _ (-1) _⟩
        rw [insertIdx_append, shiftFrom_append_cons, pure_eq_ok]

theorem removeFromAddRemove_describes (h : Describes cs before after) (n : Nat) (x : E)
    (hx : after[n]? = some x) (hsafe : RemoveSafe n cs) :
    ∃ cs', removeFromAddRemove n x cs = .ok cs' ∧ Describes cs' before (after.eraseIdx n) := by
  rw [removeFromAddRemove]
  rcases eq_nil_or_concat cs with rfl | ⟨front, last, rfl⟩
  · exact insertRemoved_describes h n x hx hsafe.2
  have hnull : last.removed ≠ none := (h.addRemoves last (by simp)).1
  have hlen : (front ++ [last]).length - 1 = front.length := by simp
  simp only [concat_eq_append] at h hsafe ⊢
  simp only [getLast?_append, getLast?_singleton, Option.some_or]
  by_cases hto : last.toIdx = n
  · rw [if_pos hto, hlen, updateAt_append, addRemovedLast_eq x hnull]
    refine ⟨_, rfl, ?_, ?_⟩
    · simpa using aligned_removeLast h.aligned n x hx hto (by simp)
    · simpa using h.addRemoves.replace (d := { last with removed := some (last.getRemoved ++ [x]) })
        (by simp) rfl rfl (-1)
  rw [if_neg hto]
  by_cases hfrom : last.fromIdx = n + 1
  · rw [if_pos hfrom, hlen, updateAt_append, addRemovedFirst_eq x hnull]
    refine ⟨_, rfl, ?_, ?_⟩
    · -- Only the sub-change before the last one could reach up to `n + 1`.
      have hfront : ∀ c ∈ front, c.toIdx ≤ n := by
        intro c hc
        have hsep := pairwise_append.mp h.aligned.separate
        rcases eq_nil_or_concat front with rfl | ⟨front', prev, rfl⟩
        · simp at hc
        · have hprev : prev.toIdx ≠ n + 1 := by
            intro heq
            exact hsafe.1 ⟨last, by simp, hfrom, prev, by simp, heq⟩
          have hbound := hsep.2.2 prev (by simp) last (by simp)
          rw [concat_eq_append] at hc hsep
          rcases mem_append.mp hc with hc' | hc'
          · have hcprev := (pairwise_append.mp hsep.1).2.2 c hc' prev (by simp)
            have := (h.aligned.bounds prev (by simp)).2.1
            omega
          · obtain rfl : c = prev := by simpa using hc'
            omega
      simpa using aligned_removeFirst h.aligned n x hx hfrom hfront
    · simpa using h.addRemoves.replace (d := ⟨last.fromIdx - 1, last.toIdx - 1,
        some (x :: last.getRemoved), last.perm, last.updated⟩) (by simp) rfl rfl (-1)
  · rw [if_neg hfrom]
    exact insertRemoved_describes h n x hx hsafe.2

theorem insertAdd_describes (h : Describes cs before after) (n : Nat) (block : List E)
    (hn : n ≤ after.length) :
    ∃ cs', insertAdd n (n + block.length) cs = .ok cs' ∧
      Describes cs' before (after.take n ++ block ++ after.drop n) := by
  have hfound := h.found n
  have hdelta : (n : Int) + block.length - n = block.length := by omega
  rw [insertAdd, hdelta]
  generalize findSubChange (n : Int) cs = result at hfound ⊢
  cases hfound with
  | inside front back c hcs hfrom hto =>
    subst hcs
    have hnull : c.removed ≠ none := (h.addRemoves c (by simp)).1
    simp only [updateAt_append]
    refine ⟨_, rfl, ?_, ?_⟩
    · rw [shiftFrom_append_cons]
      exact aligned_extend h.aligned n block hfrom (by omega)
    · rw [shiftFrom_append_cons]
      exact h.addRemoves.replace (d := { c with toIdx := c.toIdx + block.length }) hnull rfl rfl _
  | between front back hcs hfront hback =>
    subst hcs
    dsimp only
    by_cases hprev : previousEndsAt (front ++ back) front.length n = true
    · rw [if_pos hprev]
      obtain ⟨front', c, rfl, hc⟩ := (previousEndsAt_append _ _ _).mp hprev
      have hlen : (front' ++ [c]).length - 1 = front'.length := by simp
      have hlen' : (front' ++ [c]).length = front'.length + 1 := by simp
      have hnull : c.removed ≠ none := (h.addRemoves c (by simp)).1
      have hassoc : front' ++ [c] ++ back = front' ++ c :: back := by simp
      rw [hassoc] at h ⊢
      rw [hlen, hlen', updateAt_append]
      refine ⟨_, rfl, ?_, ?_⟩
      · rw [shiftFrom_append_cons, ← hc]
        exact aligned_extend h.aligned n block (by
          have := (h.aligned.bounds c (by simp)).2.1
          omega) (by omega)
      · rw [shiftFrom_append_cons]
        exact h.addRemoves.replace
          (d := { c with toIdx := (n : Int) + block.length }) hnull rfl rfl _
    · rw [if_neg hprev, insertIdx_append, shiftFrom_append_cons]
      refine ⟨_, rfl, aligned_insert h.aligned n block hn hfront (fun c hc => ?_),
        h.addRemoves.insert _ _ _ _⟩
      have := hback c hc
      omega

theorem addToAddRemove_describes (h : Describes cs before after) (n : Nat) (block : List E)
    (hn : n ≤ after.length) :
    ∃ cs', addToAddRemove n (n + block.length) cs = .ok cs' ∧
      Describes cs' before (after.take n ++ block ++ after.drop n) := by
  rw [addToAddRemove]
  rcases eq_nil_or_concat cs with rfl | ⟨front, last, rfl⟩
  · exact insertAdd_describes h n block hn
  have hnull : last.removed ≠ none := (h.addRemoves last (by simp)).1
  have hlen : (front ++ [last]).length - 1 = front.length := by simp
  simp only [concat_eq_append] at h ⊢
  simp only [getLast?_append, getLast?_singleton, Option.some_or]
  have hbounds := (h.aligned.bounds last (by simp)).2.1
  by_cases hto : last.toIdx = n
  · rw [if_pos hto, hlen, updateAt_append, ← hto]
    refine ⟨_, rfl, ?_, ?_⟩
    · simpa using aligned_extend h.aligned n block (by omega) (by omega)
    · simpa using h.addRemoves.replace (d := { last with toIdx := last.toIdx + block.length }) hnull
  rw [if_neg hto]
  by_cases hin : last.fromIdx ≤ n ∧ n < last.toIdx
  · rw [if_pos hin, hlen, updateAt_append]
    refine ⟨_, rfl, ?_, ?_⟩
    · simpa using aligned_extend h.aligned n block hin.1 (by omega)
    · simpa using h.addRemoves.replace (d := { last with toIdx := last.toIdx + block.length }) hnull
  · rw [if_neg hin]
    exact insertAdd_describes h n block hn

theorem compressFrom_describes :
    ∀ (rest : List (SubChange E)) (prev : SubChange E) (p : Int) (before after : List E),
      Aligned p (prev :: rest) before after → AddRemoves (prev :: rest) →
      ∃ cs, compressFrom prev rest = .ok cs ∧ Aligned p cs before after ∧ AddRemoves cs ∧
        cs.Pairwise fun c d => c.toIdx < d.fromIdx := by
  intro rest
  induction rest with
  | nil =>
    intro prev p before after h har
    exact ⟨[prev], rfl, h, har, pairwise_singleton _ _⟩
  | cons cur rest ih =>
    intro prev p before after h har
    obtain ⟨hprev, har'⟩ := addRemoves_cons.mp har
    obtain ⟨hcur, hrest⟩ := addRemoves_cons.mp har'
    cases h with
    | @cons _ _ _ kept added before after hfrom hto htail =>
      rw [compressFrom]
      by_cases hmeet : prev.toIdx = cur.fromIdx
      · rw [if_pos hmeet]
        obtain ⟨r, hr⟩ := Option.ne_none_iff_exists'.mp hprev.1
        obtain ⟨r', hr'⟩ := Option.ne_none_iff_exists'.mp hcur.1
        simp only [hr, hr']
        apply ih _ p
        · cases htail with
          | @cons _ _ _ kept' added' before after hfrom' hto' htail' =>
            obtain rfl : kept' = [] := eq_nil_of_length_eq_zero (by omega)
            have hmerged := Aligned.cons (c := { prev with
                toIdx := cur.toIdx, removed := some (r ++ r') }) kept (added ++ added') hfrom
              (by simp only [length_append]; omega) htail'
            simpa [SubChange.getRemoved, hr, hr'] using hmerged
        · exact addRemoves_cons.mpr ⟨⟨by simp, hprev.2.1, hprev.2.2⟩, hrest⟩
      · rw [if_neg hmeet]
        have hgap : prev.toIdx < cur.fromIdx := by
          have := (htail.bounds cur (by simp)).1
          omega
        obtain ⟨kept', b', a', hkept', rfl, rfl, hcut⟩ :=
          htail.dropKept (cur.fromIdx - prev.toIdx).toNat (by
            have := htail.bounds cur (by simp)
            omega) (by
            intro c hc
            obtain rfl : cur = c := by simpa using hc
            omega)
        obtain ⟨cs, hcs, hal, hcsar, hpair⟩ := ih cur _ b' a' hcut har'
        refine ⟨prev :: cs, by rw [hcs]; rfl, ?_, addRemoves_cons.mpr ⟨hprev, hcsar⟩,
          List.Pairwise.cons ?_ hpair⟩
        · exact Aligned.cons kept added hfrom hto (hal.prepend kept' (by omega))
        · intro d hd
          have := (hal.bounds d hd).1
          omega

theorem compress_describes (h : Describes cs before after) (hne : cs ≠ []) :
    ∃ cs', compress cs = .ok cs' ∧ Describes cs' before after ∧
      cs'.Pairwise fun c d => c.toIdx < d.fromIdx := by
  rcases cs with _ | ⟨prev, rest⟩
  · exact absurd rfl hne
  · obtain ⟨cs', hcs', hal, har, hpair⟩ := compressFrom_describes rest prev 0 before after
      h.aligned h.addRemoves
    exact ⟨cs', hcs', ⟨hal, har⟩, hpair⟩

/-- Inside a block in which neither updates nor permutations were reported,
the builder describes the edits made since `before`. -/
structure Tracks (before : List E) (l : List E) (b : Builder E) : Prop where
  describes : Describes b.addRemoveChanges before l
  noUpdates : b.updateChanges = []
  noPermutation : b.permutationChange = none
  locked : 0 < b.changeLock

variable {b : Builder E}

theorem checkState_eq_ok (h : 0 < b.changeLock) : b.checkState = .ok () := by
  rw [Builder.checkState, if_neg (by omega)]

theorem nextRemove_tracks {l : List E} (h : Tracks before l b) (n : Nat) (x : E)
    (hx : l[n]? = some x) (hsafe : RemoveSafe n b.addRemoveChanges) :
    ∃ b', b.nextRemove n x = .ok b' ∧ Tracks before (l.eraseIdx n) b' ∧
      b'.changeLock = b.changeLock := by
  obtain ⟨cs, hcs, hdesc⟩ := removeFromAddRemove_describes h.describes n x hx hsafe
  refine ⟨{ b with addRemoveChanges := cs, updateChanges := [] }, ?_,
    ⟨hdesc, rfl, h.noPermutation, h.locked⟩, rfl⟩
  rw [Builder.nextRemove, checkState_eq_ok h.locked, hcs, h.noUpdates]
  rfl

theorem nextAdd_tracks {l : List E} (h : Tracks before l b) (n : Nat) (block : List E)
    (hn : n ≤ l.length) :
    ∃ b', b.nextAdd n (n + block.length) = .ok b' ∧
      Tracks before (l.take n ++ block ++ l.drop n) b' ∧ b'.changeLock = b.changeLock := by
  obtain ⟨cs, hcs, hdesc⟩ := addToAddRemove_describes h.describes n block hn
  refine ⟨{ b with addRemoveChanges := cs, updateChanges := [] }, ?_,
    ⟨hdesc, rfl, h.noPermutation, h.locked⟩, rfl⟩
  rw [Builder.nextAdd, checkState_eq_ok h.locked, hcs, h.noUpdates]
  rfl

def RemovesSafe (idx : Int) : List E → Builder E → Prop
  | [], _ => True
  | x :: removed, b =>
    RemoveSafe idx b.addRemoveChanges ∧
      ∀ b', b.nextRemove idx x = .ok b' → RemovesSafe idx removed b'

theorem nextRemoveAll_tracks (front : List E) :
    ∀ (removed back : List E) (b : Builder E), Tracks before (front ++ removed ++ back) b →
      RemovesSafe front.length removed b →
      ∃ b', b.nextRemoveAll front.length removed = .ok b' ∧ Tracks before (front ++ back) b' ∧
        b'.changeLock = b.changeLock := by
  intro removed
  induction removed with
  | nil =>
    intro back b h _
    refine ⟨b, ?_, by simpa using h, rfl⟩
    rw [Builder.nextRemoveAll, checkState_eq_ok h.locked]
    rfl
  | cons x removed ih =>
    intro back b h hsafe
    obtain ⟨b₁, hb₁, htracks, hlock⟩ := nextRemove_tracks h front.length x (by simp) hsafe.1
    have hlist : (front ++ x :: removed ++ back).eraseIdx front.length =
        front ++ removed ++ back := by
      rw [append_assoc, eraseIdx_append_of_length_le (Nat.le_refl _)]
      simp
    rw [hlist] at htracks
    obtain ⟨b', hb', htracks', hlock'⟩ := ih back b₁ htracks (hsafe.2 b₁ hb₁)
    refine ⟨b', ?_, htracks', by rw [hlock', hlock]⟩
    rw [← hb', Builder.nextRemoveAll, Builder.nextRemoveAll, checkState_eq_ok h.locked,
      checkState_eq_ok htracks.locked]
    simp only [ok_bind, foldlM_cons, hb₁]

inductive Edit (E : Type)
  | beginChange
  | endChange
  | add (index : Nat) (block : List E)
  | remove (index : Nat)
  | set (index : Nat) (element : E)
  | replace (index count : Nat) (block : List E)

namespace Edit

def apply (l : List E) : Edit E → List E
  | .beginChange => l
  | .endChange => l
  | .add index block => l.take index ++ block ++ l.drop index
  | .remove index => l.eraseIdx index
  | .set index element => l.set index element
  | .replace index count block => l.take index ++ block ++ l.drop (index + count)

def report (l : List E) (b : Builder E) : Edit E → Outcome (Builder E)
  | .beginChange => .ok b.beginChange
  | .endChange => do
    let (b, _) ← b.endChange
    pure b
  | .add index block => b.nextAdd index (index + block.length)
  | .remove index => do
    let removed ← load l index
    b.nextRemove index removed
  | .set index _ => do
    let old ← load l index
    b.nextSet index old
  | .replace index count block =>
    b.nextReplace index (index + block.length) ((l.drop index).take count)

/-- The indexes are those of the list, and the outermost block stays open. -/
def Legal (l : List E) (b : Builder E) : Edit E → Prop
  | .beginChange => True
  | .endChange => 2 ≤ b.changeLock
  | .add index block => index ≤ l.length ∧ block ≠ []
  | .remove index => index < l.length
  | .set index _ => index < l.length
  | .replace index count _ => index + count ≤ l.length

/-- None of the removals the edit reports reaches a slip of `nextRemove`. -/
def Safe (l : List E) (b : Builder E) : Edit E → Prop
  | .beginChange => True
  | .endChange => True
  | .add _ _ => True
  | .remove index => RemoveSafe index b.addRemoveChanges
  | .set index _ => RemoveSafe index b.addRemoveChanges
  | .replace index count _ => RemovesSafe index ((l.drop index).take count) b

theorem report_tracks {before l : List E} {b : Builder E} (h : Tracks before l b) (e : Edit E)
    (hlegal : e.Legal l b) (hsafe : e.Safe l b) :
    ∃ b', e.report l b = .ok b' ∧ Tracks before (e.apply l) b' := by
  cases e with
  | beginChange => exact ⟨_, rfl, ⟨h.describes, h.noUpdates, h.noPermutation, Nat.succ_pos _⟩⟩
  | endChange =>
    have hlock : 2 ≤ b.changeLock := hlegal
    refine ⟨{ b with changeLock := b.changeLock - 1 }, ?_,
      ⟨h.describes, h.noUpdates, h.noPermutation, by simp only; omega⟩⟩
    rw [report, Builder.endChange, if_neg (by omega), Builder.commit,
      if_neg (by rintro ⟨h₁, -⟩; simp only at h₁; omega)]
    rfl
  | add index block =>
    obtain ⟨b', hb', htracks, -⟩ := nextAdd_tracks h index block hlegal.1
    exact ⟨b', hb', htracks⟩
  | remove index =>
    have hlt : index < l.length := hlegal
    obtain ⟨b', hb', htracks, -⟩ := nextRemove_tracks h index l[index]
      (getElem?_eq_getElem hlt) hsafe
    exact ⟨b', by rw [report, load_natCast l index hlt, ok_bind, hb'], htracks⟩
  | set index element =>
    have hlt : index < l.length := hlegal
    obtain ⟨b₁, hb₁, htracks₁, -⟩ := nextRemove_tracks h index l[index]
      (getElem?_eq_getElem hlt) hsafe
    have hlen : (l.eraseIdx index).length = l.length - 1 := length_eraseIdx_of_lt hlt
    obtain ⟨b', hb', htracks, -⟩ := nextAdd_tracks htracks₁ index [element] (by omega)
    refine ⟨b', ?_, ?_⟩
    · rw [report, load_natCast l index hlt, ok_bind, Builder.nextSet, hb₁, ok_bind]
      exact hb'
    · have hset : (l.eraseIdx index).take index ++ [element] ++ (l.eraseIdx index).drop index =
          l.set index element := by
        have htake : (l.take index).length = index := by simp; omega
        rw [eraseIdx_eq_take_drop_succ, set_eq_take_append_cons_drop, if_pos hlt,
          take_append_of_le_length (by omega), drop_append_of_le_length (by omega),
          take_take, Nat.min_self, drop_of_length_le (by omega)]
        simp
      rwa [hset] at htracks
  | replace index count block =>
    have hle : index + count ≤ l.length := hlegal
    have hlen : (l.take index).length = index := by simp; omega
    have hcut : l.take index ++ (l.drop index).take count ++ l.drop (index + count) = l := by
      rw [append_assoc, ← drop_drop, take_append_drop, take_append_drop]
    have hsafe' : RemovesSafe (l.take index).length ((l.drop index).take count) b := by
      rw [hlen]
      exact hsafe
    obtain ⟨b₁, hb₁, htracks₁, -⟩ := nextRemoveAll_tracks (l.take index) _ _ b
      (hcut.symm ▸ h) hsafe'
    rw [hlen] at hb₁
    obtain ⟨b', hb', htracks, -⟩ := nextAdd_tracks htracks₁ index block (by
      simp only [length_append]
      omega)
    refine ⟨b', by rw [report, Builder.nextReplace, hb₁, ok_bind, hb'], ?_⟩
    rw [take_append_of_le_length (by omega), take_of_length_le (by omega),
      drop_append_of_le_length (by omega), drop_of_length_le (by omega),
      nil_append] at htracks
    exact htracks

end Edit

/-- The edits of a block, made and reported one after the other. -/
def runEdits : List (Edit E) → List E → Builder E → Outcome (List E × Builder E)
  | [], l, b => .ok (l, b)
  | e :: edits, l, b => do
    let b' ← e.report l b
    runEdits edits (e.apply l) b'

/-- A condition holds at every edit of the run. -/
def EachEdit (condition : List E → Builder E → Edit E → Prop) :
    List (Edit E) → List E → Builder E → Prop
  | [], _, _ => True
  | e :: edits, l, b =>
    condition l b e ∧
      match e.report l b with
      | .ok b' => EachEdit condition edits (e.apply l) b'
      | .error _ => True

theorem runEdits_tracks :
    ∀ (edits : List (Edit E)) (l : List E) (b : Builder E), Tracks before l b →
      EachEdit Edit.Legal edits l b → EachEdit Edit.Safe edits l b →
      ∃ l' b', runEdits edits l b = .ok (l', b') ∧ Tracks before l' b' := by
  intro edits
  induction edits with
  | nil =>
    intro l b h _ _
    exact ⟨l, b, rfl, h⟩
  | cons e edits ih =>
    intro l b h hlegal hsafe
    obtain ⟨b', hb', htracks⟩ := e.report_tracks h hlegal.1 hsafe.1
    simp only [EachEdit, hb'] at hlegal hsafe
    obtain ⟨l'', b'', hrun, htracks'⟩ := ih (e.apply l) b' htracks hlegal.2 hsafe.2
    exact ⟨l'', b'', by rw [runEdits, hb', ok_bind, hrun], htracks'⟩

theorem finalizeSubChange_eq_self (h : c.removed ≠ none) :
    Builder.finalizeSubChange c = c := by
  obtain ⟨removed, hrem⟩ := Option.ne_none_iff_exists'.mp h
  rcases c with ⟨fromIdx, toIdx, _, perm, updated⟩
  subst hrem
  rfl

theorem map_finalizeSubChange (h : AddRemoves cs) :
    cs.map Builder.finalizeSubChange = cs := by
  rw [map_congr_left (fun c hc => finalizeSubChange_eq_self (h c hc).1), map_id']

theorem endChange_tracks {l : List E} (h : Tracks before l b) (hlock : b.changeLock = 1) :
    ∃ fired, b.endChange = .ok (Builder.new, fired) ∧ Describes (fired.getD []) before l := by
  rw [Builder.endChange, if_neg (by omega), Builder.commit]
  simp only [hlock, h.noUpdates, h.noPermutation]
  by_cases hne : b.addRemoveChanges = []
  · have hdesc := h.describes
    rw [hne] at hdesc
    refine ⟨none, ?_, hdesc⟩
    rcases b with ⟨lock, cs, updates, perm⟩
    obtain rfl : cs = [] := hne
    rfl
  · rw [if_pos ⟨trivial, .inl hne⟩]
    by_cases hone : b.addRemoveChanges.length = 1
    · refine ⟨some b.addRemoveChanges, ?_, h.describes⟩
      simp [hone, map_finalizeSubChange h.describes.addRemoves]
    · obtain ⟨cs, hcs, hdesc, -⟩ := compress_describes h.describes hne
      refine ⟨some cs, ?_, hdesc⟩
      simp [hone, hne, hcs, map_finalizeSubChange hdesc.addRemoves]

/-- The replay law of an outermost block: as long as no removal reaches one of
the two slips of `nextRemove`, no call fails, and what is fired at the end is
sorted, has disjoint ranges and replays the block on the list it began with. -/
theorem block_replays (before : List E) (edits : List (Edit E))
    (hlegal : EachEdit Edit.Legal edits before Builder.new.beginChange)
    (hsafe : EachEdit Edit.Safe edits before Builder.new.beginChange) :
    ∃ final b, runEdits edits before Builder.new.beginChange = .ok (final, b) ∧
      (b.changeLock = 1 → ∃ fired, b.endChange = .ok (Builder.new, fired) ∧
        AddRemoves (fired.getD []) ∧ Separate (fired.getD []) ∧
        Replays final (fired.getD []) before) := by
  have hstart : Tracks before before (Builder.new.beginChange : Builder E) :=
    ⟨⟨Aligned.nil 0 before, by simp [AddRemoves, Builder.new, Builder.beginChange]⟩, rfl, rfl,
      Nat.one_pos⟩
  obtain ⟨final, b, hrun, htracks⟩ := runEdits_tracks edits before _ hstart hlegal hsafe
  refine ⟨final, b, hrun, fun hlock => ?_⟩
  obtain ⟨fired, hfired, hdesc⟩ := endChange_tracks htracks hlock
  exact ⟨fired, hfired, hdesc.addRemoves, hdesc.aligned.separate, hdesc.aligned.replays⟩

/-- Setting the first element and then removing the second one is safe. -/
theorem block_replays_set_remove :
    ∃ final b, runEdits [.set 0 10, .remove 1] [0, 1, 2] Builder.new.beginChange =
        .ok (final, b) ∧
      (b.changeLock = 1 → ∃ fired, b.endChange = .ok (Builder.new, fired) ∧
        AddRemoves (fired.getD []) ∧ Separate (fired.getD []) ∧
        Replays final (fired.getD []) [0, 1, 2]) := by
  refine block_replays [0, 1, 2] [.set 0 10, .remove 1] ⟨?_, ?_, trivial⟩ ⟨?_, ?_, trivial⟩
  · simp [Edit.Legal]
  · simp [Edit.Legal, Edit.apply]
  · simp [Edit.Safe, RemoveSafe, LastTwoMeet, EmptiesInner, Builder.beginChange, Builder.new]
  · change RemoveSafe 1 [⟨0, 1, some [0], [], false⟩]
    simp [RemoveSafe, LastTwoMeet, EmptiesInner]

/-- Both slips, on a list of three elements. In the first block the element set
at index 0 is reported as removed by the second sub-change, in the second block
the range of the remaining sub-change is one too far to the right. -/
theorem block_replays_fails :
    (EachEdit Edit.Legal [.set 0 10, .set 2 12, .remove 1, .remove 0] [0, 1, 2]
        Builder.new.beginChange ∧
      ∃ b, runEdits [.set 0 10, .set 2 12, .remove 1, .remove 0] [0, 1, 2]
          Builder.new.beginChange = .ok ([12], b) ∧ b.changeLock = 1 ∧
        b.endChange = .ok (Builder.new, some [⟨0, 1, some [0], [], false⟩,
          ⟨0, 1, some [10, 1, 2], [], false⟩]) ∧
        ¬ Replays [12] [⟨0, 1, some [0], [], false⟩, ⟨0, 1, some [10, 1, 2], [], false⟩]
          [0, 1, 2]) ∧
    (EachEdit Edit.Legal [.add 0 [9], .set 2 11, .remove 0] [0, 1, 2] Builder.new.beginChange ∧
      ∃ b, runEdits [.add 0 [9], .set 2 11, .remove 0] [0, 1, 2] Builder.new.beginChange =
          .ok ([0, 11, 2], b) ∧ b.changeLock = 1 ∧
        b.endChange = .ok (Builder.new, some [⟨2, 3, some [1], [], false⟩]) ∧
        ¬ Replays [0, 11, 2] [⟨2, 3, some [1], [], false⟩] [0, 1, 2]) := by
  refine ⟨⟨⟨?_, ?_, ?_, ?_, trivial⟩, _, rfl, rfl, rfl, by decide⟩,
    ⟨⟨?_, ?_, ?_, trivial⟩, _, rfl, rfl, rfl, by decide⟩⟩
  all_goals simp [Edit.Legal, Edit.apply]

end OpenJfx.Collections.ListChangeBuilderReplay
