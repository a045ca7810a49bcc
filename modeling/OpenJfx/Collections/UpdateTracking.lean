import OpenJfx.Collections.ListChangeBuilderReplay
import OpenJfx.Collections.PermutationComposition

namespace OpenJfx.Collections.ListChangeBuilder

open Java.Arrays Collections.ListChange Collections.ListChangeBuilderReplay List

variable {E : Type}

def Covers (cs : List (SubChange E)) (k : Int) : Prop := ∃ c ∈ cs, c.fromIdx ≤ k ∧ k < c.toIdx

/-- The ranges, some of which may be empty, end at `m` or before. -/
def EndsBy (cs : List (SubChange E)) (m : Int) : Prop := ∀ c ∈ cs, c.toIdx ≤ m

def StartsAt (m : Int) (cs : List (SubChange E)) : Prop := ∀ c ∈ cs, m ≤ c.fromIdx

/-- The update sub-changes are sorted disjoint ranges. -/
structure UpdateRanges (cs : List (SubChange E)) : Prop where
  separate : Separate cs
  le : ∀ c ∈ cs, c.fromIdx ≤ c.toIdx
  updated : ∀ c ∈ cs, c.updated = true ∧ c.removed = none

section

variable {cs front back : List (SubChange E)} {c : SubChange E} {k m : Int}

theorem modify_append (front back : List (SubChange E)) (c : SubChange E)
    (f : SubChange E → SubChange E) :
    (front ++ c :: back).modify front.length f = front ++ f c :: back := by
  induction front with
  | nil => rfl
  | cons d front ih => exact congrArg (d :: ·) ih

theorem not_covers_nil (k : Int) : ¬Covers ([] : List (SubChange E)) k := by
  rintro ⟨c, hc, -⟩
  cases hc

theorem covers_cons : Covers (c :: cs) k ↔ c.fromIdx ≤ k ∧ k < c.toIdx ∨ Covers cs k := by
  constructor
  · rintro ⟨d, hd, hrange⟩
    rcases mem_cons.mp hd with rfl | hd
    · exact .inl hrange
    · exact .inr ⟨d, hd, hrange⟩
  · rintro (hrange | ⟨d, hd, hrange⟩)
    · exact ⟨c, mem_cons_self, hrange⟩
    · exact ⟨d, mem_cons_of_mem c hd, hrange⟩

theorem covers_append : Covers (front ++ back) k ↔ Covers front k ∨ Covers back k := by
  constructor
  · rintro ⟨d, hd, hrange⟩
    rcases mem_append.mp hd with hd | hd
    · exact .inl ⟨d, hd, hrange⟩
    · exact .inr ⟨d, hd, hrange⟩
  · rintro (⟨d, hd, hrange⟩ | ⟨d, hd, hrange⟩)
    · exact ⟨d, mem_append_left _ hd, hrange⟩
    · exact ⟨d, mem_append_right _ hd, hrange⟩

theorem covers_shift (delta : Int) :
    Covers (cs.map (SubChange.shift delta)) k ↔ Covers cs (k - delta) := by
  constructor
  · rintro ⟨d, hd, hfrom, hto⟩
    rcases mem_map.mp hd with ⟨c, hc, rfl⟩
    rw [SubChange.shift_fromIdx] at hfrom
    rw [SubChange.shift_toIdx] at hto
    exact ⟨c, hc, by omega, by omega⟩
  · rintro ⟨c, hc, hfrom, hto⟩
    refine ⟨c.shift delta, mem_map_of_mem hc, ?_, ?_⟩
    · rw [SubChange.shift_fromIdx]
      omega
    · rw [SubChange.shift_toIdx]
      omega

theorem EndsBy.lt_of_covers (h : EndsBy cs m) (hk : Covers cs k) : k < m := by
  rcases hk with ⟨c, hc, -, hto⟩
  have := h c hc
  omega

theorem StartsAt.le_of_covers (h : StartsAt m cs) (hk : Covers cs k) : m ≤ k := by
  rcases hk with ⟨c, hc, hfrom, -⟩
  have := h c hc
  omega

theorem StartsAt.shift (h : StartsAt m cs) (delta : Int) :
    StartsAt (m + delta) (cs.map (SubChange.shift delta)) := by
  intro d hd
  rcases mem_map.mp hd with ⟨c, hc, rfl⟩
  have := h c hc
  rw [SubChange.shift_fromIdx]
  omega

theorem StartsAt.mono {m' : Int} (h : StartsAt m cs) (hle : m' ≤ m) : StartsAt m' cs :=
  fun c hc => Int.le_trans hle (h c hc)

theorem StartsAt.cons {c : SubChange E} (hc : m ≤ c.fromIdx) (h : StartsAt m cs) :
    StartsAt m (c :: cs) :=
  forall_mem_cons.mpr ⟨hc, h⟩

namespace UpdateRanges

theorem nil : UpdateRanges ([] : List (SubChange E)) :=
  ⟨List.Pairwise.nil, (fun _ h => nomatch h), fun _ h => nomatch h⟩

theorem shift (h : UpdateRanges cs) (delta : Int) :
    UpdateRanges (cs.map (SubChange.shift delta)) := by
  refine ⟨?_, ?_, ?_⟩
  · refine pairwise_map.mpr (h.separate.imp fun {c d} hcd => ?_)
    simp only [SubChange.shift_fromIdx, SubChange.shift_toIdx]
    omega
  · intro d hd
    rcases mem_map.mp hd with ⟨c, hc, rfl⟩
    have := h.le c hc
    simp only [SubChange.shift_fromIdx, SubChange.shift_toIdx]
    omega
  · intro d hd
    rcases mem_map.mp hd with ⟨c, hc, rfl⟩
    exact h.updated c hc

theorem append (hfront : UpdateRanges front) (hback : UpdateRanges back) (hends : EndsBy front m)
    (hstarts : StartsAt m back) : UpdateRanges (front ++ back) := by
  refine ⟨pairwise_append.mpr ⟨hfront.separate, hback.separate, ?_⟩, ?_, ?_⟩
  · intro c hc d hd
    have := hfront.le c hc
    have := hends c hc
    have := hstarts d hd
    omega
  · intro c hc
    exact (mem_append.mp hc).elim (hfront.le c) (hback.le c)
  · intro c hc
    exact (mem_append.mp hc).elim (hfront.updated c) (hback.updated c)

theorem cons (hback : UpdateRanges back) (hle : c.fromIdx ≤ c.toIdx)
    (hupdd : c.updated = true ∧ c.removed = none) (hstarts : StartsAt c.toIdx back) :
    UpdateRanges (c :: back) := by
  refine ⟨pairwise_cons.mpr ⟨?_, hback.separate⟩, ?_, ?_⟩
  · intro d hd
    have := hstarts d hd
    omega
  · intro d hd
    rcases mem_cons.mp hd with rfl | hd
    · exact hle
    · exact hback.le d hd
  · intro d hd
    rcases mem_cons.mp hd with rfl | hd
    · exact hupdd
    · exact hback.updated d hd

theorem left (h : UpdateRanges (front ++ back)) : UpdateRanges front :=
  ⟨(pairwise_append.mp h.separate).1, fun c hc => h.le c (mem_append_left _ hc),
    fun c hc => h.updated c (mem_append_left _ hc)⟩

theorem right (h : UpdateRanges (front ++ back)) : UpdateRanges back :=
  ⟨(pairwise_append.mp h.separate).2.1, fun c hc => h.le c (mem_append_right _ hc),
    fun c hc => h.updated c (mem_append_right _ hc)⟩

theorem around (h : UpdateRanges (front ++ c :: back)) :
    UpdateRanges front ∧ UpdateRanges back ∧ EndsBy front c.fromIdx ∧ StartsAt c.toIdx back ∧
      c.fromIdx ≤ c.toIdx ∧ c.updated = true ∧ c.removed = none := by
  rcases pairwise_append.mp h.separate with ⟨-, hcons, hacross⟩
  have hback := h.right
  refine ⟨h.left, ?_, ?_, ?_, hback.le c mem_cons_self, hback.updated c mem_cons_self⟩
  · exact ⟨(pairwise_cons.mp hcons).2, fun d hd => hback.le d (mem_cons_of_mem c hd),
      fun d hd => hback.updated d (mem_cons_of_mem c hd)⟩
  · exact fun d hd => (hacross d hd c mem_cons_self).2
  · exact fun d hd => ((pairwise_cons.mp hcons).1 d hd).2

theorem found (h : UpdateRanges cs) (idx : Int) : Found idx cs (findSubChange idx cs) :=
  findSubChange_found h.separate h.le idx

end UpdateRanges

end

section

variable {cs : List (SubChange E)}

theorem removeFromUpdates_ranges (h : UpdateRanges cs) (idx : Int) :
    UpdateRanges (removeFromUpdates idx cs) ∧ ∀ k, Covers (removeFromUpdates idx cs) k ↔
      k < idx ∧ Covers cs k ∨ idx ≤ k ∧ Covers cs (k + 1) := by
  have hfound := h.found idx
  rw [removeFromUpdates]
  generalize findSubChange idx cs = result at hfound
  rcases hfound with ⟨front, back, c, rfl, hfrom, hto⟩ | ⟨front, back, rfl, hfront, hback⟩
  · rcases h.around with ⟨hfront, hback, hends, hstarts, hle, hupdd⟩
    have hstarts' := hstarts.shift (-1)
    dsimp only
    have hbef : ∀ k, Covers front k → k < c.fromIdx := fun _ => hends.lt_of_covers
    have hbehind : ∀ k, Covers back k → c.toIdx ≤ k := fun _ => hstarts.le_of_covers
    split
    case isTrue hone =>
      have herase : (front ++ c :: back).eraseIdx front.length = front ++ back := by
        rw [eraseIdx_append_of_length_le (Nat.le_refl _), Nat.sub_self,
          eraseIdx_cons_zero]
      rw [herase, shiftFrom_append]
      refine ⟨hfront.append (hback.shift (-1)) hends (hstarts'.mono (by omega)), fun k => ?_⟩
      rw [covers_append, covers_shift, covers_append, covers_cons, covers_append, covers_cons]
      grind
    case isFalse hmore =>
      rw [modify_append, shiftFrom_append_cons]
      refine ⟨hfront.append ((hback.shift (-1)).cons (by dsimp only; omega) hupdd hstarts') hends
        ?_, fun k => ?_⟩
      · exact .cons (Int.le_refl _) (hstarts'.mono (by omega))
      · rw [covers_append, covers_cons, covers_shift, covers_append, covers_cons, covers_append,
          covers_cons]
        grind
  · have hends : EndsBy front idx := hfront
    have hstarts : StartsAt (idx + 1) back := hback
    dsimp only
    rw [shiftFrom_append]
    refine ⟨h.left.append (h.right.shift (-1)) hends ((hstarts.shift (-1)).mono (by omega)),
      fun k => ?_⟩
    have h₁ := fun hk : Covers front k => hends.lt_of_covers hk
    have h₂ := fun hk : Covers front (k + 1) => hends.lt_of_covers hk
    have h₃ := fun hk : Covers back k => hstarts.le_of_covers hk
    have h₄ := fun hk : Covers back (k + 1) => hstarts.le_of_covers hk
    rw [covers_append, covers_shift, covers_append, covers_append]
    grind

theorem addToUpdates_ranges (h : UpdateRanges cs) {fromIdx toIdx : Int} (hle : fromIdx ≤ toIdx) :
    UpdateRanges (addToUpdates fromIdx toIdx cs) ∧ ∀ k, Covers (addToUpdates fromIdx toIdx cs) k ↔
      k < fromIdx ∧ Covers cs k ∨ toIdx ≤ k ∧ Covers cs (k - (toIdx - fromIdx)) := by
  have hfound := h.found fromIdx
  rw [addToUpdates]
  generalize findSubChange fromIdx cs = result at hfound
  rcases hfound with ⟨front, back, c, rfl, hfrom, hto⟩ | ⟨front, back, rfl, hfront, hback⟩
  · rcases h.around with ⟨hfront, hback, hends, hstarts, hle', hupdd⟩
    have hget : (front ++ c :: back)[front.length]? = some c := by simp
    dsimp only
    rw [hget]
    dsimp only
    have hset : shiftFrom (front.length + 2) (toIdx - fromIdx)
        (((front ++ c :: back).set front.length { c with toIdx := fromIdx }).insertIdx
          (front.length + 1) ⟨toIdx, c.toIdx + toIdx - fromIdx, none, [], true⟩) =
        front ++ { c with toIdx := fromIdx } ::
          ⟨toIdx, c.toIdx + toIdx - fromIdx, none, [], true⟩ ::
            back.map (SubChange.shift (toIdx - fromIdx)) := by
      have hsplit : (front ++ c :: back).set front.length { c with toIdx := fromIdx } =
          (front ++ [{ c with toIdx := fromIdx }]) ++ back := by simp
      have hins := insertIdx_append (front ++ [{ c with toIdx := fromIdx }]) back
        ⟨toIdx, c.toIdx + toIdx - fromIdx, none, [], true⟩
      have hshift := shiftFrom_append_cons (front ++ [{ c with toIdx := fromIdx }]) back
        ⟨toIdx, c.toIdx + toIdx - fromIdx, none, [], true⟩ (toIdx - fromIdx)
      rw [length_append, length_singleton] at hins hshift
      rw [hsplit, hins, hshift, append_assoc]
      rfl
    rw [hset]
    have hstarts' := hstarts.shift (toIdx - fromIdx)
    refine ⟨hfront.append (((hback.shift _).cons (by dsimp only; omega) ⟨rfl, rfl⟩
      (hstarts'.mono (by dsimp only; omega))).cons hfrom hupdd ?_) hends ?_, fun k => ?_⟩
    · exact .cons hle (hstarts'.mono (by dsimp only; omega))
    · exact .cons (Int.le_refl _) (.cons (Int.le_trans hfrom hle) (hstarts'.mono (by omega)))
    · have h₁ := fun hk : Covers front k => hends.lt_of_covers hk
      have h₂ := fun hk : Covers front (k - (toIdx - fromIdx)) => hends.lt_of_covers hk
      have h₃ := fun hk : Covers back k => hstarts.le_of_covers hk
      have h₄ := fun hk : Covers back (k - (toIdx - fromIdx)) => hstarts.le_of_covers hk
      rw [covers_append, covers_cons, covers_cons, covers_shift, covers_append, covers_cons,
        covers_append, covers_cons]
      grind
  · have hends : EndsBy front fromIdx := hfront
    have hstarts : StartsAt (fromIdx + 1) back := hback
    dsimp only
    rw [shiftFrom_append]
    refine ⟨h.left.append (h.right.shift _) hends ((hstarts.shift _).mono (by omega)), fun k => ?_⟩
    have h₁ := fun hk : Covers front k => hends.lt_of_covers hk
    have h₂ := fun hk : Covers front (k - (toIdx - fromIdx)) => hends.lt_of_covers hk
    have h₃ := fun hk : Covers back k => hstarts.le_of_covers hk
    have h₄ := fun hk : Covers back (k - (toIdx - fromIdx)) => hstarts.le_of_covers hk
    rw [covers_append, covers_shift, covers_append, covers_append]
    grind

end

section

variable {cs front back : List (SubChange E)} {c : SubChange E}

theorem UpdateRanges.extend (h : UpdateRanges (front ++ c :: back))
    (hstarts : StartsAt (c.toIdx + 1) back) :
    UpdateRanges (front ++ { c with toIdx := c.toIdx + 1 } :: back) ∧
      ∀ k, Covers (front ++ { c with toIdx := c.toIdx + 1 } :: back) k ↔
        k = c.toIdx ∨ Covers (front ++ c :: back) k := by
  rcases h.around with ⟨hfront, hback, hends, -, hle, hupdd⟩
  refine ⟨hfront.append (hback.cons (by dsimp only; omega) hupdd hstarts) hends ?_, fun k => ?_⟩
  · exact .cons (Int.le_refl _) (hstarts.mono (by omega))
  · rw [covers_append, covers_cons, covers_append, covers_cons]
    grind

theorem insertUpdate_ranges (h : UpdateRanges cs) (pos : Int) :
    UpdateRanges (insertUpdate pos cs) ∧
      ∀ k, Covers (insertUpdate pos cs) k ↔ k = pos ∨ Covers cs k := by
  have hfound := h.found pos
  rw [insertUpdate]
  generalize findSubChange pos cs = result at hfound
  rcases hfound with ⟨front, back, c, rfl, hfrom, hto⟩ | ⟨front, back, rfl, hfront, hback⟩
  · refine ⟨h, fun k => ⟨.inr, ?_⟩⟩
    rintro (rfl | hk)
    · exact ⟨c, by simp, hfrom, hto⟩
    · exact hk
  · have hends : EndsBy front pos := hfront
    have hstarts : StartsAt (pos + 1) back := hback
    dsimp only
    split
    case isTrue hprev =>
      rcases (previousEndsAt_append front back pos).mp hprev with ⟨front, c, rfl, rfl⟩
      rw [append_assoc, singleton_append] at h ⊢
      rw [length_append, length_singleton, Nat.add_sub_cancel, modify_append]
      exact h.extend hstarts
    case isFalse =>
      split
      case isTrue hnext =>
        rcases (nextStartsAt_append front back (pos + 1)).mp hnext with ⟨c, back, rfl, hc⟩
        rcases h.around with ⟨hfront, hback, -, hstarts', hle, hupdd⟩
        rw [modify_append]
        refine ⟨hfront.append (hback.cons (by dsimp only; omega) hupdd hstarts') hends ?_,
          fun k => ?_⟩
        · exact .cons (Int.le_refl _) (hstarts'.mono (by omega))
        · rw [covers_append, covers_cons, covers_append, covers_cons]
          grind
      case isFalse =>
        rw [insertIdx_append]
        refine ⟨h.left.append (h.right.cons (by dsimp only; omega) ⟨rfl, rfl⟩ hstarts) hends ?_,
          fun k => ?_⟩
        · exact .cons (Int.le_refl _) (hstarts.mono (by omega))
        · rw [covers_append, covers_cons, covers_append]
          grind

theorem nextUpdate_ranges {b b' : Builder E} (h : UpdateRanges b.updateChanges) {idx : Int}
    (hok : b.nextUpdate idx = .ok b') :
    ∃ updateChanges, b' = { b with updateChanges } ∧ UpdateRanges updateChanges ∧
      ∀ k, Covers updateChanges k ↔ k = idx ∨ Covers b.updateChanges k := by
  rw [Builder.nextUpdate] at hok
  rcases hcheck : b.checkState with e | u
  · rw [hcheck] at hok
    cases hok
  · rw [hcheck, ok_bind] at hok
    cases hok
    refine ⟨_, rfl, ?_⟩
    rcases eq_nil_or_concat b.updateChanges with hnil | ⟨front, c, hconcat⟩
    · rw [hnil] at h ⊢
      exact insertUpdate_ranges h idx
    · rw [concat_eq_append] at hconcat
      rw [hconcat] at h ⊢
      rw [getLast?_append_of_ne_nil _ (by simp), getLast?_singleton]
      dsimp only
      split
      case isTrue hlast =>
        subst hlast
        rw [length_append, length_singleton, Nat.add_sub_cancel, modify_append]
        exact h.extend (forall_mem_nil _)
      case isFalse => exact insertUpdate_ranges h idx

theorem regroupFrom_ranges (indexes : List Int) :
    ∀ lastChange : SubChange E, lastChange.fromIdx ≤ lastChange.toIdx →
      lastChange.updated = true ∧ lastChange.removed = none →
      (∀ i ∈ indexes, lastChange.toIdx ≤ i) → indexes.Pairwise (· < ·) →
      UpdateRanges (regroupFrom lastChange indexes []).1 ∧
        StartsAt lastChange.fromIdx (regroupFrom lastChange indexes []).1 ∧
        ∀ k, Covers (regroupFrom lastChange indexes []).1 k ↔
          lastChange.fromIdx ≤ k ∧ k < lastChange.toIdx ∨ k ∈ indexes := by
  induction indexes with
  | nil =>
    intro lastChange hle hupdd _ _
    refine ⟨UpdateRanges.nil.cons hle hupdd (fun d hd => nomatch hd), ?_, fun k => ?_⟩
    · intro d hd
      obtain rfl := mem_singleton.mp hd
      exact Int.le_refl _
    · rw [regroupFrom, covers_cons]
      exact or_congr_right (iff_of_false (not_covers_nil k) not_mem_nil)
  | cons i indexes ih =>
    intro lastChange hle hupdd hbelow hsort
    rcases pairwise_cons.mp hsort with ⟨habove, hsort⟩
    have hi := hbelow i mem_cons_self
    rw [regroupFrom]
    split
    case isTrue hmeets =>
      rcases ih { lastChange with toIdx := i + 1 } (by dsimp only; omega) hupdd
        (fun j hj => habove j hj) hsort with ⟨hranges, hstarts, hcovers⟩
      refine ⟨hranges, hstarts, fun k => (hcovers k).trans ?_⟩
      grind
    case isFalse hgap =>
      rcases ih ⟨i, i + 1, none, [], lastChange.updated⟩ (by dsimp only; omega)
        ⟨hupdd.1, rfl⟩ (fun j hj => habove j hj) hsort with ⟨hranges, hstarts, hcovers⟩
      refine ⟨hranges.cons hle hupdd (hstarts.mono hi), ?_, fun k => ?_⟩
      · exact .cons (Int.le_refl _) (hstarts.mono (by dsimp only; omega))
      · rw [covers_cons]
        refine (or_congr_right (hcovers k)).trans ?_
        grind

theorem mem_addSorted {i k : Int} {set : List Int} : k ∈ addSorted i set ↔ k = i ∨ k ∈ set := by
  induction set with
  | nil => rw [addSorted, mem_singleton, mem_nil_iff, or_false]
  | cons j set ih =>
    rw [addSorted]
    split
    · rw [mem_cons]
    · split
      case isTrue hsame =>
        subst hsame
        rw [mem_cons]
        exact ⟨.inr, fun h => h.elim .inl id⟩
      case isFalse =>
        rw [mem_cons, ih, mem_cons, or_left_comm]

theorem addSorted_pairwise {i : Int} {set : List Int} (h : set.Pairwise (· < ·)) :
    (addSorted i set).Pairwise (· < ·) := by
  induction set with
  | nil => exact pairwise_singleton _ _
  | cons j set ih =>
    rcases pairwise_cons.mp h with ⟨habove, hset⟩
    rw [addSorted]
    split
    case isTrue hlt =>
      refine pairwise_cons.mpr ⟨?_, h⟩
      intro k hk
      rcases mem_cons.mp hk with rfl | hk
      · exact hlt
      · exact Int.lt_trans hlt (habove k hk)
    case isFalse =>
      split
      · exact h
      case isFalse hne =>
        refine pairwise_cons.mpr ⟨?_, ih hset⟩
        intro k hk
        rcases mem_addSorted.mp hk with rfl | hk
        · omega
        · exact habove k hk

theorem foldl_addSorted (indexes : List Int) :
    ∀ set : List Int, set.Pairwise (· < ·) →
      (indexes.foldl (fun set i => addSorted i set) set).Pairwise (· < ·) ∧
        ∀ k, k ∈ indexes.foldl (fun set i => addSorted i set) set ↔ k ∈ indexes ∨ k ∈ set := by
  induction indexes with
  | nil => exact fun set h => ⟨h, fun k => by simp⟩
  | cons i indexes ih =>
    intro set h
    rcases ih (addSorted i set) (addSorted_pairwise h) with ⟨hsort, hmem⟩
    refine ⟨hsort, fun k => (hmem k).trans ?_⟩
    rw [mem_addSorted, mem_cons]
    exact ⟨fun h => h.elim (fun h => .inl (.inr h)) fun h => h.elim (fun h => .inl (.inl h)) .inr,
      fun h => h.elim (fun h => h.elim (fun h => .inr (.inl h)) .inl) fun h => .inr (.inr h)⟩

theorem permuteUpdates_ranges {p : RangePerm} {n : Nat} (hp : p.IsBijection n)
    (h : ∀ k, Covers cs k → 0 ≤ k) :
    ∃ cs', permuteUpdates p cs = .ok cs' ∧ UpdateRanges cs' ∧
      ∀ k, Covers cs' k ↔ ∃ j : Nat, Covers cs j ∧ k = (p.newIndex j : Int) := by
  have hidx : ∀ j : Nat, p.index j = .ok (p.newIndex j : Int) := by
    intro j
    rw [RangePerm.index]
    split
    case isTrue hout => rw [newIndex_of_not (by omega)]
    case isFalse hin =>
      exact load_of_entry (by omega) (newIndex_range hp (by omega) (by omega)).1
  have hcovered : ∀ k, k ∈ (cs.flatMap fun change =>
      (List.range (change.toIdx - change.fromIdx).toNat).map fun k : Nat =>
        change.fromIdx + (k : Int)) ↔ Covers cs k := by
    intro k
    rw [mem_flatMap]
    refine exists_congr fun c => and_congr_right fun _ => ?_
    rw [mem_map]
    constructor
    · rintro ⟨j, hj, rfl⟩
      have := mem_range.mp hj
      omega
    · rintro ⟨hfrom, hto⟩
      exact ⟨(k - c.fromIdx).toNat, mem_range.mpr (by omega), by omega⟩
  have hmapped := mapM_eq_map (f := p.index) (g := fun k => (p.newIndex k.toNat : Int))
    (l := cs.flatMap fun change => (List.range (change.toIdx - change.fromIdx).toNat).map
      fun k : Nat => change.fromIdx + (k : Int)) (by
    intro k hk
    have hnn := h k ((hcovered k).mp hk)
    have := hidx k.toNat
    rwa [Int.toNat_of_nonneg hnn] at this)
  rw [permuteUpdates, permutedIndexes, hmapped, ok_bind]
  rcases foldl_addSorted ((cs.flatMap fun change => (List.range
    (change.toIdx - change.fromIdx).toNat).map fun k : Nat => change.fromIdx + (k : Int)).map
      fun k => (p.newIndex k.toNat : Int)) [] List.Pairwise.nil with ⟨hsort, hmem⟩
  have hnew : ∀ k, k ∈ ((cs.flatMap fun change => (List.range
      (change.toIdx - change.fromIdx).toNat).map fun k : Nat => change.fromIdx + (k : Int)).map
        fun k => (p.newIndex k.toNat : Int)).foldl (fun set i => addSorted i set) [] ↔
      ∃ j : Nat, Covers cs j ∧ k = (p.newIndex j : Int) := by
    intro k
    rw [hmem k, mem_map, or_iff_left not_mem_nil]
    constructor
    · rintro ⟨j, hj, rfl⟩
      have hj := (hcovered j).mp hj
      exact ⟨j.toNat, by rwa [Int.toNat_of_nonneg (h j hj)], rfl⟩
    · rintro ⟨j, hj, rfl⟩
      exact ⟨j, (hcovered j).mpr hj, by rw [Int.toNat_natCast]⟩
  generalize List.foldl (fun set i => addSorted i set) [] _ = indexes at hsort hnew
  rcases indexes with _ | ⟨i, indexes⟩
  · refine ⟨[], rfl, UpdateRanges.nil, fun k => ?_⟩
    exact (iff_of_false (not_covers_nil k) not_mem_nil).trans (hnew k)
  · rcases pairwise_cons.mp hsort with ⟨habove, hrest⟩
    rcases regroupFrom_ranges indexes (⟨i, i + 1, none, [], true⟩ : SubChange E)
      (by dsimp only; omega) ⟨rfl, rfl⟩ (fun j hj => habove j hj) hrest with ⟨hranges, -, hcovers⟩
    refine ⟨_, rfl, hranges, fun k => (hcovers k).trans (Iff.trans ?_ (hnew k))⟩
    grind

theorem compressFrom_ranges :
    ∀ (cs : List (SubChange E)) (prev : SubChange E), UpdateRanges (prev :: cs) →
      ∃ cs', compressFrom prev cs = .ok cs' ∧ UpdateRanges cs' ∧ StartsAt prev.fromIdx cs' ∧
        ∀ k, Covers cs' k ↔ Covers (prev :: cs) k := by
  intro cs
  induction cs with
  | nil =>
    intro prev h
    refine ⟨[prev], rfl, h, ?_, fun _ => Iff.rfl⟩
    intro d hd
    obtain rfl := mem_singleton.mp hd
    exact Int.le_refl _
  | cons cur cs ih =>
    intro prev h
    rcases (show UpdateRanges ([] ++ prev :: cur :: cs) from h).around with
      ⟨-, htail, -, hstarts, hle, hupdd⟩
    rcases (show UpdateRanges ([] ++ cur :: cs) from htail).around with
      ⟨-, hcs, -, hstarts', hle', hupdd'⟩
    rw [compressFrom]
    split
    case isTrue hmeets =>
      have hjoined : UpdateRanges ({ prev with toIdx := cur.toIdx } :: cs) :=
        hcs.cons (by dsimp only; omega) hupdd hstarts'
      rcases ih _ hjoined with ⟨cs', hrun, hranges, hfrom, hcovers⟩
      rw [hupdd.2] at hrun
      rw [hupdd.2, hupdd'.2]
      refine ⟨cs', hrun, hranges, hfrom, fun k => (hcovers k).trans ?_⟩
      rw [covers_cons, covers_cons, covers_cons]
      grind
    case isFalse =>
      rcases ih cur htail with ⟨cs', hrun, hranges, hfrom, hcovers⟩
      rw [hrun]
      have hcur := hstarts cur mem_cons_self
      refine ⟨prev :: cs', rfl, hranges.cons hle hupdd (hfrom.mono hcur), ?_, fun k => ?_⟩
      · exact .cons (Int.le_refl _) (hfrom.mono (by omega))
      · rw [covers_cons, hcovers k]
        exact covers_cons.symm

end

def NoUpdates (cs : List (SubChange E)) : Prop := ∀ c ∈ cs, c.updated = false

section

variable {cs cs' : List (SubChange E)}

theorem ignoresBounds_noUpdate : IgnoresBounds fun c : SubChange E => c.updated = false :=
  fun _ _ _ h => h

theorem updateAt_noUpdates {i : Nat} {f : SubChange E → Outcome (SubChange E)}
    (hf : ∀ c c', f c = .ok c' → c'.updated = c.updated) (h : NoUpdates cs)
    (hok : updateAt cs i f = .ok cs') : NoUpdates cs' := by
  rw [updateAt] at hok
  rcases hget : cs[i]? with _ | c
  · rw [hget] at hok
    cases hok
  · rw [hget] at hok
    rcases hc : f c with e | c'
    · simp only [hc] at hok
      cases hok
    · simp only [hc] at hok
      cases hok
      exact set_all h i ((hf c c' hc).trans (h c (mem_of_getElem? hget)))

theorem addRemovedLast_updated (removed : E) (c c' : SubChange E)
    (h : addRemovedLast removed c = .ok c') : c'.updated = c.updated := by
  rw [addRemovedLast] at h
  split at h
  · cases h
    rfl
  · cases h

theorem addRemovedFirst_updated (removed : E) (c c' : SubChange E)
    (h : addRemovedFirst removed c = .ok c') : c'.updated = c.updated := by
  rw [addRemovedFirst] at h
  split at h
  · cases h
    rfl
  · cases h

theorem setToIdx_updated (bound : SubChange E → Int) (c c' : SubChange E)
    (h : (.ok { c with toIdx := bound c } : Outcome (SubChange E)) = .ok c') :
    c'.updated = c.updated := by
  cases h
  rfl

theorem shifted_noUpdates {i : Nat} {delta : Int} {run : Outcome (List (SubChange E))}
    (hrun : ∀ cs₁, run = .ok cs₁ → NoUpdates cs₁)
    (hok : (run >>= fun cs₁ => pure (shiftFrom i delta cs₁)) = .ok cs') : NoUpdates cs' := by
  rcases run with e | cs₁
  · cases hok
  · cases hok
    exact shiftFrom_all ignoresBounds_noUpdate (hrun cs₁ rfl) i delta

theorem insertRemoved_noUpdates {pos : Int} {removed : E} (h : NoUpdates cs)
    (hok : insertRemoved pos removed cs = .ok cs') : NoUpdates cs' := by
  rw [insertRemoved] at hok
  split at hok
  · split at hok
    · exact shifted_noUpdates
        (fun _ => updateAt_noUpdates (addRemovedLast_updated removed) h) hok
    · split at hok
      · exact shifted_noUpdates
          (fun _ => updateAt_noUpdates (addRemovedFirst_updated removed) h) hok
      · cases hok
        exact shiftFrom_all ignoresBounds_noUpdate (insertIdx_all h _ rfl) _ _
  · rename_i idx _
    rcases hrun : updateAt cs idx fun change =>
      .ok { change with toIdx := change.toIdx - 1 } with e | cs₁
    · rw [hrun] at hok
      cases hok
    · have h₁ := updateAt_noUpdates (setToIdx_updated fun c => c.toIdx - 1) h hrun
      rw [hrun] at hok
      cases hok
      refine shiftFrom_all ignoresBounds_noUpdate ?_ _ _
      split
      · exact eraseIdx_all h₁ idx
      · exact h₁

theorem removeFromAddRemove_noUpdates {idx : Int} {removed : E} (h : NoUpdates cs)
    (hok : removeFromAddRemove idx removed cs = .ok cs') : NoUpdates cs' := by
  rw [removeFromAddRemove] at hok
  split at hok
  · split at hok
    · exact updateAt_noUpdates (addRemovedLast_updated removed) h hok
    · split at hok
      · exact updateAt_noUpdates (addRemovedFirst_updated removed) h hok
      · exact insertRemoved_noUpdates h hok
  · exact insertRemoved_noUpdates h hok

theorem insertAdd_noUpdates {fromIdx toIdx : Int} (h : NoUpdates cs)
    (hok : insertAdd fromIdx toIdx cs = .ok cs') : NoUpdates cs' := by
  rw [insertAdd] at hok
  split at hok
  · split at hok
    · exact shifted_noUpdates
        (fun _ => updateAt_noUpdates (setToIdx_updated fun _ => toIdx) h) hok
    · cases hok
      exact shiftFrom_all ignoresBounds_noUpdate (insertIdx_all h _ rfl) _ _
  · exact shifted_noUpdates
      (fun _ => updateAt_noUpdates (setToIdx_updated fun c => c.toIdx + (toIdx - fromIdx)) h) hok

theorem addToAddRemove_noUpdates {fromIdx toIdx : Int} (h : NoUpdates cs)
    (hok : addToAddRemove fromIdx toIdx cs = .ok cs') : NoUpdates cs' := by
  rw [addToAddRemove] at hok
  split at hok
  · split at hok
    · exact updateAt_noUpdates (setToIdx_updated fun _ => toIdx) h hok
    · split at hok
      · exact updateAt_noUpdates (setToIdx_updated fun c => c.toIdx + (toIdx - fromIdx)) h hok
      · exact insertAdd_noUpdates h hok
  · exact insertAdd_noUpdates h hok

theorem takeRemoved_updated (i : Int) (map : List (Int × List E)) (c : SubChange E) :
    (takeRemoved i map c).updated = c.updated := by
  rw [takeRemoved]
  split
  · rfl
  · rfl

theorem regroupFrom_noUpdates (indexes : List Int) :
    ∀ (lastChange : SubChange E) (map : List (Int × List E)), lastChange.updated = false →
      NoUpdates (regroupFrom lastChange indexes map).1 := by
  induction indexes with
  | nil =>
    intro lastChange map h c hc
    rw [mem_singleton.mp hc, h]
  | cons i indexes ih =>
    intro lastChange map h
    rw [regroupFrom]
    split
    · exact ih _ _ ((takeRemoved_updated i map _).trans h)
    · intro c hc
      rcases mem_cons.mp hc with rfl | hc
      · exact h
      · refine ih _ _ ?_ c hc
        exact (takeRemoved_updated i map _).trans h

theorem insertRemovedLists_noUpdates (entries : List (Int × List E)) :
    ∀ {cs : List (SubChange E)}, NoUpdates cs →
      entries.foldlM insertRemovedList cs = .ok cs' → NoUpdates cs' := by
  induction entries with
  | nil =>
    intro cs h hok
    cases hok
    exact h
  | cons entry entries ih =>
    intro cs h hok
    rw [foldlM_cons] at hok
    rcases hrun : insertRemovedList cs entry with e | cs₁
    · rw [hrun] at hok
      cases hok
    · rw [hrun, ok_bind] at hok
      refine ih ?_ hok
      rw [insertRemovedList] at hrun
      split at hrun
      · cases hrun
      · cases hrun
        exact insertIdx_all h _ rfl

theorem permuteAddRemoves_noUpdates {order : EntryOrder E} {p : RangePerm}
    (hok : permuteAddRemoves order p cs = .ok cs') : NoUpdates cs' := by
  rw [permuteAddRemoves] at hok
  rcases hadded : permutedIndexes p cs with e | newAdded
  · rw [hadded] at hok
    cases hok
  · rcases hrem : permutedRemoved p cs with e | newRemoved
    · rw [hadded, ok_bind, hrem] at hok
      cases hok
    · rw [hadded, ok_bind, hrem, ok_bind] at hok
      refine insertRemovedLists_noUpdates _ ?_ hok
      rcases newAdded with _ | ⟨i, newAdded⟩
      · exact forall_mem_nil _
      · exact regroupFrom_noUpdates newAdded _ _ (takeRemoved_updated i newRemoved _)

theorem composePermutation_updated {permutationChange : Option (SubChange E)} {pre : RangePerm}
    {c : SubChange E} (h : ∀ d ∈ permutationChange, d.updated = false)
    (hok : composePermutation permutationChange pre = .ok c) : c.updated = false := by
  rcases permutationChange with _ | change
  · cases hok
    rfl
  · have hchange := h change rfl
    rw [composePermutation] at hok
    split at hok
    · rcases hperm : composeSame pre change.perm with e | perm
      · rw [hperm] at hok
        cases hok
      · rw [hperm] at hok
        cases hok
        exact hchange
    · dsimp only at hok
      generalize List.mapM (m := Outcome) _ _ = run at hok
      rcases run with e | perm
      · cases hok
      · cases hok
        exact hchange

theorem compressFrom_noUpdates :
    ∀ (cs : List (SubChange E)) (prev : SubChange E) {cs' : List (SubChange E)},
      NoUpdates (prev :: cs) → compressFrom prev cs = .ok cs' → NoUpdates cs' := by
  intro cs
  induction cs with
  | nil =>
    intro prev cs' h hok
    cases hok
    exact h
  | cons cur cs ih =>
    intro prev cs' h hok
    have hprev := h prev mem_cons_self
    have hcur : NoUpdates (cur :: cs) := fun c hc => h c (mem_cons_of_mem prev hc)
    have hjoined : ∀ removed, NoUpdates
        ({ prev with toIdx := cur.toIdx, removed := removed } :: cs) := by
      intro removed c hc
      rcases mem_cons.mp hc with rfl | hc
      · exact hprev
      · exact hcur c (mem_cons_of_mem cur hc)
    rw [compressFrom] at hok
    split at hok
    · split at hok
      · exact ih _ (hjoined prev.removed) hok
      · exact ih _ (hjoined _) hok
      · exact ih _ (hjoined _) hok
      · cases hok
    · rcases hrest : compressFrom cur cs with e | cs₁
      · rw [hrest] at hok
        cases hok
      · rw [hrest] at hok
        cases hok
        intro c hc
        rcases mem_cons.mp hc with rfl | hc
        · exact hprev
        · exact ih cur hcur hrest c hc

end

end OpenJfx.Collections.ListChangeBuilder
