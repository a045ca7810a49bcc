import OpenJfx.Collections.SortedListSort

namespace OpenJfx.Collections.Sorted

open Java.Arrays Collections.ListChange Collections.ListChangeBuilder List

variable {E H C : Type}

/-- A loop that stores one value after the other, from the slot behind `front` on. -/
theorem fill_spec {T : Type} (fill : Nat → Int → List T → Outcome (List T)) (values : List T)
    (hnil : ∀ i array, fill 0 i array = .ok array)
    (hcons : ∀ (count i : Nat) x array, values[i]? = some x →
      fill (count + 1) i array = store array i x >>= fill count (i + 1)) (todo : List T) :
    ∀ {front array : List T}, values = front ++ todo → front <+: array →
      values.length ≤ array.length →
      ∃ rest, fill todo.length front.length array = .ok (values ++ rest) ∧
        (values ++ rest).length = array.length := by
  induction todo with
  | nil =>
    rintro front _ rfl ⟨rest, rfl⟩ _
    rw [append_nil]
    exact ⟨rest, hnil _ _, rfl⟩
  | cons x todo ih =>
    intro front array hvalues hused hroom
    have hlen : values.length = front.length + (todo.length + 1) := by
      rw [hvalues, length_append, length_cons]
    obtain ⟨array', hstore, hused', hlen'⟩ := store_end x hused (by omega)
    obtain ⟨rest, hfill, hrest⟩ := ih (by rw [hvalues, append_cons]) hused' (by omega)
    refine ⟨rest, ?_, hrest.trans hlen'⟩
    rw [length_cons, hcons _ _ x _ (by rw [hvalues]; simp), hstore, ok_bind, ← hfill]
    simp

variable [DecidableEq C] (compare : C → H → E → E → Int)

def setComparators (world : H) (comparators : List (Option C)) (l : SortedList E C) :
    Outcome (SortedList E C) :=
  comparators.foldlM (fun l comparator => (setComparator compare world comparator l).map Prod.fst) l

variable {compare} {source : List E} {view : List (E × Nat)} {l : SortedList E C} {world : H}

theorem setComparator_shows (hcompare : ∀ c, SortHelper.TotalPreorder (compare c world))
    (comparator : Option C) (h : Shows source view l)
    (hview : InOrder compare world source l view) :
    ∃ l' view', (setComparator compare world comparator l).map Prod.fst = .ok l' ∧
      l'.comparator = comparator ∧ Shows source view' l' ∧
      InOrder compare world source l' view' := by
  by_cases hsame : l.comparator = comparator
  · exact ⟨l, view, by rw [setComparator, if_pos hsame]; rfl, hsame, h, hview⟩
  rw [setComparator, if_neg hsame, doSortWithPermutationChange]
  have hset : Shows source view { l with comparator := comparator } := { h with }
  cases comparator with
  | none =>
    obtain ⟨sorted', perm', p, changed, hrun, hshows, -⟩ := restoreOrder_shows hset
    dsimp only at hrun ⊢
    rw [hrun]
    refine ⟨_, source.zipIdx, rfl, rfl, hshows, rfl, ?_⟩
    intro i hi
    exact hshows.leadsTo i (source[i], i) (by simp [hi])
  | some comparator =>
    obtain ⟨sorted', perm', permutation, view', hrun, hshows, hordered, -⟩ :=
      sortElements_spec (hcompare comparator) hset
    dsimp only
    rw [hrun]
    exact ⟨_, view', rfl, rfl, hshows, hordered⟩

theorem setComparators_shows (hcompare : ∀ c, SortHelper.TotalPreorder (compare c world))
    (comparators : List (Option C)) :
    ∀ {l : SortedList E C} {view : List (E × Nat)}, Shows source view l →
      InOrder compare world source l view →
      ∃ l' view', setComparators compare world comparators l = .ok l' ∧
        l'.comparator = comparators.getLast?.getD l.comparator ∧ Shows source view' l' ∧
        InOrder compare world source l' view' := by
  induction comparators with
  | nil => exact fun h hview => ⟨_, _, rfl, rfl, h, hview⟩
  | cons comparator comparators ih =>
    intro l view h hview
    obtain ⟨l₁, view₁, hset, hcomparator, h₁, hview₁⟩ :=
      setComparator_shows hcompare comparator h hview
    obtain ⟨l', view', hrun, hlast, h', hview'⟩ := ih h₁ hview₁
    refine ⟨l', view', ?_, ?_, h', hview'⟩
    · rw [setComparators, foldlM_cons, hset]
      exact hrun
    · rw [hlast, hcomparator, getLast?_cons]
      rfl

omit [DecidableEq C] in
variable (compare world) in
/-- Arrays that begin with the elements in the order of the source show them so. -/
theorem shows_source {slots : List (Option (Element E))} {rest : List Int}
    (hlen : ((range source.length).map (Nat.cast : Nat → Int) ++ rest).length =
      (source.zipIdx.map slot ++ slots).length)
    (hl : l = ⟨source.zipIdx.map slot ++ slots, (range source.length).map Nat.cast ++ rest,
      source.length, none, Builder.new⟩) :
    Shows source source.zipIdx l ∧ InOrder compare world source l source.zipIdx := by
  subst hl
  have hleads : ∀ i, i < source.length →
      ((range source.length).map (Nat.cast : Nat → Int) ++ rest)[i]? = some (i : Int) := by
    intro i hi
    rw [getElem?_append_left (by simpa using hi)]
    simp [hi]
  refine ⟨⟨rfl, hlen, ?_, .refl _, ?_⟩, rfl, hleads⟩
  · intro j x _ hx
    have hslot : (source.zipIdx.map slot)[j]? = some (slot x) := by
      rw [getElem?_map, hx, Option.map_some]
    exact (getElem?_append_left (List.getElem?_eq_some_iff.mp hslot).1).trans hslot
  · intro j x hx
    rw [getElem?_zipIdx, Option.map_eq_some_iff] at hx
    obtain ⟨e, he, rfl⟩ := hx
    rw [Nat.zero_add]
    exact hleads j (List.getElem?_eq_some_iff.mp he).1

theorem new_shows (hcompare : ∀ c, SortHelper.TotalPreorder (compare c world))
    (source : List E) (comparator : Option C) :
    ∃ l view, new compare source world comparator = .ok l ∧ l.comparator = comparator ∧
      Shows source view l ∧ InOrder compare world source l view := by
  have hroom : source.length ≤ source.length * 3 / 2 + 1 := by omega
  have hfront {T : Type} (x : T) : [] <+: replicate (source.length * 3 / 2 + 1) x := nil_prefix
  obtain ⟨slots, hfill, hlen⟩ := fill_spec (fillElements source) (source.zipIdx.map slot)
    (fun _ _ => rfl) (by
      intro count i x array hx
      rw [getElem?_map, getElem?_zipIdx, Option.map_map, Option.map_eq_some_iff] at hx
      obtain ⟨e, he, rfl⟩ := hx
      rw [fillElements, load_eq_ok he, ok_bind]
      simp [slot])
    _ (nil_append _).symm (hfront none) (by simpa using hroom)
  obtain ⟨rest, hidentity, hlen'⟩ := fill_spec fillIdentity
    ((range source.length).map (Nat.cast : Nat → Int)) (fun _ _ => rfl) (by
      intro count i x array hx
      obtain ⟨-, rfl⟩ : i < source.length ∧ (i : Int) = x := by
        simpa [List.getElem?_eq_some_iff] using hx
      rfl)
    _ (nil_append _).symm (hfront 0) (by simpa using hroom)
  obtain ⟨hshows, hview⟩ := shows_source (C := C) compare world
    (hlen'.trans (by rw [hlen, length_replicate, length_replicate])) rfl
  simp only [length_map, length_zipIdx, length_range, length_nil, Nat.cast_zero] at hfill hidentity
  simp only [new, hfill, hidentity, ok_bind]
  cases comparator with
  | none => exact ⟨_, _, rfl, rfl, hshows, hview⟩
  | some comparator =>
    obtain ⟨l, view, hset, hl⟩ := setComparator_shows hcompare (some comparator) hshows hview
    refine ⟨l, view, ?_, hl⟩
    rw [← hset]
    cases setComparator compare world (some comparator) _ <;> rfl

/-- Whatever comparators are set, every element of the source is shown once, in the order of the
last of them, and the indexes in the source and in the view lead to each other. -/
theorem view_after_setComparators (compare : C → H → E → E → Int) (world : H)
    (hcompare : ∀ c, SortHelper.TotalPreorder (compare c world)) (source : List E)
    (_ : source.length ≤ maxTripled) (comparator : Option C) (comparators : List (Option C)) :
    ∃ l view,
      (new compare source world comparator >>= setComparators compare world comparators) =
        .ok l ∧
      l.comparator = comparators.getLast?.getD comparator ∧ l.size = source.length ∧
      view.Perm source.zipIdx ∧ InOrder compare world source l view ∧
      ∀ (j i : Nat) (e : E), view[j]? = some (e, i) →
        get l j = .ok e ∧ getSourceIndex l j = .ok i ∧ getViewIndex l i = .ok j := by
  obtain ⟨l₀, view₀, hnew, hfirst, h₀, hview₀⟩ := new_shows hcompare source comparator
  obtain ⟨l, view, hrun, hlast, h, hview⟩ := setComparators_shows hcompare comparators h₀ hview₀
  refine ⟨l, view, ?_, by rw [hlast, hfirst], h.size, h.perm, hview, ?_⟩
  · rw [hnew, ok_bind, hrun]
  · intro j i e hj
    have helement := elementAt_eq (h.slots j _ (Nat.zero_le j) hj)
    have hlt : j < l.size := by
      rw [h.size, ← h.length_view]
      exact (List.getElem?_eq_some_iff.mp hj).1
    refine ⟨?_, ?_, load_eq_ok (h.leadsTo j _ hj)⟩
    · rw [get, if_neg (by omega), helement]
      rfl
    · rw [getSourceIndex, helement]
      rfl

/-- A list is sorted, and shown in its own order again. -/
theorem view_after_setComparators_three :
    ∃ l view, (new (fun (_ _ : Unit) => SortHelper.compareTo) [3, 1, 2] () none >>=
        setComparators (fun _ _ => SortHelper.compareTo) () [some (), none]) = .ok l ∧
      l.comparator = none ∧ l.size = 3 ∧ view.Perm ([3, 1, 2] : List Int).zipIdx ∧
      InOrder (fun (_ _ : Unit) => SortHelper.compareTo) () [3, 1, 2] l view ∧
      ∀ (j i : Nat) (e : Int), view[j]? = some (e, i) →
        get l j = .ok e ∧ getSourceIndex l j = .ok i ∧ getViewIndex l i = .ok j :=
  view_after_setComparators _ () (fun _ => SortHelper.totalPreorder_compareTo) [3, 1, 2]
    (by decide) none [some (), none]

end OpenJfx.Collections.Sorted
