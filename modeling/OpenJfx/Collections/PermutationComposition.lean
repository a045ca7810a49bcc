import OpenJfx.Collections.ListChangeBuilderSafety

namespace OpenJfx.Collections.ListChangeBuilder

open Java.Arrays Collections.ListChange List

variable {E : Type}

namespace RangePerm

/-- A bijection of the range, given by absolute indexes. -/
structure IsBijection (p : RangePerm) (n : Nat) : Prop where
  fromIdx_nonneg : 0 ≤ p.fromIdx
  fromIdx_le : p.fromIdx ≤ p.toIdx
  toIdx_le : p.toIdx ≤ n
  length_perm : (p.perm.length : Int) = p.toIdx - p.fromIdx
  mem_range : ∀ k ∈ p.perm, p.fromIdx ≤ k ∧ k < p.toIdx
  nodup : p.perm.Nodup

def newIndex (p : RangePerm) (i : Nat) : Nat :=
  if p.fromIdx ≤ i ∧ i < p.toIdx then (p.perm.getD (i - p.fromIdx).toNat 0).toNat else i

def composition (calls : List RangePerm) (i : Nat) : Nat :=
  calls.foldl (fun i p => p.newIndex i) i

def TouchFrom : Int → Int → List RangePerm → Prop
  | _, _, [] => True
  | low, high, p :: rest =>
    p.fromIdx ≤ high ∧ low ≤ p.toIdx ∧ TouchFrom (min low p.fromIdx) (max high p.toIdx) rest

/-- Each range touches what the ranges before it span. -/
def Touch : List RangePerm → Prop
  | [] => True
  | p :: rest => TouchFrom p.fromIdx p.toIdx rest

instance decidableTouchFrom : (low high : Int) → (calls : List RangePerm) →
    Decidable (TouchFrom low high calls)
  | _, _, [] => inferInstanceAs (Decidable True)
  | low, high, p :: rest =>
    have := decidableTouchFrom (min low p.fromIdx) (max high p.toIdx) rest
    inferInstanceAs (Decidable (_ ∧ _ ∧ _))

instance : (calls : List RangePerm) → Decidable (Touch calls)
  | [] => inferInstanceAs (Decidable True)
  | p :: rest => inferInstanceAs (Decidable (TouchFrom p.fromIdx p.toIdx rest))

end RangePerm

open RangePerm

/-- The array of the first call, which the builder keeps as long as the ranges are the same, is not
passed again in that time. -/
def OwnArraysFrom (first : PassedPerm) : List PassedPerm → Prop
  | [] => True
  | p :: rest => p.array ≠ first.array ∧
      (p.fromIdx = first.fromIdx ∧ p.toIdx = first.toIdx → OwnArraysFrom first rest)

/-- No call passes an array that the builder keeps. -/
def OwnArrays : List PassedPerm → Prop
  | [] => True
  | first :: rest => OwnArraysFrom first rest

def passAll (order : EntryOrder E) (n : Nat) (calls : List PassedPerm) (k : Keeper E) :
    Outcome (Keeper E) :=
  calls.foldlM (fun k p => k.nextPermutation order n p) k

def permuteAll (order : EntryOrder E) (n : Nat) (calls : List RangePerm) (b : Builder E) :
    Outcome (Builder E) :=
  calls.foldlM (fun b p => b.nextPermutation order n p.fromIdx p.toIdx p.perm) b

/-- One permutation sub-change is reported, unless there are no calls. It maps the indexes of its
range as the calls do in turn, and these keep all others. -/
def ReportsComposition (order : EntryOrder E) (n : Nat) (calls : List PassedPerm) : Prop :=
  ∃ k fired, passAll order n calls ⟨Builder.new.beginChange, none⟩ = .ok k ∧
    k.builder.endChange = .ok (Builder.new, fired) ∧
    match fired with
    | none => calls = []
    | some changes => ∃ c, changes = [c] ∧ 0 ≤ c.fromIdx ∧ c.fromIdx ≤ c.toIdx ∧ c.toIdx ≤ n ∧
        c.wasUpdated = false ∧ c.wasRemoved = false ∧
        (∀ i : Nat, c.fromIdx ≤ i → i < c.toIdx →
          c.getPermutation i = .ok (composition (calls.map PassedPerm.toRangePerm) i)) ∧
        ∀ i : Nat, ¬(c.fromIdx ≤ i ∧ i < c.toIdx) →
          composition (calls.map PassedPerm.toRangePerm) i = i

variable {perm : List Int} {i : Nat}

theorem exists_entry {low high : Int} (hlen : (perm.length : Int) = high - low)
    (hmem : ∀ k ∈ perm, low ≤ k ∧ k < high) (hlow : 0 ≤ low) (hge : low ≤ i) (hlt : i < high) :
    ∃ k : Nat, perm[(i - low).toNat]? = some (k : Int) ∧ low ≤ k ∧ k < high := by
  obtain ⟨j, hj⟩ : ∃ j : Nat, (i : Int) - low = j := ⟨(i - low).toNat, by omega⟩
  have hjlt : j < perm.length := by omega
  have hrange := hmem _ (getElem_mem hjlt)
  refine ⟨perm[j].toNat, ?_, ?_⟩
  · rw [hj, Int.toNat_natCast, getElem?_eq_getElem hjlt, Int.toNat_of_nonneg (by omega)]
  · omega

theorem load_of_entry {low k : Int} (hge : low ≤ i) (h : perm[(i - low).toNat]? = some k) :
    load perm (i - low) = .ok k := by
  have hload := load_eq_ok h
  rwa [Int.toNat_of_nonneg (by omega)] at hload

theorem mapM_composeEntry (p : RangePerm) (c : SubChange E) (m : Nat) (low : Int) :
    (do let k ← List.range m; pure (k : Int) : List Int).mapM
        (fun k => composeEntry p c (low + k)) =
      (List.range m).mapM fun k : Nat => composeEntry p c (low + k) := by
  have hcast : (do let k ← List.range m; pure (k : Int) : List Int) =
      (List.range m).map fun k : Nat => (k : Int) :=
    flatMap_pure_eq_map (fun k : Nat => (k : Int)) (List.range m)
  rw [hcast, mapM_map]
  rfl

theorem mapM_eq_map {α β : Type} {f : α → Outcome β} {g : α → β} {l : List α}
    (h : ∀ x ∈ l, f x = .ok (g x)) : l.mapM f = .ok (l.map g) := by
  induction l with
  | nil => rfl
  | cons x l ih =>
    rw [mapM_cons, h x mem_cons_self, ih fun y hy => h y (mem_cons_of_mem x hy)]
    rfl

theorem mapM_ne_ok {α β : Type} {f : α → Outcome β} {l : List α} {x : α} (hx : x ∈ l)
    (herr : ∀ y, f x ≠ .ok y) : ∀ l', l.mapM f ≠ .ok l' := by
  induction l with
  | nil => exact absurd hx not_mem_nil
  | cons z l ih =>
    intro l' hok
    rw [mapM_cons] at hok
    rcases hz : f z with e | y
    · rw [hz] at hok
      cases hok
    · rw [hz, ok_bind] at hok
      rcases mem_cons.mp hx with rfl | hx
      · exact herr y hz
      · rcases hrest : l.mapM f with e | l''
        · rw [hrest] at hok
          cases hok
        · exact ih hx l'' hrest

/-- What the builder holds after some of the calls. -/
structure Gathered (n : Nat) (calls : List RangePerm) (low high : Int) (c : SubChange E) :
    Prop where
  fromIdx : c.fromIdx = low
  toIdx : c.toIdx = high
  low_nonneg : 0 ≤ low
  low_le : low ≤ high
  high_le : high ≤ n
  length_perm : (c.perm.length : Int) = high - low
  mem_range : ∀ k ∈ c.perm, low ≤ k ∧ k < high
  newIndex : ∀ i, c.newIndex i = composition calls i
  noRemoved : c.getRemoved = []
  notUpdated : c.updated = false

variable {n : Nat} {calls : List RangePerm} {low high : Int} {c : SubChange E} {p : RangePerm}

theorem newIndex_range (hp : p.IsBijection n) (hge : p.fromIdx ≤ i) (hlt : i < p.toIdx) :
    p.perm[(i - p.fromIdx).toNat]? = some (p.newIndex i : Int) ∧
      p.fromIdx ≤ p.newIndex i ∧ p.newIndex i < p.toIdx := by
  rcases exists_entry hp.length_perm hp.mem_range hp.fromIdx_nonneg hge hlt with ⟨k, hget, hrange⟩
  have hnew : p.newIndex i = k := by
    rw [RangePerm.newIndex, if_pos ⟨hge, hlt⟩, getD_eq_getElem?_getD, hget, Option.getD_some,
      Int.toNat_natCast]
  rw [hnew]
  exact ⟨hget, hrange⟩

theorem newIndex_of_not (hnot : ¬(p.fromIdx ≤ i ∧ i < p.toIdx)) : p.newIndex i = i :=
  if_neg hnot

theorem Gathered.newIndex_range (h : Gathered n calls low high c) (hge : low ≤ i) (hlt : i < high) :
    c.perm[(i - low).toNat]? = some (composition calls i : Int) ∧
      low ≤ composition calls i ∧ composition calls i < high := by
  rcases exists_entry h.length_perm h.mem_range h.low_nonneg hge hlt with ⟨k, hget, hrange⟩
  have hnew := h.newIndex i
  rw [SubChange.newIndex, h.fromIdx, h.toIdx, if_pos ⟨hge, hlt⟩, getD_eq_getElem?_getD, hget,
    Option.getD_some] at hnew
  rw [← hnew]
  exact ⟨hget, hrange⟩

theorem Gathered.newIndex_of_not (h : Gathered n calls low high c) (hnot : ¬(low ≤ i ∧ i < high)) :
    composition calls i = i := by
  rw [← h.newIndex i, SubChange.newIndex, h.fromIdx, h.toIdx, if_neg hnot]

theorem composition_append (calls : List RangePerm) (p : RangePerm) (i : Nat) :
    composition (calls ++ [p]) i = p.newIndex (composition calls i) := by
  rw [composition, foldl_append]
  rfl

theorem gathered_of_entries (hfrom : c.fromIdx = low) (hto : c.toIdx = high) (hlow : 0 ≤ low)
    (hle : low ≤ high) (hhigh : high ≤ n) (hlen : (c.perm.length : Int) = high - low)
    (hrem : c.getRemoved = []) (hupdd : c.updated = false)
    (hentry : ∀ i : Nat, low ≤ i → i < high →
      c.perm[(i - low).toNat]? = some (composition calls i : Int) ∧
        low ≤ composition calls i ∧ composition calls i < high)
    (hother : ∀ i : Nat, ¬(low ≤ i ∧ i < high) → composition calls i = i) :
    Gathered n calls low high c where
  fromIdx := hfrom
  toIdx := hto
  low_nonneg := hlow
  low_le := hle
  high_le := hhigh
  length_perm := hlen
  mem_range := by
    intro k hk
    rcases getElem_of_mem hk with ⟨j, hj, rfl⟩
    obtain ⟨i, hi⟩ : ∃ i : Nat, (i : Int) = low + j := ⟨(low + j).toNat, by omega⟩
    rcases hentry i (by omega) (by omega) with ⟨hget, hrange⟩
    rw [show ((i : Int) - low).toNat = j by omega, getElem?_eq_getElem hj,
      Option.some_inj] at hget
    rw [hget]
    exact hrange
  newIndex := by
    intro i
    rw [SubChange.newIndex, hfrom, hto]
    split
    case isTrue hrange =>
      rw [getD_eq_getElem?_getD, (hentry i hrange.1 hrange.2).1, Option.getD_some,
        Int.toNat_natCast]
    case isFalse hnot => exact (hother i hnot).symm
  noRemoved := hrem
  notUpdated := hupdd

theorem gathered_first (hp : p.IsBijection n) :
    Gathered n [p] p.fromIdx p.toIdx
      (⟨p.fromIdx, p.toIdx, none, p.perm, false⟩ : SubChange E) :=
  gathered_of_entries rfl rfl hp.fromIdx_nonneg hp.fromIdx_le hp.toIdx_le hp.length_perm rfl rfl
    (fun _ hge hlt => newIndex_range hp hge hlt) fun _ hnot => newIndex_of_not hnot

theorem composeEntry_eq (h : Gathered n calls low high c) (hp : p.IsBijection n)
    (hin : low ≤ i ∧ i < high ∨ p.fromIdx ≤ i ∧ i < p.toIdx) :
    composeEntry p c i = .ok (composition (calls ++ [p]) i : Int) := by
  rw [composition_append, composeEntry, h.fromIdx, h.toIdx]
  split
  case isTrue hout =>
    have hrange := hin.resolve_left (by omega)
    rw [h.newIndex_of_not (by omega)]
    exact load_of_entry hrange.1 (newIndex_range hp hrange.1 hrange.2).1
  case isFalse hnot =>
    rcases h.newIndex_range (show low ≤ i by omega) (show i < high by omega) with ⟨hget, -⟩
    rw [load_of_entry (by omega) hget, ok_bind]
    split
    case isTrue hout => rw [newIndex_of_not (by omega)]
    case isFalse hin' =>
      exact load_of_entry (by omega) (newIndex_range hp (by omega) (by omega)).1

theorem composePermutation_ok (h : Gathered n calls low high c) (hp : p.IsBijection n)
    (hfrom : p.fromIdx ≤ high) (hto : low ≤ p.toIdx) :
    ∃ c', composePermutation (some c) p = .ok c' ∧
      Gathered n (calls ++ [p]) (min low p.fromIdx) (max high p.toIdx) c' := by
  have hlow := h.low_nonneg
  have hnn := hp.fromIdx_nonneg
  have hhigh := h.high_le
  have htoIdx := hp.toIdx_le
  -- an index outside both ranges is kept by both
  have hother : ∀ i : Nat, ¬(min low p.fromIdx ≤ i ∧ i < max high p.toIdx) →
      composition (calls ++ [p]) i = i := by
    intro i hnot
    rw [composition_append, h.newIndex_of_not (by omega), newIndex_of_not (by omega)]
  have hrange : ∀ i : Nat, min low p.fromIdx ≤ i → i < max high p.toIdx →
      min low p.fromIdx ≤ composition (calls ++ [p]) i ∧
        composition (calls ++ [p]) i < max high p.toIdx := by
    intro i hge hlt
    have hbef : min low p.fromIdx ≤ composition calls i ∧
        composition calls i < max high p.toIdx := by
      rcases Decidable.em (low ≤ i ∧ i < high) with hin | hout
      · have hbounds := (h.newIndex_range hin.1 hin.2).2
        omega
      · rw [h.newIndex_of_not hout]
        exact ⟨hge, hlt⟩
    rw [composition_append]
    rcases Decidable.em (p.fromIdx ≤ composition calls i ∧ composition calls i < p.toIdx) with
      hin | hout
    · have hbounds := (newIndex_range hp hin.1 hin.2).2
      omega
    · rw [newIndex_of_not hout]
      exact hbef
  rw [composePermutation, h.fromIdx, h.toIdx]
  dsimp only
  split
  case isTrue hsame =>
    have hmap : composeSame p c.perm = .ok (c.perm.map fun k => (p.newIndex k.toNat : Int)) := by
      apply mapM_eq_map
      intro k hk
      have hbounds := h.mem_range k hk
      have hload := load_of_entry (i := k.toNat) (by omega)
        (newIndex_range hp (i := k.toNat) (by omega) (by omega)).1
      rwa [Int.toNat_of_nonneg (by omega)] at hload
    rw [hmap]
    refine ⟨_, rfl, gathered_of_entries ?_ ?_ (by omega) (by omega) (by omega) ?_ h.noRemoved
      h.notUpdated (fun i hge hlt => ⟨?_, hrange i hge hlt⟩) hother⟩
    · dsimp only
      omega
    · dsimp only
      omega
    · rw [length_map, h.length_perm]
      omega
    · rcases h.newIndex_range (i := i) (by omega) (by omega) with ⟨hget, -⟩
      rw [getElem?_map, show min low p.fromIdx = low by omega, hget, composition_append]
      rfl
  case isFalse hdifferent =>
    have hmap : (List.range (max high p.toIdx - min low p.fromIdx).toNat).mapM
        (fun k : Nat => composeEntry p c (min low p.fromIdx + k)) =
        .ok ((List.range (max high p.toIdx - min low p.fromIdx).toNat).map fun k : Nat =>
          (composition (calls ++ [p]) (min low p.fromIdx + k).toNat : Int)) := by
      apply mapM_eq_map
      intro k hk
      have hk' := mem_range.mp hk
      have hentry := composeEntry_eq h hp (i := (min low p.fromIdx + k).toNat) (by omega)
      rwa [Int.toNat_of_nonneg (by omega)] at hentry
    rw [mapM_composeEntry, hmap]
    refine ⟨_, rfl, gathered_of_entries rfl rfl (by omega) (by omega) (by omega) ?_ h.noRemoved
      h.notUpdated (fun i hge hlt => ⟨?_, hrange i hge hlt⟩) hother⟩
    · rw [length_map, length_range]
      omega
    · rw [getElem?_map, List.getElem?_range (by omega)]
      dsimp only [Option.map_some]
      rw [show (min low p.fromIdx + ((i - min low p.fromIdx).toNat : Int)).toNat = i by omega]

theorem composePermutation_fails (h : Gathered n calls low high c) (hp : p.IsBijection n)
    (hgap : high < p.fromIdx ∨ p.toIdx < low) : ∀ c', composePermutation (some c) p ≠ .ok c' := by
  have hle := h.low_le
  have hlen := hp.length_perm
  intro c' hok
  rw [composePermutation, h.fromIdx, h.toIdx] at hok
  dsimp only at hok
  rw [if_neg (by omega), mapM_composeEntry] at hok
  have hidx : ∃ i : Nat, i < (max high p.toIdx - min low p.fromIdx).toNat ∧
      ∀ y, composeEntry p c (min low p.fromIdx + i) ≠ .ok y := by
    rcases hgap with hgap | hgap
    · refine ⟨(high - low).toNat, by omega, fun y => ?_⟩
      rw [composeEntry, h.fromIdx, h.toIdx, if_pos (by omega), load, if_neg (by omega)]
      simp
    · refine ⟨(p.toIdx - p.fromIdx).toNat, by omega, fun y => ?_⟩
      rw [show min low p.fromIdx + ((p.toIdx - p.fromIdx).toNat : Int) = p.toIdx by omega,
        composeEntry, h.fromIdx, h.toIdx, if_pos (by omega), load, if_pos (by omega),
        getElem?_eq_none (by omega)]
      simp
  rcases hidx with ⟨i, hi, herr⟩
  rcases hmap : (List.range (max high p.toIdx - min low p.fromIdx).toNat).mapM
      (fun k : Nat => composeEntry p c (min low p.fromIdx + k)) with e | perm
  · rw [hmap] at hok
    cases hok
  · exact mapM_ne_ok (mem_range.mpr hi) herr perm hmap

def gathering (permutationChange : Option (SubChange E)) : Builder E :=
  ⟨1, [], [], permutationChange⟩

theorem nextPermutation_gathering (order : EntryOrder E) (n : Nat)
    (permutationChange : Option (SubChange E)) (p : RangePerm) :
    (gathering permutationChange).nextPermutation order n p.fromIdx p.toIdx p.perm =
      composePermutation permutationChange p >>= fun c => .ok (gathering (some c)) := by
  have hentries : order.entries [] = [] := perm_nil.mp (order.perm [])
  have hadd : permuteAddRemoves order p [] = .ok [] := by
    simp [permuteAddRemoves, permutedIndexes, permutedRemoved, regroup, hentries]
  rw [gathering, Builder.nextPermutation]
  rw [hadd]
  rfl

theorem permuteAll_ok (order : EntryOrder E) {rest : List RangePerm}
    (hrest : ∀ p ∈ rest, p.IsBijection n) (h : Gathered n calls low high c)
    (htouch : TouchFrom low high rest) :
    ∃ c' low' high', permuteAll order n rest (gathering (some c)) = .ok (gathering (some c')) ∧
      Gathered n (calls ++ rest) low' high' c' := by
  induction rest generalizing calls low high c with
  | nil => exact ⟨c, low, high, rfl, by rwa [append_nil]⟩
  | cons p rest ih =>
    rcases htouch with ⟨hfrom, hto, htouch⟩
    rcases composePermutation_ok h (hrest p mem_cons_self) hfrom hto with ⟨c₁, hok, h₁⟩
    rcases ih (fun q hq => hrest q (mem_cons_of_mem p hq)) h₁ htouch with
      ⟨c', low', high', hok', h'⟩
    rw [append_assoc] at h'
    refine ⟨c', low', high', ?_, h'⟩
    rw [permuteAll, foldlM_cons, nextPermutation_gathering, hok]
    exact hok'

theorem permuteAll_fails (order : EntryOrder E) {rest : List RangePerm}
    (hrest : ∀ p ∈ rest, p.IsBijection n) (h : Gathered n calls low high c)
    (hgap : ¬TouchFrom low high rest) :
    ∀ b, permuteAll order n rest (gathering (some c)) ≠ .ok b := by
  induction rest generalizing calls low high c with
  | nil => exact absurd trivial hgap
  | cons p rest ih =>
    intro b hok
    have hp := hrest p mem_cons_self
    rw [permuteAll, foldlM_cons, nextPermutation_gathering] at hok
    rcases hcompose : composePermutation (some c) p with e | c₁
    · rw [hcompose] at hok
      cases hok
    · rw [hcompose, ok_bind, ok_bind] at hok
      have hfrom : p.fromIdx ≤ high := by
        by_contra hlt
        exact composePermutation_fails h hp (.inl (by omega)) c₁ hcompose
      have hto : low ≤ p.toIdx := by
        by_contra hlt
        exact composePermutation_fails h hp (.inr (by omega)) c₁ hcompose
      rcases composePermutation_ok h hp hfrom hto with ⟨c₂, hok₂, h₂⟩
      rw [hcompose] at hok₂
      cases hok₂
      refine ih (fun q hq => hrest q (mem_cons_of_mem p hq)) h₂ ?_ b hok
      exact fun htouch => hgap ⟨hfrom, hto, htouch⟩

theorem endChange_gathering (c : SubChange E) :
    (gathering (some c)).endChange =
      .ok (Builder.new, some [Builder.finalizeSubChange c]) := rfl

theorem composePermutation_range {c c' : SubChange E} {p : RangePerm}
    (h : composePermutation (some c) p = .ok c')
    (hsame : p.fromIdx = c.fromIdx ∧ p.toIdx = c.toIdx) :
    c'.fromIdx = c.fromIdx ∧ c'.toIdx = c.toIdx := by
  rw [composePermutation] at h
  dsimp only at h
  rw [if_pos hsame] at h
  rcases hperm : composeSame p c.perm with e | perm
  · rw [hperm] at h
    cases h
  · rw [hperm] at h
    cases h
    exact ⟨rfl, rfl⟩

theorem Keeper.nextPermutation_gathering (order : EntryOrder E)
    (permutationChange : Option (SubChange E)) {kept : Option Nat} (p : PassedPerm)
    (hown : kept ≠ some p.array) :
    (⟨gathering permutationChange, kept⟩ : Keeper E).nextPermutation order n p =
      composePermutation permutationChange p.toRangePerm >>= fun c =>
        .ok ⟨gathering (some c), Keeper.keptAfter ⟨gathering permutationChange, kept⟩ p.array
          (permutationChange.any fun change =>
            p.fromIdx = change.fromIdx ∧ p.toIdx = change.toIdx)⟩ := by
  have hrun := ListChangeBuilder.nextPermutation_gathering order n permutationChange p.toRangePerm
  change (if kept = some p.array then _ else
    (gathering permutationChange).nextPermutation order n p.fromIdx p.toIdx p.perm >>=
      fun b => _) = _
  rw [if_neg hown, hrun]
  rcases composePermutation permutationChange p.toRangePerm with e | c
  · rfl
  · rfl

/-- What the builder keeps while the ranges are those of the first call. -/
theorem passAll_own (order : EntryOrder E) {first : PassedPerm} {calls : List PassedPerm}
    {c : SubChange E} {kept : Option Nat}
    (hkept : kept = none ∨ kept = some first.array ∧ c.fromIdx = first.fromIdx ∧
      c.toIdx = first.toIdx ∧ OwnArraysFrom first calls) :
    (passAll order n calls ⟨gathering (some c), kept⟩).map Keeper.builder =
      permuteAll order n (calls.map PassedPerm.toRangePerm) (gathering (some c)) := by
  induction calls generalizing c kept with
  | nil => rfl
  | cons p rest ih =>
    have hown : kept ≠ some p.array := by
      rcases hkept with rfl | ⟨rfl, -, -, hne, -⟩
      · exact Option.some_ne_none _ |>.symm
      · exact fun heq => hne (Option.some.inj heq).symm
    rw [passAll, foldlM_cons, Keeper.nextPermutation_gathering order (some c) p hown, map_cons,
      permuteAll,
      foldlM_cons, nextPermutation_gathering]
    rcases hcompose : composePermutation (some c) p.toRangePerm with e | c'
    · rfl
    · refine ih ?_
      rw [Keeper.keptAfter, if_neg (by simp [gathering]), Option.any_some]
      simp only [decide_eq_true_eq]
      split
      case isTrue hsame =>
        rcases hkept with rfl | ⟨rfl, hfrom, hto, -, hrest⟩
        · exact .inl rfl
        · rcases composePermutation_range hcompose hsame with ⟨hfrom', hto'⟩
          exact .inr ⟨rfl, hfrom'.trans hfrom, hto'.trans hto,
            hrest ⟨hsame.1.trans hfrom, hsame.2.trans hto⟩⟩
      case isFalse => exact .inl rfl

/-- Where no call passes an array that the builder keeps, the reported sub-change is the
composition exactly when no range leaves a gap to those before it. -/
theorem reportsComposition_iff (order : EntryOrder E) (n : Nat) (calls : List PassedPerm)
    (hcalls : ∀ p ∈ calls, p.IsBijection n) (hown : OwnArrays calls) :
    ReportsComposition order n calls ↔ Touch (calls.map PassedPerm.toRangePerm) := by
  rcases calls with - | ⟨p, rest⟩
  · exact iff_of_true ⟨⟨gathering none, none⟩, none, rfl, rfl, rfl⟩ trivial
  have hp := hcalls p mem_cons_self
  have hrest : ∀ q ∈ rest.map PassedPerm.toRangePerm, q.IsBijection n := by
    intro q hq
    rcases mem_map.mp hq with ⟨r, hr, rfl⟩
    exact hcalls r (mem_cons_of_mem p hr)
  have hfirst : (passAll order n (p :: rest) ⟨(Builder.new : Builder E).beginChange, none⟩).map
      Keeper.builder = permuteAll order n (rest.map PassedPerm.toRangePerm)
        (gathering (some ⟨p.fromIdx, p.toIdx, none, p.perm, false⟩)) := by
    change (passAll order n (p :: rest) ⟨gathering none, none⟩).map _ = _
    rw [passAll, foldlM_cons,
      Keeper.nextPermutation_gathering order none p (Option.some_ne_none _).symm]
    exact passAll_own order (.inr ⟨rfl, rfl, rfl, hown⟩)
  constructor
  · rintro ⟨k, fired, hok, -⟩
    by_contra hgap
    rw [hok] at hfirst
    exact permuteAll_fails order hrest (gathered_first hp) hgap k.builder hfirst.symm
  · intro htouch
    rcases permuteAll_ok order hrest (gathered_first (E := E) hp) htouch with
      ⟨c, low, high, hok, h⟩
    rw [hok] at hfirst
    rcases hpass : passAll order n (p :: rest) ⟨(Builder.new : Builder E).beginChange, none⟩ with
      e | k
    · rw [hpass] at hfirst
      cases hfirst
    rw [hpass] at hfirst
    have hfired := endChange_gathering c
    rw [← show k.builder = gathering (some c) from Except.ok.inj hfirst] at hfired
    refine ⟨k, _, hpass, hfired, _, rfl, ?_⟩
    have hlow := h.low_nonneg
    have hle := h.low_le
    have hhigh := h.high_le
    have hfrom : (Builder.finalizeSubChange c).fromIdx = low := h.fromIdx
    have hto : (Builder.finalizeSubChange c).toIdx = high := h.toIdx
    rw [hfrom, hto]
    refine ⟨hlow, hle, hhigh, h.notUpdated, ?_, fun i hge hlt => ?_, fun i hnot => ?_⟩
    · rw [SubChange.wasRemoved, SubChange.getRemoved, Builder.finalizeSubChange, h.noRemoved]
      rfl
    · have hlength := h.length_perm
      have hne : c.perm.length ≠ 0 := by omega
      rw [SubChange.getPermutation, if_pos (by simpa [SubChange.wasPermutated,
        Builder.finalizeSubChange] using hne), hfrom]
      exact load_of_entry hge (h.newIndex_range hge hlt).1
    · exact h.newIndex_of_not hnot

theorem reportsComposition_overlapping :
    ReportsComposition (E := Nat) ⟨id, fun _ => .refl _⟩ 4
      [⟨⟨0, 4, [3, 2, 1, 0]⟩, 0⟩, ⟨⟨1, 4, [3, 2, 1]⟩, 1⟩] :=
  (reportsComposition_iff _ 4 [⟨⟨0, 4, [3, 2, 1, 0]⟩, 0⟩, ⟨⟨1, 4, [3, 2, 1]⟩, 1⟩] (by
    intro p hp
    rcases mem_cons.mp hp with rfl | hp
    · exact ⟨by decide, by decide, by decide, by decide, by decide, by decide⟩
    · rw [mem_singleton.mp hp]
      exact ⟨by decide, by decide, by decide, by decide, by decide, by decide⟩)
    ⟨by decide, fun _ => trivial⟩).mpr (by decide)

theorem gap_not_composed :
    ¬∀ (order : EntryOrder Nat) (n : Nat) (calls : List PassedPerm),
      (∀ p ∈ calls, p.IsBijection n) → ReportsComposition order n calls := by
  intro hall
  rcases hall ⟨id, fun _ => .refl _⟩ 5 [⟨⟨0, 2, [1, 0]⟩, 0⟩, ⟨⟨3, 5, [4, 3]⟩, 1⟩] (by
    intro p hp
    rcases mem_cons.mp hp with rfl | hp
    · exact ⟨by decide, by decide, by decide, by decide, by decide, by decide⟩
    · rw [mem_singleton.mp hp]
      exact ⟨by decide, by decide, by decide, by decide, by decide, by decide⟩) with
    ⟨b, fired, hok, -⟩
  cases hok

/-- The same array passed twice is read while it is composed into. -/
example : (passAll ⟨id, fun _ => .refl _⟩ 2
    [⟨⟨0, 2, [1, 0]⟩, 0⟩, ⟨⟨0, 2, [1, 0]⟩, 0⟩]
    ⟨(Builder.new : Builder Nat).beginChange, none⟩).toOption.bind
      (fun k => k.builder.permutationChange.map SubChange.perm) = some [0, 0] := by decide

end OpenJfx.Collections.ListChangeBuilder
