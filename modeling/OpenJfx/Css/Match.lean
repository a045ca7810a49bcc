import OpenJfx.Css.SelectorPartitioning

namespace OpenJfx.Css

open Data Data.WordSet

/-- The specificity of a selector packs three counts into one `int`. -/
structure Match where
  selector : Selector
  pseudoClasses : Option BitSet
  idCount : BitVec 32
  styleClassCount : BitVec 32
  specificity : BitVec 32

def Match.new (selector : Selector) (pseudoClasses : Option BitSet)
    (idCount styleClassCount : BitVec 32) : Match :=
  let nPseudoClasses := BitVec.ofNat 32 ((pseudoClasses.map BitSet.size).getD 0)
  let nPseudoClasses :=
    match selector with
    | .simple simple =>
      if simple.nodeOrientation ≠ .inherit then nPseudoClasses + 1 else nPseudoClasses
    | .compound _ _ => nPseudoClasses
  { selector := selector
    pseudoClasses := pseudoClasses
    idCount := idCount
    styleClassCount := styleClassCount
    specificity := idCount <<< 8 ||| styleClassCount <<< 4 ||| nPseudoClasses }

def Match.compareTo (m o : Match) : BitVec 32 := m.specificity - o.specificity

namespace SimpleSelector

def createMatch (sel : SimpleSelector) : Match :=
  .new (.simple sel) (some sel.pseudoClassState) (if sel.matchOnId then 1 else 0)
    (BitVec.ofNat 32 sel.styleClassSet.size)

end SimpleSelector

namespace CompoundSelector

def addMatches : List SimpleSelector → BitSet → BitVec 32 → BitVec 32 →
    BitSet × BitVec 32 × BitVec 32
  | [], allPseudoClasses, idCount, styleClassCount => (allPseudoClasses, idCount, styleClassCount)
  | sel :: selectors, allPseudoClasses, idCount, styleClassCount =>
    let m := sel.createMatch
    addMatches selectors (allPseudoClasses.addAll m.pseudoClasses).1 (idCount + m.idCount)
      (styleClassCount + m.styleClassCount)

def createMatch (sel : CompoundSelector) (hparts : sel.selectors ≠ []) : Match :=
  let (allPseudoClasses, idCount, styleClassCount) := addMatches sel.selectors BitSet.new 0 0
  .new (.compound sel hparts) (some allPseudoClasses) idCount styleClassCount

end CompoundSelector

namespace SimpleSelector

def idCount (sel : SimpleSelector) : Nat := if sel.matchOnId then 1 else 0

def styleClassCount (sel : SimpleSelector) : Nat := sel.styleClassSet.size

def orientationCount (sel : SimpleSelector) : Nat :=
  if sel.nodeOrientation = .inherit then 0 else 1

/-- The number of `getPseudoclasses()`, in which the orientation is one. -/
def pseudoClassCount (sel : SimpleSelector) : Nat :=
  sel.pseudoClassState.size + sel.orientationCount

noncomputable def pseudoClassIndexes (sel : SimpleSelector) : Finset Nat :=
  (finite_members sel.pseudoClassState.bits).toFinset

theorem isSet_pseudoClassState (sel : SimpleSelector) :
    sel.pseudoClassState.IsSet sel.pseudoClassIndexes :=
  ⟨sel.pseudoClassState_trimmed, fun _ => (Set.Finite.mem_toFinset _).symm⟩

end SimpleSelector

namespace Selector

def createMatch : Selector → Match
  | .simple sel => sel.createMatch
  | .compound sel hparts => sel.createMatch hparts

def parts : Selector → List SimpleSelector
  | .simple sel => [sel]
  | .compound sel _ => sel.selectors

def idCount (sel : Selector) : Nat := (sel.parts.map SimpleSelector.idCount).sum

def styleClassCount (sel : Selector) : Nat := (sel.parts.map SimpleSelector.styleClassCount).sum

def pseudoClassCount (sel : Selector) : Nat := (sel.parts.map SimpleSelector.pseudoClassCount).sum

def counts (sel : Selector) : Nat ×ₗ Nat ×ₗ Nat :=
  toLex (sel.idCount, toLex (sel.styleClassCount, sel.pseudoClassCount))

def specificity (sel : Selector) : Int := sel.createMatch.specificity.toInt

/-- The specificity compares as the three counts, id count first. -/
structure Ordered (a b : Selector) : Prop where
  lt_iff : a.specificity < b.specificity ↔ a.counts < b.counts
  eq_iff : a.specificity = b.specificity ↔ a.counts = b.counts
  compareTo_neg_iff : (a.createMatch.compareTo b.createMatch).toInt < 0 ↔ a.counts < b.counts

def AllCounted : Selector → Prop
  | .simple _ => True
  | .compound sel _ => (∀ part ∈ sel.selectors, part.nodeOrientation = .inherit) ∧
      sel.selectors.Pairwise fun part part' =>
        Disjoint part.pseudoClassIndexes part'.pseudoClassIndexes

structure Fits (sel : Selector) : Prop where
  idCount : sel.idCount < 2 ^ 23
  styleClassCount : sel.styleClassCount < 16
  pseudoClassCount : sel.pseudoClassCount < 16
  allCounted : sel.AllCounted

end Selector

section Unions

def unions : List (Finset Nat) → Finset Nat
  | [] => ∅
  | s :: sets => s ∪ unions sets

theorem mem_unions {sets : List (Finset Nat)} {i : Nat} :
    i ∈ unions sets ↔ ∃ s ∈ sets, i ∈ s := by
  induction sets with
  | nil => simp [unions]
  | cons s sets ih => rw [unions, Finset.mem_union, ih, List.exists_mem_cons_iff]

theorem disjoint_unions_iff {s : Finset Nat} {sets : List (Finset Nat)} :
    Disjoint s (unions sets) ↔ ∀ t ∈ sets, Disjoint s t := by
  simp only [Finset.disjoint_right, mem_unions]
  constructor
  · intro h t ht i hi
    exact h ⟨t, ht, hi⟩
  · rintro h i ⟨t, ht, hi⟩
    exact h t ht hi

theorem card_unions_le (sets : List (Finset Nat)) :
    (unions sets).card ≤ (sets.map Finset.card).sum := by
  induction sets with
  | nil => exact Nat.le_refl _
  | cons s sets ih =>
    exact (Finset.card_union_le s _).trans (Nat.add_le_add_left ih _)

theorem card_unions_eq_iff (sets : List (Finset Nat)) :
    (unions sets).card = (sets.map Finset.card).sum ↔ sets.Pairwise Disjoint := by
  induction sets with
  | nil => exact iff_of_true rfl .nil
  | cons s sets ih =>
    rw [unions, List.map_cons, List.sum_cons, List.pairwise_cons, ← disjoint_unions_iff, ← ih,
      ← Finset.card_union_eq_card_add_card]
    have hle := Finset.card_union_le s (unions sets)
    have hle' := card_unions_le sets
    omega

end Unions

section Packing

variable {ids classes pseudo ids' classes' pseudo' : Nat}

theorem toInt_pack (hids : ids < 2 ^ 23) (hclasses : classes < 16) (hps : pseudo < 16) :
    (BitVec.ofNat 32 ids <<< 8 ||| BitVec.ofNat 32 classes <<< 4 |||
      BitVec.ofNat 32 pseudo).toInt = (ids * 256 + classes * 16 + pseudo : Nat) := by
  have hnat : (BitVec.ofNat 32 ids <<< 8 ||| BitVec.ofNat 32 classes <<< 4 |||
      BitVec.ofNat 32 pseudo).toNat = ids * 256 + classes * 16 + pseudo := by
    have hlow : 2 ^ 4 * classes + pseudo = 2 ^ 4 * classes ||| pseudo :=
      Nat.two_pow_add_eq_or_of_lt hps classes
    have hhigh : 2 ^ 8 * ids + (2 ^ 4 * classes + pseudo) =
        2 ^ 8 * ids ||| (2 ^ 4 * classes + pseudo) := Nat.two_pow_add_eq_or_of_lt (by omega) ids
    rw [BitVec.toNat_or, BitVec.toNat_or, BitVec.toNat_shiftLeft, BitVec.toNat_shiftLeft,
      BitVec.toNat_ofNat, BitVec.toNat_ofNat, BitVec.toNat_ofNat, Nat.shiftLeft_eq,
      Nat.shiftLeft_eq, Nat.mod_eq_of_lt (a := ids) (by omega), Nat.mod_eq_of_lt (a := classes) (by
      omega), Nat.mod_eq_of_lt (a := pseudo) (by omega), Nat.mod_eq_of_lt (by omega),
      Nat.mod_eq_of_lt (by omega), Nat.or_assoc, Nat.mul_comm ids, Nat.mul_comm classes, ← hlow]
    omega
  rw [BitVec.toInt_eq_toNat_of_lt (by omega), hnat]

theorem pack_lt_iff (hclasses : classes < 16) (hps : pseudo < 16) (hclasses' : classes' < 16)
    (hps' : pseudo' < 16) :
    ids * 256 + classes * 16 + pseudo < ids' * 256 + classes' * 16 + pseudo' ↔
      (toLex (ids, toLex (classes, pseudo)) : Nat ×ₗ Nat ×ₗ Nat) <
        toLex (ids', toLex (classes', pseudo')) := by
  rw [Prod.Lex.toLex_lt_toLex, Prod.Lex.toLex_lt_toLex]
  omega

theorem pack_eq_iff (hclasses : classes < 16) (hps : pseudo < 16) (hclasses' : classes' < 16)
    (hps' : pseudo' < 16) :
    ids * 256 + classes * 16 + pseudo = ids' * 256 + classes' * 16 + pseudo' ↔
      (toLex (ids, toLex (classes, pseudo)) : Nat ×ₗ Nat ×ₗ Nat) =
        toLex (ids', toLex (classes', pseudo')) := by
  simp only [EmbeddingLike.apply_eq_iff_eq, Prod.mk.injEq]
  omega

end Packing

namespace CompoundSelector

theorem addMatches_isSet (selectors : List SimpleSelector) :
    ∀ {all : BitSet} {S : Finset Nat} (ids classes : Nat), all.IsSet S →
      ∃ all', addMatches selectors all (BitVec.ofNat 32 ids) (BitVec.ofNat 32 classes) =
          (all', BitVec.ofNat 32 (ids + (selectors.map SimpleSelector.idCount).sum),
            BitVec.ofNat 32 (classes + (selectors.map SimpleSelector.styleClassCount).sum)) ∧
        all'.IsSet (S ∪ unions (selectors.map SimpleSelector.pseudoClassIndexes)) := by
  induction selectors with
  | nil =>
    intro all S ids classes h
    refine ⟨all, rfl, ?_⟩
    rw [List.map_nil, unions, Finset.union_empty]
    exact h
  | cons sel selectors ih =>
    intro all S ids classes h
    have hids : BitVec.ofNat 32 ids + sel.createMatch.idCount =
        BitVec.ofNat 32 (ids + sel.idCount) := by
      rw [BitVec.ofNat_add, SimpleSelector.createMatch, SimpleSelector.idCount]
      split_ifs <;> rfl
    have hclasses : BitVec.ofNat 32 classes + sel.createMatch.styleClassCount =
        BitVec.ofNat 32 (classes + sel.styleClassCount) := by
      rw [BitVec.ofNat_add]
      rfl
    obtain ⟨all', hrun, hset⟩ := ih (ids + sel.idCount) (classes + sel.styleClassCount)
      (BitSet.addAll_isSet h sel.isSet_pseudoClassState)
    refine ⟨all', ?_, ?_⟩
    · rw [addMatches, hids, hclasses, List.map_cons, List.map_cons, List.sum_cons, List.sum_cons,
        ← Nat.add_assoc, ← Nat.add_assoc]
      exact hrun
    · rw [List.map_cons, unions, ← Finset.union_assoc]
      exact hset

end CompoundSelector

namespace Selector

theorem sum_pseudoClassCount (selectors : List SimpleSelector) :
    (selectors.map SimpleSelector.pseudoClassCount).sum =
      ((selectors.map SimpleSelector.pseudoClassIndexes).map Finset.card).sum +
        (selectors.map SimpleSelector.orientationCount).sum := by
  induction selectors with
  | nil => rfl
  | cons sel selectors ih =>
    simp only [List.map_cons, List.sum_cons]
    rw [SimpleSelector.pseudoClassCount, sel.isSet_pseudoClassState.size_eq]
    omega

theorem sum_orientationCount (selectors : List SimpleSelector) :
    (selectors.map SimpleSelector.orientationCount).sum = 0 ↔
      ∀ part ∈ selectors, part.nodeOrientation = .inherit := by
  simp [List.sum_eq_zero_iff_forall_eq_nat, SimpleSelector.orientationCount]

theorem specificity_eq (sel : Selector) :
    ∃ pseudo, pseudo ≤ sel.pseudoClassCount ∧ (pseudo = sel.pseudoClassCount ↔ sel.AllCounted) ∧
      sel.specificity = (BitVec.ofNat 32 sel.idCount <<< 8 |||
        BitVec.ofNat 32 sel.styleClassCount <<< 4 ||| BitVec.ofNat 32 pseudo).toInt := by
  cases sel with
  | simple sel =>
    have hcnt : (Selector.simple sel).pseudoClassCount = sel.pseudoClassCount := Nat.add_zero _
    have hids : (if sel.matchOnId then 1 else 0 : BitVec 32) =
        BitVec.ofNat 32 (Selector.simple sel).idCount := by
      change _ = BitVec.ofNat 32 (if sel.matchOnId then 1 else 0)
      split_ifs <;> rfl
    have hps : (if sel.nodeOrientation ≠ .inherit then
        BitVec.ofNat 32 sel.pseudoClassState.size + 1
        else BitVec.ofNat 32 sel.pseudoClassState.size) =
          BitVec.ofNat 32 sel.pseudoClassCount := by
      rw [SimpleSelector.pseudoClassCount, SimpleSelector.orientationCount, BitVec.ofNat_add]
      by_cases hinherit : sel.nodeOrientation = .inherit
      · rw [if_neg (not_not.mpr hinherit), if_pos hinherit, BitVec.add_zero]
      · rw [if_pos hinherit, if_neg hinherit]
        rfl
    refine ⟨sel.pseudoClassCount, Nat.le_of_eq hcnt.symm, iff_of_true hcnt.symm trivial, ?_⟩
    rw [← hps, ← hids]
    rfl
  | compound sel hparts =>
    obtain ⟨all, hrun, hset⟩ := CompoundSelector.addMatches_isSet sel.selectors 0 0
      (⟨trimmed_nil, fun i => by simp [BitSet.new]⟩ : BitSet.new.IsSet ∅)
    rw [Finset.empty_union] at hset
    have hsize := hset.size_eq
    have hle := card_unions_le (sel.selectors.map SimpleSelector.pseudoClassIndexes)
    have hsum : (Selector.compound sel hparts).pseudoClassCount = _ :=
      sum_pseudoClassCount sel.selectors
    refine ⟨all.size, by omega, ?_, ?_⟩
    · rw [AllCounted, ← List.pairwise_map (R := Disjoint), ← card_unions_eq_iff,
        ← sum_orientationCount]
      omega
    · rw [Nat.zero_add, Nat.zero_add] at hrun
      change (match CompoundSelector.addMatches sel.selectors BitSet.new
        (BitVec.ofNat 32 0) (BitVec.ofNat 32 0) with
        | (all, ids, classes) => Match.new _ (some all) ids classes).specificity.toInt = _
      rw [hrun]
      rfl

theorem Fits.specificity_eq {sel : Selector} (h : sel.Fits) :
    sel.specificity =
      (sel.idCount * 256 + sel.styleClassCount * 16 + sel.pseudoClassCount : Nat) := by
  obtain ⟨pseudo, -, hcounted, hspec⟩ := sel.specificity_eq
  rw [hspec, hcounted.mpr h.allCounted, toInt_pack h.idCount h.styleClassCount h.pseudoClassCount]

theorem Fits.ordered {a b : Selector} (ha : a.Fits) (hb : b.Fits) : Ordered a b := by
  have hlt : a.specificity < b.specificity ↔ a.counts < b.counts := by
    rw [ha.specificity_eq, hb.specificity_eq, Int.ofNat_lt]
    exact pack_lt_iff ha.styleClassCount ha.pseudoClassCount hb.styleClassCount hb.pseudoClassCount
  refine ⟨hlt, ?_, ?_⟩
  · rw [ha.specificity_eq, hb.specificity_eq, Int.ofNat_inj]
    exact pack_eq_iff ha.styleClassCount ha.pseudoClassCount hb.styleClassCount hb.pseudoClassCount
  · -- both are below `2 ^ 31`, so that the difference does not overflow
    have hspec := ha.specificity_eq
    have hspec' := hb.specificity_eq
    have hbound := ha.idCount
    have hbound' := hb.idCount
    have hclasses := ha.styleClassCount
    have hclasses' := hb.styleClassCount
    have hps := ha.pseudoClassCount
    have hps' := hb.pseudoClassCount
    rw [← hlt, Match.compareTo, BitVec.toInt_sub]
    change (a.specificity - b.specificity).bmod (2 ^ 32) < 0 ↔ _
    rw [Int.bmod_eq_of_le (by omega) (by omega)]
    omega

def lowest : Nat → BitSet
  | 0 => BitSet.new
  | n + 1 => ((lowest n).add id (some n)).1

theorem lowest_isSet (n : Nat) : (lowest n).IsSet (Finset.range n) := by
  induction n with
  | zero => exact ⟨trimmed_nil, fun i => by simp [lowest, BitSet.new]⟩
  | succ n ih =>
    rw [Finset.range_add_one]
    exact BitSet.add_isSet id ih n

def part (matchOnId : Bool) (classes pseudo : Nat) : SimpleSelector where
  name := "*"
  styleClassSet := lowest classes
  id := if matchOnId then "id" else ""
  pseudoClassState := lowest pseudo
  matchOnName := false
  matchOnId := matchOnId
  matchOnStyleClass := decide (0 < classes)
  nodeOrientation := .inherit
  styleClassSet_trimmed := (lowest_isSet classes).trimmed
  pseudoClassState_trimmed := (lowest_isSet pseudo).trimmed

/-- A selector with any given counts: `#id > … > #id > .class…:pseudo…`. -/
def withCounts (ids classes pseudo : Nat) : Selector :=
  .compound
    { selectors := List.replicate ids (part true 0 0) ++ [part false classes pseudo]
      relationships := List.replicate ids .child
      relationships_length := by simp }
    (List.concat_ne_nil _ _)

section

variable (ids classes pseudo : Nat)

theorem idCount_withCounts : (withCounts ids classes pseudo).idCount = ids := by
  simp [idCount, parts, withCounts, SimpleSelector.idCount, part]

theorem size_lowest (n : Nat) : (lowest n).size = n := by
  rw [(lowest_isSet n).size_eq, Finset.card_range]

theorem styleClassCount_withCounts : (withCounts ids classes pseudo).styleClassCount = classes := by
  simp [styleClassCount, parts, withCounts, SimpleSelector.styleClassCount, part, size_lowest]

theorem pseudoClassCount_withCounts :
    (withCounts ids classes pseudo).pseudoClassCount = pseudo := by
  simp [pseudoClassCount, parts, withCounts, SimpleSelector.pseudoClassCount,
    SimpleSelector.orientationCount, part, size_lowest]

theorem counts_withCounts : (withCounts ids classes pseudo).counts =
    toLex (ids, toLex (classes, pseudo)) := by
  rw [counts, idCount_withCounts, styleClassCount_withCounts, pseudoClassCount_withCounts]

theorem pseudoClassIndexes_part (matchOnId : Bool) :
    (part matchOnId classes 0).pseudoClassIndexes = ∅ := by
  ext i
  rw [← (part matchOnId classes 0).isSet_pseudoClassState.mem_iff]
  exact (lowest_isSet 0).mem_iff i

theorem allCounted_withCounts : (withCounts ids classes pseudo).AllCounted := by
  constructor
  · intro sel hsel
    rcases List.mem_append.mp hsel with hsel | hsel
    · rw [List.eq_of_mem_replicate hsel]
      rfl
    · rw [List.mem_singleton.mp hsel]
      rfl
  · refine List.pairwise_append.mpr ⟨?_, List.pairwise_singleton _ _, ?_⟩
    · apply List.pairwise_replicate.mpr
      right
      rw [pseudoClassIndexes_part]
      exact Finset.disjoint_empty_left _
    · intro sel hsel sel' _
      rw [List.eq_of_mem_replicate hsel, pseudoClassIndexes_part]
      exact Finset.disjoint_empty_left _

theorem fits_withCounts (hids : ids < 2 ^ 23) (hclasses : classes < 16) (hps : pseudo < 16) :
    (withCounts ids classes pseudo).Fits := by
  refine ⟨?_, ?_, ?_, allCounted_withCounts ids classes pseudo⟩
  · rw [idCount_withCounts]
    exact hids
  · rw [styleClassCount_withCounts]
    exact hclasses
  · rw [pseudoClassCount_withCounts]
    exact hps

end

theorem fits_of_ordered {a : Selector} (h : ∀ b : Selector, b.Fits → Ordered a b) : a.Fits := by
  obtain ⟨pseudo, hle, hcounted, hspec⟩ := a.specificity_eq
  have hrange : a.specificity < 2 ^ 31 := by
    have := BitVec.toInt_lt (x := a.createMatch.specificity)
    rw [specificity]
    omega
  rcases Int.lt_or_le a.specificity 0 with hneg | hnn
  · -- a negative specificity is below that of a selector without any counts
    have hfits := fits_withCounts 0 0 0 (by decide) (by decide) (by decide)
    have hlt := (h _ hfits).lt_iff
    rw [hfits.specificity_eq, counts_withCounts, pseudoClassCount_withCounts, counts,
      Prod.Lex.toLex_lt_toLex, Prod.Lex.toLex_lt_toLex] at hlt
    omega
  · obtain ⟨v, hv⟩ := Int.eq_ofNat_of_zero_le hnn
    have hfits := fits_withCounts (v / 256) (v / 16 % 16) (v % 16) (by omega) (by omega) (by omega)
    have hcounts := (h _ hfits).eq_iff
    rw [hfits.specificity_eq, counts_withCounts, idCount_withCounts, styleClassCount_withCounts,
      pseudoClassCount_withCounts, counts] at hcounts
    have heq := hcounts.mp (by omega)
    simp only [EmbeddingLike.apply_eq_iff_eq, Prod.mk.injEq] at heq
    rw [toInt_pack (by omega) (by omega) (by omega)] at hspec
    exact ⟨by omega, by omega, by omega, hcounted.mp (by omega)⟩

theorem ordered_iff_fits (a : Selector) : (∀ b : Selector, b.Fits → Ordered a b) ↔ a.Fits :=
  ⟨fits_of_ordered, fun ha _ hb => ha.ordered hb⟩

/-- Sixteen style classes weigh as much as an id. -/
theorem sixteenClasses_not_ordered :
    ¬Ordered (.simple (part false 16 0)) (.simple (part true 0 0)) := by
  intro h
  have hcounts : ¬(Selector.simple (part false 16 0)).counts =
      (Selector.simple (part true 0 0)).counts := by decide
  exact hcounts (h.eq_iff.mp (by decide))

end Selector

end OpenJfx.Css
