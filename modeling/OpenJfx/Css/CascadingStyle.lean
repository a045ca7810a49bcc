import OpenJfx.Java.Ints
import Mathlib.Data.Prod.Lex

namespace OpenJfx.Css

/-- Where a style comes from. -/
inductive StyleOrigin
  | userAgent | user | author | inline
  deriving DecidableEq

namespace StyleOrigin

def values : List StyleOrigin := [.userAgent, .user, .author, .inline]

def ordinal : StyleOrigin → Nat
  | .userAgent => 0
  | .user => 1
  | .author => 2
  | .inline => 3

/-- An enumeration is compared by the order of its values. -/
def compareTo (o other : StyleOrigin) : Int := (o.ordinal : Int) - other.ordinal

end StyleOrigin

open Java.Ints

/-- What the order reads of a declaration: `rule` is the origin of its rule, which has none
without a stylesheet. -/
structure StyleDeclaration where
  property : String
  important : Bool
  rule : Option (Option StyleOrigin)

structure CascadingStyle where
  declaration : StyleDeclaration
  specificity : Int
  ordinal : Int

namespace CascadingStyle

def getProperty (s : CascadingStyle) : String := s.declaration.property

def skinProp (s : CascadingStyle) : Bool := s.getProperty == "-fx-skin"

def source (s : CascadingStyle) : Option StyleOrigin := s.declaration.rule.bind id

def compareSources : Option StyleOrigin → Option StyleOrigin → Int
  | none, _ => -1
  | some _, none => 1
  | some source, some otherSource => otherSource.compareTo source

def compareTo (s other : CascadingStyle) : Int :=
  let c :=
    if s.skinProp && !other.skinProp then 1
    else if s.declaration.important ≠ other.declaration.important then
      if s.declaration.important then -1 else 1
    else if s.source ≠ other.source then compareSources s.source other.source
    else int32 (other.specificity - s.specificity)
  if c = 0 then int32 (other.ordinal - s.ordinal) else c

def originRank : Option StyleOrigin → Nat
  | none => 4
  | some origin => origin.ordinal

/-- What the order depends on, as long as the styles are for one property: the style of the
greater rank goes first. -/
def rank (s : CascadingStyle) : Bool ×ₗ Nat ×ₗ Int ×ₗ Int :=
  toLex (s.declaration.important, toLex (originRank s.source, toLex (s.specificity, s.ordinal)))

/-- A difference of two integers that does not overflow, whichever is subtracted. -/
def Near (x y : Int) : Prop := -2 ^ 31 < y - x ∧ y - x < 2 ^ 31

instance : DecidableRel Near := fun _ _ => inferInstanceAs (Decidable (_ ∧ _))

/-- No subtraction that decides about the order overflows. -/
def Fits (s other : CascadingStyle) : Prop :=
  s.declaration.important = other.declaration.important → s.source = other.source →
    Near s.specificity other.specificity ∧
      (s.specificity = other.specificity → Near s.ordinal other.ordinal)

instance (s other : CascadingStyle) : Decidable (s.Fits other) :=
  inferInstanceAs (Decidable (_ → _ → _ ∧ (_ → _)))

theorem int32_sub {x y : Int} (h : Near x y) : int32 (y - x) = y - x :=
  int32_eq (Int.le_of_lt h.1) h.2

theorem originRank_injective {o o' : Option StyleOrigin} (h : originRank o = originRank o') :
    o = o' := by
  rcases o with _ | _ | _ | _ | _ <;> rcases o' with _ | _ | _ | _ | _ <;> trivial

theorem compareSources_sign {o o' : Option StyleOrigin} (h : originRank o' < originRank o) :
    compareSources o o' < 0 ∧ 0 < compareSources o' o := by
  revert h
  rcases o with _ | _ | _ | _ | _ <;> rcases o' with _ | _ | _ | _ | _ <;> decide

variable {s other : CascadingStyle}

theorem compareTo_eq (hprop : s.getProperty = other.getProperty) :
    s.compareTo other =
      let c :=
        if s.declaration.important ≠ other.declaration.important then
          if s.declaration.important then -1 else 1
        else if s.source ≠ other.source then compareSources s.source other.source
        else int32 (other.specificity - s.specificity)
      if c = 0 then int32 (other.ordinal - s.ordinal) else c := by
  have hskin : (s.skinProp && !other.skinProp) = false := by
    rw [skinProp, skinProp, hprop, Bool.and_not_self]
  rw [compareTo, hskin]
  rfl

theorem rank_lt_iff :
    other.rank < s.rank ↔
      other.declaration.important < s.declaration.important ∨
        other.declaration.important = s.declaration.important ∧
          (originRank other.source < originRank s.source ∨
            originRank other.source = originRank s.source ∧
              (other.specificity < s.specificity ∨
                other.specificity = s.specificity ∧ other.ordinal < s.ordinal)) := by
  simp only [rank, Prod.Lex.toLex_lt_toLex]

theorem compareTo_of_rank_lt (hprop : s.getProperty = other.getProperty)
    (hfits : s.Fits other) (h : other.rank < s.rank) :
    s.compareTo other < 0 ∧ 0 < other.compareTo s := by
  rw [compareTo_eq hprop, compareTo_eq hprop.symm]
  rcases rank_lt_iff.mp h with himp | ⟨himp, horigin | ⟨horigin, hlast⟩⟩
  · obtain ⟨hother, hs⟩ := Bool.lt_iff.mp himp
    rw [hother, hs]
    change (-1 : Int) < 0 ∧ (0 : Int) < 1
    decide
  · obtain ⟨hneg, hpos⟩ := compareSources_sign horigin
    have hne : s.source ≠ other.source := fun heq => by
      rw [heq] at horigin
      exact Nat.lt_irrefl _ horigin
    simp only [himp, ne_eq, not_true_eq_false, if_false, hne, hne.symm, not_false_eq_true,
      if_true]
    rw [if_neg (by omega), if_neg (by omega)]
    exact ⟨hneg, hpos⟩
  · have hsrc := originRank_injective horigin
    obtain ⟨hspec, hordinal⟩ := hfits himp.symm hsrc.symm
    have hspec' : Near other.specificity s.specificity := by
      obtain ⟨hlow, hhigh⟩ := hspec
      constructor <;> omega
    simp only [himp, hsrc, ne_eq, not_true_eq_false, if_false, int32_sub hspec,
      int32_sub hspec']
    rcases hlast with hlt | ⟨heq, hlt⟩
    · constructor <;> omega
    · have hnear := hordinal heq.symm
      have hnear' : Near other.ordinal s.ordinal := by
        obtain ⟨hlow, hhigh⟩ := hnear
        constructor <;> omega
      rw [int32_sub hnear, int32_sub hnear']
      constructor <;> omega

theorem compareTo_of_rank_eq (hprop : s.getProperty = other.getProperty)
    (h : other.rank = s.rank) : s.compareTo other = 0 := by
  rw [rank, rank, toLex_inj, Prod.mk.injEq, toLex_inj, Prod.mk.injEq, toLex_inj, Prod.mk.injEq] at h
  obtain ⟨himp, horigin, hspec, hordinal⟩ := h
  rw [compareTo_eq hprop]
  simp only [himp, originRank_injective horigin, hspec, hordinal, ne_eq, Int.sub_self]
  rfl

theorem Fits.symm (h : s.Fits other) : other.Fits s := by
  intro himp hsrc
  obtain ⟨⟨hlow, hhigh⟩, hordinal⟩ := h himp.symm hsrc.symm
  refine ⟨⟨by omega, by omega⟩, fun heq => ?_⟩
  obtain ⟨hlow', hhigh'⟩ := hordinal heq.symm
  exact ⟨by omega, by omega⟩

theorem compareTo_neg_iff (hprop : s.getProperty = other.getProperty) (hfits : s.Fits other) :
    s.compareTo other < 0 ↔ other.rank < s.rank := by
  refine ⟨fun hneg => ?_, fun h => (compareTo_of_rank_lt hprop hfits h).1⟩
  rcases lt_trichotomy other.rank s.rank with h | h | h
  · exact h
  · have := compareTo_of_rank_eq hprop h
    omega
  · have := compareTo_of_rank_lt hprop.symm hfits.symm h
    omega

theorem compareTo_eq_zero_iff (hprop : s.getProperty = other.getProperty)
    (hfits : s.Fits other) : s.compareTo other = 0 ↔ other.rank = s.rank := by
  refine ⟨fun hzero => ?_, compareTo_of_rank_eq hprop⟩
  rcases lt_trichotomy other.rank s.rank with h | h | h
  · have := compareTo_of_rank_lt hprop hfits h
    omega
  · exact h
  · have := compareTo_of_rank_lt hprop.symm hfits.symm h
    omega

theorem compareTo_nonpos_iff (hprop : s.getProperty = other.getProperty)
    (hfits : s.Fits other) : s.compareTo other ≤ 0 ↔ other.rank ≤ s.rank := by
  rw [Int.le_iff_lt_or_eq, compareTo_neg_iff hprop hfits, compareTo_eq_zero_iff hprop hfits,
    le_iff_lt_or_eq]

/-- `compareTo` is the total preorder of the ranks. -/
structure CascadeOrder (styles : List CascadingStyle) : Prop where
  sign : ∀ a ∈ styles, ∀ b ∈ styles,
    (a.compareTo b < 0 ↔ b.rank < a.rank) ∧ (a.compareTo b = 0 ↔ b.rank = a.rank)
  antisymm : ∀ a ∈ styles, ∀ b ∈ styles, (a.compareTo b).sign = -(b.compareTo a).sign
  trans : ∀ a ∈ styles, ∀ b ∈ styles, ∀ c ∈ styles,
    a.compareTo b ≤ 0 → b.compareTo c ≤ 0 → a.compareTo c ≤ 0
  sorted : ∀ l l' : List CascadingStyle, l.Perm styles → l'.Perm styles →
    l.Pairwise (fun a b => a.compareTo b ≤ 0) → l'.Pairwise (fun a b => a.compareTo b ≤ 0) →
      l.map rank = l'.map rank

theorem pairwise_rank {styles l : List CascadingStyle}
    (hle : ∀ a ∈ styles, ∀ b ∈ styles, a.compareTo b ≤ 0 ↔ b.rank ≤ a.rank) (hl : l.Perm styles)
    (hsort : l.Pairwise fun a b => a.compareTo b ≤ 0) :
    (l.map rank).Pairwise fun r r' => r' ≤ r := by
  refine List.pairwise_map.mpr (List.Pairwise.imp_of_mem (fun {a b} ha hb hab => ?_) hsort)
  exact (hle a (hl.mem_iff.mp ha) b (hl.mem_iff.mp hb)).mp hab

/-- Importance decides first, then the origin, the specificity and the ordinal. -/
theorem compareTo_cascadeOrder (styles : List CascadingStyle)
    (hproperty : ∀ a ∈ styles, ∀ b ∈ styles, a.getProperty = b.getProperty)
    (hfits : ∀ a ∈ styles, ∀ b ∈ styles, a.Fits b) : CascadeOrder styles := by
  have hle : ∀ a ∈ styles, ∀ b ∈ styles, a.compareTo b ≤ 0 ↔ b.rank ≤ a.rank :=
    fun a ha b hb => compareTo_nonpos_iff (hproperty a ha b hb) (hfits a ha b hb)
  constructor
  · intro a ha b hb
    exact ⟨compareTo_neg_iff (hproperty a ha b hb) (hfits a ha b hb),
      compareTo_eq_zero_iff (hproperty a ha b hb) (hfits a ha b hb)⟩
  · intro a ha b hb
    rcases lt_trichotomy b.rank a.rank with h | h | h
    · obtain ⟨hneg, hpos⟩ := compareTo_of_rank_lt (hproperty a ha b hb) (hfits a ha b hb) h
      rw [Int.sign_eq_neg_one_of_neg hneg, Int.sign_eq_one_of_pos hpos]
    · rw [compareTo_of_rank_eq (hproperty a ha b hb) h,
        compareTo_of_rank_eq (hproperty b hb a ha) h.symm]
      rfl
    · obtain ⟨hneg, hpos⟩ := compareTo_of_rank_lt (hproperty b hb a ha) (hfits b hb a ha) h
      rw [Int.sign_eq_neg_one_of_neg hneg, Int.sign_eq_one_of_pos hpos]
      rfl
  · intro a ha b hb c hc hab hbc
    rw [hle a ha b hb] at hab
    rw [hle b hb c hc] at hbc
    exact (hle a ha c hc).mpr (hbc.trans hab)
  · intro l l' hl hl' hsorted hsorted'
    refine List.Perm.eq_of_pairwise (fun r r' _ _ hr hr' => le_antisymm hr' hr)
      (pairwise_rank hle hl hsorted) (pairwise_rank hle hl' hsorted') ?_
    exact (hl.trans hl'.symm).map rank

/-- Three styles of which the second one wins. -/
theorem compareTo_cascadeOrder_threeStyles :
    CascadeOrder [⟨⟨"-fx-fill", false, some (some .author)⟩, 16, 0⟩,
      ⟨⟨"-fx-fill", false, some (some .inline)⟩, 0, 1⟩,
      ⟨⟨"-fx-fill", false, some (some .author)⟩, 16, 2⟩] :=
  compareTo_cascadeOrder _ (by decide) (by decide)

/-- The origin decides before the specificity for all origins; and a difference of two
specificities may overflow. -/
theorem compareTo_not_by_specificity :
    compareTo ⟨⟨"-fx-fill", false, some (some .author)⟩, 1, 0⟩
        ⟨⟨"-fx-fill", false, some (some .userAgent)⟩, 256, 1⟩ < 0 ∧
      (compareTo ⟨⟨"-fx-fill", false, some (some .author)⟩, 2 ^ 31 - 1, 0⟩
          ⟨⟨"-fx-fill", false, some (some .author)⟩, -1, 1⟩ < 0 ∧
        compareTo ⟨⟨"-fx-fill", false, some (some .author)⟩, -1, 1⟩
          ⟨⟨"-fx-fill", false, some (some .author)⟩, 2 ^ 31 - 1, 0⟩ < 0) := by
  decide

end CascadingStyle

end OpenJfx.Css
