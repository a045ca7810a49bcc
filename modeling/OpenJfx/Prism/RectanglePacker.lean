import OpenJfx.Java.Arrays
import OpenJfx.Java.Ints
import Mathlib.Data.List.Pairwise
import Mathlib.Data.List.InsertIdx

/-!
`com.sun.prism.impl.packrect.RectanglePacker` and its `Level`. The region is cut
into levels, strips of the whole length of the region, and a level is filled
from its beginning. Whether the levels are rows or columns is the orientation
of the packer.
-/

namespace OpenJfx.Prism.RectanglePacker

open Java.Arrays Java.Ints

structure Rectangle where
  x : Int
  y : Int
  width : Int
  height : Int
  deriving DecidableEq

structure Level where
  length : Int
  size : Int
  sizeOffset : Int
  lengthOffset : Int

def Level.add (level : Level) (rect : Rectangle) (x y requestedLength requestedSize : Int)
    (vertical : Bool) : Option (Level × Rectangle) :=
  if int32 (level.lengthOffset + requestedLength) ≤ level.length ∧ requestedSize ≤ level.size then
    let rect := if vertical then { rect with x := level.sizeOffset, y := level.lengthOffset }
      else { rect with x := level.lengthOffset, y := level.sizeOffset }
    some ({ level with lengthOffset := int32 (level.lengthOffset + requestedLength) },
      { rect with x := int32 (rect.x + x), y := int32 (rect.y + y) })
  else none

def minSize : Int := 8

def roundUp : Int := 4

structure Packer where
  levels : List Level
  recentUsedLevelIndex : Int
  length : Int
  size : Int
  sizeOffset : Int
  x : Int
  y : Int
  vertical : Bool

def new (x y width height : Int) (vertical : Bool) : Packer :=
  { levels := []
    recentUsedLevelIndex := 0
    length := if vertical then height else width
    size := if vertical then width else height
    sizeOffset := 0
    x := x
    y := y
    vertical := vertical }

/-- The loop of `binarySearch`: `mid` and `midSize` after it. Every round shrinks the
range, so that `fuel` rounds are enough for as many levels. -/
def searchLoop (levels : List Level) (key : Int) :
    Nat → Int → Int → Int → Int → Outcome (Int × Int)
  | 0, _, _, mid, midSize => .ok (mid, midSize)
  | fuel + 1, low, high, mid, midSize =>
    if low ≤ high then do
      let mid := (low + high) / 2
      let level ← load levels mid
      if key < level.size then searchLoop levels key fuel low (mid - 1) mid level.size
      else searchLoop levels key fuel (mid + 1) high mid level.size
    else .ok (mid, midSize)

def binarySearch (levels : List Level) (k : Int) : Outcome Int :=
  if levels.length = 0 then .ok 0
  else do
    let (mid, midSize) ←
      searchLoop levels (int32 (k + 1)) levels.length 0 (levels.length - 1) 0 0
    if midSize < k then .ok (mid + 1)
    else if k < midSize then .ok (if 0 < mid then mid - 1 else 0)
    else .ok mid

def levelSize (requestedSize : Int) : Int :=
  let newSize := if requestedSize < minSize then minSize else requestedSize
  int32 (int32 (newSize + roundUp - 1) - (newSize - 1) % roundUp)

def insertLevel (levels : List Level) (index : Int) (level : Level) : Outcome (List Level) :=
  if 0 ≤ index ∧ index ≤ levels.length then .ok (levels.insertIdx index.toNat level)
  else .error .indexOutOfBounds

section

variable (p : Packer) (rect : Rectangle)

def requestedLength : Int := if p.vertical then rect.height else rect.width

def requestedSize : Int := if p.vertical then rect.width else rect.height

def startIndex (newSize : Int) : Outcome Int :=
  if p.recentUsedLevelIndex < p.levels.length then do
    let level ← load p.levels p.recentUsedLevelIndex
    if level.size ≠ newSize then binarySearch p.levels newSize else .ok p.recentUsedLevelIndex
  else .ok p.recentUsedLevelIndex

def findPlace (newSize : Int) (newLevelFlag : Bool) :
    Nat → Int → Outcome (Option (Int × Level × Rectangle))
  | 0, _ => .ok none
  | count + 1, i => do
    let level ← load p.levels i
    if int32 (newSize + roundUp * 2) < level.size ∧ newLevelFlag then .ok none
    else
      match level.add rect p.x p.y (requestedLength p rect) (requestedSize p rect) p.vertical with
      | some (level, rect) => .ok (some (i, level, rect))
      | none => findPlace newSize newLevelFlag count (i + 1)

def fitsBehind (newIndex newSize : Int) : Outcome Bool :=
  if newIndex < p.levels.length then do
    let level ← load p.levels newIndex
    .ok (decide (level.size ≤ newSize))
  else .ok false

/-- The end of `add`, which makes a new level. -/
def addLevel (newIndex newSize : Int) : Outcome (Packer × Option Rectangle) := do
  let newLevel : Level := ⟨p.length, newSize, p.sizeOffset, 0⟩
  let index := if ← fitsBehind p newIndex newSize then newIndex + 1 else newIndex
  let added :=
    newLevel.add rect p.x p.y (requestedLength p rect) (requestedSize p rect) p.vertical
  -- the list holds the level that the call has changed
  let levels ← insertLevel p.levels index (added.elim newLevel Prod.fst)
  .ok ({ p with levels := levels, recentUsedLevelIndex := index,
                sizeOffset := int32 (p.sizeOffset + newSize) }, added.map Prod.snd)

def add : Outcome (Packer × Option Rectangle) :=
  if p.length < requestedLength p rect then .ok (p, none)
  else if p.size < requestedSize p rect then .ok (p, none)
  else do
    let newSize := levelSize (requestedSize p rect)
    let newIndex ← startIndex p newSize
    let newLevelFlag := decide (int32 (p.sizeOffset + newSize) ≤ p.size)
    match ← findPlace p rect newSize newLevelFlag (p.levels.length - newIndex).toNat newIndex with
    | some (i, level, rect) =>
      .ok ({ p with levels := p.levels.set i.toNat level, recentUsedLevelIndex := i }, some rect)
    | none => if newLevelFlag then addLevel p rect newIndex newSize else .ok (p, none)

def clear : Packer := { p with levels := [], sizeOffset := 0, recentUsedLevelIndex := 0 }

end

open List

/-- A region of positive size below `2 ^ 30` whose edges are integers. -/
structure Region where
  x : Int
  y : Int
  width : Int
  height : Int
  x_low : -2 ^ 31 ≤ x
  y_low : -2 ^ 31 ≤ y
  x_high : x + width < 2 ^ 31
  y_high : y + height < 2 ^ 31
  width_pos : 0 < width
  height_pos : 0 < height
  width_lt : width < 2 ^ 30
  height_lt : height < 2 ^ 30

namespace Rectangle

def Inside (r : Rectangle) (region : Region) : Prop :=
  region.x ≤ r.x ∧ r.x + r.width ≤ region.x + region.width ∧
    region.y ≤ r.y ∧ r.y + r.height ≤ region.y + region.height

/-- The two rectangles have no point in common. -/
def Disjoint (r s : Rectangle) : Prop :=
  r.x + r.width ≤ s.x ∨ s.x + s.width ≤ r.x ∨ r.y + r.height ≤ s.y ∨ s.y + s.height ≤ r.y

end Rectangle

/-- The strips of the two levels have no point in common. -/
def Level.Apart (l m : Level) : Prop :=
  l.sizeOffset + l.size ≤ m.sizeOffset ∨ m.sizeOffset + m.size ≤ l.sizeOffset

theorem Level.Apart.symm {l m : Level} (h : l.Apart m) : m.Apart l := by
  simp only [Level.Apart] at h ⊢
  omega

def along (vertical : Bool) (region : Region) (r : Rectangle) : Int :=
  if vertical then r.y - region.y else r.x - region.x

def across (vertical : Bool) (region : Region) (r : Rectangle) : Int :=
  if vertical then r.x - region.x else r.y - region.y

def extentAlong (vertical : Bool) (r : Rectangle) : Int :=
  if vertical then r.height else r.width

def extentAcross (vertical : Bool) (r : Rectangle) : Int :=
  if vertical then r.width else r.height

/-- The rectangle lies in the used part of the level. -/
structure Level.Holds (vertical : Bool) (region : Region) (level : Level) (r : Rectangle) :
    Prop where
  along_nonneg : 0 ≤ along vertical region r
  along_le : along vertical region r + extentAlong vertical r ≤ level.lengthOffset
  across_ge : level.sizeOffset ≤ across vertical region r
  across_le : across vertical region r + extentAcross vertical r ≤ level.sizeOffset + level.size

structure Level.Valid (length offset : Int) (level : Level) : Prop where
  length_eq : level.length = length
  size_ge : minSize ≤ level.size
  size_dvd : roundUp ∣ level.size
  sizeOffset_nonneg : 0 ≤ level.sizeOffset
  sizeOffset_le : level.sizeOffset + level.size ≤ offset
  lengthOffset_nonneg : 0 ≤ level.lengthOffset
  lengthOffset_le : level.lengthOffset ≤ length

/-- The fields that no call changes belong to the region. -/
structure Packer.Covers (p : Packer) (region : Region) : Prop where
  length_eq : p.length = if p.vertical then region.height else region.width
  size_eq : p.size = if p.vertical then region.width else region.height
  x_eq : p.x = region.x
  y_eq : p.y = region.y

/-- The levels are sorted, apart, and inside the region. -/
structure Packer.Sound (p : Packer) : Prop where
  sorted : p.levels.Pairwise fun l m => l.size ≤ m.size
  apart : p.levels.Pairwise Level.Apart
  valid : ∀ level ∈ p.levels, level.Valid p.length p.sizeOffset
  sizeOffset_nonneg : 0 ≤ p.sizeOffset
  sizeOffset_le : p.sizeOffset ≤ p.size
  recent_nonneg : 0 ≤ p.recentUsedLevelIndex
  recent_lt : p.levels ≠ [] → p.recentUsedLevelIndex < p.levels.length
  recent_zero : p.levels = [] → p.recentUsedLevelIndex = 0

/-- The rectangles placed so far lie in levels and do not overlap. -/
structure Packer.Packs (p : Packer) (region : Region) (placed : List Rectangle) : Prop where
  holds : ∀ r ∈ placed, ∃ level ∈ p.levels, level.Holds p.vertical region r
  disjoint : placed.Pairwise Rectangle.Disjoint

variable {p : Packer} {region : Region}

theorem Packer.Covers.update (h : p.Covers region) (levels : List Level) (recent sizeOffset : Int) :
    Packer.Covers { p with levels := levels, recentUsedLevelIndex := recent,
                           sizeOffset := sizeOffset } region :=
  ⟨h.length_eq, h.size_eq, h.x_eq, h.y_eq⟩

theorem length_bounds (h : p.Covers region) :
    0 < p.length ∧ p.length < 2 ^ 30 ∧ 0 < p.size ∧ p.size < 2 ^ 30 := by
  have hw := region.width_pos
  have hh := region.height_pos
  have hw' := region.width_lt
  have hh' := region.height_lt
  rw [h.length_eq, h.size_eq]
  split_ifs <;> exact ⟨by omega, by omega, by omega, by omega⟩

theorem levelSize_spec {requested size : Int} (hpos : 0 < requested) (hle : requested ≤ size)
    (hsize : size < 2 ^ 30) :
    minSize ≤ levelSize requested ∧ roundUp ∣ levelSize requested ∧
      requested ≤ levelSize requested ∧ levelSize requested ≤ 2 ^ 30 ∧
      ∀ m, minSize ≤ m → roundUp ∣ m → requested ≤ m → levelSize requested ≤ m := by
  obtain ⟨n, hn, hn8, hnr, hor⟩ : ∃ n, (if requested < minSize then minSize else requested) = n ∧
      8 ≤ n ∧ requested ≤ n ∧ (n = 8 ∨ n = requested) := by
    refine ⟨_, rfl, ?_⟩
    rw [minSize]
    split_ifs with hsmall
    · omega
    · omega
  simp only [levelSize, hn]
  simp only [roundUp]
  have hsum : int32 (n + 4 - 1) = n + 4 - 1 := int32_eq (by omega) (by omega)
  rw [int32_eq (by omega) (by omega)]
  exact ⟨by omega, by omega, by omega, by omega, fun m hm hdvd hge => by omega⟩

/-- What the binary search has found out: the sizes before `low` are at most the key, those
behind `high` are greater. -/
structure Narrowed (levels : List Level) (key low high : Int) : Prop where
  below : ∀ (i : Nat) (level : Level), levels[i]? = some level → (i : Int) < low → level.size ≤ key
  above : ∀ (i : Nat) (level : Level), levels[i]? = some level → high < i → key < level.size

def LookedAt (levels : List Level) (key low high mid midSize : Int) : Prop :=
  (∃ level, 0 ≤ mid ∧ levels[mid.toNat]? = some level ∧ level.size = midSize) ∧
    (mid = low - 1 ∧ midSize ≤ key ∨ mid = high + 1 ∧ key < midSize)

theorem searchLoop_spec {levels : List Level} (hsort : levels.Pairwise fun l m => l.size ≤ m.size)
    (key : Int) (fuel : Nat) :
    ∀ low high mid midSize : Int, 0 ≤ low → low ≤ high + 1 → high < levels.length →
      high + 1 - low ≤ fuel → Narrowed levels key low high →
      (low ≤ high ∨ LookedAt levels key low high mid midSize) →
      ∃ u mid' midSize', searchLoop levels key fuel low high mid midSize = .ok (mid', midSize') ∧
        Narrowed levels key u (u - 1) ∧ LookedAt levels key u (u - 1) mid' midSize' := by
  induction fuel with
  | zero =>
    intro low high mid midSize _ hle _ hfuel hnarrow hlooked
    obtain rfl : high = low - 1 := by omega
    exact ⟨low, mid, midSize, rfl, hnarrow, hlooked.resolve_left (by omega)⟩
  | succ fuel ih =>
    intro low high mid midSize hlow hle hhigh hfuel hnarrow hlooked
    rw [searchLoop]
    split_ifs with hrange
    · obtain ⟨m, hm⟩ : ∃ m : Nat, (low + high) / 2 = m := ⟨((low + high) / 2).toNat, by omega⟩
      have hmlt : m < levels.length := by omega
      have hget : levels[m]? = some levels[m] := getElem?_eq_getElem hmlt
      simp only [hm, load_natCast _ _ hmlt, ok_bind]
      -- the sizes on either side of the middle are known from the order
      have hbef : ∀ (i : Nat) (level : Level), levels[i]? = some level → i ≤ m →
          level.size ≤ levels[m].size := by
        intro i level hi him
        obtain ⟨hilt, rfl⟩ := List.getElem?_eq_some_iff.mp hi
        rcases Nat.lt_or_eq_of_le him with hlt | rfl
        · exact pairwise_iff_getElem.mp hsort i m hilt hmlt hlt
        · exact le_refl _
      have hafter : ∀ (i : Nat) (level : Level), levels[i]? = some level → m ≤ i →
          levels[m].size ≤ level.size := by
        intro i level hi him
        obtain ⟨hilt, rfl⟩ := List.getElem?_eq_some_iff.mp hi
        rcases Nat.lt_or_eq_of_le him with hlt | rfl
        · exact pairwise_iff_getElem.mp hsort m i hmlt hilt hlt
        · exact le_refl _
      have hmid : ∃ level, 0 ≤ (m : Int) ∧ levels[(m : Int).toNat]? = some level ∧
          level.size = levels[m].size := ⟨levels[m], by omega, hget, rfl⟩
      split_ifs with hkey
      · refine ih low (m - 1) m _ hlow (by omega) (by omega) (by omega)
          ⟨hnarrow.below, ?_⟩ (.inr ⟨hmid, .inr ⟨by omega, hkey⟩⟩)
        intro i level hi hlt
        have := hafter i level hi (by omega)
        omega
      · refine ih (m + 1) high m _ (by omega) (by omega) hhigh (by omega)
          ⟨?_, hnarrow.above⟩ (.inr ⟨hmid, .inl ⟨by omega, by omega⟩⟩)
        intro i level hi hlt
        have := hbef i level hi (by omega)
        omega
    · obtain rfl : high = low - 1 := by omega
      exact ⟨low, mid, midSize, rfl, hnarrow, hlooked.resolve_left hrange⟩

structure Slot (levels : List Level) (newSize index : Int) : Prop where
  nonneg : 0 ≤ index
  le_length : index ≤ levels.length
  before : ∀ (i : Nat) (level : Level), levels[i]? = some level → (i : Int) < index →
    level.size ≤ newSize
  behind : ∀ (i : Nat) (level : Level), levels[i]? = some level → index < i →
    newSize ≤ level.size

theorem binarySearch_spec {levels : List Level}
    (hsort : levels.Pairwise fun l m => l.size ≤ m.size)
    (hdvd : ∀ level ∈ levels, roundUp ∣ level.size) {k : Int} (hk : roundUp ∣ k) (hpos : 0 ≤ k)
    (hlt : k ≤ 2 ^ 30) :
    ∃ index, binarySearch levels k = .ok index ∧ Slot levels k index := by
  rw [binarySearch]
  split_ifs with hemp
  · refine ⟨0, rfl, le_refl _, by omega, ?_, ?_⟩
    · intro i level _ hi
      omega
    · intro i level hi
      obtain ⟨hilt, -⟩ := List.getElem?_eq_some_iff.mp hi
      omega
  · rw [int32_eq (by omega) (by omega)]
    obtain ⟨u, mid, midSize, hrun, hnarrow, ⟨level, hmid, hget, hsize⟩, hside⟩ :=
      searchLoop_spec hsort (k + 1) levels.length 0 (levels.length - 1) 0 0 (le_refl _)
        (by omega) (by omega) (by omega)
        ⟨fun i _ _ hi => by omega, fun i _ hi hgt => by
          obtain ⟨hilt, -⟩ := List.getElem?_eq_some_iff.mp hi
          omega⟩ (.inl (by omega))
    rw [hrun, ok_bind]
    have hmidlt := (List.getElem?_eq_some_iff.mp hget).1
    -- the sizes are multiples of four, so that none lies between `k` and `k + 1`
    have hquantum : ∀ level ∈ levels, (level.size ≤ k + 1 ↔ level.size ≤ k) := by
      intro level hmem
      have := hdvd level hmem
      rw [roundUp] at this hk
      omega
    have hbelow : ∀ (i : Nat) (level : Level), levels[i]? = some level → (i : Int) < u →
        level.size ≤ k := fun i level hi hlt =>
      (hquantum level (mem_of_getElem? hi)).mp (hnarrow.below i level hi hlt)
    have habove : ∀ (i : Nat) (level : Level), levels[i]? = some level → u ≤ i →
        k ≤ level.size := fun i level hi hge => by
      have := hnarrow.above i level hi (by omega)
      omega
    have hmidSize : midSize ≤ k + 1 ↔ midSize ≤ k := by
      rw [← hsize]
      exact hquantum level (mem_of_getElem? hget)
    have hslot : ∀ {index : Int}, 0 ≤ index → index ≤ levels.length → index ≤ u →
        u ≤ index + 1 → Slot levels k index := fun hnn hle hlow hhigh =>
      ⟨hnn, hle, fun i level hi hlt => hbelow i level hi (by omega),
        fun i level hi hlt => habove i level hi (by omega)⟩
    simp only
    split_ifs with hless hmore hfst
    · exact ⟨_, rfl, hslot (by omega) (by omega) (by omega) (by omega)⟩
    · exact ⟨_, rfl, hslot (by omega) (by omega) (by omega) (by omega)⟩
    · exact ⟨_, rfl, hslot (by omega) (by omega) (by omega) (by omega)⟩
    · exact ⟨_, rfl, hslot (by omega) (by omega) (by omega) (by omega)⟩

variable {newSize : Int}

theorem startIndex_spec (h : p.Sound) (hdvd : roundUp ∣ newSize) (hpos : 0 ≤ newSize)
    (hlt : newSize ≤ 2 ^ 30) :
    ∃ index, startIndex p newSize = .ok index ∧ Slot p.levels newSize index := by
  rw [startIndex]
  split_ifs with hrecent
  · obtain ⟨i, hi⟩ : ∃ i : Nat, p.recentUsedLevelIndex = i :=
      ⟨p.recentUsedLevelIndex.toNat, by have := h.recent_nonneg; omega⟩
    rw [hi] at hrecent ⊢
    have hilt : i < p.levels.length := by omega
    rw [load_natCast _ _ hilt, ok_bind]
    split_ifs with hsize
    · exact binarySearch_spec h.sorted (fun level hl => (h.valid level hl).size_dvd) hdvd hpos hlt
    · rw [not_not] at hsize
      refine ⟨_, rfl, by omega, by omega, ?_, ?_⟩
      · intro j level hj hji
        obtain ⟨hjlt, rfl⟩ := List.getElem?_eq_some_iff.mp hj
        rw [← hsize]
        exact pairwise_iff_getElem.mp h.sorted j i hjlt hilt (by omega)
      · intro j level hj hij
        obtain ⟨hjlt, rfl⟩ := List.getElem?_eq_some_iff.mp hj
        rw [← hsize]
        exact pairwise_iff_getElem.mp h.sorted i j hilt hjlt (by omega)
  · have hnil : p.levels = [] := by
      by_contra hne
      exact hrecent (h.recent_lt hne)
    rw [h.recent_zero hnil, hnil]
    exact ⟨0, rfl, le_refl _, by simp, by simp, by simp⟩

variable {level : Level}

theorem Level.add_spec (hcovers : p.Covers region) {rect : Rectangle} (hwd : 0 < rect.width)
    (hht : 0 < rect.height) (hvalid : level.Valid p.length p.size) {level' : Level}
    {rect' : Rectangle} (hlen : requestedLength p rect ≤ p.length)
    (hadd : level.add rect p.x p.y (requestedLength p rect) (requestedSize p rect) p.vertical =
      some (level', rect')) :
    level' = { level with lengthOffset := level.lengthOffset + requestedLength p rect } ∧
      rect'.width = rect.width ∧ rect'.height = rect.height ∧ rect'.Inside region ∧
      along p.vertical region rect' = level.lengthOffset ∧
      extentAlong p.vertical rect' = requestedLength p rect ∧
      level.lengthOffset + requestedLength p rect ≤ p.length ∧
      across p.vertical region rect' = level.sizeOffset ∧
      extentAcross p.vertical rect' ≤ level.size := by
  have hbounds := length_bounds hcovers
  have hlength := hcovers.length_eq
  have hsize := hcovers.size_eq
  have hx := hcovers.x_eq
  have hy := hcovers.y_eq
  have h₁ := hvalid.sizeOffset_nonneg
  have h₂ := hvalid.sizeOffset_le
  have h₃ := hvalid.lengthOffset_nonneg
  have h₄ := hvalid.lengthOffset_le
  have h₅ := hvalid.length_eq
  have r₁ := region.x_low
  have r₂ := region.y_low
  have r₃ := region.x_high
  have r₄ := region.y_high
  have hreq : 0 < requestedLength p rect := by
    rw [requestedLength]
    split_ifs
    · exact hht
    · exact hwd
  have hsum : int32 (level.lengthOffset + requestedLength p rect) =
      level.lengthOffset + requestedLength p rect := int32_eq (by omega) (by omega)
  rw [Level.add, hsum] at hadd
  split_ifs at hadd with hfits hv
  · obtain ⟨rfl, rfl⟩ := Prod.mk.inj (Option.some.inj hadd)
    simp only [requestedLength, requestedSize, if_pos hv] at *
    have hx' : int32 (level.sizeOffset + region.x) = level.sizeOffset + region.x :=
      int32_eq (by omega) (by omega)
    have hy' : int32 (level.lengthOffset + region.y) = level.lengthOffset + region.y :=
      int32_eq (by omega) (by omega)
    rw [hx, hy]
    simp only [Rectangle.Inside, along, across, extentAlong, extentAcross, if_pos hv, true_and]
    omega
  · obtain ⟨rfl, rfl⟩ := Prod.mk.inj (Option.some.inj hadd)
    simp only [requestedLength, requestedSize, if_neg hv] at *
    have hx' : int32 (level.lengthOffset + region.x) = level.lengthOffset + region.x :=
      int32_eq (by omega) (by omega)
    have hy' : int32 (level.sizeOffset + region.y) = level.sizeOffset + region.y :=
      int32_eq (by omega) (by omega)
    rw [hx, hy]
    simp only [Rectangle.Inside, along, across, extentAlong, extentAcross, if_neg hv, true_and]
    omega

variable {vertical : Bool} {r s : Rectangle}

theorem disjoint_of_apart {l m : Level} (hl : l.Holds vertical region r)
    (hm : m.Holds vertical region s) (h : l.Apart m) :
    r.Disjoint s := by
  obtain ⟨-, -, hl₁, hl₂⟩ := hl
  obtain ⟨-, -, hm₁, hm₂⟩ := hm
  simp only [Level.Apart] at h
  simp only [across, extentAcross, Rectangle.Disjoint] at *
  split_ifs at * <;> omega

theorem disjoint_of_behind (hr : level.lengthOffset ≤ along vertical region r)
    (hs : level.Holds vertical region s) :
    r.Disjoint s := by
  obtain ⟨-, hs, -, -⟩ := hs
  simp only [along, extentAlong, Rectangle.Disjoint] at *
  split_ifs at * <;> omega

theorem findPlace_spec (p : Packer) (rect : Rectangle) (newSize : Int) (newLevelFlag : Bool)
    (count : Nat) :
    ∀ i : Nat, i + count ≤ p.levels.length →
      findPlace p rect newSize newLevelFlag count i = .ok none ∨
      ∃ (j : Nat) (level level' : Level) (rect' : Rectangle),
        findPlace p rect newSize newLevelFlag count i = .ok (some (j, level', rect')) ∧
        p.levels[j]? = some level ∧
        level.add rect p.x p.y (requestedLength p rect) (requestedSize p rect) p.vertical =
          some (level', rect') := by
  induction count with
  | zero => exact fun i _ => .inl rfl
  | succ count ih =>
    intro i hi
    have hlt : i < p.levels.length := by omega
    rw [findPlace, load_natCast _ _ hlt, ok_bind]
    split_ifs with hbreak
    · exact .inl rfl
    · cases hadd : p.levels[i].add rect p.x p.y (requestedLength p rect) (requestedSize p rect)
          p.vertical with
      | some added =>
        obtain ⟨level', rect'⟩ := added
        exact .inr ⟨i, p.levels[i], level', rect', rfl, getElem?_eq_getElem hlt, hadd⟩
      | none => exact ih (i + 1) (by omega)

theorem pairwise_insertIdx {α : Type} {R : α → α → Prop} {a : α} (l : List α) :
    ∀ n : Nat, l.Pairwise R → (∀ (i : Nat) (x : α), l[i]? = some x → i < n → R x a) →
      (∀ (i : Nat) (x : α), l[i]? = some x → n ≤ i → R a x) → (l.insertIdx n a).Pairwise R := by
  induction l with
  | nil =>
    intro n _ _ _
    cases n with
    | zero => simp
    | succ n => simp
  | cons y rest ih =>
    intro n h hbef hbehind
    obtain ⟨hy, hrest⟩ := pairwise_cons.mp h
    cases n with
    | zero =>
      rw [insertIdx_zero, pairwise_cons]
      refine ⟨?_, h⟩
      intro x hx
      obtain ⟨i, hi⟩ := mem_iff_getElem?.mp hx
      exact hbehind i x hi (Nat.zero_le _)
    | succ n =>
      constructor
      · intro x hx
        rcases eq_or_mem_of_mem_insertIdx hx with rfl | hx
        · exact hbef 0 y rfl (by omega)
        · exact hy x hx
      · exact ih n hrest (fun i x hi hlt => hbef (i + 1) x hi (by omega))
          (fun i x hi hle => hbehind (i + 1) x hi (by omega))

theorem Level.Valid.mono {length offset offset' : Int} (h : level.Valid length offset)
    (hle : offset ≤ offset') : level.Valid length offset' :=
  { h with sizeOffset_le := Int.le_trans h.sizeOffset_le hle }

variable {i : Nat} {lengthOffset : Int}

theorem sound_set (h : p.Sound) (hget : p.levels[i]? = some level) (hnn : 0 ≤ lengthOffset)
    (hle : lengthOffset ≤ p.length) :
    Packer.Sound { p with levels := p.levels.set i { level with lengthOffset := lengthOffset }
                          recentUsedLevelIndex := i } := by
  obtain ⟨hlt, rfl⟩ := List.getElem?_eq_some_iff.mp hget
  have hstrips : (p.levels.set i { p.levels[i] with lengthOffset := lengthOffset }).map
      (fun l => (l.sizeOffset, l.size)) = p.levels.map fun l => (l.sizeOffset, l.size) := by
    apply ext_getElem?
    intro j
    rw [getElem?_map, getElem?_map, getElem?_set]
    split_ifs with hij
    · rw [← hij, getElem?_eq_getElem hlt]
      rfl
    · rfl
  have hpair : ∀ R : Int × Int → Int × Int → Prop,
      p.levels.Pairwise (fun l m => R (l.sizeOffset, l.size) (m.sizeOffset, m.size)) →
      (p.levels.set i { p.levels[i] with lengthOffset := lengthOffset }).Pairwise
        fun l m => R (l.sizeOffset, l.size) (m.sizeOffset, m.size) := by
    intro R hR
    rw [← pairwise_map (R := R) (f := fun l : Level => (l.sizeOffset, l.size)), hstrips,
      pairwise_map]
    exact hR
  refine ⟨hpair (fun x y => x.2 ≤ y.2) h.sorted,
    hpair (fun x y => x.1 + x.2 ≤ y.1 ∨ y.1 + y.2 ≤ x.1) h.apart, ?_, h.sizeOffset_nonneg,
    h.sizeOffset_le, by simp, by simpa using fun _ => hlt, ?_⟩
  · intro m hm
    rcases mem_or_eq_of_mem_set hm with hm | rfl
    · exact h.valid m hm
    · have hvalid := h.valid _ (getElem_mem hlt)
      exact ⟨hvalid.length_eq, hvalid.size_ge, hvalid.size_dvd, hvalid.sizeOffset_nonneg,
        hvalid.sizeOffset_le, hnn, hle⟩
  · intro hnil
    have := congrArg List.length hnil
    simp only [length_set, length_nil] at this
    omega

theorem sound_insert (h : p.Sound) {index : Int} (hidx : 0 ≤ index)
    (hle : index ≤ p.levels.length)
    (hbef : ∀ (i : Nat) (level : Level), p.levels[i]? = some level → (i : Int) < index →
      level.size ≤ newSize)
    (hbehind : ∀ (i : Nat) (level : Level), p.levels[i]? = some level → index ≤ i →
      newSize ≤ level.size) (hsize : minSize ≤ newSize) (hdvd : roundUp ∣ newSize)
    (hroom : p.sizeOffset + newSize ≤ p.size) (hnn : 0 ≤ lengthOffset)
    (hlen : lengthOffset ≤ p.length) :
    Packer.Sound { p with
      levels := p.levels.insertIdx index.toNat ⟨p.length, newSize, p.sizeOffset, lengthOffset⟩
      recentUsedLevelIndex := index
      sizeOffset := p.sizeOffset + newSize } := by
  have hmin : (0 : Int) < newSize := by
    rw [minSize] at hsize
    omega
  have hlength : (p.levels.insertIdx index.toNat
      ⟨p.length, newSize, p.sizeOffset, lengthOffset⟩).length = p.levels.length + 1 :=
    length_insertIdx_of_le_length (by omega) _
  have hold : ∀ (i : Nat) (level : Level), p.levels[i]? = some level →
      level.sizeOffset + level.size ≤ p.sizeOffset := fun i level hi =>
    (h.valid level (mem_of_getElem? hi)).sizeOffset_le
  refine ⟨?_, ?_, ?_, ?_, hroom, hidx, ?_, ?_⟩
  · exact pairwise_insertIdx _ _ h.sorted (fun i level hi hlt => hbef i level hi (by omega))
      (fun i level hi hge => hbehind i level hi (by omega))
  · exact pairwise_insertIdx _ _ h.apart (fun i level hi _ => .inl (hold i level hi))
      (fun i level hi _ => .inr (hold i level hi))
  · intro level hlevel
    rcases eq_or_mem_of_mem_insertIdx hlevel with rfl | hlevel
    · exact ⟨rfl, hsize, hdvd, h.sizeOffset_nonneg, le_refl _, hnn, hlen⟩
    · exact (h.valid level hlevel).mono (Int.le_add_of_nonneg_right (Int.le_of_lt hmin))
  · have := h.sizeOffset_nonneg
    exact Int.add_nonneg this (Int.le_of_lt hmin)
  · intro _
    simp only [hlength]
    omega
  · intro hnil
    have := congrArg List.length hnil
    simp only [length_nil] at this
    omega

variable {placed : List Rectangle}

theorem packs_set (h : p.Sound) (hpacks : p.Packs region placed) (hget : p.levels[i]? = some level)
    (hbehind : level.lengthOffset ≤ along p.vertical region r)
    (hmono : level.lengthOffset ≤ lengthOffset)
    (hholds : Level.Holds p.vertical region { level with lengthOffset := lengthOffset } r) :
    Packer.Packs { p with levels := p.levels.set i { level with lengthOffset := lengthOffset }
                          recentUsedLevelIndex := i } region (r :: placed) := by
  obtain ⟨hlt, rfl⟩ := List.getElem?_eq_some_iff.mp hget
  have hmem : { p.levels[i] with lengthOffset := lengthOffset } ∈
      p.levels.set i { p.levels[i] with lengthOffset := lengthOffset } :=
    mem_iff_getElem?.mpr ⟨i, getElem?_set_self hlt⟩
  constructor
  · intro s hs
    rcases mem_cons.mp hs with rfl | hs
    · exact ⟨_, hmem, hholds⟩
    · obtain ⟨m, hm, hsm⟩ := hpacks.holds s hs
      obtain ⟨j, hj⟩ := mem_iff_getElem?.mp hm
      rcases Nat.decEq i j with hij | rfl
      · exact ⟨m, mem_iff_getElem?.mpr ⟨j, by rw [getElem?_set_ne hij, hj]⟩, hsm⟩
      · obtain ⟨_, rfl⟩ := List.getElem?_eq_some_iff.mp hj
        exact ⟨_, hmem, ⟨hsm.along_nonneg, Int.le_trans hsm.along_le hmono, hsm.across_ge,
          hsm.across_le⟩⟩
  · refine pairwise_cons.mpr ⟨?_, hpacks.disjoint⟩
    intro s hs
    obtain ⟨m, hm, hsm⟩ := hpacks.holds s hs
    obtain ⟨j, hjlt, rfl⟩ := getElem_of_mem hm
    rcases Nat.lt_trichotomy i j with hij | rfl | hij
    · have := pairwise_iff_getElem.mp h.apart i j hlt hjlt hij
      exact disjoint_of_apart hholds hsm this
    · exact disjoint_of_behind hbehind hsm
    · have := pairwise_iff_getElem.mp h.apart j i hjlt hlt hij
      exact disjoint_of_apart hholds hsm this.symm

theorem packs_insert (h : p.Sound) (hpacks : p.Packs region placed) {index sizeOffset : Int}
    (hidx : index.toNat ≤ p.levels.length) (hlevel : level.sizeOffset = p.sizeOffset)
    (hholds : level.Holds p.vertical region r) :
    Packer.Packs { p with levels := p.levels.insertIdx index.toNat level
                          recentUsedLevelIndex := index, sizeOffset := sizeOffset }
      region (r :: placed) := by
  constructor
  · intro s hs
    rcases mem_cons.mp hs with rfl | hs
    · exact ⟨level, (mem_insertIdx hidx).mpr (.inl rfl), hholds⟩
    · obtain ⟨m, hm, hsm⟩ := hpacks.holds s hs
      exact ⟨m, (mem_insertIdx hidx).mpr (.inr hm), hsm⟩
  · refine pairwise_cons.mpr ⟨?_, hpacks.disjoint⟩
    intro s hs
    obtain ⟨m, hm, hsm⟩ := hpacks.holds s hs
    have := (h.valid m hm).sizeOffset_le
    exact disjoint_of_apart hholds hsm (.inr (by omega))

/-- A rectangle of positive size, wherever it stands. -/
structure Request where
  rect : Rectangle
  width_pos : 0 < rect.width
  height_pos : 0 < rect.height

/-- What a call of `add` leads to. -/
structure Added (region : Region) (placed : List Rectangle) (p : Packer) (rect : Rectangle)
    (p' : Packer) (result : Option Rectangle) : Prop where
  covers : p'.Covers region
  sound : p'.Sound
  packs : p'.Packs region (result.toList ++ placed)
  failed : result = none → p' = p
  inside : ∀ r, result = some r → r.width = rect.width ∧ r.height = rect.height ∧ r.Inside region

theorem fitsBehind_spec {newIndex : Int} (hslot : Slot p.levels newSize newIndex) :
    ∃ behind, fitsBehind p newIndex newSize = .ok behind ∧
      Slot p.levels newSize (if behind then newIndex + 1 else newIndex) ∧
      ∀ (i : Nat) (level : Level), p.levels[i]? = some level →
        (if behind then newIndex + 1 else newIndex) ≤ i → newSize ≤ level.size := by
  rw [fitsBehind]
  obtain ⟨n, rfl⟩ : ∃ n : Nat, newIndex = n := ⟨newIndex.toNat, by have := hslot.nonneg; omega⟩
  split_ifs with hlt
  · have hnlt : n < p.levels.length := by omega
    rw [load_natCast _ _ hnlt]
    refine ⟨_, rfl, ?_⟩
    by_cases hle : p.levels[n].size ≤ newSize
    · simp only [hle, decide_true, if_true]
      refine ⟨⟨by omega, by omega, ?_, ?_⟩, ?_⟩
      · intro i level hi hlt'
        rcases Int.lt_or_eq_of_le (Int.lt_add_one_iff.mp hlt') with hlt' | heq
        · exact hslot.before i level hi hlt'
        · obtain rfl : i = n := by omega
          obtain ⟨-, rfl⟩ := List.getElem?_eq_some_iff.mp hi
          exact hle
      · exact fun i level hi hlt' => hslot.behind i level hi (by omega)
      · exact fun i level hi hlt' => hslot.behind i level hi (by omega)
    · simp only [hle, decide_false, Bool.false_eq_true, if_false]
      refine ⟨hslot, ?_⟩
      intro i level hi hge
      rcases Int.lt_or_eq_of_le hge with hgt | heq
      · exact hslot.behind i level hi hgt
      · obtain rfl : i = n := by omega
        obtain ⟨-, rfl⟩ := List.getElem?_eq_some_iff.mp hi
        omega
  · refine ⟨false, rfl, hslot, ?_⟩
    intro i level hi hge
    have := (List.getElem?_eq_some_iff.mp hi).1
    omega

theorem Request.requestedLength_pos (p : Packer) (request : Request) :
    0 < requestedLength p request.rect := by
  rw [requestedLength]
  split_ifs
  · exact request.height_pos
  · exact request.width_pos

theorem Request.requestedSize_pos (p : Packer) (request : Request) :
    0 < requestedSize p request.rect := by
  rw [requestedSize]
  split_ifs
  · exact request.width_pos
  · exact request.height_pos

theorem addLevel_spec (hcovers : p.Covers region) (h : p.Sound) (hpacks : p.Packs region placed)
    (request : Request) (hlen : requestedLength p request.rect ≤ p.length) {newIndex : Int}
    (hslot : Slot p.levels newSize newIndex) (hmin : minSize ≤ newSize) (hdvd : roundUp ∣ newSize)
    (hfits : requestedSize p request.rect ≤ newSize) (hroom : p.sizeOffset + newSize ≤ p.size) :
    ∃ p' result, addLevel p request.rect newIndex newSize = .ok (p', result) ∧
      Added region placed p request.rect p' result := by
  obtain ⟨hlpos, hllt, hspos, hslt⟩ := length_bounds hcovers
  have hpos := request.requestedLength_pos p
  have hnn := h.sizeOffset_nonneg
  have hvalid : Level.Valid p.length p.size ⟨p.length, newSize, p.sizeOffset, 0⟩ :=
    ⟨rfl, hmin, hdvd, hnn, hroom, le_refl _, Int.le_of_lt hlpos⟩
  have hzero : int32 (0 + requestedLength p request.rect) = requestedLength p request.rect := by
    rw [Int.zero_add, int32_eq (by omega) (by omega)]
  obtain ⟨level', rect', hadd⟩ : ∃ level' rect', Level.add ⟨p.length, newSize, p.sizeOffset, 0⟩
      request.rect p.x p.y (requestedLength p request.rect) (requestedSize p request.rect)
      p.vertical = some (level', rect') :=
    ⟨_, _, if_pos ⟨by rw [hzero]; exact hlen, hfits⟩⟩
  obtain ⟨rfl, hwd, hht, hinside, halong, hextent, -, hacross, hsize⟩ :=
    Level.add_spec hcovers request.width_pos request.height_pos hvalid hlen hadd
  obtain ⟨behind, hbehind, hidx, hlarger⟩ := fitsBehind_spec hslot
  have hsum : int32 (p.sizeOffset + newSize) = p.sizeOffset + newSize := by
    rw [minSize] at hmin
    exact int32_eq (by omega) (by omega)
  simp only [addLevel, hbehind, ok_bind, hadd, hsum]
  generalize (if behind then newIndex + 1 else newIndex) = index at hidx hlarger ⊢
  have hbounds : 0 ≤ index ∧ index ≤ p.levels.length := ⟨hidx.nonneg, hidx.le_length⟩
  rw [insertLevel, if_pos hbounds]
  simp only [Int.zero_add] at halong ⊢
  have hholds : Level.Holds p.vertical region
      ⟨p.length, newSize, p.sizeOffset, requestedLength p request.rect⟩ rect' := by
    simp only at hacross hsize
    constructor <;> simp only [halong, hacross, hextent] <;> omega
  refine ⟨_, _, rfl, hcovers.update _ _ _, ?_, ?_, by simp, ?_⟩
  · exact sound_insert h hbounds.1 hbounds.2 hidx.before hlarger hmin hdvd hroom
      (Int.le_of_lt hpos) hlen
  · exact packs_insert h hpacks (by omega) rfl hholds
  · rintro r hr
    obtain rfl : rect' = r := by simpa using hr
    exact ⟨hwd, hht, hinside⟩

theorem add_spec (hcovers : p.Covers region) (h : p.Sound) (hpacks : p.Packs region placed)
    (request : Request) :
    ∃ p' result, add p request.rect = .ok (p', result) ∧
      Added region placed p request.rect p' result := by
  have hfails : Added region placed p request.rect p none :=
    ⟨hcovers, h, hpacks, fun _ => rfl, by simp⟩
  obtain ⟨hlpos, hllt, hspos, hslt⟩ := length_bounds hcovers
  rw [add]
  split_ifs with hlen hsize
  · exact ⟨p, none, rfl, hfails⟩
  · exact ⟨p, none, rfl, hfails⟩
  · rw [not_lt] at hlen hsize
    obtain ⟨hmin, hdvd, hfits, hle, -⟩ :=
      levelSize_spec (request.requestedSize_pos p) hsize hslt
    have hnn := h.sizeOffset_nonneg
    have hoff := h.sizeOffset_le
    have hmin' := hmin
    rw [minSize] at hmin'
    obtain ⟨newIndex, hstart, hslot⟩ := startIndex_spec h hdvd (by omega) hle
    have hsum : int32 (p.sizeOffset + levelSize (requestedSize p request.rect)) =
        p.sizeOffset + levelSize (requestedSize p request.rect) := int32_eq (by omega) (by omega)
    simp only [hstart, ok_bind, hsum]
    obtain ⟨n, rfl⟩ : ∃ n : Nat, newIndex = n := ⟨newIndex.toNat, by have := hslot.nonneg; omega⟩
    have hn := hslot.le_length
    rcases findPlace_spec p request.rect (levelSize (requestedSize p request.rect))
      (decide (p.sizeOffset + levelSize (requestedSize p request.rect) ≤ p.size))
      (p.levels.length - n : Int).toNat n (by omega) with hnone | ⟨j, level, level', rect', hfound,
        hget, hadd⟩
    · rw [hnone, ok_bind]
      simp only [decide_eq_true_iff]
      split_ifs with hroom
      · exact addLevel_spec hcovers h hpacks request hlen hslot hmin hdvd hfits hroom
      · exact ⟨p, none, rfl, hfails⟩
    · rw [hfound, ok_bind]
      have hvalid := (h.valid level (mem_of_getElem? hget)).mono hoff
      obtain ⟨rfl, hwd, hht, hinside, halong, hextent, hend, hacross, hacross'⟩ :=
        Level.add_spec hcovers request.width_pos request.height_pos hvalid hlen hadd
      have hpos := request.requestedLength_pos p
      have hused := hvalid.lengthOffset_nonneg
      refine ⟨_, _, rfl, hcovers.update _ _ _, sound_set h hget (by omega) hend, ?_, by simp, ?_⟩
      · refine packs_set h hpacks hget (by omega) (by omega) ?_
        constructor <;> simp only [halong, hacross, hextent] <;> omega
      · intro r hr
        obtain rfl : rect' = r := by simpa using hr
        exact ⟨hwd, hht, hinside⟩

inductive Call
  | add (request : Request)
  | clear

/-- A call, with the rectangles that have been placed since the last `clear`. -/
def step (s : Packer × List Rectangle) : Call → Outcome (Packer × List Rectangle)
  | .add request => do
    let (p, result) ← add s.1 request.rect
    .ok (p, result.toList ++ s.2)
  | .clear => .ok (clear s.1, [])

def run (calls : List Call) (s : Packer × List Rectangle) : Outcome (Packer × List Rectangle) :=
  calls.foldlM step s

structure Consistent (region : Region) (s : Packer × List Rectangle) : Prop where
  covers : s.1.Covers region
  sound : s.1.Sound
  packs : s.1.Packs region s.2
  inside : ∀ r ∈ s.2, r.Inside region

theorem step_consistent {s : Packer × List Rectangle} (h : Consistent region s) (call : Call) :
    ∃ s', step s call = .ok s' ∧ Consistent region s' := by
  cases call with
  | add request =>
    obtain ⟨p', result, hadd, hadded⟩ := add_spec h.covers h.sound h.packs request
    refine ⟨_, by rw [step, hadd, ok_bind], hadded.covers, hadded.sound, hadded.packs, ?_⟩
    intro r hr
    rcases mem_append.mp hr with hr | hr
    · exact (hadded.inside r (by simpa using hr)).2.2
    · exact h.inside r hr
  | clear =>
    have hsize := (length_bounds h.covers).2.2.1
    refine ⟨_, rfl, h.covers.update _ _ _, ?_, by constructor <;> simp, by simp⟩
    constructor <;> simp [clear]
    exact Int.le_of_lt hsize

theorem run_consistent (calls : List Call) :
    ∀ s, Consistent region s → ∃ s', run calls s = .ok s' ∧ Consistent region s' := by
  induction calls with
  | nil => exact fun s h => ⟨s, rfl, h⟩
  | cons call calls ih =>
    intro s h
    obtain ⟨s₁, hstep, h₁⟩ := step_consistent h call
    obtain ⟨s₂, hrun, h₂⟩ := ih s₁ h₁
    exact ⟨s₂, by rw [run, foldlM_cons, hstep, ok_bind]; exact hrun, h₂⟩

theorem consistent_new (region : Region) (vertical : Bool) :
    Consistent region (new region.x region.y region.width region.height vertical, []) := by
  have hcovers : (new region.x region.y region.width region.height vertical).Covers region :=
    ⟨rfl, rfl, rfl, rfl⟩
  refine ⟨hcovers, ?_, by constructor <;> simp, by simp⟩
  have := (length_bounds hcovers).2.2.1
  constructor <;> simp [new] at this ⊢
  exact Int.le_of_lt this

/-- No call of a run fails. After each of them the levels are sorted, their strips and the
rectangles that have been placed are apart, and all of these lie in the region. A further
rectangle either gets a place in the region and keeps its size, or nothing is changed. -/
theorem run_packs (region : Region) (vertical : Bool) (calls : List Call) :
    ∃ p placed,
      run calls (new region.x region.y region.width region.height vertical, []) = .ok (p, placed) ∧
      p.Sound ∧ (∀ r ∈ placed, r.Inside region) ∧ placed.Pairwise Rectangle.Disjoint ∧
      ∀ request : Request, ∃ p' result, add p request.rect = .ok (p', result) ∧
        (result = none → p' = p) ∧
        ∀ r, result = some r → r.width = request.rect.width ∧ r.height = request.rect.height ∧
          r.Inside region ∧ ∀ s ∈ placed, r.Disjoint s := by
  obtain ⟨⟨p, placed⟩, hrun, h⟩ := run_consistent calls _ (consistent_new region vertical)
  refine ⟨p, placed, hrun, h.sound, h.inside, h.packs.disjoint, ?_⟩
  intro request
  obtain ⟨p', result, hadd, hadded⟩ := add_spec h.covers h.sound h.packs request
  refine ⟨p', result, hadd, hadded.failed, ?_⟩
  rintro r rfl
  obtain ⟨hwidth, hheight, hinside⟩ := hadded.inside r rfl
  exact ⟨hwidth, hheight, hinside, (pairwise_cons.mp hadded.packs.disjoint).1⟩

/-- The second rectangle goes beside the first one, the third one finds no place. -/
example :
    let region : Region := ⟨0, 0, 64, 64, by decide, by decide, by decide, by decide, by decide,
      by decide, by decide, by decide⟩
    (run [.add ⟨⟨0, 0, 10, 20⟩, by decide, by decide⟩, .add ⟨⟨0, 0, 12, 18⟩, by decide, by decide⟩,
      .add ⟨⟨0, 0, 50, 60⟩, by decide, by decide⟩]
      (new region.x region.y region.width region.height false, [])).map Prod.snd =
      .ok [⟨10, 0, 12, 18⟩, ⟨0, 0, 10, 20⟩] := by decide

end OpenJfx.Prism.RectanglePacker
