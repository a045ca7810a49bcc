import OpenJfx.Geom.DirtyRegionContainer
import OpenJfx.Data.RootMap
import OpenJfx.Data.Loop
import Mathlib.Data.List.Count

namespace OpenJfx.Geom

open Java.Arrays Data List

section

variable {α β : Type}

@[simp] theorem call_ok_bind (a : α) (f : α → Call β) : ((.ok a : Call α) >>= f) = f a := rfl

@[simp] theorem call_pure (a : α) : (pure a : Call α) = .ok a := rfl

variable {array : List α} {index : Nat}

theorem read_eq_ok {value : α} (h : array[index]? = some value) :
    read array (index : Int) = .ok value := by
  rw [read, load_eq_ok h]
  rfl

theorem read_ok (h : index < array.length) :
    read array (index : Int) = .ok array[index] :=
  read_eq_ok (getElem?_eq_getElem h)

theorem write_ok (h : index < array.length) (value : α) :
    write array (index : Int) value = .ok (array.set index value) := by
  rw [write, store_eq_set value h]
  rfl

end

namespace Heap

structure Formed (h : Heap) : Prop where
  size_le : h.size ≤ h.slots.length
  refers : ∀ object ∈ h.slots, object < h.entries.length

structure Rearranged (h h' : Heap) : Prop where
  entries : h'.entries = h.entries
  size : h'.size = h.size
  perm : h'.slots.Perm h.slots
  used : (h'.slots.take h.size).Perm (h.slots.take h.size)

variable {h h' : Heap}

theorem Rearranged.refl (h : Heap) : h.Rearranged h := ⟨rfl, rfl, .refl _, .refl _⟩

theorem Rearranged.trans {h'' : Heap} (hh' : h.Rearranged h') (hh'' : h'.Rearranged h'') :
    h.Rearranged h'' where
  entries := hh''.entries.trans hh'.entries
  size := hh''.size.trans hh'.size
  perm := hh''.perm.trans hh'.perm
  used := by
    have hused := hh''.used
    rw [hh'.size] at hused
    exact hused.trans hh'.used

theorem Rearranged.formed (hh' : h.Rearranged h') (hformed : h.Formed) : h'.Formed where
  size_le := by
    rw [hh'.size, hh'.perm.length_eq]
    exact hformed.size_le
  refers := by
    intro object hobj
    rw [hh'.entries]
    exact hformed.refers object (hh'.perm.mem_iff.mp hobj)

def areaOf (h : Heap) (object : Nat) : Int := (h.entries[object]?.map HeapEntry.area).getD 0

def areaAt (h : Heap) (slot : Nat) : Int := (h.slots[slot]?.map h.areaOf).getD 0

theorem entry_ok (hformed : h.Formed) {slot : Nat} (hslot : slot < h.slots.length) :
    ∃ e, h.entry slot = .ok e ∧ e.area = h.areaAt slot := by
  have hobj := hformed.refers h.slots[slot] (getElem_mem hslot)
  refine ⟨h.entries[h.slots[slot]], ?_, ?_⟩
  · rw [entry, read_ok hslot, call_ok_bind, read_ok hobj]
  · simp [areaAt, areaOf, hslot, hobj]

theorem smallerChild_ok (hformed : h.Formed) {i : Nat} (hi : i < h.size / 2) :
    ∃ child, h.smallerChild i = .ok child ∧ i < child ∧ child < h.size := by
  have hsize := hformed.size_le
  rcases entry_ok hformed (show 2 * i + 1 < h.slots.length by omega) with ⟨left, hleft, -⟩
  simp only [smallerChild, hleft, call_ok_bind]
  split
  · rename_i hright
    rcases entry_ok hformed (show 2 * i + 1 + 1 < h.slots.length by omega) with
      ⟨right, hright', -⟩
    rw [hright', call_ok_bind]
    split
    · exact ⟨_, rfl, by omega, hright⟩
    · exact ⟨_, rfl, by omega, by omega⟩
  · exact ⟨_, rfl, by omega, by omega⟩

theorem rearranged_swap {i j : Nat} (hi : i < h.slots.length) (hj : j < h.slots.length)
    (hiSize : i < h.size) (hjSize : j < h.size) :
    h.Rearranged { h with slots := (h.slots.set j h.slots[i]).set i h.slots[j] } := by
  have hperm := set_set_perm hj hi
  refine ⟨rfl, rfl, hperm, ?_⟩
  apply List.Perm.take_of_getElem? hperm
  intro k hk
  rw [getElem?_set_ne (by omega), getElem?_set_ne (by omega)]

structure Sifted (h h' : Heap) (i : Nat) : Prop extends h.Rearranged h' where
  before : ∀ j < i, h'.slots[j]? = h.slots[j]?
  top : h'.slots = h.slots ∨ h'.areaAt i < h.areaAt i

theorem Sifted.refl (h : Heap) (i : Nat) : h.Sifted h i :=
  ⟨.refl h, fun _ _ => rfl, .inl rfl⟩

theorem areaAt_congr {i j : Nat} (hentries : h'.entries = h.entries)
    (hslots : h'.slots[i]? = h.slots[j]?) : h'.areaAt i = h.areaAt j := by
  have hof : h'.areaOf = h.areaOf := by
    funext object
    rw [areaOf, hentries, areaOf]
  rw [areaAt, hof, hslots, areaAt]

theorem siftDown_ok {fuel i : Nat} (hformed : h.Formed) (hfuel : h.size < i + fuel)
    (hpos : 0 < fuel) : ∃ h', siftDown fuel h i = .ok h' ∧ h.Sifted h' i := by
  induction fuel generalizing h i with
  | zero => exact absurd hpos (lt_irrefl 0)
  | succ fuel ih =>
    rw [siftDown]
    split
    case isFalse => exact ⟨h, rfl, .refl h i⟩
    case isTrue hi =>
      rcases smallerChild_ok hformed hi with ⟨child, hchild, hiChild, hchildLt⟩
      have hsize := hformed.size_le
      have hiLt : i < h.slots.length := by omega
      have hcLt : child < h.slots.length := by omega
      rcases entry_ok hformed hcLt with ⟨below, hbelow, hbelowArea⟩
      rcases entry_ok hformed hiLt with ⟨e, he, heArea⟩
      rw [hchild, call_ok_bind, hbelow, call_ok_bind, he, call_ok_bind]
      split
      case isTrue => exact ⟨h, rfl, .refl h i⟩
      case isFalse harea =>
        have hswap := rearranged_swap hiLt hcLt (show i < h.size by omega) hchildLt
        rcases ih (hswap.formed hformed) (show h.size < child + fuel by omega) (by omega) with
          ⟨h', hh', hsifted⟩
        refine ⟨h', ?_, hswap.trans hsifted.toRearranged, ?_, .inr ?_⟩
        · rw [read_ok hcLt, call_ok_bind, read_ok hiLt, call_ok_bind, write_ok hcLt,
            call_ok_bind, write_ok (by simpa using hiLt), call_ok_bind]
          exact hh'
        · intro j hj
          rw [hsifted.before j (by omega)]
          rw [getElem?_set_ne (by omega), getElem?_set_ne (by omega)]
        · have hslot : h'.slots[i]? = h.slots[child]? := by
            rw [hsifted.before i hiChild, getElem?_eq_getElem hcLt]
            exact getElem?_set_self (by simpa using hiLt)
          rw [areaAt_congr (h := h) hsifted.entries hslot]
          omega

theorem heapify_ok (hformed : h.Formed) : ∃ h', h.heapify = .ok h' ∧ h.Rearranged h' := by
  refine foldlM_ok (P := fun _ t => h.Rearranged t) (.refl h) ?_
  intro k i _ t ht
  rcases siftDown_ok (i := i) (ht.formed hformed) (show t.size < i + (t.size + 1) by omega)
    (by omega) with ⟨t', ht', hsifted⟩
  exact ⟨t', ht', ht.trans hsifted.toRearranged⟩

/-- Every slot refers to the entry of a pair of indices below `n`. -/
structure Paired (h : Heap) (n : Nat) : Prop where
  size_le : h.size ≤ h.slots.length
  pair : ∀ object ∈ h.slots, ∃ e, h.entries[object]? = some e ∧ e.first < e.second ∧ e.second < n

structure SamePairs (h h' : Heap) : Prop where
  size : h'.size = h.size
  perm : h'.slots.Perm h.slots
  pair : ∀ (object : Nat) (e : HeapEntry), h.entries[object]? = some e →
    ∃ area, h'.entries[object]? = some { e with area := area }

variable {n : Nat}

theorem Paired.formed (hpaired : h.Paired n) : h.Formed where
  size_le := hpaired.size_le
  refers := by
    intro object hobj
    rcases hpaired.pair object hobj with ⟨e, he, -⟩
    exact (List.getElem?_eq_some_iff.mp he).1

theorem Rearranged.samePairs (hh' : h.Rearranged h') : h.SamePairs h' where
  size := hh'.size
  perm := hh'.perm
  pair := by
    intro object e he
    refine ⟨e.area, ?_⟩
    rw [hh'.entries]
    exact he

theorem SamePairs.trans {h'' : Heap} (hh' : h.SamePairs h') (hh'' : h'.SamePairs h'') :
    h.SamePairs h'' where
  size := hh''.size.trans hh'.size
  perm := hh''.perm.trans hh'.perm
  pair := by
    intro object e he
    rcases hh'.pair object e he with ⟨area, he'⟩
    rcases hh''.pair object _ he' with ⟨area', he''⟩
    exact ⟨area', he''⟩

theorem SamePairs.paired (hh' : h.SamePairs h') (hpaired : h.Paired n) : h'.Paired n where
  size_le := by
    rw [hh'.size, hh'.perm.length_eq]
    exact hpaired.size_le
  pair := by
    intro object hobj
    rcases hpaired.pair object (hh'.perm.mem_iff.mp hobj) with ⟨e, he, hlt⟩
    rcases hh'.pair object e he with ⟨area, he'⟩
    exact ⟨_, he', hlt⟩

def setArea (h : Heap) (object : Nat) (e : HeapEntry) (area : Int) : Heap :=
  { h with entries := h.entries.set object { e with area := area } }

variable {object : Nat} {e : HeapEntry}

theorem samePairs_setArea (he : h.entries[object]? = some e) (area : Int) :
    h.SamePairs (h.setArea object e area) where
  size := rfl
  perm := .refl _
  pair := by
    intro other e' he'
    rcases eq_or_ne object other with rfl | hne
    · rw [he, Option.some.injEq] at he'
      subst he'
      exact ⟨area, getElem?_set_self (List.getElem?_eq_some_iff.mp he).1⟩
    · exact ⟨e'.area, (getElem?_set_ne hne).trans he'⟩

def stale (area : Nat → Nat → Int) (h : Heap) : Nat :=
  h.entries.countP fun e => e.area ≠ area e.first e.second

def smaller (h : Heap) : Nat :=
  (h.slots.take h.size).countP fun object => h.areaOf object < h.areaAt 0

theorem smaller_le (h : Heap) : h.smaller ≤ h.slots.length :=
  countP_le_length.trans (length_take_le' _ _)

theorem countP_lt_countP {α : Type} {p q : α → Bool} {l : List α} {a : α}
    (himp : ∀ x, p x = true → q x = true) (ha : a ∈ l) (hq : q a = true) (hp : ¬p a = true) :
    l.countP p < l.countP q := by
  rcases append_of_mem ha with ⟨before, after, rfl⟩
  have hbef := countP_mono_left (l := before) fun x _ => himp x
  have hafter := countP_mono_left (l := after) fun x _ => himp x
  simp only [countP_append, countP_cons, hq, hp, if_true, Bool.false_eq_true, if_false]
  omega

theorem smaller_lt (hsifted : h.Sifted h' 0) (hsize : 0 < h'.size) (hformed : h'.Formed)
    (hlt : h'.areaAt 0 < h.areaAt 0) : h'.smaller < h.smaller := by
  have hof : h'.areaOf = h.areaOf := by
    funext object
    rw [areaOf, hsifted.entries, areaOf]
  have hfst : 0 < h'.slots.length := hsize.trans_le hformed.size_le
  have hmem : h'.slots[0] ∈ h.slots.take h.size := by
    refine hsifted.used.mem_iff.mp ?_
    rw [← hsifted.size]
    exact mem_take_iff_getElem.mpr ⟨0, by omega, rfl⟩
  have harea : h'.areaAt 0 = h.areaOf h'.slots[0] := by
    rw [areaAt, getElem?_eq_getElem hfst, hof]
    rfl
  rw [smaller, hsifted.size, hsifted.used.countP_eq, hof]
  refine countP_lt_countP ?_ hmem ?_ ?_
  · intro object hobj
    rw [decide_eq_true_eq] at hobj ⊢
    exact hobj.trans hlt
  · rw [decide_eq_true_eq, ← harea]
    exact hlt
  · rw [decide_eq_true_eq, harea]
    exact lt_irrefl _

theorem stale_setArea {area : Nat → Nat → Int} (he : h.entries[object]? = some e)
    (hne : e.area ≠ area e.first e.second) :
    (h.setArea object e (area e.first e.second)).stale area + 1 = h.stale area := by
  rcases List.getElem?_eq_some_iff.mp he with ⟨hobj, hget⟩
  have hpos : 0 < h.stale area :=
    countP_pos_iff.mpr ⟨e, mem_of_getElem? he, by simpa using hne⟩
  rw [stale] at hpos ⊢
  rw [setArea, countP_set hobj, hget, if_pos (by simpa using hne), if_neg (by simp)]
  rw [stale]
  omega

theorem setArea_self (he : h.entries[object]? = some e) :
    h.setArea object e e.area = h := by
  rcases List.getElem?_eq_some_iff.mp he with ⟨hobj, hget⟩
  have hset : h.entries.set object e = h.entries := by
    rw [← hget]
    exact set_getElem_self hobj
  rw [setArea, hset]

theorem rounds_lt {area : Nat → Nat → Int} (he : h.entries[object]? = some e)
    (hsifted : (h.setArea object e (area e.first e.second)).Sifted h' 0)
    (hmoved : h'.slots ≠ h.slots) (hsize : 0 < h'.size) (hformed : h'.Formed) :
    h'.stale area * (h'.slots.length + 1) + h'.smaller <
      h.stale area * (h.slots.length + 1) + h.smaller := by
  have hlen : h'.slots.length = h.slots.length := hsifted.perm.length_eq
  have hstale : h'.stale area = (h.setArea object e (area e.first e.second)).stale area := by
    rw [stale, hsifted.entries, stale]
  rw [hstale, hlen]
  rcases eq_or_ne e.area (area e.first e.second) with hfits | hne
  · rw [← hfits, setArea_self he] at hsifted ⊢
    have hlt := smaller_lt hsifted hsize hformed (hsifted.top.resolve_left hmoved)
    omega
  · have hle := h'.smaller_le
    rw [← stale_setArea he hne, Nat.succ_mul]
    omega

end Heap

theorem resolveMap_ok {map : List Nat} {root height : Nat → Nat} {bound a : Nat} (fuel : Nat)
    (hmap : RootMap map root height bound) (ha : a < map.length)
    (hfuel : bound < height a + fuel) : resolveMap map fuel a = .ok (root a) := by
  induction fuel generalizing a with
  | zero => exact absurd (hmap.height_le a ha) (by omega)
  | succ fuel ih =>
    rcases hmap.next a ha with ⟨b, hb, hbLt, hroot, hht⟩
    rw [resolveMap, read_eq_ok hb, call_ok_bind]
    split
    · rename_i hne
      rw [ih hbLt (by have hlt := hht hne; omega), hroot]
    · rename_i heq
      rw [not_not] at heq
      subst heq
      rw [call_pure, hmap.root_self b hb]

theorem unifiedRegionArea_ok {dirtyRegions : List RectBounds} {a b : Nat}
    (ha : a < dirtyRegions.length) (hb : b < dirtyRegions.length) :
    ∃ area, unifiedRegionArea dirtyRegions a b = .ok area := by
  rw [unifiedRegionArea, read_ok ha, read_ok hb]
  exact ⟨_, rfl⟩

section

variable {dirtyRegions : List RectBounds} {map : List Nat} {root height : Nat → Nat}
  {bound : Nat} {h : Heap}

open Heap

theorem refreshMin_ok (hmap : RootMap map root height bound) (hbound : bound ≤ map.length)
    (hlen : dirtyRegions.length = map.length) (mask : BitVec 64) {area : Nat → Nat → Int}
    (harea : ∀ a b, a < map.length → b < map.length →
      unifiedRegionArea dirtyRegions (root a) (root b) = .ok (area a b))
    {fuel : Nat} (hpaired : h.Paired map.length) (hsize : 0 < h.size)
    (hfuel : h.stale area * (h.slots.length + 1) + h.smaller < fuel) :
    ∃ h', refreshMin dirtyRegions map mask fuel h = .ok h' ∧ h.SamePairs h' := by
  induction fuel generalizing h with
  | zero => exact absurd hfuel (Nat.not_lt_zero _)
  | succ fuel ih =>
    have hfst : 0 < h.slots.length := hsize.trans_le hpaired.size_le
    rcases hpaired.pair h.slots[0] (getElem_mem hfst) with ⟨e, he, heLt, heSecond⟩
    have hobj := (List.getElem?_eq_some_iff.mp he).1
    have hread : read h.slots 0 = .ok h.slots[0] := read_ok hfst
    rw [refreshMin, hread, call_ok_bind, read_eq_ok he, call_ok_bind]
    split
    case isFalse => exact ⟨h, rfl, (Rearranged.refl h).samePairs⟩
    case isTrue =>
      have hset := samePairs_setArea he (area e.first e.second)
      have hsetPaired := hset.paired hpaired
      rcases siftDown_ok (i := 0) hsetPaired.formed
        (show (h.setArea h.slots[0] e (area e.first e.second)).size < 0 + (h.size + 1) by
          rw [hset.size]; omega) (by omega) with ⟨h', hh', hsifted⟩
      have hsame := hset.trans hsifted.samePairs
      have hpaired' := hsame.paired hpaired
      have hfst' : 0 < h'.slots.length := by
        rw [hsame.perm.length_eq]
        exact hfst
      have hread' : read h'.slots 0 = .ok h'.slots[0] := read_ok hfst'
      rw [resolveMap_ok _ hmap (heLt.trans heSecond) (by omega), call_ok_bind, resolveMap_ok _ hmap
        heSecond (by omega), call_ok_bind, harea _ _ (heLt.trans heSecond) heSecond, call_ok_bind,
        write_ok hobj]
      change ∃ t, (siftDown (h.size + 1) (h.setArea h.slots[0] e (area e.first e.second)) 0 >>=
        fun h' => read h'.slots 0 >>= fun top => if top = h.slots[0] then _ else _) = .ok t ∧ _
      rw [hh', call_ok_bind, hread', call_ok_bind]
      split
      case isTrue => exact ⟨h', rfl, hsame⟩
      case isFalse htop =>
        have hdecrease : h'.stale area * (h'.slots.length + 1) + h'.smaller <
            h.stale area * (h.slots.length + 1) + h.smaller := by
          refine rounds_lt he hsifted ?_ (by rw [hsame.size]; exact hsize) hpaired'.formed
          intro hslots
          exact htop (by simp only [hslots])
        rcases ih hpaired' (by rw [hsame.size]; exact hsize) (by omega) with ⟨t, ht, hsame'⟩
        exact ⟨t, ht, hsame.trans hsame'⟩

theorem paired_set {n object : Nat} (slot : Nat) (hpaired : h.Paired n)
    (hobj : object ∈ h.slots) :
    Paired { h with slots := h.slots.set slot object } n where
  size_le := by
    rw [length_set]
    exact hpaired.size_le
  pair := by
    intro other hother
    rcases mem_or_eq_of_mem_set hother with hmem | rfl
    · exact hpaired.pair other hmem
    · exact hpaired.pair other hobj

theorem takeMinWithMap_ok (hmap : RootMap map root height bound) (hbound : bound ≤ map.length)
    (hlen : dirtyRegions.length = map.length) (mask : BitVec 64)
    (hpaired : h.Paired map.length) (hsize : 0 < h.size) :
    ∃ e h', takeMinWithMap dirtyRegions map mask h = .ok (e, h') ∧ e.first < e.second ∧
      e.second < map.length ∧ h'.Paired map.length ∧ h'.size + 1 = h.size ∧
      h'.slots.length = h.slots.length := by
  let area : Nat → Nat → Int := fun a b =>
    ((unifiedRegionArea dirtyRegions (root a) (root b)).toOption).getD 0
  have harea : ∀ a b, a < map.length → b < map.length →
      unifiedRegionArea dirtyRegions (root a) (root b) = .ok (area a b) := by
    intro a b ha hb
    rcases unifiedRegionArea_ok (hlen ▸ hmap.root_lt a ha) (hlen ▸ hmap.root_lt b hb) with
      ⟨v, hv⟩
    simp only [area, hv]
    rfl
  have hfuel : h.stale area * (h.slots.length + 1) + h.smaller <
      (h.entries.length + 1) * (h.slots.length + 1) := by
    have hle := Nat.mul_le_mul_right (h.slots.length + 1)
      (show h.stale area ≤ h.entries.length from countP_le_length)
    have hle' := h.smaller_le
    rw [Nat.succ_mul]
    omega
  rcases refreshMin_ok hmap hbound hlen mask harea hpaired hsize hfuel with ⟨t, ht, hsame⟩
  have htPaired := hsame.paired hpaired
  have hlengths := hsame.perm.length_eq
  have hfst : 0 < t.slots.length := by
    have hle := htPaired.size_le
    rw [hsame.size] at hle
    omega
  have hmem : t.slots[0] ∈ t.slots := getElem_mem hfst
  have hset := paired_set (h.size - 1) htPaired hmem
  rcases siftDown_ok (i := 0) hset.formed (show t.size < 0 + (t.size + 1) by omega) (by omega) with
    ⟨u, hu, hsifted⟩
  have huPaired := hsifted.samePairs.paired hset
  rcases htPaired.pair _ hmem with ⟨e, he, heFirst, heSecond⟩
  have heRead : read u.entries t.slots[0] = .ok e := by
    refine read_eq_ok ?_
    rw [hsifted.entries]
    exact he
  refine ⟨e, { u with size := u.size - 1 }, ?_, heFirst, heSecond, ?_, ?_, ?_⟩
  · have hread : read t.slots 0 = .ok t.slots[0] := read_ok hfst
    have hwrite : write t.slots ((t.size : Int) - 1) t.slots[0] =
        .ok (t.slots.set (h.size - 1) t.slots[0]) := by
      rw [hsame.size, show ((h.size : Int) - 1) = ((h.size - 1 : Nat) : Int) by omega]
      refine write_ok ?_ _
      have hle := hpaired.size_le
      omega
    rw [takeMinWithMap, ht, call_ok_bind, hread, call_ok_bind, hwrite, call_ok_bind, hu,
      call_ok_bind, heRead, call_ok_bind, call_pure]
  · exact ⟨(Nat.sub_le _ _).trans huPaired.size_le, huPaired.pair⟩
  · have husize : u.size = t.size := hsifted.size
    rw [hsame.size] at husize
    dsimp only
    omega
  · have hperm := hsifted.perm.length_eq
    rw [length_set] at hperm
    exact hperm.trans hlengths

end

end OpenJfx.Geom
