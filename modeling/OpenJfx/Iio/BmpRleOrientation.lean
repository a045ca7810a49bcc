import OpenJfx.Data.RowMajor
import OpenJfx.Iio.BmpRle

namespace OpenJfx.Iio.Bmp.Rle

open Data Data.RowMajor Java.Arrays Java.Ints List

variable {w h : Nat} {bgraPalette : Option (List UInt8)}

section Pixels

theorem setRGBFromPalette_eq {image : List UInt8} {d : Nat} (hd : d + 3 ≤ image.length)
    (hlen : image.length < 2 ^ 31) (index : Nat) :
    setRGBFromPalette bgraPalette (image, (d : Int)) index = (do
      let red ← loadPalette bgraPalette (index * 4 + 2)
      let green ← loadPalette bgraPalette (index * 4 + 1)
      let blue ← loadPalette bgraPalette (index * 4)
      .ok (((image.set d red).set (d + 1) green).set (d + 2) blue, ((d + 3 : Nat) : Int))) := by
  have hplace : ∀ j, j ≤ 3 → int32 ((d : Int) + (j : Nat)) = ((d + j : Nat) : Int) := by
    intro j hj
    rw [← Nat.cast_add, int32_natCast (by omega)]
  have hone := hplace 1 (by omega)
  have htwo := hplace 2 (by omega)
  have hthree := hplace 3 (by omega)
  rw [Nat.cast_one] at hone
  rw [Nat.cast_ofNat] at htwo hthree
  refine bind_congr fun red => ?_
  rw [store_eq_set red (by omega), ok_bind]
  refine bind_congr fun green => ?_
  rw [hone, store_eq_set green (by rw [length_set]; omega), ok_bind]
  refine bind_congr fun blue => ?_
  rw [htwo, store_eq_set blue (by rw [length_set, length_set]; omega), ok_bind, hthree]

/-- Two images that are mirror images of each other, and the places of a pixel of the one and of
its mirror image. -/
structure Paired (w h y x : Nat) (below above : List UInt8 × Int) : Prop where
  mirrored : Mirrored (3 * w) h below.1 above.1
  below_eq : below.2 = ((h - 1 - y) * (3 * w) + 3 * x : Nat)
  above_eq : above.2 = (y * (3 * w) + 3 * x : Nat)

theorem setRGBFromPalette_paired (hsize : h * (3 * w) < 2 ^ 31) {y x : Nat} (hy : y < h)
    (hx : x < w) {below above : List UInt8 × Int} (hpaired : Paired w h y x below above)
    (index : Nat) :
    Related (Paired w h y (x + 1)) (setRGBFromPalette bgraPalette below index)
      (setRGBFromPalette bgraPalette above index) := by
  rcases below with ⟨below, _⟩
  rcases above with ⟨above, _⟩
  rcases hpaired with ⟨hmirrored, rfl, rfl⟩
  have hbelow := mul_add_le_mul (a := h - 1 - y) (b := h) (x := 3 * x + 3) (w := 3 * w)
    (by omega) (by omega)
  have habove := mul_add_le_mul (x := 3 * x + 3) (w := 3 * w) hy (by omega)
  have hlengthBelow : below.length = h * (3 * w) := hmirrored.length_below
  have hlengthAbove : above.length = h * (3 * w) := hmirrored.length_above
  rw [setRGBFromPalette_eq (by omega) (by omega), setRGBFromPalette_eq (by omega) (by omega)]
  refine (Related.refl (R := Eq) (fun _ => rfl) _).bind ?_
  rintro red _ rfl
  refine (Related.refl (R := Eq) (fun _ => rfl) _).bind ?_
  rintro green _ rfl
  refine (Related.refl (R := Eq) (fun _ => rfl) _).bind ?_
  rintro blue _ rfl
  refine .ok ⟨?_, ?_, ?_⟩
  · have hset := ((hmirrored.set hy (x := 3 * x) (by omega) red).set hy (x := 3 * x + 1)
      (by omega) green).set hy (x := 3 * x + 2) (by omega) blue
    exact hset
  · congr 1
  · congr 1

theorem draw_paired (hsize : h * (3 * w) < 2 ^ 31) {y : Nat} (hy : y < h) {indexes : List Nat} :
    ∀ {x : Nat}, x + indexes.length ≤ w → ∀ {below above : List UInt8 × Int},
      Paired w h y x below above →
      Related (fun below above => Mirrored (3 * w) h below.1 above.1)
        (draw bgraPalette indexes below) (draw bgraPalette indexes above) := by
  induction indexes with
  | nil => exact fun _ _ _ hpaired => .ok hpaired.mirrored
  | cons index indexes ih =>
    intro x hx below above hpaired
    rw [length_cons] at hx
    refine (setRGBFromPalette_paired hsize hy (by omega) hpaired index).bind fun _ _ hnext => ?_
    exact ih (by omega) hnext

end Pixels

section Strokes

variable {isRLE4 : Bool} {commands : List (Command isRLE4)}

theorem forall_strokes {P : Cursor → Stroke → Prop}
    (hhere : ∀ (command : Command isRLE4) (cursor : Cursor), command.indexes ≠ [] →
      P cursor ⟨cursor, command.indexes⟩)
    (hnext : ∀ (command : Command isRLE4) (cursor : Cursor) (stroke : Stroke),
      P (command.next cursor) stroke → P cursor stroke) :
    ∀ {cursor : Cursor}, ∀ stroke ∈ strokes cursor commands, P cursor stroke := by
  induction commands with
  | nil => exact fun _ hmem => absurd hmem not_mem_nil
  | cons command commands ih =>
    intro cursor stroke hmem
    rw [strokes, mem_append] at hmem
    rcases hmem with hmem | hmem
    · split_ifs at hmem with hnil
      · exact absurd hmem not_mem_nil
      · rw [mem_singleton.mp hmem]
        exact hhere command cursor hnil
    · exact hnext command cursor stroke (ih stroke hmem)

theorem indexes_ne_nil {cursor : Cursor} :
    ∀ stroke ∈ strokes cursor commands, stroke.indexes ≠ [] :=
  forall_strokes (P := fun _ stroke => stroke.indexes ≠ []) (fun _ _ hne => hne)
    fun _ _ _ hne => hne

theorem int32_place (hsize : h * (3 * w) < 2 ^ 31) {y x : Nat} (hy : y < h) (hx : x < w) :
    int32 ((y : Int) * int32 (w * 3) + 3 * (x : Int)) = (y * (3 * w) + 3 * x : Nat) := by
  have hplace := mul_add_lt_mul (w := 3 * w) (x := 3 * x) hy (by omega)
  have hrow := Nat.mul_le_mul_right (3 * w) (Nat.succ_le_of_lt (Nat.zero_lt_of_lt hy))
  have hlen : int32 ((w : Int) * 3) = ((3 * w : Nat) : Int) := by
    have hcomm : (w : Int) * 3 = ((3 * w : Nat) : Int) := by
      push_cast
      ring
    rw [hcomm, int32_natCast (by omega)]
  have hcast : (y : Int) * ((3 * w : Nat) : Int) + 3 * (x : Int) =
      ((y * (3 * w) + 3 * x : Nat) : Int) := by
    push_cast
    ring
  rw [hlen, hcast, int32_natCast (by omega)]

theorem below_place (hsize : h * (3 * w) < 2 ^ 31) {cursor : Cursor} (hended : cursor.ended < h)
    (hx : cursor.x < w) (hdown : cursor.down = 0) :
    int32 (row true h cursor * int32 (w * 3) + 3 * (cursor.x : Int)) =
      ((h - 1 - cursor.ended) * (3 * w) + 3 * cursor.x : Nat) := by
  have hrow : row true h cursor = ((h - 1 - cursor.ended : Nat) : Int) := by
    simp only [row, if_true]
    omega
  rw [hrow, int32_place hsize (by omega) hx]

theorem above_place (hsize : h * (3 * w) < 2 ^ 31) {cursor : Cursor}
    (hrow : cursor.ended + cursor.down < h) (hx : cursor.x < w) (hght : Int) :
    int32 (row false hght cursor * int32 (w * 3) + 3 * (cursor.x : Int)) =
      ((cursor.ended + cursor.down) * (3 * w) + 3 * cursor.x : Nat) := by
  have hcast : row false hght cursor = ((cursor.ended + cursor.down : Nat) : Int) := by
    simp only [row, if_neg Bool.false_ne_true]
    omega
  rw [hcast, int32_place hsize hrow hx]

theorem drawStroke_mirrored (hsize : h * (3 * w) < 2 ^ 31) (isRLE4 : Bool) {stroke : Stroke}
    (hne : stroke.indexes ≠ []) (hx : stroke.cursor.x + stroke.indexes.length ≤ w)
    (hrow : stroke.cursor.ended + stroke.cursor.down < h) (hdown : stroke.cursor.down = 0)
    {below above : List UInt8} (hmirrored : Mirrored (3 * w) h below above) :
    Related (Mirrored (3 * w) h)
      (drawStroke ⟨int32 (w * 3), true, isRLE4, bgraPalette⟩ h below stroke)
      (drawStroke ⟨int32 (w * 3), false, isRLE4, bgraPalette⟩ h above stroke) := by
  have hlen := length_pos_of_ne_nil hne
  refine Related.bind (R := fun below above => Mirrored (3 * w) h below.1 above.1) ?_
    fun _ _ hboth => .ok hboth
  refine draw_paired hsize (y := stroke.cursor.ended) (by omega) hx ⟨hmirrored, ?_, ?_⟩
  · rw [below_place hsize (by omega) (by omega) hdown]
  · rw [above_place hsize hrow (by omega), hdown, add_zero]

end Strokes

section Palettes

def colours (isRLE4 : Bool) : Nat := if isRLE4 then 16 else 256

theorem highNibble_lt (b : UInt8) : highNibble b < 16 := by
  rw [highNibble, UInt8.toNat_shiftRight, UInt8.toNat_and]
  have hand : b.toNat &&& (0xf0 : UInt8).toNat ≤ 240 := Nat.and_le_right
  have hfour : (4 : UInt8).toNat % 8 = 4 := rfl
  rw [hfour]
  omega

theorem lowNibble_lt (b : UInt8) : lowNibble b < 16 := by
  rw [lowNibble, UInt8.toNat_and]
  have hand : b.toNat &&& (0x0f : UInt8).toNat ≤ 15 := Nat.and_le_right
  omega

theorem indexes_lt {isRLE4 : Bool} (command : Command isRLE4) :
    ∀ index ∈ command.indexes, index < colours isRLE4 := by
  intro index hmem
  cases command with
  | encoded count value _ =>
    rcases mem_map.mp hmem with ⟨p, -, rfl⟩
    rw [encodedIndex, colours]
    split_ifs
    · exact highNibble_lt value
    · exact lowNibble_lt value
    · exact UInt8.toNat_lt value
  | absolute count data _ _ _ _ =>
    have hdata := mem_of_mem_take hmem
    rw [unpack] at hdata
    rw [colours]
    split_ifs at hdata ⊢
    · rcases mem_flatMap.mp hdata with ⟨b, -, hb⟩
      rcases mem_pair.mp hb with rfl | rfl
      · exact highNibble_lt b
      · exact lowNibble_lt b
    · rcases mem_map.mp hdata with ⟨b, -, rfl⟩
      exact UInt8.toNat_lt b
  | endOfLine | delta deltaX deltaY => exact absurd hmem not_mem_nil

theorem strokes_indexes_lt {isRLE4 : Bool} {commands : List (Command isRLE4)} {cursor : Cursor} :
    ∀ stroke ∈ strokes cursor commands, ∀ index ∈ stroke.indexes, index < colours isRLE4 :=
  forall_strokes (P := fun _ stroke => ∀ index ∈ stroke.indexes, index < colours isRLE4)
    (fun command _ _ => indexes_lt command) fun _ _ _ hlt => hlt

def Complete (isRLE4 : Bool) (bgraPalette : List UInt8) : Prop :=
  colours isRLE4 * 4 ≤ bgraPalette.length

theorem draw_ok {isRLE4 : Bool} {bgraPalette : List UInt8} (hcomplete : Complete isRLE4 bgraPalette)
    {indexes : List Nat} :
    ∀ (image : List UInt8) (d : Nat), (∀ index ∈ indexes, index < colours isRLE4) →
      d + 3 * indexes.length ≤ image.length → image.length < 2 ^ 31 →
      ∃ dst, draw (some bgraPalette) indexes (image, (d : Int)) = .ok dst ∧
        dst.1.length = image.length := by
  induction indexes with
  | nil => exact fun _ _ _ _ _ => ⟨_, rfl, rfl⟩
  | cons index indexes ih =>
    intro image d hidxs hd hlen
    rw [length_cons] at hd
    have hidx := hidxs index mem_cons_self
    have hload : ∀ j, j < 4 → ∃ value,
        loadPalette (some bgraPalette) (index * 4 + j) = .ok value := by
      intro j hj
      rw [Complete] at hcomplete
      exact ⟨_, load_natCast bgraPalette (index * 4 + j) (by omega)⟩
    obtain ⟨red, hred⟩ := hload 2 (by omega)
    obtain ⟨green, hgreen⟩ := hload 1 (by omega)
    obtain ⟨blue, hblue⟩ := hload 0 (by omega)
    rw [add_zero] at hblue
    rw [draw_cons, setRGBFromPalette_eq (by omega) hlen, hred, ok_bind, hgreen, ok_bind,
      hblue, ok_bind, ok_bind]
    have hsame : (((image.set d red).set (d + 1) green).set (d + 2) blue).length =
        image.length := by
      rw [length_set, length_set, length_set]
    obtain ⟨dst, hdst, hdstLength⟩ := ih (((image.set d red).set (d + 1) green).set
      (d + 2) blue) (d + 3) (fun i hi => hidxs i (mem_cons_of_mem _ hi)) (by omega)
      (by omega)
    exact ⟨dst, hdst, hdstLength.trans hsame⟩

end Palettes

variable {w h : Nat}

section White

def white : List UInt8 := List.replicate 1024 255

theorem white_complete (isRLE4 : Bool) : Complete isRLE4 white := by
  rw [Complete, white, length_replicate]
  cases isRLE4 <;> decide

theorem loadPalette_white {index : Nat} {value : UInt8}
    (h : loadPalette (some white) index = .ok value) : value = 255 := by
  rw [loadPalette, load, Int.toNat_natCast] at h
  cases hget : white[index]? with
  | none =>
    rw [hget] at h
    cases h
  | some found =>
    rw [hget] at h
    rw [← Except.ok.inj h]
    exact eq_of_mem_replicate (mem_of_getElem? hget)

/-- The part of an image from a place on is white, and the rest is as before. -/
structure Filled (image image' : List UInt8) (d n : Nat) : Prop where
  length_eq : image'.length = image.length
  le : d + n ≤ image.length
  get_eq : ∀ i, image'[i]? = if d ≤ i ∧ i < d + n then some 255 else image[i]?

variable {image image' : List UInt8} {d : Nat}

theorem Filled.trans {image'' : List UInt8} {n m : Nat} (h : Filled image image' d n)
    (h' : Filled image' image'' (d + n) m) :
    Filled image image'' d (n + m) where
  length_eq := h'.length_eq.trans h.length_eq
  le := by
    have hle := h'.le
    rw [h.length_eq] at hle
    omega
  get_eq := by
    intro i
    rw [h'.get_eq, h.get_eq]
    split_ifs <;> first | rfl | omega

theorem filled_set (hd : d < image.length) :
    Filled image (image.set d 255) d 1 where
  length_eq := length_set
  le := hd
  get_eq := by
    intro i
    rw [getElem?_set]
    split_ifs <;> first | rfl | omega

theorem store_ok {offset : Int} {value : UInt8} (h : store image offset value = .ok image') :
    ∃ d : Nat, offset = d ∧ d < image.length := by
  rw [store] at h
  split_ifs at h with hplace
  exact ⟨offset.toNat, by omega, by omega⟩

theorem setRGBFromPalette_white (hlen : image.length < 2 ^ 31) {offset : Int} {index : Nat}
    {dst : List UInt8 × Int} (h : setRGBFromPalette (some white) (image, offset) index = .ok dst) :
    ∃ d : Nat, offset = d ∧ Filled image dst.1 d 3 ∧ dst.2 = ((d + 3 : Nat) : Int) := by
  have hwhole := h
  simp only [setRGBFromPalette, bind_eq_ok] at h
  rcases h with ⟨red, hred, first, hfst, green, hgreen, second, hsnd, blue, hblue, third,
    hthird, -⟩
  obtain ⟨d, rfl, hd⟩ := store_ok hfst
  have hfirstLength : first.length = image.length := by
    rw [store_eq_set red hd] at hfst
    rw [← Except.ok.inj hfst, length_set]
  obtain ⟨e, he, hlt⟩ := store_ok hsnd
  have hsecondLength : second.length = image.length := by
    rw [he, store_eq_set green hlt] at hsnd
    rw [← Except.ok.inj hsnd, length_set, hfirstLength]
  obtain ⟨g, hg, hltThird⟩ := store_ok hthird
  have hone : (e : Int) = (d : Int) + 1 := by
    rw [← he]
    exact int32_eq (by omega) (by omega)
  have htwo : (g : Int) = (d : Int) + 2 := by
    rw [← hg]
    exact int32_eq (by omega) (by omega)
  rw [setRGBFromPalette_eq (by omega) hlen, hred, hgreen, hblue] at hwhole
  rw [← Except.ok.inj hwhole, loadPalette_white hred, loadPalette_white hgreen,
    loadPalette_white hblue]
  refine ⟨d, rfl, ?_, rfl⟩
  have hset := filled_set hd
  have hset₂ := hset.trans (filled_set (by rw [length_set]; omega))
  exact hset₂.trans (filled_set (by rw [length_set, length_set]; omega))

theorem draw_white {indexes : List Nat} :
    ∀ {image : List UInt8} {d : Nat} {dst : List UInt8 × Int}, image.length < 2 ^ 31 →
      d ≤ image.length → draw (some white) indexes (image, (d : Int)) = .ok dst →
      Filled image dst.1 d (3 * indexes.length) := by
  induction indexes with
  | nil =>
    intro image d dst _ hd h
    rw [← Except.ok.inj h]
    exact ⟨rfl, hd, fun i => by rw [if_neg]; simp⟩
  | cons index indexes ih =>
    intro image d dst hlen _ h
    rw [draw_cons, bind_eq_ok] at h
    rcases h with ⟨⟨next, offset⟩, hnext, h⟩
    obtain ⟨e, he, hfilled, hoff⟩ := setRGBFromPalette_white hlen hnext
    obtain rfl : d = e := by omega
    dsimp only at hoff hfilled
    rw [hoff] at h
    have hrest := ih (by rw [hfilled.length_eq]; exact hlen)
      (by rw [hfilled.length_eq]; exact hfilled.le) h
    have hcnt : 3 * (index :: indexes).length = 3 + 3 * indexes.length := by
      rw [length_cons]
      omega
    rw [hcnt]
    exact hfilled.trans hrest

theorem drawStroke_white {c : Params} (hwhite : c.bgraPalette = some white) {hght : Int}
    (hlen : image.length < 2 ^ 31) {stroke : Stroke} (hne : stroke.indexes ≠ [])
    (h : drawStroke c hght image stroke = .ok image') :
    ∃ d : Nat, int32 (row c.isBottomUp hght stroke.cursor * c.rowLength +
        3 * (stroke.cursor.x : Int)) = d ∧
      Filled image image' d (3 * stroke.indexes.length) := by
  rw [drawStroke, hwhite] at h
  rcases bind_eq_ok.mp h with ⟨dst, hdraw, hdst⟩
  rw [← Except.ok.inj hdst]
  have hplace : ∃ d : Nat, int32 (row c.isBottomUp hght stroke.cursor * c.rowLength +
      3 * (stroke.cursor.x : Int)) = d ∧ d ≤ image.length := by
    obtain ⟨index, indexes, hidxs⟩ := exists_cons_of_ne_nil hne
    rw [hidxs, draw_cons, bind_eq_ok] at hdraw
    rcases hdraw with ⟨next, hnext, -⟩
    obtain ⟨d, hd, hfilled, -⟩ := setRGBFromPalette_white hlen hnext
    have hle := hfilled.le
    exact ⟨d, hd, by omega⟩
  obtain ⟨d, hd, hle⟩ := hplace
  rw [hd] at hdraw
  exact ⟨d, hd, draw_white hlen hle hdraw⟩

end White

section Order

variable {isRLE4 : Bool} {commands : List (Command isRLE4)}

theorem le_of_mem_strokes {cursor : Cursor} :
    ∀ stroke ∈ strokes cursor commands,
      cursor.ended ≤ stroke.cursor.ended ∧ cursor.down ≤ stroke.cursor.down := by
  refine forall_strokes (P := fun cursor stroke =>
    cursor.ended ≤ stroke.cursor.ended ∧ cursor.down ≤ stroke.cursor.down)
    (fun _ _ _ => ⟨le_rfl, le_rfl⟩) fun command cursor stroke ⟨hended, hdown⟩ => ?_
  have hnext : cursor.ended ≤ (command.next cursor).ended ∧
      cursor.down ≤ (command.next cursor).down := by
    cases command with
    | encoded count value _ | absolute count data padding _ _ _ => exact ⟨le_rfl, le_rfl⟩
    | endOfLine => exact ⟨Nat.le_succ _, le_rfl⟩
    | delta deltaX deltaY => exact ⟨le_rfl, Nat.le_add_right _ _⟩
  exact ⟨hnext.1.trans hended, hnext.2.trans hdown⟩

theorem pairwise_strokes :
    ∀ {cursor : Cursor}, (strokes cursor commands).Pairwise fun stroke later =>
      stroke.cursor.ended ≤ later.cursor.ended ∧ stroke.cursor.down ≤ later.cursor.down := by
  induction commands with
  | nil => exact List.Pairwise.nil
  | cons command commands ih =>
    intro cursor
    rw [strokes, pairwise_append]
    refine ⟨?_, ih, ?_⟩
    · split_ifs
      · exact List.Pairwise.nil
      · exact pairwise_singleton _ _
    · intro stroke hmem later hlater
      split_ifs at hmem with hnil
      · exact absurd hmem not_mem_nil
      · rcases next_of_run command cursor hnil with ⟨-, hended, hdown⟩
        have hle := le_of_mem_strokes later hlater
        rw [hended, hdown] at hle
        rw [mem_singleton.mp hmem]
        exact hle

end Order

section Images

variable {isRLE4 : Bool} {bgraPalette : Option (List UInt8)} {stream : Stream isRLE4}

theorem loadRLE_eq (biHeight : Int) (hh : biHeight.natAbs = h) (stream : Stream isRLE4) :
    loadRLE w biHeight isRLE4 bgraPalette stream.bytes =
      if int32 ((h * (3 * w) : Nat) : Int) < 0 then .error .negativeArraySize
      else (stream.strokes.foldlM
        (drawStroke ⟨int32 (w * 3), biHeight > 0, isRLE4, bgraPalette⟩ (int32 h))
        (List.replicate (int32 ((h * (3 * w) : Nat) : Int)).toNat 0)).mapError .runtime := by
  have hsize : int32 (int32 ((w : Int) * 3) * int32 (h : Int)) =
      int32 ((h * (3 * w) : Nat) : Int) := by
    rw [int32_int32_mul, int32_mul_int32]
    congr 1
    push_cast
    ring
  rw [loadRLE, hh, hsize, readRLE_eq
    (c := ⟨int32 (w * 3), biHeight > 0, isRLE4, bgraPalette⟩) stream]

theorem loadRLE_of_size (hsize : h * (3 * w) < 2 ^ 31) (biHeight : Int) (hh : biHeight.natAbs = h)
    (stream : Stream isRLE4) :
    loadRLE w biHeight isRLE4 bgraPalette stream.bytes =
      (stream.strokes.foldlM
        (drawStroke ⟨int32 (w * 3), biHeight > 0, isRLE4, bgraPalette⟩ (int32 h))
        (List.replicate (h * (3 * w)) 0)).mapError .runtime := by
  rw [loadRLE_eq biHeight hh stream, int32_natCast hsize, if_neg (by omega), Int.toNat_natCast]

theorem mapError_eq_ok {ε ε' α : Type} {x : Except ε α} {f : ε → ε'} {a : α}
    (h : x.mapError f = .ok a) : x = .ok a := by
  cases x with
  | error failure => cases h
  | ok b => exact congrArg Except.ok (Except.ok.inj h)

theorem le_place (hsize : h * (3 * w) < 2 ^ 31) {cursor : Cursor} {d : Nat}
    (hrow : cursor.ended + cursor.down < h) (hx : cursor.x < w)
    (hd : int32 (row true h cursor * int32 (w * 3) + 3 * (cursor.x : Int)) = d) :
    (h - 1 - cursor.ended + cursor.down) * (3 * w) ≤ d := by
  have hcast : row true h cursor * (w * 3) + 3 * (cursor.x : Int) =
      (((h - 1 - cursor.ended + cursor.down) * (3 * w) + 3 * cursor.x : Nat) : Int) := by
    have hnat : row true h cursor = ((h - 1 - cursor.ended + cursor.down : Nat) : Int) := by
      simp only [row, if_true]
      omega
    rw [hnat]
    push_cast
    ring
  rw [← int32_int32_add, int32_mul_int32, int32_int32_add, hcast] at hd
  have htwice := mul_add_lt_mul (a := h - 1 - cursor.ended + cursor.down) (b := h + h)
    (w := 3 * w) (x := 3 * cursor.x) (by omega) (by omega)
  rw [Nat.add_mul h h] at htwice
  generalize (h - 1 - cursor.ended + cursor.down) * (3 * w) = start at hd htwice
  rcases Nat.lt_or_ge (start + 3 * cursor.x) (2 ^ 31) with hsmall | hlarge
  · rw [int32_natCast hsmall] at hd
    omega
  · have hwrapped := int32_le_sub (n := ((start + 3 * cursor.x : Nat) : Int))
      (by exact_mod_cast hlarge)
    omega

theorem height_of_stroke (hinside : stream.InsideRows w h) (hsize : h * (3 * w) < 2 ^ 31)
    {stroke : Stroke} (hmem : stroke ∈ stream.strokes) :
    0 < h ∧ int32 (h : Int) = h := by
  have hne := length_pos_of_ne_nil (indexes_ne_nil stroke hmem)
  rcases hinside stroke hmem with ⟨hx, hrow⟩
  have hwd : 0 < 3 * w := by
    omega
  have hht := Nat.le_mul_of_pos_right h hwd
  exact ⟨Nat.zero_lt_of_lt hrow, int32_natCast (hht.trans_lt hsize)⟩

/-- The decoder gives mirror images for the two orientations, or fails in the same way; it does not
fail if the palette has all colours. -/
structure DecodesToMirrorImages (w h : Nat) (isRLE4 : Bool) (imgData : List UInt8) : Prop where
  mirrored : ∀ bgraPalette, Related (Mirrored (3 * w) h)
    (loadRLE w h isRLE4 bgraPalette imgData) (loadRLE w (-h) isRLE4 bgraPalette imgData)
  decodes : ∀ bgraPalette, Complete isRLE4 bgraPalette →
    ∃ image, loadRLE w h isRLE4 (some bgraPalette) imgData = .ok image

theorem mirrored_of_level (hinside : stream.InsideRows w h) (hsize : h * (3 * w) < 2 ^ 31)
    (hlevel : ∀ stroke ∈ stream.strokes, stroke.cursor.down = 0)
    (bgraPalette : Option (List UInt8)) :
    Related (Mirrored (3 * w) h) (loadRLE w h isRLE4 bgraPalette stream.bytes)
      (loadRLE w (-h) isRLE4 bgraPalette stream.bytes) := by
  rw [loadRLE_of_size hsize h (Int.natAbs_natCast h), loadRLE_of_size hsize (-h) (by omega)]
  refine Related.mapError (Related.foldlM ?_ (Mirrored.replicate 0)) _
  intro stroke hmem below above hmirrored
  rcases hinside stroke hmem with ⟨hx, hrow⟩
  rcases height_of_stroke hinside hsize hmem with ⟨hpos, hht⟩
  have hbelow : decide ((h : Int) > 0) = true := decide_eq_true (by omega)
  have habove : decide (-(h : Int) > 0) = false := decide_eq_false (by omega)
  rw [hht, hbelow, habove]
  exact drawStroke_mirrored hsize isRLE4 (indexes_ne_nil stroke hmem) hx hrow (hlevel stroke hmem)
    hmirrored

theorem decodes_of_level (hinside : stream.InsideRows w h) (hsize : h * (3 * w) < 2 ^ 31)
    (hlevel : ∀ stroke ∈ stream.strokes, stroke.cursor.down = 0) {bgraPalette : List UInt8}
    (hcomplete : Complete isRLE4 bgraPalette) :
    ∃ image, loadRLE w h isRLE4 (some bgraPalette) stream.bytes = .ok image := by
  have hloop : ∃ image, stream.strokes.foldlM
      (drawStroke ⟨int32 (w * 3), (h : Int) > 0, isRLE4, some bgraPalette⟩ (int32 h))
      (List.replicate (h * (3 * w)) 0) = .ok image ∧ image.length = h * (3 * w) := by
    refine foldlM_ok (P := fun _ (image : List UInt8) =>
      image.length = h * (3 * w)) length_replicate ?_
    intro k stroke hget image himg
    have hmem := mem_of_getElem? hget
    rcases hinside stroke hmem with ⟨hx, hrow⟩
    rcases height_of_stroke hinside hsize hmem with ⟨hpos, hht⟩
    have hne := length_pos_of_ne_nil (indexes_ne_nil stroke hmem)
    have hbelow : decide ((h : Int) > 0) = true := decide_eq_true (by omega)
    have hend := mul_add_le_mul (a := h - 1 - stroke.cursor.ended) (b := h) (w := 3 * w)
      (x := 3 * stroke.cursor.x + 3 * stroke.indexes.length) (by omega) (by omega)
    obtain ⟨dst, hdst, hlen⟩ := draw_ok hcomplete image
      ((h - 1 - stroke.cursor.ended) * (3 * w) + 3 * stroke.cursor.x)
      (strokes_indexes_lt stroke hmem) (by omega) (by omega)
    refine ⟨dst.1, ?_, hlen.trans himg⟩
    rw [hht, hbelow, drawStroke]
    rw [below_place hsize (by omega) (by omega) (hlevel stroke hmem), hdst]
    rfl
  obtain ⟨image, himg, -⟩ := hloop
  rw [loadRLE_of_size hsize h (Int.natAbs_natCast h), himg]
  exact ⟨image, rfl⟩

theorem size_of_mirrored {image image' : List UInt8}
    (himg : loadRLE w h isRLE4 (some white) stream.bytes = .ok image)
    (hmirrored : Mirrored (3 * w) h image image') : h * (3 * w) < 2 ^ 31 := by
  rw [loadRLE_eq h (Int.natAbs_natCast h)] at himg
  split_ifs at himg with hneg
  have hlt := int32_lt ((h * (3 * w) : Nat) : Int)
  generalize int32 ((h * (3 * w) : Nat) : Int) = size at himg hlt hneg
  have hlen : image.length = size.toNat := by
    refine foldlM_keeps (Q := fun (image : List UInt8) => image.length = size.toNat) ?_
      length_replicate (mapError_eq_ok himg)
    intro stroke hmem s s' hs hstroke
    obtain ⟨d, -, hfilled⟩ := drawStroke_white rfl (by omega) (indexes_ne_nil stroke hmem) hstroke
    exact hfilled.length_eq.trans hs
  have hbelow := hmirrored.length_below
  omega

theorem below_untouched (hinside : stream.InsideRows w h) (hsize : h * (3 * w) < 2 ^ 31)
    {last : Cursor} (hlast : ∀ stroke ∈ stream.strokes, stroke.cursor.ended ≤ last.ended)
    (hdown : 0 < last.down) (hx : last.x < w) (hrow : last.ended + last.down < h)
    {below : List UInt8} (hbelow : loadRLE w h isRLE4 (some white) stream.bytes = .ok below) :
    below[(h - 1 - (last.ended + last.down)) * (3 * w) + 3 * last.x]? = some 0 := by
  have hplace := mul_add_lt_mul (a := h - 1 - (last.ended + last.down)) (b := h) (w := 3 * w)
    (x := 3 * last.x) (by omega) (by omega)
  have hlastColumn : 3 * last.x < 3 * w := by omega
  have hrows : ∀ ended down : Nat, ended ≤ last.ended → ended + down < h →
      h - 1 - (last.ended + last.down) < h - 1 - ended + down := by
    omega
  rw [loadRLE_of_size hsize h (Int.natAbs_natCast h)] at hbelow
  refine (foldlM_keeps (Q := fun (image : List UInt8) => image.length = h * (3 * w) ∧
    image[(h - 1 - (last.ended + last.down)) * (3 * w) + 3 * last.x]? = some 0) ?_ ?_
    (mapError_eq_ok hbelow)).2
  · rintro stroke hmem s s' ⟨hlen, hzero⟩ hstroke
    rcases hinside stroke hmem with ⟨hstrokeX, hstrokeRow⟩
    rcases height_of_stroke hinside hsize hmem with ⟨hpos, hht⟩
    have hended := hlast stroke hmem
    have hcnt := length_pos_of_ne_nil (indexes_ne_nil stroke hmem)
    have hcol := (Nat.lt_add_of_pos_right hcnt).trans_le hstrokeX
    have hbelow : decide ((h : Int) > 0) = true := decide_eq_true (Int.natCast_pos.mpr hpos)
    have hbef := mul_add_lt_mul (w := 3 * w) (x := 3 * last.x)
      (hrows stroke.cursor.ended stroke.cursor.down hended hstrokeRow) hlastColumn
    obtain ⟨d, hd, hfilled⟩ := drawStroke_white rfl (hlen.trans_lt hsize)
      (indexes_ne_nil stroke hmem) hstroke
    rw [hht] at hd
    dsimp only at hd
    rw [hbelow] at hd
    have hstart := le_place hsize hstrokeRow hcol hd
    refine ⟨hfilled.length_eq.trans hlen, ?_⟩
    rw [hfilled.get_eq, if_neg fun hfills =>
      absurd ((hbef.trans_le hstart).trans_le hfills.1) (lt_irrefl _)]
    exact hzero
  · refine ⟨length_replicate, ?_⟩
    rw [getElem?_replicate, if_pos hplace]

theorem above_white (hinside : stream.InsideRows w h) (hsize : h * (3 * w) < 2 ^ 31)
    {before : List Stroke} {last : Stroke} (hstrokes : stream.strokes = before ++ [last])
    {above : List UInt8} (habove : loadRLE w (-h) isRLE4 (some white) stream.bytes = .ok above) :
    above[(last.cursor.ended + last.cursor.down) * (3 * w) + 3 * last.cursor.x]? = some 255 := by
  have hmem : last ∈ stream.strokes := by
    rw [hstrokes]
    exact mem_append_right _ mem_cons_self
  have hne := indexes_ne_nil last hmem
  have hcnt := length_pos_of_ne_nil hne
  rcases hinside last hmem with ⟨hx, hrow⟩
  rw [loadRLE_of_size hsize (-h) (by omega), hstrokes] at habove
  have hloop := mapError_eq_ok habove
  rw [foldlM_append] at hloop
  rcases bind_eq_ok.mp hloop with ⟨image, hbef, hlast⟩
  have hlen : image.length = h * (3 * w) := by
    refine foldlM_keeps (Q := fun (image : List UInt8) => image.length = h * (3 * w)) ?_
      length_replicate hbef
    intro stroke hstroke s s' hs hdraw
    have hstrokeMem : stroke ∈ stream.strokes := by
      rw [hstrokes]
      exact mem_append_left _ hstroke
    obtain ⟨d, -, hfilled⟩ := drawStroke_white rfl (hs.trans_lt hsize)
      (indexes_ne_nil stroke hstrokeMem) hdraw
    exact hfilled.length_eq.trans hs
  rcases bind_eq_ok.mp hlast with ⟨result, hdraw, hres⟩
  obtain rfl : result = above := Except.ok.inj hres
  have habovePlace : decide (-(h : Int) > 0) = false := decide_eq_false (by omega)
  have hcol := (Nat.lt_add_of_pos_right hcnt).trans_le hx
  obtain ⟨d, hd, hfilled⟩ := drawStroke_white rfl (hlen.trans_lt hsize) hne hdraw
  dsimp only at hd
  rw [habovePlace, above_place hsize hrow hcol, Nat.cast_inj] at hd
  rw [hfilled.get_eq, if_pos]
  rw [hd]
  exact ⟨le_rfl, Nat.lt_add_of_pos_right (Nat.mul_pos (by decide) hcnt)⟩

theorem level_of_mirrored (hinside : stream.InsideRows w h) (hsize : h * (3 * w) < 2 ^ 31)
    {below above : List UInt8}
    (hbelow : loadRLE w h isRLE4 (some white) stream.bytes = .ok below)
    (habove : loadRLE w (-h) isRLE4 (some white) stream.bytes = .ok above)
    (hmirrored : Mirrored (3 * w) h below above) :
    ∀ stroke ∈ stream.strokes, stroke.cursor.down = 0 := by
  intro stroke hmem
  rcases eq_nil_or_concat stream.strokes with hnil | ⟨before, last, hstrokes⟩
  · rw [hnil] at hmem
    exact absurd hmem not_mem_nil
  · rw [concat_eq_append] at hstrokes
    have hlastMem : last ∈ stream.strokes := by
      rw [hstrokes]
      exact mem_append_right _ mem_cons_self
    have horder : ∀ stroke ∈ stream.strokes,
        stroke.cursor.ended ≤ last.cursor.ended ∧ stroke.cursor.down ≤ last.cursor.down := by
      intro stroke hstroke
      have hpairs : stream.strokes.Pairwise _ := pairwise_strokes
      rw [hstrokes] at hstroke hpairs
      rcases mem_append.mp hstroke with hstroke | hstroke
      · exact (pairwise_append.mp hpairs).2.2 stroke hstroke last mem_cons_self
      · rw [mem_singleton.mp hstroke]
        exact ⟨le_rfl, le_rfl⟩
    have hcnt := length_pos_of_ne_nil (indexes_ne_nil last hlastMem)
    rcases hinside last hlastMem with ⟨hx, hrow⟩
    by_contra hdown
    have hstrokeDown := (horder stroke hmem).2
    have hzero := below_untouched hinside hsize (fun s hs => (horder s hs).1) (by omega)
      (by omega) hrow hbelow
    rw [hmirrored.rows _ hrow _ (by omega), above_white hinside hsize hstrokes habove] at hzero
    exact absurd hzero (by decide)

end Images

/-- A stream whose runs stay inside the rows is decoded to mirror images for the two orientations
exactly if the image is not too large for an array and no run comes after a delta command that
goes on to another line. -/
theorem loadRLE_mirrored_iff {isRLE4 : Bool} (w h : Nat) (stream : Stream isRLE4)
    (hinside : stream.InsideRows w h) :
    DecodesToMirrorImages w h isRLE4 stream.bytes ↔
      h * (3 * w) < 2 ^ 31 ∧ ∀ stroke ∈ stream.strokes, stroke.cursor.down = 0 := by
  constructor
  · intro hmirror
    obtain ⟨below, hbelow⟩ := hmirror.decodes white (white_complete isRLE4)
    have hrelated := hmirror.mirrored (some white)
    cases habove : loadRLE w (-h) isRLE4 (some white) stream.bytes with
    | error failure =>
      rw [hbelow, habove] at hrelated
      cases hrelated
    | ok above =>
      rw [hbelow, habove] at hrelated
      cases hrelated with
      | ok hmirrored =>
        have hsize := size_of_mirrored hbelow hmirrored
        exact ⟨hsize, level_of_mirrored hinside hsize hbelow habove hmirrored⟩
  · rintro ⟨hsize, hlevel⟩
    exact ⟨mirrored_of_level hinside hsize hlevel,
      fun _ => decodes_of_level hinside hsize hlevel⟩

def twoRows : Stream false :=
    ⟨[.encoded 1 0 (by decide), .endOfLine, .encoded 1 1 (by decide)], none⟩

theorem loadRLE_mirrored_two_rows :
    twoRows.InsideRows 1 2 ∧ (DecodesToMirrorImages 1 2 false twoRows.bytes ↔
      2 * (3 * 1) < 2 ^ 31 ∧ ∀ stroke ∈ twoRows.strokes, stroke.cursor.down = 0) := by
  have hinside : twoRows.InsideRows 1 2 := by
    have hstrokes : twoRows.strokes = [⟨⟨0, 0, 0⟩, [0]⟩, ⟨⟨1, 0, 0⟩, [1]⟩] := rfl
    rw [Stream.InsideRows, hstrokes]
    decide
  exact ⟨hinside, loadRLE_mirrored_iff 1 2 twoRows hinside⟩

def secondRow : Stream false := ⟨[.delta 0 1, .encoded 1 0 (by decide)], some []⟩

theorem not_mirrored_second_row :
    secondRow.bytes = [0, 2, 0, 1, 1, 0, 0, 1] ∧ secondRow.InsideRows 1 2 ∧
      loadRLE 1 (-2) false (some white) secondRow.bytes = .ok [0, 0, 0, 255, 255, 255] ∧
      ¬ DecodesToMirrorImages 1 2 false secondRow.bytes := by
  have hstrokes : secondRow.strokes = [⟨⟨0, 1, 0⟩, [0]⟩] := rfl
  refine ⟨rfl, ?_, by decide, fun hmirror => ?_⟩
  · rw [Stream.InsideRows, hstrokes]
    decide
  · obtain ⟨image, himage⟩ := hmirror.decodes white (white_complete false)
    have hfails : loadRLE 1 2 false (some white) secondRow.bytes =
        .error (.runtime .indexOutOfBounds) := by decide
    cases himage

end OpenJfx.Iio.Bmp.Rle
