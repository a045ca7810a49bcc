import OpenJfx.Data.Loop
import OpenJfx.Java.Arrays
import OpenJfx.Java.Ints
import Mathlib.Tactic.Ring

namespace OpenJfx.Iio.Bmp

open Data.TurnLoop Java.Arrays Java.Ints

/-- What ends `load`. -/
inductive LoadFailure where
  | runtime (failure : Failure)
  | negativeArraySize
  deriving DecidableEq

def loadPalette (bgraPalette : Option (List UInt8)) (index : Nat) : Outcome UInt8 :=
  match bgraPalette with
  | none => .error .nullPointer
  | some bgraPalette => load bgraPalette index

def setRGBFromPalette (bgraPalette : Option (List UInt8)) (dst : List UInt8 × Int) (index : Nat) :
    Outcome (List UInt8 × Int) := do
  let (image, dstOffset) := dst
  let red ← loadPalette bgraPalette (index * 4 + 2)
  let image ← store image dstOffset red
  let green ← loadPalette bgraPalette (index * 4 + 1)
  let image ← store image (int32 (dstOffset + 1)) green
  let blue ← loadPalette bgraPalette (index * 4)
  let image ← store image (int32 (dstOffset + 2)) blue
  .ok (image, int32 (dstOffset + 3))

def getByte (imgData : List UInt8) : Outcome (UInt8 × List UInt8) :=
  match imgData with
  | [] => .error .indexOutOfBounds
  | b :: imgData => .ok (b, imgData)

def highNibble (b : UInt8) : Nat := ((b &&& 0xf0) >>> 4).toNat

def lowNibble (b : UInt8) : Nat := (b &&& 0x0f).toNat

namespace Rle

structure Params where
  rowLength : Int
  isBottomUp : Bool
  isRLE4 : Bool
  bgraPalette : Option (List UInt8)

/-- The variables of the loop; `imgData` is what there is from `i` on. -/
structure State where
  imgData : List UInt8
  image : List UInt8
  line : Int
  dstOffset : Int

def encodedIndex (isRLE4 : Bool) (b2 : UInt8) (p : Nat) : Nat :=
  if isRLE4 then if p % 2 = 0 then highNibble b2 else lowNibble b2 else b2.toNat

def encodedRun (c : Params) (b1 b2 : UInt8) (dst : List UInt8 × Int) :
    Outcome (List UInt8 × Int) :=
  (List.range b1.toNat).foldlM (fun dst p =>
    setRGBFromPalette c.bgraPalette dst (encodedIndex c.isRLE4 b2 p)) dst

def absoluteRun (c : Params) : Nat → Nat → UInt8 → List UInt8 → List UInt8 × Int →
    Outcome (List UInt8 × List UInt8 × Int)
  | 0, _, _, imgData, dst => .ok (imgData, dst)
  | turns + 1, p, indexData, imgData, dst =>
    if c.isRLE4 ∧ p % 2 = 1 then do
      let dst ← setRGBFromPalette c.bgraPalette dst (lowNibble indexData)
      absoluteRun c turns (p + 1) indexData imgData dst
    else do
      let (indexData, imgData) ← getByte imgData
      let index := if c.isRLE4 then highNibble indexData else indexData.toNat
      let dst ← setRGBFromPalette c.bgraPalette dst index
      absoluteRun c turns (p + 1) indexData imgData dst

/-- Whether a byte follows the data of an absolute run. -/
def isPadded (isRLE4 : Bool) (b2 : UInt8) : Bool :=
  if isRLE4 then b2.toNat % 4 = 1 ∨ b2.toNat % 4 = 2 else b2.toNat % 2 = 1

/-- The body of the loop, after `b1` and `b2` have been read. -/
def command (c : Params) (b1 b2 : UInt8) (s : State) : Outcome (Turn State (List UInt8)) :=
  if b1 = 0 then
    if b2 = 0 then
      let line := int32 (s.line + if c.isBottomUp then -1 else 1)
      .ok (.goesOn { s with line := line, dstOffset := int32 (line * c.rowLength) })
    else if b2 = 1 then .ok (.ends s.image)
    else if b2 = 2 then do
      let (deltaX, imgData) ← getByte s.imgData
      let (deltaY, imgData) ← getByte imgData
      let line := int32 (s.line + deltaY.toNat)
      let dstOffset := int32 (s.dstOffset + int32 (deltaY.toNat * c.rowLength))
      let dstOffset := int32 (dstOffset + deltaX.toNat * 3)
      .ok (.goesOn { s with imgData := imgData, line := line, dstOffset := dstOffset })
    else do
      let (imgData, image, dstOffset) ←
        absoluteRun c b2.toNat 0 0 s.imgData (s.image, s.dstOffset)
      let imgData := if isPadded c.isRLE4 b2 then imgData.drop 1 else imgData
      .ok (.goesOn { s with imgData := imgData, image := image, dstOffset := dstOffset })
  else do
    let (image, dstOffset) ← encodedRun c b1 b2 (s.image, s.dstOffset)
    .ok (.goesOn { s with image := image, dstOffset := dstOffset })

def commands (c : Params) : Nat → State → Outcome (List UInt8)
  | 0, s => .ok s.image
  | turns + 1, s =>
    match s.imgData with
    | [] => .ok s.image
    | b1 :: imgData => do
      let (b2, imgData) ← getByte imgData
      match ← command c b1 b2 { s with imgData := imgData } with
      | .goesOn s => commands c turns s
      | .ends image => .ok image

end Rle

def readRLE (c : Rle.Params) (image : List UInt8) (hght : Int) (imgData : List UInt8) :
    Outcome (List UInt8) :=
  let line := if c.isBottomUp then int32 (hght - 1) else 0
  Rle.commands c imgData.length
    { imgData := imgData, image := image, line := line, dstOffset := int32 (line * c.rowLength) }

/-- What `load` does for such an image, before it scales it. -/
def loadRLE (biWidth biHeight : Int) (isRLE4 : Bool) (bgraPalette : Option (List UInt8))
    (imgData : List UInt8) : Except LoadFailure (List UInt8) :=
  let hght := int32 biHeight.natAbs
  let stride := int32 (biWidth * 3)
  let size := int32 (stride * hght)
  if size < 0 then .error .negativeArraySize
  else
    (readRLE ⟨stride, biHeight > 0, isRLE4, bgraPalette⟩ (List.replicate size.toNat 0) hght
      imgData).mapError .runtime

end OpenJfx.Iio.Bmp

namespace OpenJfx.Iio.Bmp.Rle

open Data Data.TurnLoop Java.Arrays Java.Ints List

section Streams

/-- The bytes of an absolute run without padding. -/
def dataLength (isRLE4 : Bool) (count : UInt8) : Nat :=
  if isRLE4 then (count.toNat + 1) / 2 else count.toNat

inductive Command (isRLE4 : Bool)
  | encoded (count value : UInt8) (pos : 0 < count.toNat)
  | absolute (count : UInt8) (data padding : List UInt8) (long : 2 < count.toNat)
      (length_data : data.length = dataLength isRLE4 count)
      (length_padding : padding.length = if isPadded isRLE4 count then 1 else 0)
  | endOfLine
  | delta (deltaX deltaY : UInt8)

/-- The number of lines that have been ended, the number of lines that delta commands have gone
on, and the column. -/
structure Cursor where
  ended : Nat
  down : Nat
  x : Nat

structure Stroke where
  cursor : Cursor
  indexes : List Nat

/-- The indexes in the data of an absolute run. -/
def unpack (isRLE4 : Bool) (data : List UInt8) : List Nat :=
  if isRLE4 then data.flatMap fun b => [highNibble b, lowNibble b] else data.map UInt8.toNat

namespace Command

variable {isRLE4 : Bool}

def bytes : Command isRLE4 → List UInt8
  | encoded count value _ => [count, value]
  | absolute count data padding _ _ _ => 0 :: count :: (data ++ padding)
  | endOfLine => [0, 0]
  | delta deltaX deltaY => [0, 2, deltaX, deltaY]

def indexes : Command isRLE4 → List Nat
  | encoded count value _ => (List.range count.toNat).map (encodedIndex isRLE4 value)
  | absolute count data _ _ _ _ => (unpack isRLE4 data).take count.toNat
  | endOfLine => []
  | delta _ _ => []

def next (command : Command isRLE4) (cursor : Cursor) : Cursor :=
  match command with
  | encoded count _ _ => { cursor with x := cursor.x + count.toNat }
  | absolute count _ _ _ _ _ => { cursor with x := cursor.x + count.toNat }
  | endOfLine => { cursor with ended := cursor.ended + 1, x := 0 }
  | delta deltaX deltaY =>
    { cursor with down := cursor.down + deltaY.toNat, x := cursor.x + deltaX.toNat }

end Command

/-- The runs that commands draw. -/
def strokes {isRLE4 : Bool} : Cursor → List (Command isRLE4) → List Stroke
  | _, [] => []
  | cursor, command :: commands =>
    (if command.indexes = [] then [] else [⟨cursor, command.indexes⟩]) ++
      strokes (command.next cursor) commands

structure Stream (isRLE4 : Bool) where
  commands : List (Command isRLE4)
  ending : Option (List UInt8)

namespace Stream

variable {isRLE4 : Bool}

def tail (stream : Stream isRLE4) : List UInt8 :=
  match stream.ending with
  | none => []
  | some rest => 0 :: 1 :: rest

def bytes (stream : Stream isRLE4) : List UInt8 :=
  stream.commands.flatMap Command.bytes ++ stream.tail

def strokes (stream : Stream isRLE4) : List Stroke := Rle.strokes ⟨0, 0, 0⟩ stream.commands

/-- The runs stay inside the rows of the image. -/
def InsideRows (width height : Nat) (stream : Stream isRLE4) : Prop :=
  ∀ stroke ∈ stream.strokes, stroke.cursor.x + stroke.indexes.length ≤ width ∧
    stroke.cursor.ended + stroke.cursor.down < height

end Stream

end Streams

section Runs

variable (c : Params)

def draw (bgraPalette : Option (List UInt8)) (indexes : List Nat) (dst : List UInt8 × Int) :
    Outcome (List UInt8 × Int) :=
  indexes.foldlM (setRGBFromPalette bgraPalette) dst

theorem draw_cons (bgraPalette : Option (List UInt8)) (index : Nat) (indexes : List Nat)
    (dst : List UInt8 × Int) :
    draw bgraPalette (index :: indexes) dst =
      setRGBFromPalette bgraPalette dst index >>= draw bgraPalette indexes :=
  foldlM_cons

theorem encodedRun_eq (count value : UInt8) (dst : List UInt8 × Int) :
    encodedRun c count value dst =
      draw c.bgraPalette ((List.range count.toNat).map (encodedIndex c.isRLE4 value)) dst := by
  rw [encodedRun, draw, foldlM_map]

theorem absoluteRun_of_rle8 (hformat : c.isRLE4 = false) (data tail : List UInt8) :
    ∀ (p : Nat) (indexData : UInt8) (dst : List UInt8 × Int),
      absoluteRun c data.length p indexData (data ++ tail) dst =
        draw c.bgraPalette (data.map UInt8.toNat) dst >>= fun dst => .ok (tail, dst) := by
  induction data with
  | nil => exact fun _ _ _ => rfl
  | cons b data ih =>
    intro p indexData dst
    have hother : ¬ (c.isRLE4 = true ∧ p % 2 = 1) := by simp [hformat]
    rw [length_cons, absoluteRun, if_neg hother, cons_append, getByte, ok_bind,
      map_cons, draw_cons, bind_assoc]
    simp only [hformat, if_neg Bool.false_ne_true, ih]

theorem absoluteRun_of_rle4 (hformat : c.isRLE4 = true) (data tail : List UInt8) :
    ∀ (turns p : Nat) (indexData : UInt8) (dst : List UInt8 × Int), p % 2 = 0 →
      data.length = (turns + 1) / 2 →
      absoluteRun c turns p indexData (data ++ tail) dst =
        draw c.bgraPalette ((unpack true data).take turns) dst >>= fun dst => .ok (tail, dst) := by
  induction data with
  | nil =>
    intro turns p indexData dst _ hturns
    have hzero : turns = 0 := by
      rw [length_nil] at hturns
      omega
    rw [hzero]
    rfl
  | cons b data ih =>
    intro turns p indexData dst hp hturns
    rw [length_cons] at hturns
    have hfst : ¬ (c.isRLE4 = true ∧ p % 2 = 1) := fun h => by omega
    have hunpack : unpack true (b :: data) = highNibble b :: lowNibble b :: unpack true data :=
      rfl
    match turns with
    | 0 => omega
    | 1 =>
      have hnil : data = [] := eq_nil_of_length_eq_zero (by omega)
      subst hnil
      rw [absoluteRun, if_neg hfst, cons_append, getByte, ok_bind, hunpack,
        take_succ_cons, draw_cons, bind_assoc]
      simp only [hformat]
      rfl
    | turns + 2 =>
      have hsnd : c.isRLE4 = true ∧ (p + 1) % 2 = 1 := ⟨hformat, by omega⟩
      rw [absoluteRun, if_neg hfst, cons_append, getByte, ok_bind, hunpack,
        take_succ_cons, take_succ_cons, draw_cons, bind_assoc]
      simp only [hformat]
      refine bind_congr fun dst => ?_
      rw [absoluteRun, if_pos hsnd, draw_cons, bind_assoc]
      refine bind_congr fun dst => ?_
      exact ih turns (p + 1 + 1) b dst (by omega) (by omega)

theorem absoluteRun_eq {count : UInt8} {data : List UInt8}
    (hdata : data.length = dataLength c.isRLE4 count) (tail : List UInt8)
    (dst : List UInt8 × Int) :
    absoluteRun c count.toNat 0 0 (data ++ tail) dst =
      draw c.bgraPalette ((unpack c.isRLE4 data).take count.toNat) dst >>=
        fun dst => .ok (tail, dst) := by
  cases hformat : c.isRLE4 with
  | true =>
    rw [hformat] at hdata
    exact absoluteRun_of_rle4 c hformat data tail count.toNat 0 0 dst rfl hdata
  | false =>
    rw [hformat] at hdata
    have hlen : data.length = count.toNat := hdata
    have htake : (unpack false data).take count.toNat = data.map UInt8.toNat :=
      take_of_length_le (by simp [unpack, hlen])
    rw [htake, ← hlen]
    exact absoluteRun_of_rle8 c hformat data tail 0 0 dst

theorem length_unpack (data : List UInt8) : (unpack true data).length = 2 * data.length := by
  induction data with
  | nil => rfl
  | cons b data ih =>
    change (unpack true data).length + 1 + 1 = 2 * (data.length + 1)
    omega

theorem le_length_unpack {isRLE4 : Bool} {count : UInt8} {data : List UInt8}
    (hdata : data.length = dataLength isRLE4 count) :
    count.toNat ≤ (unpack isRLE4 data).length := by
  cases isRLE4 with
  | true =>
    have hhalf : data.length = (count.toNat + 1) / 2 := hdata
    rw [length_unpack]
    omega
  | false =>
    have hsame : data.length = count.toNat := hdata
    simp [unpack, hsame]

theorem next_of_run {isRLE4 : Bool} (command : Command isRLE4) (cursor : Cursor)
    (hne : command.indexes ≠ []) :
    (command.next cursor).x = cursor.x + command.indexes.length ∧
      (command.next cursor).ended = cursor.ended ∧ (command.next cursor).down = cursor.down := by
  cases command with
  | encoded count value _ => exact ⟨by simp [Command.next, Command.indexes], rfl, rfl⟩
  | absolute count data padding _ hdata _ =>
    refine ⟨?_, rfl, rfl⟩
    rw [Command.next, Command.indexes, length_take,
      Nat.min_eq_left (le_length_unpack hdata)]
  | endOfLine | delta deltaX deltaY => exact absurd rfl hne

theorem setRGBFromPalette_snd {bgraPalette : Option (List UInt8)} {dst dst' : List UInt8 × Int}
    {index : Nat} (h : setRGBFromPalette bgraPalette dst index = .ok dst') :
    dst'.2 = int32 (dst.2 + 3) := by
  simp only [setRGBFromPalette, bind_eq_ok] at h
  rcases h with ⟨_, _, _, _, _, _, _, _, _, _, _, _, h⟩
  exact congrArg Prod.snd (Except.ok.inj h).symm

theorem draw_snd {bgraPalette : Option (List UInt8)} {indexes : List Nat} :
    ∀ {dst dst' : List UInt8 × Int} {offset : Int},
      draw bgraPalette indexes dst = .ok dst' → dst.2 = int32 offset →
      dst'.2 = int32 (offset + 3 * indexes.length) := by
  induction indexes with
  | nil =>
    intro dst dst' offset h hdst
    rw [← Except.ok.inj h, hdst]
    simp
  | cons index indexes ih =>
    intro dst dst' offset h hdst
    rw [draw_cons, bind_eq_ok] at h
    rcases h with ⟨next, hnext, h⟩
    have hoff := setRGBFromPalette_snd hnext
    rw [hdst, int32_int32_add] at hoff
    rw [ih h hoff, length_cons]
    congr 1
    omega

end Runs

section Commands

variable {c : Params} {hght : Int}

/-- The row of the image that a line goes to. Lines that end lead downwards or upwards, and delta
commands lead to rows with larger numbers. -/
def row (isBottomUp : Bool) (hght : Int) (cursor : Cursor) : Int :=
  if isBottomUp then hght - 1 - cursor.ended + cursor.down else cursor.ended + cursor.down

def drawStroke (c : Params) (hght : Int) (image : List UInt8) (stroke : Stroke) :
    Outcome (List UInt8) := do
  let place := row c.isBottomUp hght stroke.cursor * c.rowLength + 3 * stroke.cursor.x
  let dst ← draw c.bgraPalette stroke.indexes (image, int32 place)
  .ok dst.1

/-- The variables of the loop are those of a cursor. -/
structure At (c : Params) (hght : Int) (cursor : Cursor) (s : State) : Prop where
  line : s.line = int32 (row c.isBottomUp hght cursor)
  dstOffset : s.dstOffset =
    int32 (row c.isBottomUp hght cursor * c.rowLength + 3 * cursor.x)

theorem At.after_run {cursor : Cursor} {s : State} (h : At c hght cursor s)
    {command : Command c.isRLE4} (hne : command.indexes ≠ []) (rest : List UInt8)
    {dst : List UInt8 × Int}
    (hdraw : draw c.bgraPalette command.indexes (s.image, s.dstOffset) = .ok dst) :
    At c hght (command.next cursor)
      { s with imgData := rest, image := dst.1, dstOffset := dst.2 } := by
  rcases next_of_run command cursor hne with ⟨hx, hended, hdown⟩
  have hrow : row c.isBottomUp hght (command.next cursor) = row c.isBottomUp hght cursor := by
    rw [row, row, hended, hdown]
  refine ⟨?_, ?_⟩
  · rw [hrow]
    exact h.line
  · rw [hrow, hx]
    refine (draw_snd hdraw h.dstOffset).trans (congrArg int32 ?_)
    omega

theorem commands_of_run (command : Command c.isRLE4) (hne : command.indexes ≠ [])
    (tail : List UInt8) (turns : Nat) (s : State) (hs : s.imgData = command.bytes ++ tail) :
    commands c (turns + 1) s =
      draw c.bgraPalette command.indexes (s.image, s.dstOffset) >>= fun dst =>
        commands c turns { s with imgData := tail, image := dst.1, dstOffset := dst.2 } := by
  cases command with
  | encoded count value hpos =>
    have hcnt : count ≠ 0 := by
      rintro rfl
      exact absurd hpos (by decide)
    rw [commands, hs]
    simp only [Command.bytes, cons_append, getByte, ok_bind]
    rw [Rle.command, if_neg hcnt, encodedRun_eq, bind_assoc]
    rfl
  | absolute count data padding hlong hdata hpadding =>
    have hne : ∀ n : UInt8, n.toNat ≤ 2 → count ≠ n := by
      rintro n hn rfl
      omega
    have hdrop : (if isPadded c.isRLE4 count = true then (padding ++ tail).drop 1
        else padding ++ tail) = tail := by
      split_ifs at hpadding ⊢ with hpad
      · obtain ⟨b, rfl⟩ := length_eq_one_iff.mp hpadding
        rfl
      · rw [eq_nil_of_length_eq_zero hpadding, nil_append]
    rw [commands, hs]
    simp only [Command.bytes, cons_append, append_assoc, getByte, ok_bind]
    rw [Rle.command, if_pos rfl, if_neg (hne 0 (by decide)), if_neg (hne 1 (by decide)),
      if_neg (hne 2 (by decide)), absoluteRun_eq c hdata, bind_assoc, bind_assoc]
    refine bind_congr fun dst => ?_
    rw [ok_bind]
    dsimp only
    rw [hdrop]
    rfl
  | endOfLine | delta deltaX deltaY => exact absurd rfl hne

theorem commands_of_move (command : Command c.isRLE4) (hnil : command.indexes = [])
    (tail : List UInt8) (turns : Nat) {cursor : Cursor} {s : State} (h : At c hght cursor s)
    (hs : s.imgData = command.bytes ++ tail) :
    ∃ s', At c hght (command.next cursor) s' ∧ s'.imgData = tail ∧ s'.image = s.image ∧
      commands c (turns + 1) s = commands c turns s' := by
  cases command with
  | encoded count value hpos =>
    have hrange := map_eq_nil_iff.mp hnil
    rw [range_eq_nil] at hrange
    omega
  | absolute count data padding hlong hdata hpadding =>
    have hlen := congrArg List.length hnil
    have hle := le_length_unpack hdata
    rw [Command.indexes, length_take, length_nil] at hlen
    omega
  | endOfLine =>
    refine ⟨{ s with
      imgData := tail
      line := int32 (s.line + if c.isBottomUp then -1 else 1)
      dstOffset := int32 (int32 (s.line + if c.isBottomUp then -1 else 1) * c.rowLength) },
      ?_, rfl, rfl, ?_⟩
    · have hrow : int32 (s.line + if c.isBottomUp then -1 else 1) =
          int32 (row c.isBottomUp hght ((Command.endOfLine : Command c.isRLE4).next cursor)) := by
        rw [h.line, int32_int32_add, row, row, Command.next]
        congr 1
        dsimp only
        split_ifs <;> omega
      refine ⟨hrow, ?_⟩
      rw [hrow, int32_int32_mul, Command.next, Nat.cast_zero, mul_zero, add_zero]
    · rw [commands, hs]
      rfl
  | delta deltaX deltaY =>
    refine ⟨{ s with
      imgData := tail
      line := int32 (s.line + deltaY.toNat)
      dstOffset := int32 (int32 (s.dstOffset + int32 (deltaY.toNat * c.rowLength)) +
        deltaX.toNat * 3) }, ?_, rfl, rfl, ?_⟩
    · have hrow : row c.isBottomUp hght ((Command.delta deltaX deltaY : Command c.isRLE4).next
          cursor) = row c.isBottomUp hght cursor + deltaY.toNat := by
        rw [row, row, Command.next]
        dsimp only
        split_ifs <;> omega
      refine ⟨?_, ?_⟩
      · rw [hrow]
        rw [h.line, int32_int32_add]
      · rw [hrow]
        rw [h.dstOffset, int32_add_int32, int32_int32_add, add_assoc, int32_int32_add,
          Command.next]
        push_cast
        ring_nf
    · rw [commands, hs]
      rfl

theorem commands_eq (tail : List UInt8)
    (htail : ∀ turns s, s.imgData = tail → tail.length ≤ turns → commands c turns s = .ok s.image)
    (cmds : List (Command c.isRLE4)) :
    ∀ (turns : Nat) (cursor : Cursor) (s : State), At c hght cursor s →
      s.imgData = cmds.flatMap Command.bytes ++ tail → s.imgData.length ≤ turns →
      commands c turns s = (strokes cursor cmds).foldlM (drawStroke c hght) s.image := by
  induction cmds with
  | nil =>
    intro turns cursor s _ hdata hturns
    rw [flatMap_nil, nil_append] at hdata
    exact htail turns s hdata (hdata ▸ hturns)
  | cons command cmds ih =>
    intro turns cursor s hs hdata hturns
    rw [flatMap_cons, append_assoc] at hdata
    have hbytes : 0 < command.bytes.length := by
      cases command <;> exact Nat.succ_pos _
    rw [hdata, length_append] at hturns
    obtain ⟨turns, rfl⟩ : ∃ n, turns = n + 1 := ⟨turns - 1, by omega⟩
    rw [strokes]
    by_cases hnil : command.indexes = []
    · obtain ⟨s', hat, hrest, himg, hturn⟩ :=
        commands_of_move command hnil _ turns hs hdata
      rw [if_pos hnil, hturn, ← himg]
      refine ih turns _ s' hat hrest ?_
      rw [hrest]
      omega
    · rw [if_neg hnil, commands_of_run command hnil _ turns s hdata, cons_append,
        nil_append, foldlM_cons, drawStroke, ← hs.dstOffset, bind_assoc]
      cases hdraw : draw c.bgraPalette command.indexes (s.image, s.dstOffset) with
      | error failure => rfl
      | ok dst =>
        refine ih turns _ _ (hs.after_run hnil _ hdraw) rfl ?_
        dsimp only
        omega

theorem commands_tail (stream : Stream c.isRLE4) (turns : Nat) (s : State)
    (hs : s.imgData = stream.tail) (hturns : stream.tail.length ≤ turns) :
    commands c turns s = .ok s.image := by
  rw [Stream.tail] at hs hturns
  cases hending : stream.ending with
  | none =>
    rw [hending] at hs
    cases turns with
    | zero => rfl
    | succ turns => rw [commands, hs]
  | some rest =>
    rw [hending] at hs hturns
    cases turns with
    | zero => exact absurd hturns (Nat.not_succ_le_zero _)
    | succ turns =>
      rw [commands, hs]
      rfl

theorem readRLE_eq (stream : Stream c.isRLE4) (image : List UInt8) :
    readRLE c image hght stream.bytes =
      stream.strokes.foldlM (drawStroke c hght) image := by
  have hstart : (if c.isBottomUp then int32 (hght - 1) else 0) =
      int32 (row c.isBottomUp hght ⟨0, 0, 0⟩) := by
    rw [row]
    split_ifs
    · simp
    · rfl
  refine commands_eq stream.tail (commands_tail stream) stream.commands _ ⟨0, 0, 0⟩ _ ⟨?_, ?_⟩ rfl
    le_rfl
  · exact hstart
  · rw [hstart, int32_int32_mul, Nat.cast_zero, mul_zero, add_zero]

end Commands

end OpenJfx.Iio.Bmp.Rle
