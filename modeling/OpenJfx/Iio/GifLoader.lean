import OpenJfx.Iio.GifRows
import OpenJfx.Iio.LzwSafety
import OpenJfx.Java.Ints

namespace OpenJfx.Iio.Gif

open Data.TurnLoop Java.Arrays Java.Ints

/-- What ends the constructor or `load`. -/
inductive GifFailure where
  | eof
  | invalid (message : String)
  | negativeArraySize
  | runtime (failure : Failure)
  deriving DecidableEq

def LzwFailure.toGif : LzwFailure → GifFailure
  | .eof => .eof
  | .outOfSequence => .invalid "Bad GIF LZW: Out-of-sequence code!"
  | .indexOutOfBounds => .runtime .indexOutOfBounds

abbrev Reader := StateT ByteSource (Except GifFailure)

namespace Reader

def ofOutcome {α : Type} (x : Outcome α) : Reader α := StateT.lift (x.mapError .runtime)

/-- `stream.read()`; there is no value for `-1`. -/
def read : Reader (Option UInt8) := fun s =>
  match s.read with
  | none => .ok (none, s)
  | some (b, s) => .ok (some b, s)

def readByte : Reader Nat := fun s =>
  ((LzwInput.readByte s).mapError LzwFailure.toGif).map fun r => (r.1.toNat, r.2)

def readShort : Reader Nat := do
  let lsb ← readByte
  let msb ← readByte
  pure (lsb + msb <<< 8)

def readBytes (size : Nat) : Reader (List UInt8) := fun s =>
  (LzwInput.readBytes size size s).mapError LzwFailure.toGif

def consumeAnExtension : Reader Unit := fun s =>
  ((Gif.consumeAnExtension s).mapError LzwFailure.toGif).map fun s => ((), s)

end Reader

structure Palette where
  r : List UInt8
  g : List UInt8
  b : List UInt8
  a : List UInt8

/-- `palette[k]` as far as it is filled with the data. -/
def palettePlane (paletteData : List UInt8) (size k : Nat) : Outcome (List UInt8) :=
  (List.range size).mapM fun i => load paletteData (i * 3 + k : Nat)

def readPalete (size : Nat) (trnsIndex : Int) : Reader Palette := do
  let paletteData ← Reader.readBytes (size * 3)
  let r ← Reader.ofOutcome (palettePlane paletteData size 0)
  let g ← Reader.ofOutcome (palettePlane paletteData size 1)
  let b ← Reader.ofOutcome (palettePlane paletteData size 2)
  pure ⟨r, g, b, (List.range size).map fun (i : Nat) => if (i : Int) = trnsIndex then 0 else 0xFF⟩

/-- `GIF87a`. -/
def fileSig87 : List UInt8 := [71, 73, 70, 56, 55, 97]

/-- `GIF89a`. -/
def fileSig89 : List UInt8 := [71, 73, 70, 56, 57, 97]

def netscapeSig : List UInt8 := [78, 69, 84, 83, 67, 65, 80, 69, 50, 46, 48]

/-- The fields that `readGlobalHeader` reads. -/
structure Screen where
  screenW : Nat
  screenH : Nat
  bgColor : Nat
  globalPalette : Option Palette

/-- `readGlobalHeader` but for the allocation of the image. -/
def readGlobalHeader : Reader Screen := do
  let signature ← Reader.readBytes 6
  if signature ≠ fileSig87 ∧ signature ≠ fileSig89 then throw (.invalid "Bad GIF signature!")
  let screenW ← Reader.readShort
  let screenH ← Reader.readShort
  let cInfo ← Reader.readByte
  let bgColor ← Reader.readByte
  let _aspectR ← Reader.readByte
  if cInfo &&& 0x80 ≠ 0 then
    let globalPalette ← readPalete (2 <<< (cInfo &&& 7)) (-1)
    pure ⟨screenW, screenH, bgColor, some globalPalette⟩
  else pure ⟨screenW, screenH, bgColor, none⟩

structure GIFImageLoader2 extends Screen where
  image : List UInt8
  loopCount : Nat

def Screen.newLoader (screen : Screen) : Except GifFailure GIFImageLoader2 :=
  let size := int32 (screen.screenW * screen.screenH * 4)
  if size < 0 then .error .negativeArraySize
  else .ok { screen with image := List.replicate size.toNat 0, loopCount := 1 }

def readSubBlocks : Nat → Nat → Reader Nat
  | 0, _ => throw .eof
  | turns + 1, loopCount => do
    let subBlockSize ← Reader.readByte
    if subBlockSize = 0 then pure loopCount
    else
      let subBlock ← Reader.readBytes subBlockSize
      let subBlockId ← Reader.ofOutcome (load subBlock 0)
      if subBlockSize = 3 ∧ subBlockId = 1 then
        let low ← Reader.ofOutcome (load subBlock 1)
        let high ← Reader.ofOutcome (load subBlock 2)
        readSubBlocks turns (low.toNat ||| high.toNat <<< 8)
      else readSubBlocks turns loopCount

def readAppExtension (loopCount : Nat) : Reader Nat := do
  let size ← Reader.readByte
  let buf ← Reader.readBytes size
  if buf = netscapeSig then fun s => readSubBlocks (s.bytes.length + 1) loopCount s
  else
    Reader.consumeAnExtension
    pure loopCount

def readControlCode : Reader Nat := do
  let size ← Reader.readByte
  let pField ← Reader.readByte
  let frameDelay ← Reader.readShort
  let trnsIndex ← Reader.readByte
  if size ≠ 4 then throw (.invalid "Bad GIF GraphicControlExtension")
  let terminator ← Reader.readByte
  if terminator ≠ 0 then throw (.invalid "Bad GIF GraphicControlExtension")
  pure ((pField &&& 0x1F) <<< 24 + trnsIndex <<< 16 + frameDelay)

/-- A digit of `%02X`. -/
def hexDigit (n : Nat) : Char := Char.ofNat (if n < 10 then 48 + n else 55 + n)

def unexpected (ch : UInt8) : String :=
  "Unexpected GIF control characher 0x" ++
    String.ofList [hexDigit (ch.toNat / 16), hexDigit (ch.toNat % 16)]

def waitLoop : Nat → Nat → Nat → Reader (Option Nat × Nat)
  | 0, _, _ => throw .eof
  | turns + 1, controlData, loopCount => do
    match ← Reader.read with
    | none => pure (none, loopCount)
    | some ch =>
      if ch = 0x2C then pure (some controlData, loopCount)
      else if ch = 0x21 then
        let label ← Reader.readByte
        if label = 0xF9 then
          let controlData ← readControlCode
          waitLoop turns controlData loopCount
        else if label = 0xFF then
          let loopCount ← readAppExtension loopCount
          waitLoop turns controlData loopCount
        else
          Reader.consumeAnExtension
          waitLoop turns controlData loopCount
      else if ch = 0x3B then pure (none, loopCount)
      else throw (.invalid (unexpected ch))

def waitForImageFrame (loopCount : Nat) : Reader (Option Nat × Nat) := fun s =>
  waitLoop (s.bytes.length + 1) 0 loopCount s

/-- The local variables of `load` before the image is decoded. -/
structure Frame where
  left : Nat
  top : Nat
  w : Nat
  h : Nat
  trnsIndex : Int
  isInterlaced : Bool
  palette : Option Palette
  delayTime : Nat
  disposalCode : Nat

def Screen.readPalette (screen : Screen) (imgCtrl : Nat) (trnsIndex : Int) :
    Reader (Option Palette) :=
  if imgCtrl &&& 0x80 ≠ 0 then some <$> readPalete (2 <<< (imgCtrl &&& 7)) trnsIndex
  else pure screen.globalPalette

def trnsIndexOf (imageControlCode : Nat) : Int :=
  if (imageControlCode >>> 24) &&& 1 = 1 then ((imageControlCode >>> 16) &&& 0xFF : Nat) else -1

/-- `load` as far as the palette, for the control code that `waitForImageFrame` gives. -/
def Screen.readFrame (screen : Screen) (imageControlCode : Nat) : Reader Frame := do
  let left ← Reader.readShort
  let top ← Reader.readShort
  let w ← Reader.readShort
  let h ← Reader.readShort
  if screen.screenW < left + w ∨ screen.screenH < top + h then
    throw (.invalid "Wrong GIF image frame size")
  let imgCtrl ← Reader.readByte
  let trnsIndex := trnsIndexOf imageControlCode
  let palette ← screen.readPalette imgCtrl trnsIndex
  pure ⟨left, top, w, h, trnsIndex, imgCtrl &&& 0x40 ≠ 0, palette, imageControlCode &&& 0xFFFF,
    (imageControlCode >>> 26) &&& 7⟩

def GIFImageLoader2.beginLoad (loader : GIFImageLoader2) : Reader (Option Frame × Nat) := do
  let (imageControlCode, loopCount) ← waitForImageFrame loader.loopCount
  match imageControlCode with
  | none => pure (none, loopCount)
  | some imageControlCode =>
    let frame ← loader.readFrame imageControlCode
    pure (some frame, loopCount)

/-- `isInterlaced ? computeInterlaceReIndex(h) : null`. -/
def Frame.reIndex (frame : Frame) : Outcome (Option (List Nat)) :=
  if frame.isInterlaced then some <$> computeInterlaceReIndex frame.h else pure none

def Frame.beginDecode (frame : Frame) (stream : ByteSource) :
    Except GifFailure (Option (List Nat) × StringReader.Locals LzwDecoder) := do
  let size := int32 (frame.w * frame.h)
  if size < 0 then throw .negativeArraySize
  let interlace ← frame.reIndex.mapError .runtime
  let dec ← (LzwDecoder.new stream).mapError LzwFailure.toGif
  pure (interlace, ⟨dec, [], 0, List.replicate size.toNat 0, 0, 0, frame.w⟩)

/-- The four assignments of a pixel of `decodePalette`. -/
def putPixel (palette : Option Palette) (index : Nat) (img : List UInt8) (iPos : Int) :
    Outcome (List UInt8) :=
  match palette with
  | none => .error .nullPointer
  | some palette => do
    let img ← store img iPos (← load palette.r index)
    let img ← store img (int32 (iPos + 1)) (← load palette.g index)
    let img ← store img (int32 (iPos + 2)) (← load palette.b index)
    store img (int32 (iPos + 3)) (← load palette.a index)

def Frame.iPos (frame : Frame) (screenW y x : Nat) : Int :=
  int32 (int32 (((frame.top + y) * screenW + frame.left : Nat) * 4) + 4 * x)

/-- The body of the inner loops of `decodePalette`. -/
def Frame.drawPixel (frame : Frame) (screenW : Nat) (srcImage : List UInt8) (y : Nat)
    (img : List UInt8) (x : Nat) : Outcome (List UInt8) := do
  let index ← load srcImage (int32 (int32 (y * frame.w) + x))
  if frame.trnsIndex < 0 ∨ (index.toNat : Int) ≠ frame.trnsIndex then
    putPixel frame.palette index.toNat img (frame.iPos screenW y x)
  else .ok img

def Frame.forPixels (frame : Frame) (body : Nat → List UInt8 → Nat → Outcome (List UInt8))
    (img : List UInt8) : Outcome (List UInt8) :=
  (List.range frame.h).foldlM (fun img y => (List.range frame.w).foldlM (body y) img) img

def Frame.restoreToBackground (frame : Frame) (screenW : Nat) (img : List UInt8) :
    Outcome (List UInt8) :=
  frame.forPixels (fun y img x => store img (int32 (frame.iPos screenW y x + 3)) 0) img

/-- `decodePalette`, with the field `image` afterwards. -/
def GIFImageLoader2.decodePalette (loader : GIFImageLoader2) (frame : Frame)
    (srcImage : List UInt8) : Outcome (List UInt8 × List UInt8) := do
  let img ← frame.forPixels (frame.drawPixel loader.screenW srcImage) loader.image
  if frame.disposalCode = 2 then
    let image ← frame.restoreToBackground loader.screenW img
    .ok (img, image)
  else .ok (img, if frame.disposalCode = 3 then loader.image else img)

structure ImageMetadata where
  delayTime : Nat
  loopCount : Nat
  width : Int
  height : Int
  deriving DecidableEq

structure ImageFrame where
  imageData : List UInt8
  width : Int
  height : Int
  stride : Int
  metadata : ImageMetadata
  deriving DecidableEq

def defaultFps : Nat := 25

/-- The size of the frame that `load` returns. -/
def Screen.size (screen : Screen) (tools : Scaling) (request : Request) : Int × Int :=
  tools.computeDimensions screen.screenW screen.screenH request.width request.height
    request.preserveAspectRatio

def Screen.scale (screen : Screen) (tools : Scaling) (request : Request) (img : List UInt8) :
    Outcome (List UInt8) :=
  let (width, height) := screen.size tools request
  if (screen.screenW : Int) ≠ width ∨ (screen.screenH : Int) ≠ height then
    tools.scaleImage img screen.screenW screen.screenH 4 width height request.smooth
  else .ok img

def GIFImageLoader2.newFrame (loader : GIFImageLoader2) (tools : Scaling) (request : Request)
    (frame : Frame) (img : List UInt8) : ImageFrame :=
  let (width, height) := loader.size tools request
  ⟨img, width, height, int32 (width * 4),
    ⟨if frame.delayTime ≠ 0 then frame.delayTime * 10 else 1000 / defaultFps, loader.loopCount,
      width, height⟩⟩

/-- Where the loader is. The states but for `waiting` are in the constructor or in a call of
`load`. -/
inductive Stage where
  | opening
  | allocating (screen : Screen)
  | waiting (loader : GIFImageLoader2)
  | starting (loader : GIFImageLoader2) (request : Request) (frame : Frame)
  | decoding (loader : GIFImageLoader2) (request : Request) (frame : Frame)
      (interlace : Option (List Nat)) (locals : StringReader.Locals LzwDecoder)
  | drawing (loader : GIFImageLoader2) (request : Request) (frame : Frame)
      (srcImage : List UInt8)
  | scaling (loader : GIFImageLoader2) (request : Request) (frame : Frame) (img : List UInt8)

/-- A loader with the calls of `load` that are still to be made, and what the others returned. -/
structure Session where
  stream : ByteSource
  stage : Stage
  requests : List Request
  frames : List (Option ImageFrame)

namespace Session

/-- The constructor and then some calls of `load`. -/
def start (stream : ByteSource) (requests : List Request) : Session :=
  ⟨stream, .opening, requests, []⟩

abbrev Result := Except GifFailure (List (Option ImageFrame))

def continues {α : Type} (x : Except GifFailure α) (next : α → Session) : Turn Session Result :=
  match x with
  | .error e => .ends (.error e)
  | .ok a => .goesOn (next a)

/-- A part of the constructor or of `load`. -/
def turn (tools : Scaling) (s : Session) : Turn Session Result :=
  match s.stage with
  | .opening => continues (readGlobalHeader.run s.stream) fun (screen, stream) =>
    { s with stream := stream, stage := .allocating screen }
  | .allocating screen => continues screen.newLoader fun loader =>
    { s with stage := .waiting loader }
  | .waiting loader =>
    match s.requests with
    | [] => .ends (.ok s.frames)
    | request :: requests =>
      continues (loader.beginLoad.run s.stream) fun ((frame, loopCount), stream) =>
        let loader := { loader with loopCount := loopCount }
        match frame with
        | none => ⟨stream, .waiting loader, requests, s.frames ++ [none]⟩
        | some frame => ⟨stream, .starting loader request frame, requests, s.frames⟩
  | .starting loader request frame =>
    continues (frame.beginDecode s.stream) fun (interlace, locals) =>
      { s with stage := .decoding loader request frame interlace locals }
  | .decoding loader request frame interlace locals =>
    match lzwReader.turn frame.w frame.h interlace locals with
    | .goesOn locals =>
      .goesOn { s with stage := .decoding loader request frame interlace locals }
    | .ends (srcImage, dec) => continues (dec.mapError LzwFailure.toGif) fun dec =>
      { s with
        stream := dec.input.source
        stage := .drawing loader request frame srcImage }
  | .drawing loader request frame srcImage =>
    continues ((loader.decodePalette frame srcImage).mapError .runtime) fun (img, image) =>
      { s with stage := .scaling { loader with image := image } request frame img }
  | .scaling loader request frame img =>
    continues ((loader.scale tools request img).mapError .runtime) fun img =>
      { s with
        stage := .waiting loader
        frames := s.frames ++ [some (loader.newFrame tools request frame img)] }

end Session

end OpenJfx.Iio.Gif
