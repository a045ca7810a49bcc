import OpenJfx.Iio.BmpRle
import OpenJfx.Iio.ByteSource

namespace OpenJfx.Iio.Bmp

open Java.Arrays Java.Ints

/-- What ends the constructor or `load`. -/
inductive ReadFailure where
  | eof
  | invalid (message : String)
  | load (failure : LoadFailure)

abbrev Reader := StateT ByteSource (Except ReadFailure)

namespace Reader

def ofOutcome {α : Type} (x : Outcome α) : Reader α :=
  StateT.lift (x.mapError fun e => .load (.runtime e))

/-- `new byte[size]`. -/
def newBytes (size : Int) : Reader (List UInt8) :=
  if size < 0 then throw (.load .negativeArraySize) else pure (List.replicate size.toNat 0)

/-- `in.read()`; there is no value for `-1`. -/
def read : Reader (Option UInt8) := fun s =>
  match s.read with
  | none => .ok (none, s)
  | some (b, s) => .ok (some b, s)

def readShort : Reader Int := do
  let ch1 ← read
  let ch2 ← read
  match ch1, ch2 with
  | some ch1, some ch2 => pure (Int.bmod (ch2.toNat * 2 ^ 8 + ch1.toNat) (2 ^ 16))
  | _, _ => throw .eof

def readInt : Reader Int := do
  let ch1 ← read
  let ch2 ← read
  let ch3 ← read
  let ch4 ← read
  match ch1, ch2, ch3, ch4 with
  | some ch1, some ch2, some ch3, some ch4 =>
    pure (int32 (ch4.toNat * 2 ^ 24 + ch3.toNat * 2 ^ 16 + ch2.toNat * 2 ^ 8 + ch1.toNat))
  | _, _, _, _ => throw .eof

def skipBytes (n : Int) : Reader Unit := fun s =>
  match s.skipFully n.toNat with
  | .ok s => .ok ((), s)
  | .error _ => .error .eof

/-- `ImageTools.readFully(data.in, b)` for an array `b` of the length `len`. -/
def readFully (len : Nat) : Reader (List UInt8) := fun s =>
  match s.readFully len with
  | .ok r => .ok r
  | .error _ => .error .eof

end Reader

structure BitmapInfoHeader where
  biSize : Int
  biWidth : Int
  biHeight : Int
  biPlanes : Int
  biBitCount : Int
  biCompression : Int
  biSizeImage : Int
  biXPelsPerMeter : Int
  biYPelsPerMeter : Int
  biClrUsed : Int
  biClrImportant : Int

namespace BitmapInfoHeader

def bihSize : Int := 40
def bih4Size : Int := 108
def bih5Size : Int := 124
def biRgb : Int := 0
def biRle8 : Int := 1
def biRle4 : Int := 2
def biBitfields : Int := 3
def biJpeg : Int := 4
def biPng : Int := 5

def validate (h : BitmapInfoHeader) : Except ReadFailure Unit :=
  if h.biBitCount < 1 ∨ h.biCompression = biJpeg ∨ h.biCompression = biPng then
    .error (.invalid
      "Unsupported BMP image: Embedded JPEG or PNG images are not supported")
  else if h.biCompression = biRle4 then
    if h.biBitCount ≠ 4 then
      .error (.invalid "Invalid BMP image: Only 4 bpp images can be RLE4 compressed")
    else .ok ()
  else if h.biCompression = biRle8 then
    if h.biBitCount ≠ 8 then
      .error (.invalid "Invalid BMP image: Only 8 bpp images can be RLE8 compressed")
    else .ok ()
  else if h.biCompression = biBitfields then
    if h.biBitCount ≠ 16 ∧ h.biBitCount ≠ 32 then
      .error (.invalid
        "Invalid BMP image: Only 16 or 32 bpp images can use BITFIELDS compression")
    else .ok ()
  else if h.biCompression = biRgb then .ok ()
  else .error (.invalid "Unknown BMP compression type")

def new : Reader BitmapInfoHeader := do
  let biSize ← Reader.readInt
  let biWidth ← Reader.readInt
  let biHeight ← Reader.readInt
  let biPlanes ← Reader.readShort
  let biBitCount ← Reader.readShort
  let biCompression ← Reader.readInt
  let biSizeImage ← Reader.readInt
  let biXPelsPerMeter ← Reader.readInt
  let biYPelsPerMeter ← Reader.readInt
  let biClrUsed ← Reader.readInt
  let biClrImportant ← Reader.readInt
  let h : BitmapInfoHeader := ⟨biSize, biWidth, biHeight, biPlanes, biBitCount, biCompression,
    biSizeImage, biXPelsPerMeter, biYPelsPerMeter, biClrUsed, biClrImportant⟩
  if bihSize < biSize then
    if biSize = bih4Size ∨ biSize = bih5Size then Reader.skipBytes (biSize - bihSize)
    else throw (.invalid "BitmapInfoHeader is corrupt")
  StateT.lift h.validate
  pure h

end BitmapInfoHeader

def getDWord (buf : List UInt8) (pos : Int) : Outcome UInt32 := do
  let b ← load buf pos
  let b1 ← load buf (int32 (pos + 1))
  let b2 ← load buf (int32 (pos + 2))
  let b3 ← load buf (int32 (pos + 3))
  .ok (b.toUInt32 ||| b1.toUInt32 <<< 8 ||| b2.toUInt32 <<< 16 ||| b3.toUInt32 <<< 24)

def getWord (buf : List UInt8) (pos : Int) : Outcome UInt32 := do
  let b ← load buf pos
  let b1 ← load buf (int32 (pos + 1))
  .ok (b.toUInt32 ||| b1.toUInt32 <<< 8)

def checkDisjointMasks (m1 m2 m3 : UInt32) : Bool :=
  ((m1 &&& m2) ||| (m1 &&& m3) ||| (m2 &&& m3)) = 0

def isPow2Minus1 (i : UInt32) : Bool := (i &&& (i + 1)) = 0

/-- The inner loop of `parseBitfields`. The first argument bounds the number of turns. -/
def shiftOut : Nat → UInt32 → UInt32 → UInt32 × UInt32
  | 0, mask, offset => (mask, offset)
  | turns + 1, mask, offset =>
    if mask &&& 1 = 0 then shiftOut turns (mask >>> 1) (offset + 1) else (mask, offset)

structure BitField where
  mask : UInt32
  offset : UInt32

/-- A turn of the loop of `parseBitfields`. -/
def parseBitfield (bgraPalette : List UInt8) (i : Nat) : Except ReadFailure BitField := do
  let mask ← (getDWord bgraPalette (i * 4)).mapError fun e => .load (.runtime e)
  if mask ≠ 0 then
    let (rest, offset) := shiftOut 32 mask 0
    if isPow2Minus1 rest then .ok ⟨mask, offset⟩
    else .error (.invalid "Bit mask is not contiguous")
  else .ok ⟨mask, 0⟩

def parseBitfields (bgraPalette : Option (List UInt8)) : Except ReadFailure (List BitField) :=
  match bgraPalette with
  | none => .error (.load (.runtime .nullPointer))
  | some bgraPalette => do
    if bgraPalette.length ≠ 12 then throw (.invalid "Invalid bit masks")
    let red ← parseBitfield bgraPalette 0
    let green ← parseBitfield bgraPalette 1
    let blue ← parseBitfield bgraPalette 2
    if checkDisjointMasks red.mask green.mask blue.mask then .ok [red, green, blue]
    else throw (.invalid "Bit masks overlap")

/-- The fields that `readHeader` reads first. -/
structure FileHeader where
  bfSize : Int
  bfOffBits : Int
  bih : BitmapInfoHeader

def bm : Int := 0x4D42

def bfhSize : Int := 14

def readFileHeader : Reader FileHeader := do
  let signature ← Reader.readShort
  if signature ≠ bm then throw (.invalid "Invalid BMP file signature")
  let bfSize ← Reader.readInt
  Reader.skipBytes 4
  let bfOffBits ← Reader.readInt
  let bih ← BitmapInfoHeader.new
  if bfOffBits < int32 (bih.biSize + bfhSize) then
    throw (.invalid "Invalid bitmap bits offset")
  pure ⟨bfSize, bfOffBits, bih⟩

namespace FileHeader

variable (h : FileHeader)

def length : Int := int32 (int32 (h.bfOffBits - h.bih.biSize) - bfhSize)

def paletteLength : Int := int32 (h.length.tdiv 4 * 4)

end FileHeader

/-- `data.in.read(bgra_palette)`, a single request, with the array afterwards. -/
def readOnce (size : Nat) : Reader (List UInt8 × Int) := fun s =>
  if size = 0 then .ok (([], 0), s)
  else
    match s.readSome size with
    | none => .ok ((List.replicate size 0, -1), s)
    | some (bytes, s) =>
      .ok ((bytes ++ List.replicate (size - bytes.length) 0, bytes.length), s)

/-- The last step to the image, after so many bytes of the palette. -/
def skipRest (length read : Int) : Reader Unit :=
  if read < length then Reader.skipBytes (int32 (length - read)) else pure ()

/-- The part of `readHeader` that goes on to the image. -/
def readPalette (h : FileHeader) : Reader (Option (List UInt8)) :=
  if int32 (h.bih.biSize + bfhSize) ≠ h.bfOffBits then do
    if h.paletteLength < 0 then throw (.load .negativeArraySize)
    let (bgraPalette, read) ← readOnce h.paletteLength.toNat
    skipRest h.length read
    pure (some bgraPalette)
  else pure none

/-- The last part of `readHeader`: there are no masks unless the image needs them. -/
def bitfields (bih : BitmapInfoHeader) (bgraPalette : Option (List UInt8)) :
    Except ReadFailure (Option (List BitField)) :=
  if bih.biCompression = BitmapInfoHeader.biBitfields then some <$> parseBitfields bgraPalette
  else if bih.biCompression = BitmapInfoHeader.biRgb ∧ bih.biBitCount = 16 then
    .ok (some [⟨0x7C00, 10⟩, ⟨0x3E0, 5⟩, ⟨0x1F, 0⟩])
  else .ok none

structure BMPImageLoader where
  header : FileHeader
  bgraPalette : Option (List UInt8)
  bits : Option (List BitField)

def BMPImageLoader.new : Reader BMPImageLoader := do
  let header ← readFileHeader
  let bgraPalette ← readPalette header
  let bits ← StateT.lift (bitfields header.bih bgraPalette)
  pure ⟨header, bgraPalette, bits⟩

/-- The number of turns of `for (int i = 0; i != n; i++)`. -/
def turnsTo (n : Int) : Nat := (n % 2 ^ 32).toNat

def align4 (n : Int) : Int := int32 (n + 3) / 4 * 4

def convertFrom5To8Bit (i : UInt32) (bit : BitField) : UInt8 :=
  let b := (i &&& bit.mask) >>> bit.offset
  (b <<< 3 ||| b >>> 2).toUInt8

/-- `convertFromXTo8Bit(i, mask, offset)`. The quotient is a floating-point number, which is too
close to the exact one to be on the other side of an integer; it is cut off to an `int` and then
to a `byte`. -/
def convertFromXTo8Bit (i : UInt32) (bit : BitField) : UInt8 :=
  let b := int32 ((i &&& bit.mask) >>> bit.offset).toNat
  let m := int32 (bit.mask >>> bit.offset).toNat
  let quotient := if m = 0 then 0 else (b * 255).tdiv m
  .ofInt (max (-2 ^ 31) (min quotient (2 ^ 31 - 1)))

def forRows (biHeight hght : Int) (body : Int → List UInt8 → Reader (List UInt8))
    (image : List UInt8) : Reader (List UInt8) :=
  (List.range (turnsTo hght)).foldlM (fun image i =>
    body (if biHeight < 0 then int32 i else int32 (hght - i - 1)) image) image

def forPixels (biWidth : Int) (body : List UInt8 × Int → Int → Outcome (List UInt8 × Int))
    (image : List UInt8) (dstOffset : Int) : Outcome (List UInt8) := do
  let dst ← (List.range (turnsTo biWidth)).foldlM (fun dst x => body dst (int32 x))
    (image, dstOffset)
  .ok dst.1

def put (dst : List UInt8 × Int) (value : UInt8) : Outcome (List UInt8 × Int) := do
  let image ← store dst.1 dst.2 value
  .ok (image, int32 (dst.2 + 1))

namespace BMPImageLoader

variable (loader : BMPImageLoader)

/-- The body of the loop over the pixels of `readPackedBits`. The bits of `lineBuf[bitnum / 8]`
that the sign fills in are masked out. -/
def packedPixel (lineBuf : List UInt8) (dst : List UInt8 × Int) (x : Int) :
    Outcome (List UInt8 × Int) := do
  let biBitCount := loader.header.bih.biBitCount
  let bitnum := int32 (x * biBitCount)
  let element ← load lineBuf (bitnum.tdiv 8)
  let shift := 8 - bitnum % 8 - biBitCount
  let index := (element.toNat >>> shift.toNat) % 2 ^ biBitCount.toNat
  setRGBFromPalette loader.bgraPalette dst index

def readPackedBits (image : List UInt8) (rowLength hght : Int) : Reader (List UInt8) := do
  let bih := loader.header.bih
  let pixPerByte := (8 : Int).tdiv bih.biBitCount
  let bytesPerLine := (int32 (bih.biWidth + pixPerByte - 1)).tdiv pixPerByte
  let lineBuf ← Reader.newBytes (align4 bytesPerLine)
  forRows bih.biHeight hght (fun line image => do
    let lineBuf ← Reader.readFully lineBuf.length
    Reader.ofOutcome (forPixels bih.biWidth (loader.packedPixel lineBuf) image
      (int32 (line * rowLength)))) image

/-- The arrays `bitMasks` and `bitOffsets`. -/
def bitFields : Outcome (List BitField) :=
  match loader.bits with
  | none => .error .nullPointer
  | some bits => .ok bits

/-- The loop over the colours of a pixel. -/
def putBits (converter : UInt32 → BitField → UInt8) (element : UInt32)
    (dst : List UInt8 × Int) : Outcome (List UInt8 × Int) := do
  let bits ← loader.bitFields
  bits.foldlM (fun dst bit => put dst (converter element bit)) dst

def read16Bit (converter : UInt32 → BitField → UInt8) (image : List UInt8)
    (rowLength hght : Int) : Reader (List UInt8) := do
  let bih := loader.header.bih
  let lineBuf ← Reader.newBytes (align4 (int32 (bih.biWidth * 2)))
  forRows bih.biHeight hght (fun line image => do
    let lineBuf ← Reader.readFully lineBuf.length
    Reader.ofOutcome (forPixels bih.biWidth (fun dst x => do
      let element ← getWord lineBuf (int32 (x * 2))
      loader.putBits converter element dst) image (int32 (line * rowLength)))) image

/-- The body of the loop over the pixels of `read32BitRGB`. -/
def pixelRGB (lineBuf : List UInt8) (dst : List UInt8 × Int) (x : Int) :
    Outcome (List UInt8 × Int) := do
  let srcOff := int32 (x * 4)
  let dst ← put dst (← load lineBuf (int32 (srcOff + 2)))
  let dst ← put dst (← load lineBuf (int32 (srcOff + 1)))
  put dst (← load lineBuf srcOff)

def read32Bit (pixel : List UInt8 → List UInt8 × Int → Int → Outcome (List UInt8 × Int))
    (image : List UInt8) (rowLength hght : Int) : Reader (List UInt8) := do
  let bih := loader.header.bih
  let lineBuf ← Reader.newBytes (int32 (bih.biWidth * 4))
  forRows bih.biHeight hght (fun line image => do
    let lineBuf ← Reader.readFully lineBuf.length
    Reader.ofOutcome (forPixels bih.biWidth (pixel lineBuf) image
      (int32 (line * rowLength)))) image

def read32BitRGB : List UInt8 → Int → Int → Reader (List UInt8) := loader.read32Bit pixelRGB

def read32BitBF : List UInt8 → Int → Int → Reader (List UInt8) :=
  loader.read32Bit fun lineBuf dst x => do
    let element ← getDWord lineBuf (int32 (x * 4))
    loader.putBits convertFromXTo8Bit element dst

/-- A turn of the loop of `BGRtoRGB`. -/
def swapEnds (state : List UInt8 × Int) : Outcome (List UInt8 × Int) := do
  let (data, pos) := state
  let b ← load data pos
  let r ← load data (int32 (pos + 2))
  let data ← store data (int32 (pos + 2)) b
  let data ← store data pos r
  .ok (data, int32 (pos + 3))

def bgrToRGB (data : List UInt8) (pos size : Int) : Outcome (List UInt8) := do
  let state ← (List.range (turnsTo (size.tdiv 3))).foldlM (fun state _ => swapEnds state)
    (data, pos)
  .ok state.1

def readInto (image : List UInt8) (off len : Int) : Reader (List UInt8) := do
  if len < 0 ∨ off < 0 ∨ image.length < int32 (off + len) ∨ int32 (off + len) < 0 then
    throw (.load (.runtime .indexOutOfBounds))
  let bytes ← Reader.readFully len.toNat
  pure (image.take off.toNat ++ bytes ++ image.drop (off + len).toNat)

def read24Bit (image : List UInt8) (rowLength hght : Int) : Reader (List UInt8) :=
  forRows loader.header.bih.biHeight hght (fun line image => do
    let lineOffset := int32 (line * rowLength)
    let image ← readInto image lineOffset rowLength
    Reader.skipBytes (int32 (align4 rowLength - rowLength))
    Reader.ofOutcome (bgrToRGB image lineOffset rowLength)) image

def readRLE (isRLE4 : Bool) (image : List UInt8) (rowLength hght : Int) :
    Reader (List UInt8) := do
  let header := loader.header
  let imgSize := if header.bih.biSizeImage = 0 then int32 (header.bfSize - header.bfOffBits)
    else header.bih.biSizeImage
  let imgData ← Reader.newBytes imgSize
  let imgData ← Reader.readFully imgData.length
  Reader.ofOutcome (Bmp.readRLE ⟨rowLength, header.bih.biHeight > 0, isRLE4, loader.bgraPalette⟩
    image hght imgData)

/-- The `switch` of `load`. -/
def readImage (image : List UInt8) (stride hght : Int) : Reader (List UInt8) :=
  let bih := loader.header.bih
  if bih.biBitCount = 1 then loader.readPackedBits image stride hght
  else if bih.biBitCount = 4 then
    if bih.biCompression = BitmapInfoHeader.biRle4 then loader.readRLE true image stride hght
    else loader.readPackedBits image stride hght
  else if bih.biBitCount = 8 then
    if bih.biCompression = BitmapInfoHeader.biRle8 then loader.readRLE false image stride hght
    else loader.readPackedBits image stride hght
  else if bih.biBitCount = 16 then
    if bih.biCompression = BitmapInfoHeader.biBitfields then
      loader.read16Bit convertFromXTo8Bit image stride hght
    else loader.read16Bit convertFrom5To8Bit image stride hght
  else if bih.biBitCount = 32 then
    if bih.biCompression = BitmapInfoHeader.biBitfields then loader.read32BitBF image stride hght
    else loader.read32BitRGB image stride hght
  else if bih.biBitCount = 24 then loader.read24Bit image stride hght
  else throw (.invalid "Unknown BMP bit depth")

end BMPImageLoader

structure ImageFrame where
  imageData : List UInt8
  width : Int
  height : Int
  stride : Int
  deriving DecidableEq

def BMPImageLoader.load (loader : BMPImageLoader) (tools : Scaling) (request : Request) :
    Reader (Option ImageFrame) :=
  if request.imageIndex ≠ 0 then pure none
  else do
    let bih := loader.header.bih
    let hght := int32 bih.biHeight.natAbs
    let (width, height) := tools.computeDimensions bih.biWidth hght request.width request.height
      request.preserveAspectRatio
    let stride := int32 (bih.biWidth * 3)
    let image ← Reader.newBytes (int32 (stride * hght))
    let image ← loader.readImage image stride hght
    let img ← if bih.biWidth ≠ width ∨ hght ≠ height then
        Reader.ofOutcome (tools.scaleImage image bih.biWidth hght 3 width height request.smooth)
      else pure image
    pure (some ⟨img, width, height, int32 (width * 3)⟩)

def decode (tools : Scaling) (request : Request) (input : ByteSource) :
    Except ReadFailure (Option ImageFrame) :=
  (BMPImageLoader.new >>= fun loader => loader.load tools request).run' input

end OpenJfx.Iio.Bmp
