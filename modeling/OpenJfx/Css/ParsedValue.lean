import OpenJfx.Css.StringStore

namespace OpenJfx.Css

open Data Java Java.DataStream

/-- `valueOf` of an enumeration. -/
def valueOf {α : Type} (values : List α) (name : α → String) (s : String) : Option α :=
  values.find? fun value => name value == s

inductive SizeUnits
  | percent | in | cm | mm | em | ex | pt | pc | px | deg | grad | rad | turn | s | ms
  deriving DecidableEq

namespace SizeUnits

def values : List SizeUnits :=
  [.percent, .in, .cm, .mm, .em, .ex, .pt, .pc, .px, .deg, .grad, .rad, .turn, .s, .ms]

def name : SizeUnits → String
  | .percent => "PERCENT"
  | .in => "IN"
  | .cm => "CM"
  | .mm => "MM"
  | .em => "EM"
  | .ex => "EX"
  | .pt => "PT"
  | .pc => "PC"
  | .px => "PX"
  | .deg => "DEG"
  | .grad => "GRAD"
  | .rad => "RAD"
  | .turn => "TURN"
  | .s => "S"
  | .ms => "MS"

theorem valueOf_name (units : SizeUnits) : valueOf values name units.name = some units := by
  cases units <;> decide

end SizeUnits

inductive StyleConverter
  | enumConverter (enumClass : Option String)
  /-- the instance of another class -/
  | ofClass (cname : String)

def startsWith (s start : String) : Bool := start.toList.isPrefixOf s.toList

namespace EnumConverter

/-- The classes for which `getInstance` makes a converter, by the names that stand for them. -/
def enumClasses : List (String × String) :=
  [("com.sun.javafx.cursor.CursorType", "com.sun.javafx.cursor.CursorType"),
    ("javafx.scene.layout.BackgroundRepeat", "javafx.scene.layout.BackgroundRepeat"),
    ("com.sun.javafx.scene.layout.region.Repeat", "javafx.scene.layout.BackgroundRepeat"),
    ("javafx.geometry.HPos", "javafx.geometry.HPos"),
    ("javafx.geometry.Orientation", "javafx.geometry.Orientation"),
    ("javafx.geometry.Pos", "javafx.geometry.Pos"),
    ("javafx.geometry.Side", "javafx.geometry.Side"),
    ("javafx.geometry.VPos", "javafx.geometry.VPos"),
    ("javafx.scene.effect.BlendMode", "javafx.scene.effect.BlendMode"),
    ("javafx.scene.effect.BlurType", "javafx.scene.effect.BlurType"),
    ("javafx.scene.paint.CycleMethod", "javafx.scene.paint.CycleMethod"),
    ("javafx.scene.shape.ArcType", "javafx.scene.shape.ArcType"),
    ("javafx.scene.shape.StrokeLineCap", "javafx.scene.shape.StrokeLineCap"),
    ("javafx.scene.shape.StrokeLineJoin", "javafx.scene.shape.StrokeLineJoin"),
    ("javafx.scene.shape.StrokeType", "javafx.scene.shape.StrokeType"),
    ("javafx.scene.text.FontPosture", "javafx.scene.text.FontPosture"),
    ("javafx.scene.text.FontSmoothingType", "javafx.scene.text.FontSmoothingType"),
    ("javafx.scene.text.FontWeight", "javafx.scene.text.FontWeight"),
    ("javafx.scene.text.TextAlignment", "javafx.scene.text.TextAlignment")]

/-- `getInstance(ename)`, with assertions disabled. -/
def getInstance (ename : String) : Option StyleConverter :=
  (enumClasses.lookup ename).map fun enumClass => .enumConverter (some enumClass)

def ofName : Option String → Option StyleConverter
  | none => none
  | some ename => if ename = "" then none else getInstance ename

/-- `readBinary(is, strings)`, which takes an index that is not one of the array for `null`, but
for the length of the array. -/
def readBinary (strings : List (Option String)) : Decoder Thrown (Option StyleConverter) := do
  let index ← readShort
  if 0 ≤ index ∧ index ≤ strings.length then
    let ename ← stringAt strings index
    pure (ofName ename)
  else pure none

end EnumConverter

namespace StyleConverter

def inPackage (package : String) (classes : List (String × String)) : List (String × String) :=
  classes.map fun (cname, instanceName) => (package ++ cname, package ++ instanceName)

/-- The classes of `javafx.css.converter` of which `getInstance` gives the instance, by the names
that stand for them. -/
def converterClasses : List (String × String) :=
  [("BooleanConverter", "BooleanConverter"),
    ("ColorConverter", "ColorConverter"),
    ("CursorConverter", "CursorConverter"),
    ("EffectConverter", "EffectConverter"),
    ("EffectConverter$DropShadowConverter", "EffectConverter$DropShadowConverter"),
    ("EffectConverter$InnerShadowConverter", "EffectConverter$InnerShadowConverter"),
    ("FontConverter", "FontConverter"),
    ("FontConverter$FontStyleConverter", "FontConverter$FontStyleConverter"),
    ("FontConverter$StyleConverter", "FontConverter$FontStyleConverter"),
    ("FontConverter$FontWeightConverter", "FontConverter$FontWeightConverter"),
    ("FontConverter$WeightConverter", "FontConverter$FontWeightConverter"),
    ("FontConverter$FontSizeConverter", "FontConverter$FontSizeConverter"),
    ("FontConverter$SizeConverter", "FontConverter$FontSizeConverter"),
    ("InsetsConverter", "InsetsConverter"),
    ("InsetsConverter$SequenceConverter", "InsetsConverter$SequenceConverter"),
    ("PaintConverter", "PaintConverter"),
    ("PaintConverter$SequenceConverter", "PaintConverter$SequenceConverter"),
    ("PaintConverter$LinearGradientConverter", "PaintConverter$LinearGradientConverter"),
    ("PaintConverter$RadialGradientConverter", "PaintConverter$RadialGradientConverter"),
    ("SizeConverter", "SizeConverter"),
    ("SizeConverter$SequenceConverter", "SizeConverter$SequenceConverter"),
    ("StringConverter", "StringConverter"),
    ("StringConverter$SequenceConverter", "StringConverter$SequenceConverter"),
    ("URLConverter", "URLConverter"),
    ("URLConverter$SequenceConverter", "URLConverter$SequenceConverter"),
    ("DeriveColorConverter", "DeriveColorConverter"),
    ("DeriveSizeConverter", "DeriveSizeConverter"),
    ("LadderConverter", "LadderConverter"),
    ("StopConverter", "StopConverter")]

/-- Those of `com.sun.javafx.scene.layout.region`. -/
def regionClasses : List (String × String) :=
  [("BackgroundPositionConverter", "BackgroundPositionConverter"),
    ("BackgroundImage$BackgroundPositionConverter", "BackgroundPositionConverter"),
    ("BackgroundSizeConverter", "BackgroundSizeConverter"),
    ("BackgroundImage$BackgroundSizeConverter", "BackgroundSizeConverter"),
    ("BorderImageSliceConverter", "BorderImageSliceConverter"),
    ("BorderImage$SliceConverter", "BorderImageSliceConverter"),
    ("BorderImageWidthConverter", "BorderImageWidthConverter"),
    ("BorderImageWidthsSequenceConverter", "BorderImageWidthsSequenceConverter"),
    ("BorderStrokeStyleSequenceConverter", "BorderStrokeStyleSequenceConverter"),
    ("StrokeBorder$BorderStyleSequenceConverter", "BorderStrokeStyleSequenceConverter"),
    ("BorderStyleConverter", "BorderStyleConverter"),
    ("StrokeBorder$BorderStyleConverter", "BorderStyleConverter"),
    ("LayeredBackgroundPositionConverter", "LayeredBackgroundPositionConverter"),
    ("BackgroundImage$LayeredBackgroundPositionConverter", "LayeredBackgroundPositionConverter"),
    ("LayeredBackgroundSizeConverter", "LayeredBackgroundSizeConverter"),
    ("BackgroundImage$LayeredBackgroundSizeConverter", "LayeredBackgroundSizeConverter"),
    ("LayeredBorderPaintConverter", "LayeredBorderPaintConverter"),
    ("StrokeBorder$LayeredBorderPaintConverter", "LayeredBorderPaintConverter"),
    ("LayeredBorderStyleConverter", "LayeredBorderStyleConverter"),
    ("StrokeBorder$LayeredBorderStyleConverter", "LayeredBorderStyleConverter"),
    ("RepeatStructConverter", "RepeatStructConverter"),
    ("BackgroundImage$BackgroundRepeatConverter", "RepeatStructConverter"),
    ("BorderImage$RepeatConverter", "RepeatStructConverter"),
    ("SliceSequenceConverter", "SliceSequenceConverter"),
    ("BorderImage$SliceSequenceConverter", "SliceSequenceConverter"),
    ("StrokeBorderPaintConverter", "StrokeBorderPaintConverter"),
    ("StrokeBorder$BorderPaintConverter", "StrokeBorderPaintConverter"),
    ("Margins$Converter", "Margins$Converter"),
    ("Margins$SequenceConverter", "Margins$SequenceConverter"),
    ("CornerRadiiConverter", "CornerRadiiConverter")]

def instances : List (String × String) :=
  inPackage "javafx.css.converter." converterClasses ++
    inPackage "com.sun.javafx.scene.layout.region." regionClasses ++
    [("javafx.scene.layout.CornerRadiiConverter",
        "com.sun.javafx.scene.layout.region.CornerRadiiConverter"),
      ("com.sun.javafx.css.parser.DeriveColorConverter",
        "javafx.css.converter.DeriveColorConverter"),
      ("com.sun.javafx.css.parser.DeriveSizeConverter",
        "javafx.css.converter.DeriveSizeConverter"),
      ("com.sun.javafx.css.parser.LadderConverter", "javafx.css.converter.LadderConverter"),
      ("com.sun.javafx.css.parser.StopConverter", "javafx.css.converter.StopConverter")]

def getInstance (cname : String) : Option StyleConverter := (instances.lookup cname).map .ofClass

/-- The classes of an old package are now in another one. -/
def currentName (cname : String) : String :=
  if startsWith cname "com.sun.javafx.css.converters." then
    "javafx.css.converter." ++
      String.ofList (cname.toList.drop "com.sun.javafx.css.converters.".length)
  else cname

/-- The classes that are read like an `EnumConverter`. -/
def namesEnumConverter (cname : String) : Bool :=
  startsWith (currentName cname) "javafx.css.converter.EnumConverter"

def writeBinary : StyleConverter → Encoder StringStore Thrown
  | .enumConverter enumClass =>
    writeString writeShort (some "javafx.css.converter.EnumConverter") ++
      match enumClass with
      | none => fun _ => .error .nullPointer
      | some ename => writeString writeShort (some ename)
  | .ofClass cname => writeString writeShort (some cname)

/-- `readBinary(is, strings)`; the map from names to converters only saves calls of
`getInstance`. -/
def readBinary (strings : List (Option String)) : Decoder Thrown (Option StyleConverter) := do
  match ← readString readShort strings with
  | none => pure none
  | some cname =>
    if cname = "" then pure none
    else if namesEnumConverter cname then EnumConverter.readBinary strings
    else pure (getInstance (currentName cname))

end StyleConverter

mutual

inductive ParsedValue
  | mk (lookup : Bool) (converter : Option StyleConverter) (value : Value)

/-- The objects that are values. Numbers of type `double` are given by their bits, a colour has
those of its components, and a URL its string. -/
inductive Value
  | null
  | value (pv : ParsedValue)
  | array (values : List (Option ParsedValue))
  | layers (layers : List (Option (List (Option ParsedValue))))
  | string (s : String)
  | color (red green blue opacity : BitVec 64)
  | enum (enumClass name : String)
  | boolean (b : Bool)
  | url (s : String)
  | size (value : BitVec 64) (units : SizeUnits)
  /-- an object of any other class -/
  | other

end

section Write

def writeConverter : Option StyleConverter → Encoder StringStore Thrown
  | some converter => emit (writeBoolean true) ++ converter.writeBinary
  | none => emit (writeBoolean false)

mutual

def ParsedValue.writeBinary : ParsedValue → Encoder StringStore Thrown
  | .mk lookup converter value =>
    emit (writeBoolean lookup) ++ writeConverter converter ++ value.writeBinary

def Value.writeBinary : Value → Encoder StringStore Thrown
  | .value pv => emit (writeByte 1) ++ pv.writeBinary
  | .array values =>
    emit (writeByte 2) ++ emit (writeByte 1) ++ emit (writeInt values.length) ++
      writeElements values
  | .layers layers =>
    emit (writeByte 3) ++ emit (writeByte 1) ++ emit (writeInt layers.length) ++
      writeLayers layers
  | .color red green blue opacity =>
    emit (writeByte 5) ++ emit (writeLong red) ++ emit (writeLong green) ++
      emit (writeLong blue) ++ emit (writeLong opacity)
  | .enum _ name => emit (writeByte 6) ++ writeString writeShort (some name)
  | .boolean b => emit (writeByte 7) ++ emit (writeBoolean b)
  | .size value units =>
    emit (writeByte 9) ++ emit (writeLong value) ++ writeString writeShort (some units.name)
  | .string s => emit (writeByte 4) ++ writeString writeShort (some s)
  | .url s => emit (writeByte 8) ++ writeString writeShort (some s)
  | .null => emit (writeByte 0)
  | .other => fun _ => .error .internalError

def writeElement : Option ParsedValue → Encoder StringStore Thrown
  | none => emit (writeByte 0)
  | some pv => emit (writeByte 1) ++ pv.writeBinary

def writeElements : List (Option ParsedValue) → Encoder StringStore Thrown
  | [] => emit []
  | value :: values => writeElement value ++ writeElements values

def writeLayer : Option (List (Option ParsedValue)) → Encoder StringStore Thrown
  | none => emit (writeByte 0) ++ emit (writeInt 0)
  | some values => emit (writeByte 1) ++ emit (writeInt values.length) ++ writeElements values

def writeLayers : List (Option (List (Option ParsedValue))) → Encoder StringStore Thrown
  | [] => emit []
  | layer :: layers => writeLayer layer ++ writeLayers layers

end

end Write

section Read

variable (bssVersion : Nat) (strings : List (Option String))

def readConverter : Decoder Thrown (Option StyleConverter) := do
  let hasType ← readBoolean
  if hasType then StyleConverter.readBinary strings else pure none

/-- The byte before the number of elements, which is not used. -/
def skipMarker : Decoder Thrown Unit :=
  if 4 ≤ bssVersion then do
    let _ ← readByte
    pure ()
  else pure ()

def readElement (read : Decoder Thrown ParsedValue) : Decoder Thrown (Option ParsedValue) := do
  let vtype ← readByte
  if vtype = 1 then
    let pv ← read
    pure (some pv)
  else pure none

/-- An array, or `null` if there are no elements. -/
def readElements (read : Decoder Thrown ParsedValue) :
    Decoder Thrown (Option (List (Option ParsedValue))) := do
  skipMarker bssVersion
  let nVals ← readInt
  if nVals > 0 then
    let values ← times nVals.toNat (readElement read)
    pure (some values)
  else pure none

def readLayers (read : Decoder Thrown ParsedValue) :
    Decoder Thrown (Option (List (Option (List (Option ParsedValue))))) := do
  skipMarker bssVersion
  let nLayers ← readInt
  if nLayers > 0 then
    let layers ← times nLayers.toNat (readElements bssVersion read)
    pure (some layers)
  else pure none

def ofString : Option String → Value
  | none => .null
  | some s => .string s

def readValueOf (read : Decoder Thrown ParsedValue) (valType : Int) : Decoder Thrown Value :=
  if valType = 1 then do
    let pv ← read
    pure (.value pv)
  else if valType = 2 then do
    let values ← readElements bssVersion read
    pure (values.elim .null .array)
  else if valType = 3 then do
    let layers ← readLayers bssVersion read
    pure (layers.elim .null .layers)
  else if valType = 5 then do
    let red ← readLong
    let green ← readLong
    let blue ← readLong
    let opacity ← readLong
    pure (.color red green blue opacity)
  else if valType = 6 then do
    let ename ← readString readShort strings
    if bssVersion = 2 then
      let bad ← readShort
      if bad ≥ strings.length then throw .illegalArgument
    pure (ofString ename)
  else if valType = 7 then do
    let b ← readBoolean
    pure (.boolean b)
  else if valType = 9 then do
    let value ← readLong
    let unitStr ← readString readShort strings
    pure (.size value ((unitStr.bind (valueOf SizeUnits.values SizeUnits.name)).getD .px))
  else if valType = 4 then do
    let s ← readString readShort strings
    pure (ofString s)
  else if valType = 8 then do
    match ← readString readShort strings with
    | none => throw .internalError
    | some s => pure (.url s)
  else if valType = 0 then pure .null
  else throw .internalError

def readValue (read : Decoder Thrown ParsedValue) : Decoder Thrown Value := do
  let valType ← readByte
  readValueOf bssVersion strings read valType

/-- `readBinary(bssVersion, is, strings)` with at most `depth` values in each other. -/
def ParsedValue.readNested : Nat → Decoder Thrown ParsedValue
  | 0 => throw .eof
  | depth + 1 => do
    let lookup ← readBoolean
    let converter ← readConverter strings
    let value ← readValue bssVersion strings (ParsedValue.readNested depth)
    pure (.mk lookup converter value)

def ParsedValue.readBinary : Decoder Thrown ParsedValue :=
  fun bytes => ParsedValue.readNested bssVersion strings (bytes.length + 1) bytes

end Read

/-- The version that `writeBinary` writes. -/
def binaryCssVersion : Nat := 6

def StyleConverter.restored : StyleConverter → Option StyleConverter
  | .enumConverter enumClass => EnumConverter.ofName enumClass
  | .ofClass cname => if cname = "" then none else getInstance (currentName cname)

/-- No class but `EnumConverter` has a name that begins like its name. -/
def StyleConverter.IsClass : StyleConverter → Prop
  | .enumConverter _ => True
  | .ofClass cname => namesEnumConverter cname = false

section Restored

mutual

/-- The value that is read for one that has been written. -/
def ParsedValue.restored : ParsedValue → ParsedValue
  | .mk lookup converter value => .mk lookup (converter.bind StyleConverter.restored) value.restored

/-- The name of an enum constant comes in the place of the constant, and `null` in the place of an
array without elements. -/
def Value.restored : Value → Value
  | .null => .null
  | .value pv => .value pv.restored
  | .array [] => .null
  | .array (value :: values) => .array (restoredElement value :: restoredElements values)
  | .layers [] => .null
  | .layers (layer :: layers) => .layers (restoredLayer layer :: restoredLayers layers)
  | .string s => .string s
  | .color red green blue opacity => .color red green blue opacity
  | .enum _ name => .string name
  | .boolean b => .boolean b
  | .url s => .url s
  | .size value units => .size value units
  | .other => .other

def restoredElement : Option ParsedValue → Option ParsedValue
  | none => none
  | some pv => some pv.restored

def restoredElements : List (Option ParsedValue) → List (Option ParsedValue)
  | [] => []
  | value :: values => restoredElement value :: restoredElements values

def restoredLayer : Option (List (Option ParsedValue)) → Option (List (Option ParsedValue))
  | none => none
  | some [] => none
  | some (value :: values) => some (restoredElement value :: restoredElements values)

def restoredLayers :
    List (Option (List (Option ParsedValue))) → List (Option (List (Option ParsedValue)))
  | [] => []
  | layer :: layers => restoredLayer layer :: restoredLayers layers

end

mutual

/-- The arrays are not longer than arrays can be, and the converters have classes. -/
def ParsedValue.Fits : ParsedValue → Prop
  | .mk _ converter value => (∀ c, converter = some c → c.IsClass) ∧ value.Fits

def Value.Fits : Value → Prop
  | .value pv => pv.Fits
  | .array values => values.length < 2 ^ 31 ∧ ElementsFit values
  | .layers layers => layers.length < 2 ^ 31 ∧ LayersFit layers
  | .null | .string _ | .color .. | .enum .. | .boolean _ | .url _ | .size .. | .other => True

def ElementFits : Option ParsedValue → Prop
  | none => True
  | some pv => pv.Fits

def ElementsFit : List (Option ParsedValue) → Prop
  | [] => True
  | value :: values => ElementFits value ∧ ElementsFit values

def LayerFits : Option (List (Option ParsedValue)) → Prop
  | none => True
  | some values => values.length < 2 ^ 31 ∧ ElementsFit values

def LayersFit : List (Option (List (Option ParsedValue))) → Prop
  | [] => True
  | layer :: layers => LayerFits layer ∧ LayersFit layers

end

mutual

def ParsedValue.count : ParsedValue → Nat
  | .mk _ _ value => value.count + 1

def Value.count : Value → Nat
  | .value pv => pv.count
  | .array values => countElements values
  | .layers layers => countLayers layers
  | .null | .string _ | .color .. | .enum .. | .boolean _ | .url _ | .size .. | .other => 0

def countElement : Option ParsedValue → Nat
  | none => 0
  | some pv => pv.count

def countElements : List (Option ParsedValue) → Nat
  | [] => 0
  | value :: values => countElement value + countElements values

def countLayer : Option (List (Option ParsedValue)) → Nat
  | none => 0
  | some values => countElements values

def countLayers : List (Option (List (Option ParsedValue))) → Nat
  | [] => 0
  | layer :: layers => countLayer layer + countLayers layers

end

end Restored

section Converters

theorem codes_byte {n : Nat} (h : n < 128) :
    Codes Knows (emit (writeByte n)) (fun _ => readByte) n := .emit (restores_byte h)

theorem codes_boolean (b : Bool) :
    Codes Knows (emit (writeBoolean b)) (fun _ => readBoolean) b := .emit (restores_boolean b)

theorem codes_int {n : Nat} (h : n < 2 ^ 31) :
    Codes Knows (emit (writeInt n)) (fun _ => readInt) n := .emit (restores_int h)

theorem codes_long (n : BitVec 64) :
    Codes Knows (emit (writeLong n)) (fun _ => readLong) n := .emit (restores_long n)

theorem codes_shortString (s : Option String) :
    Codes Knows (writeString writeShort s) (readString readShort) s :=
  codes_string (fun _ => restores_short) s

theorem codes_enumClass (ename : String) :
    Codes Knows (writeString writeShort (some ename)) EnumConverter.readBinary
      (EnumConverter.ofName (some ename)) := by
  intro store bytes store' hw strings hknows
  rcases writeString_index hw hknows with ⟨hknows', index, hlt, rfl, hat⟩
  refine ⟨hknows', (restores_short (Nat.lt_trans hlt hknows.length_lt)).bind_nil fun rest => ?_⟩
  have hidx : (0 : Int) ≤ index ∧ (index : Int) ≤ strings.length := by omega
  rw [if_pos hidx, hat]
  rfl

theorem codes_converter {converter : StyleConverter} (h : converter.IsClass) :
    Codes Knows converter.writeBinary StyleConverter.readBinary converter.restored := by
  cases converter with
  | enumConverter enumClass =>
    refine (codes_shortString _).append ?_
    cases enumClass with
    | none => exact nofun
    | some ename => exact codes_enumClass ename
  | ofClass cname =>
    refine (codes_shortString (some cname)).bind_nil fun strings => ?_
    change Restores (if cname = "" then pure none
      else if StyleConverter.namesEnumConverter cname then EnumConverter.readBinary strings
      else pure (StyleConverter.getInstance (StyleConverter.currentName cname))) []
      (if cname = "" then none else StyleConverter.getInstance (StyleConverter.currentName cname))
    have hclass : ¬StyleConverter.namesEnumConverter cname = true := by
      rw [show StyleConverter.namesEnumConverter cname = false from h]
      exact Bool.false_ne_true
    split
    · exact .pure none
    · exact .pure _

theorem codes_optionalConverter {converter : Option StyleConverter}
    (h : ∀ c, converter = some c → c.IsClass) :
    Codes Knows (writeConverter converter) readConverter
      (converter.bind StyleConverter.restored) := by
  cases converter with
  | none => exact (codes_boolean false).bind_nil fun _ => .pure none
  | some converter => exact (codes_boolean true).append (codes_converter (h converter rfl))

end Converters

section Values

theorem codes_marker {n : Nat} (h : n < 128) :
    Codes Knows (emit (writeByte n)) (fun _ => skipMarker binaryCssVersion) () :=
  (codes_byte h).bind_pure fun _ => ()

abbrev nested (depth : Nat) (strings : List (Option String)) : Decoder Thrown ParsedValue :=
  ParsedValue.readNested binaryCssVersion strings depth

theorem length_restoredElements (values : List (Option ParsedValue)) :
    (restoredElements values).length = values.length := by
  induction values with
  | nil => rfl
  | cons value values ih => rw [restoredElements, List.length_cons, ih, List.length_cons]

theorem length_restoredLayers (layers : List (Option (List (Option ParsedValue)))) :
    (restoredLayers layers).length = layers.length := by
  induction layers with
  | nil => rfl
  | cons layer layers ih => rw [restoredLayers, List.length_cons, ih, List.length_cons]

theorem codes_times {α : Type} {w : Encoder StringStore Thrown} {n : Nat}
    {read : List (Option String) → Decoder Thrown α} {as : List α} (hn : n < 2 ^ 31)
    (hlen : as.length = n)
    (hw : Codes Knows w (fun strings => times n (read strings)) as) :
    Codes Knows (emit (writeByte 1) ++ (emit (writeInt n) ++ w))
      (fun strings => do
        skipMarker binaryCssVersion
        let count ← readInt
        if count > 0 then
          let values ← times count.toNat (read strings)
          pure (some values)
        else pure none) (if as = [] then none else some as) := by
  subst hlen
  refine (codes_marker (by decide)).append ((codes_int hn).append ?_)
  rcases as with _ | ⟨a, as⟩
  · exact hw.bind_pure fun _ => none
  · have hpos : ((a :: as).length : Int) > 0 := Int.natCast_pos.mpr (Nat.succ_pos _)
    simp only [if_pos hpos]
    exact hw.bind_pure some

-- The induction is over the value and its arrays. The decoder goes one level down in each parsed
-- value, so that it needs no more levels than there are parsed values.
mutual

theorem ParsedValue.codes : ∀ (pv : ParsedValue) (depth : Nat), pv.Fits → pv.count ≤ depth →
    Codes Knows pv.writeBinary (nested depth) pv.restored
  | .mk lookup converter value, depth, hfits, hcnt => by
    rcases depth with _ | depth
    · exact absurd hcnt (Nat.not_succ_le_zero _)
    · rw [ParsedValue.writeBinary, encoder_append_assoc]
      have hval := value.codes depth hfits.2 (Nat.le_of_succ_le_succ hcnt)
      exact (codes_boolean lookup).append ((codes_optionalConverter hfits.1).append
        (hval.bind_pure (ParsedValue.mk lookup (converter.bind StyleConverter.restored))))

theorem Value.codes : ∀ (value : Value) (depth : Nat), value.Fits → value.count ≤ depth →
    Codes Knows value.writeBinary
      (fun strings => readValue binaryCssVersion strings (nested depth strings)) value.restored
  | .null, _, _, _ => (codes_byte (by decide)).bind_nil fun _ => .pure _
  | .value pv, depth, hfits, hcnt =>
    (codes_byte (by decide)).append ((pv.codes depth hfits hcnt).bind_pure Value.value)
  | .array values, depth, hfits, hcnt => by
    have hvals := codes_times hfits.1 (length_restoredElements values)
      (elements_codes values depth hfits.2 hcnt)
    have hrestored : (Value.array values).restored =
        (if restoredElements values = [] then none else some (restoredElements values)).elim
          .null .array := by
      cases values <;> rfl
    rw [Value.writeBinary, encoder_append_assoc, encoder_append_assoc, hrestored]
    exact (codes_byte (by decide)).append
      (hvals.bind_pure fun values => Option.elim values Value.null Value.array)
  | .layers layers, depth, hfits, hcnt => by
    have hlayers := codes_times hfits.1 (length_restoredLayers layers)
      (layers_codes layers depth hfits.2 hcnt)
    have hrestored : (Value.layers layers).restored =
        (if restoredLayers layers = [] then none else some (restoredLayers layers)).elim
          .null .layers := by
      cases layers <;> rfl
    rw [Value.writeBinary, encoder_append_assoc, encoder_append_assoc, hrestored]
    exact (codes_byte (by decide)).append
      (hlayers.bind_pure fun layers => Option.elim layers Value.null Value.layers)
  | .string s, _, _, _ => (codes_byte (by decide)).append ((codes_shortString _).bind_pure ofString)
  | .color red green blue opacity, _, _, _ => by
    rw [Value.writeBinary, encoder_append_assoc, encoder_append_assoc, encoder_append_assoc]
    exact (codes_byte (by decide)).append ((codes_long red).append ((codes_long green).append
      ((codes_long blue).append ((codes_long opacity).bind_pure (Value.color red green blue)))))
  | .enum _ name, _, _, _ =>
    (codes_byte (by decide)).append ((codes_shortString _).bind_pure ofString)
  | .boolean b, _, _, _ =>
    (codes_byte (by decide)).append ((codes_boolean b).bind_pure Value.boolean)
  | .url s, _, _, _ =>
    (codes_byte (by decide)).append ((codes_shortString _).bind_nil fun _ => .pure (Value.url s))
  | .size value units, _, _, _ => by
    rw [Value.writeBinary, encoder_append_assoc]
    refine (codes_byte (by decide)).append ((codes_long value).append
      ((codes_shortString _).bind_nil fun _ => ?_))
    change Restores (pure (Value.size value
      ((valueOf SizeUnits.values SizeUnits.name units.name).getD .px))) [] _
    rw [SizeUnits.valueOf_name]
    exact .pure _
  | .other, _, _, _ => nofun

theorem element_codes : ∀ (value : Option ParsedValue) (depth : Nat), ElementFits value →
    countElement value ≤ depth →
    Codes Knows (writeElement value) (fun strings => readElement (nested depth strings))
      (restoredElement value)
  | none, _, _, _ => (codes_byte (by decide)).bind_nil fun _ => .pure none
  | some pv, depth, hfits, hcnt =>
    (codes_byte (by decide)).append ((pv.codes depth hfits hcnt).bind_pure some)

theorem elements_codes : ∀ (values : List (Option ParsedValue)) (depth : Nat), ElementsFit values →
    countElements values ≤ depth →
    Codes Knows (writeElements values)
      (fun strings => times values.length (readElement (nested depth strings)))
      (restoredElements values)
  | [], _, _, _ => .emit (.pure [])
  | value :: values, depth, hfits, hcnt => by
    have hval := element_codes value depth hfits.1 (Nat.le_of_add_right_le hcnt)
    have hvals := elements_codes values depth hfits.2 (Nat.le_of_add_left_le hcnt)
    exact hval.append (hvals.bind_pure (restoredElement value :: ·))

theorem layer_codes : ∀ (layer : Option (List (Option ParsedValue))) (depth : Nat),
    LayerFits layer → countLayer layer ≤ depth →
    Codes Knows (writeLayer layer)
      (fun strings => readElements binaryCssVersion (nested depth strings)) (restoredLayer layer)
  | none, _, _, _ =>
    (codes_marker (by decide)).append ((codes_int (by decide)).bind_nil fun _ => .pure none)
  | some values, depth, hfits, hcnt => by
    have hvals := codes_times hfits.1 (length_restoredElements values)
      (elements_codes values depth hfits.2 hcnt)
    have hrestored : restoredLayer (some values) =
        if restoredElements values = [] then none else some (restoredElements values) := by
      cases values <;> rfl
    rw [writeLayer, encoder_append_assoc, hrestored]
    exact hvals

theorem layers_codes : ∀ (layers : List (Option (List (Option ParsedValue)))) (depth : Nat),
    LayersFit layers → countLayers layers ≤ depth →
    Codes Knows (writeLayers layers)
      (fun strings => times layers.length (readElements binaryCssVersion (nested depth strings)))
      (restoredLayers layers)
  | [], _, _, _ => .emit (.pure [])
  | layer :: layers, depth, hfits, hcnt => by
    have hlayer := layer_codes layer depth hfits.1 (Nat.le_of_add_right_le hcnt)
    have hlayers := layers_codes layers depth hfits.2 (Nat.le_of_add_left_le hcnt)
    exact hlayer.append (hlayers.bind_pure (restoredLayer layer :: ·))

end

theorem writesAtLeast_byte (n : Nat) :
    WritesAtLeast (emit (writeByte n) : Encoder StringStore Thrown) 1 := by
  have h : (writeByte n).length = 1 := length_bigEndian 1 n
  exact h ▸ WritesAtLeast.emit (writeByte n)

mutual

theorem ParsedValue.writesAtLeast : ∀ pv : ParsedValue, WritesAtLeast pv.writeBinary pv.count
  | .mk lookup converter value => by
    rw [ParsedValue.writeBinary, encoder_append_assoc]
    have hval := (WritesAtLeast.zero (writeConverter converter)).append value.writesAtLeast
    have hread := (writesAtLeast_byte (if lookup then 1 else 0)).append hval
    exact hread.of_le (by rw [ParsedValue.count]; omega)

theorem Value.writesAtLeast : ∀ value : Value, WritesAtLeast value.writeBinary value.count
  | .value pv => ((WritesAtLeast.zero _).append pv.writesAtLeast).of_le (Nat.zero_add _).ge
  | .array values =>
    ((WritesAtLeast.zero _).append (elements_writeAtLeast values)).of_le (Nat.zero_add _).ge
  | .layers layers =>
    ((WritesAtLeast.zero _).append (layers_writeAtLeast layers)).of_le (Nat.zero_add _).ge
  | .null | .string _ | .color .. | .enum .. | .boolean _ | .url _ | .size .. | .other =>
    WritesAtLeast.zero _

theorem element_writesAtLeast : ∀ value, WritesAtLeast (writeElement value) (countElement value)
  | none => WritesAtLeast.zero _
  | some pv => ((WritesAtLeast.zero _).append pv.writesAtLeast).of_le (Nat.zero_add _).ge

theorem elements_writeAtLeast :
    ∀ values, WritesAtLeast (writeElements values) (countElements values)
  | [] => WritesAtLeast.zero _
  | value :: values => (element_writesAtLeast value).append (elements_writeAtLeast values)

theorem layer_writesAtLeast : ∀ layer, WritesAtLeast (writeLayer layer) (countLayer layer)
  | none => WritesAtLeast.zero _
  | some values =>
    ((WritesAtLeast.zero _).append (elements_writeAtLeast values)).of_le (Nat.zero_add _).ge

theorem layers_writeAtLeast : ∀ layers, WritesAtLeast (writeLayers layers) (countLayers layers)
  | [] => WritesAtLeast.zero _
  | layer :: layers => (layer_writesAtLeast layer).append (layers_writeAtLeast layers)

end

theorem codes_parsedValue {pv : ParsedValue} (hfits : pv.Fits) :
    Codes Knows pv.writeBinary (ParsedValue.readBinary binaryCssVersion) pv.restored := by
  intro store bytes store' hw strings hknows
  have hcnt := pv.writesAtLeast store bytes store' hw
  refine ⟨(pv.codes pv.count hfits (Nat.le_refl _) store bytes store' hw strings hknows).1, ?_⟩
  intro rest
  have hdepth : pv.count ≤ (bytes ++ rest).length + 1 := by
    rw [List.length_append]
    omega
  exact (pv.codes _ hfits hdepth store bytes store' hw strings hknows).2 rest

end Values

end OpenJfx.Css
