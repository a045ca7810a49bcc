import OpenJfx.Css.SelectorBinary
import OpenJfx.Css.CascadingStyle

namespace OpenJfx.Css

open Data Java Java.DataStream

namespace StyleOrigin

def name : StyleOrigin → String
  | .userAgent => "USER_AGENT"
  | .user => "USER"
  | .author => "AUTHOR"
  | .inline => "INLINE"

theorem valueOf_name (origin : StyleOrigin) : valueOf values name origin.name = some origin := by
  cases origin <;> decide

def ofString : Option String → Decoder Thrown StyleOrigin
  | none => throw .nullPointer
  | some s =>
    match valueOf values name s with
    | some origin => pure origin
    | none => throw .illegalArgument

end StyleOrigin

/-- A list that is made with the capacity that a `short` before its elements says. -/
def readSized {α : Type} (read : Decoder Thrown α) : Decoder Thrown (List α) := do
  let n ← readShort
  if n < 0 then throw .illegalArgument
  times n.toNat read

structure Declaration where
  property : String
  parsedValue : ParsedValue
  important : Bool

namespace Declaration

def writeBinary (declaration : Declaration) : Encoder StringStore Thrown :=
  writeString writeShort (some declaration.property) ++
    (declaration.parsedValue.writeBinary ++ emit (writeBoolean declaration.important))

/-- The constructor, which takes no `null` for a property. -/
def new (property : Option String) (parsedValue : ParsedValue) (important : Bool) :
    Decoder Thrown Declaration :=
  match property with
  | none => throw .illegalArgument
  | some property => pure ⟨property, parsedValue, important⟩

def readBinary (bssVersion : Nat) (strings : List (Option String)) :
    Decoder Thrown Declaration := do
  let property ← readString readShort strings
  let parsedValue ← ParsedValue.readBinary bssVersion strings
  let important ← readBoolean
  new property parsedValue important

def restored (declaration : Declaration) : Declaration :=
  { declaration with parsedValue := declaration.parsedValue.restored }

end Declaration

inductive Rule
  | new (selectors : List AnySelector) (declarations : Option (List Declaration))
  | serialized (selectors : List AnySelector) (serializedDecls : List UInt8) (bssVersion : Nat)

namespace Rule

def selectors : Rule → List AnySelector
  | .new selectors _ => selectors
  | .serialized selectors _ _ => selectors

/-- The stylesheet of the rule has no URL, so that `fixUrl` does nothing. -/
def getUnobservedDeclarationList (strings : List (Option String)) :
    Rule → Except Thrown (Option (List Declaration))
  | .new _ declarations => .ok declarations
  | .serialized _ serializedDecls bssVersion =>
    match readSized (Declaration.readBinary bssVersion strings) serializedDecls with
    | .ok (declarations, _) => .ok (some declarations)
    | .error e => if e.isIOException then .ok (some []) else .error e

def buffered (w : Encoder StringStore Thrown) : Encoder StringStore Thrown := fun store => do
  let (bytes, store) ← w store
  if bytes.length < 2 ^ 31 then .ok (writeInt bytes.length ++ bytes, store)
  else .error .outOfMemory

/-- The declarations. If there is no list of them, two bytes are written where four are read. -/
def writeDeclarations : Option (List Declaration) → Encoder StringStore Thrown
  | none => emit (writeShort 0)
  | some declarations =>
    buffered (emit (writeShort declarations.length) ++
      writeAll Declaration.writeBinary declarations)

/-- `writeBinary(os, stringStore)` of a rule in a stylesheet with these strings. -/
def writeBinary (tables : NameTables) (strings : List (Option String)) (rule : Rule) :
    Encoder StringStore Thrown :=
  (emit (writeShort rule.selectors.length) ++
    writeAll (AnySelector.writeBinary tables) rule.selectors) ++
    fun store => do
      let declarations ← rule.getUnobservedDeclarationList strings
      writeDeclarations declarations store

def readSerialized (selectors : List AnySelector) (bssVersion : Nat) : Decoder Thrown Rule := do
  let nBytes ← readInt
  if nBytes < 0 then throw .negativeArraySize
  let buf ← nextBytes .eof nBytes.toNat
  pure (.serialized selectors buf bssVersion)

def readBinary (registry : Registry) (bssVersion : Nat) (strings : List (Option String)) :
    Decoder Thrown Rule := do
  let selectors ← readSized (AnySelector.readBinary registry strings)
  if bssVersion < 4 then
    let declarations ← readSized (Declaration.readBinary bssVersion strings)
    pure (.new selectors (some declarations))
  else readSerialized selectors bssVersion

end Rule

inductive FontFaceSrcType
  | url | local | reference
  deriving DecidableEq

namespace FontFaceSrcType

def values : List FontFaceSrcType := [.url, .local, .reference]

def name : FontFaceSrcType → String
  | .url => "URL"
  | .local => "LOCAL"
  | .reference => "REFERENCE"

theorem valueOf_name (type : FontFaceSrcType) : valueOf values name type.name = some type := by
  cases type <;> decide

end FontFaceSrcType

structure FontFaceSrc where
  type : Option FontFaceSrcType
  src : Option String
  format : Option String

namespace FontFaceSrc

def writeBinary (src : FontFaceSrc) : Encoder StringStore Thrown :=
  match src.type with
  | none => fun _ => .error .nullPointer
  | some type =>
    writeString writeInt (some type.name) ++
      (writeString writeInt src.src ++ writeString writeInt src.format)

def typeOf : Option String → Decoder Thrown (Option FontFaceSrcType)
  | none => pure none
  | some s =>
    match valueOf FontFaceSrcType.values FontFaceSrcType.name s with
    | some type => pure (some type)
    | none => throw .illegalArgument

def readType (strings : List (Option String)) : Decoder Thrown (Option FontFaceSrcType) := do
  let s ← readString readInt strings
  typeOf s

def readBinary (strings : List (Option String)) : Decoder Thrown FontFaceSrc := do
  let type ← readType strings
  let src ← readString readInt strings
  let format ← readString readInt strings
  pure ⟨type, src, format⟩

end FontFaceSrc

structure FontFaceImpl where
  descriptors : HashMap (Option String) (Option String)
  sources : List FontFaceSrc

namespace FontFaceImpl

def writeBinary (face : FontFaceImpl) : Encoder StringStore Thrown :=
  (emit (writeShort face.descriptors.size) ++
    writeAll (fun entry => writeString writeInt entry.1 ++ writeString writeInt entry.2)
      face.descriptors.entries) ++
    (emit (writeShort face.sources.length) ++ writeAll FontFaceSrc.writeBinary face.sources)

def readDescriptor (strings : List (Option String)) :
    Decoder Thrown (Option String × Option String) := do
  let key ← readString readInt strings
  let value ← readString readInt strings
  pure (key, value)

def ofEntries (entries : List (Option String × Option String)) :
    HashMap (Option String) (Option String) :=
  entries.foldl (fun map entry => map.put entry.1 entry.2) .empty

def readBinary (strings : List (Option String)) : Decoder Thrown FontFaceImpl := do
  let entries ← readSized (readDescriptor strings)
  let sources ← readSized (FontFaceSrc.readBinary strings)
  pure ⟨ofEntries entries, sources⟩

end FontFaceImpl

/-- A stylesheet without a URL, with the strings that it has been read with. -/
structure Stylesheet where
  origin : StyleOrigin
  rules : List Rule
  fontFaces : List FontFaceImpl
  stringStore : List (Option String)

namespace Stylesheet

def writeBinary (tables : NameTables) (stylesheet : Stylesheet) : Encoder StringStore Thrown :=
  writeString writeShort (some stylesheet.origin.name) ++
    ((emit (writeShort stylesheet.rules.length) ++
      writeAll (Rule.writeBinary tables stylesheet.stringStore) stylesheet.rules) ++
      (emit (writeShort stylesheet.fontFaces.length) ++
        writeAll FontFaceImpl.writeBinary stylesheet.fontFaces))

def readOrigin (strings : List (Option String)) : Decoder Thrown StyleOrigin := do
  let s ← readString readShort strings
  StyleOrigin.ofString s

def readFontFaces (bssVersion : Nat) (strings : List (Option String)) :
    Decoder Thrown (List FontFaceImpl) :=
  if 5 ≤ bssVersion then readCounted (FontFaceImpl.readBinary strings) else pure []

def readBinary (registry : Registry) (bssVersion : Nat) (strings : List (Option String)) :
    Decoder Thrown Stylesheet := do
  let origin ← readOrigin strings
  let rules ← readSized (Rule.readBinary registry bssVersion strings)
  let fontFaces ← readFontFaces bssVersion strings
  pure ⟨origin, rules, fontFaces, strings⟩

end Stylesheet

open List

structure RuleContents where
  selectors : List AnySelector
  declarations : Option (List Declaration)

structure Contents where
  origin : StyleOrigin
  rules : List RuleContents
  fontFaces : List FontFaceImpl

def Rule.contents (strings : List (Option String)) (rule : Rule) : Except Thrown RuleContents := do
  let declarations ← rule.getUnobservedDeclarationList strings
  pure ⟨rule.selectors, declarations⟩

def Stylesheet.contents (stylesheet : Stylesheet) : Except Thrown Contents := do
  let rules ← stylesheet.rules.mapM (Rule.contents stylesheet.stringStore)
  pure ⟨stylesheet.origin, rules, stylesheet.fontFaces⟩

def RuleContents.restored (rule : RuleContents) : RuleContents :=
  { rule with declarations := rule.declarations.map (List.map Declaration.restored) }

/-- All is as it was, but for what `ParsedValue.restored` says of the values. -/
def Contents.restored (contents : Contents) : Contents :=
  { contents with rules := contents.rules.map RuleContents.restored }

/-- A rule with a list of declarations, made by constructors, whose lists a `short` can count. -/
structure RuleContents.Fits (registry : Registry) (rule : RuleContents) : Prop where
  selectors_length : rule.selectors.length < 32768
  selectors : ∀ selector ∈ rule.selectors, selector.Built registry ∧ selector.Fits
  declarations : ∃ declarations, rule.declarations = some declarations ∧
    declarations.length < 32768 ∧ ∀ declaration ∈ declarations, declaration.parsedValue.Fits

structure FontFaceImpl.Fits (face : FontFaceImpl) : Prop where
  descriptors : face.descriptors.size < 32768
  sources : face.sources.length < 32768

structure Contents.Fits (registry : Registry) (contents : Contents) : Prop where
  rules_length : contents.rules.length < 32768
  rules : ∀ rule ∈ contents.rules, rule.Fits registry
  fontFaces_length : contents.fontFaces.length < 32768
  fontFaces : ∀ face ∈ contents.fontFaces, face.Fits

section Codes

variable {w : Encoder StringStore Thrown} {n : Nat}

theorem codesTo_sized {α : Type} {read : List (Option String) → Decoder Thrown α}
    {P : List (Option String) → List α → Prop} (hn : n < 32768)
    (hw : CodesTo Knows w (fun strings => times n (read strings)) P) :
    CodesTo Knows (emit (writeShort n) ++ w) (fun strings => readSized (read strings)) P := by
  refine Codes.appendTo (.emit (restores_short hn)) ?_
  exact hw

theorem codes_sized {α : Type} {read : List (Option String) → Decoder Thrown α} {as : List α}
    (hn : n < 32768) (hw : Codes Knows w (fun strings => times n (read strings)) as) :
    Codes Knows (emit (writeShort n) ++ w) (fun strings => readSized (read strings)) as := by
  refine Codes.append (.emit (restores_short hn)) ?_
  exact hw

theorem codes_declaration {declaration : Declaration} (hfits : declaration.parsedValue.Fits) :
    Codes Knows declaration.writeBinary (Declaration.readBinary binaryCssVersion)
      declaration.restored :=
  (codes_shortString _).append ((codes_parsedValue hfits).append
    ((codes_boolean _).bind_nil fun _ => .pure _))

theorem codes_declarations {declarations : List Declaration} (hlen : declarations.length < 32768)
    (hfits : ∀ declaration ∈ declarations, declaration.parsedValue.Fits) :
    Codes Knows
      (emit (writeShort declarations.length) ++ writeAll Declaration.writeBinary declarations)
      (fun strings => readSized (Declaration.readBinary binaryCssVersion strings))
      (declarations.map Declaration.restored) :=
  codes_sized hlen (.writeAll declarations fun declaration hmem =>
    codes_declaration (hfits declaration hmem))

theorem buffered_eq_ok {store store' : StringStore} {bytes : List UInt8}
    (h : Rule.buffered w store = .ok (bytes, store')) :
    ∃ buf, w store = .ok (buf, store') ∧ buf.length < 2 ^ 31 ∧
      bytes = writeInt buf.length ++ buf := by
  unfold Rule.buffered at h
  rcases hw : w store with err | ⟨buf, store₁⟩
  · rw [hw] at h
    cases h
  · rw [hw] at h
    change (if buf.length < 2 ^ 31 then Except.ok (writeInt buf.length ++ buf, store₁)
      else .error Thrown.outOfMemory) = _ at h
    split at h
    · next hlt =>
        cases h
        exact ⟨buf, rfl, hlt, rfl⟩
    · cases h

theorem codesTo_serialized {declarations : List Declaration} (selectors : List AnySelector)
    (hlen : declarations.length < 32768)
    (hfits : ∀ declaration ∈ declarations, declaration.parsedValue.Fits) :
    CodesTo Knows (Rule.writeDeclarations (some declarations))
      (fun _ => Rule.readSerialized selectors binaryCssVersion) fun strings rule =>
        rule.contents strings =
          .ok ⟨selectors, some (declarations.map Declaration.restored)⟩ := by
  intro store bytes store' hw strings hknows
  rcases buffered_eq_ok hw with ⟨buf, hbuf, hlt, rfl⟩
  rcases codes_declarations hlen hfits store buf store' hbuf strings hknows with
    ⟨hknows', hrest⟩
  refine ⟨hknows', .serialized selectors buf binaryCssVersion, ?_, ?_⟩
  · have hrun : readSized (Declaration.readBinary binaryCssVersion strings) buf =
        .ok (declarations.map Declaration.restored, []) := hrest.run_eq
    unfold Rule.contents Rule.getUnobservedDeclarationList
    dsimp only
    rw [hrun]
    rfl
  · refine (restores_int hlt).bind ?_
    exact (restores_nextBytes Thrown.eof buf).bind_pure fun buf =>
      Rule.serialized selectors buf binaryCssVersion

variable {tables : NameTables}

theorem codesTo_rule {rule : Rule} {strings : List (Option String)} {contents : RuleContents}
    (hcont : rule.contents strings = .ok contents) (hfits : contents.Fits tables.toRegistry) :
    CodesTo Knows (rule.writeBinary tables strings)
      (Rule.readBinary tables.toRegistry binaryCssVersion) fun strings rule =>
        rule.contents strings = .ok contents.restored := by
  rcases hfits.declarations with ⟨declarations, hsome, hlen, hvals⟩
  unfold Rule.contents at hcont
  rcases hget : rule.getUnobservedDeclarationList strings with err | list
  · rw [hget] at hcont
    cases hcont
  · rw [hget] at hcont
    cases hcont
    subst hsome
    have hsels := codes_sized hfits.selectors_length (.writeAll rule.selectors
      fun selector hmem => codes_selector (hfits.selectors selector hmem).1
        (hfits.selectors selector hmem).2)
    rw [map_id'] at hsels
    have hwrite : rule.writeBinary tables strings =
        (emit (writeShort rule.selectors.length) ++
          writeAll (AnySelector.writeBinary tables) rule.selectors) ++
          Rule.writeDeclarations (some declarations) := by
      rw [Rule.writeBinary, hget]
      rfl
    rw [hwrite]
    exact hsels.appendTo (codesTo_serialized rule.selectors hlen hvals)

section FontFaces

theorem codes_intString (s : Option String) :
    Codes Knows (writeString writeInt s) (readString readInt) s :=
  codes_string (fun n hn => restores_int (by omega)) s

theorem codes_fontFaceSrc (src : FontFaceSrc) :
    Codes Knows src.writeBinary FontFaceSrc.readBinary src := by
  rcases src with ⟨type, src, format⟩
  cases type with
  | none => exact nofun
  | some type =>
    have htype : Codes Knows (writeString writeInt (some type.name)) FontFaceSrc.readType
        (some type) := by
      refine (codes_intString _).bind_nil fun _ => ?_
      rw [FontFaceSrc.typeOf, FontFaceSrcType.valueOf_name]
      exact .pure _
    exact htype.append ((codes_intString src).append
      ((codes_intString format).bind_pure (FontFaceSrc.mk (some type) src)))

theorem codes_descriptor (entry : Option String × Option String) :
    Codes Knows (writeString writeInt entry.1 ++ writeString writeInt entry.2)
      FontFaceImpl.readDescriptor entry :=
  (codes_intString entry.1).append ((codes_intString entry.2).bind_pure (Prod.mk entry.1))

theorem ofEntries_entries (map : HashMap (Option String) (Option String)) :
    FontFaceImpl.ofEntries map.entries = map := by
  have hentries := HashMap.entries_foldl_put map.entries .empty map.keys_nodup
  exact HashMap.mk.injEq .. ▸ hentries

theorem codes_fontFace {face : FontFaceImpl} (hfits : face.Fits) :
    Codes Knows face.writeBinary FontFaceImpl.readBinary face := by
  have hdescriptors := codes_sized hfits.descriptors (.writeAll face.descriptors.entries
    fun entry _ => codes_descriptor entry)
  have hsources := codes_sized hfits.sources (.writeAll face.sources
    fun src _ => codes_fontFaceSrc src)
  rw [map_id'] at hdescriptors hsources
  have hread : Codes Knows face.writeBinary FontFaceImpl.readBinary
      ⟨FontFaceImpl.ofEntries face.descriptors.entries, face.sources⟩ :=
    hdescriptors.append (hsources.bind_pure (FontFaceImpl.mk _))
  rw [ofEntries_entries] at hread
  exact hread

end FontFaces

theorem codes_origin (origin : StyleOrigin) :
    Codes Knows (writeString writeShort (some origin.name)) Stylesheet.readOrigin origin := by
  refine (codes_shortString _).bind_nil fun _ => ?_
  rw [StyleOrigin.ofString, StyleOrigin.valueOf_name]
  exact .pure _

theorem codes_fontFaces {faces : List FontFaceImpl} (hlen : faces.length < 32768)
    (hfits : ∀ face ∈ faces, face.Fits) :
    Codes Knows (emit (writeShort faces.length) ++ writeAll FontFaceImpl.writeBinary faces)
      (Stylesheet.readFontFaces binaryCssVersion) faces := by
  have hread := codes_counted hlen (.writeAll faces fun face hmem =>
    codes_fontFace (hfits face hmem))
  rw [map_id'] at hread
  exact hread

theorem mapM_eq_ok_iff {α β : Type} {f : α → Except Thrown β} {as : List α} {bs : List β} :
    as.mapM f = .ok bs ↔ List.Forall₂ (fun a b => f a = .ok b) as bs := by
  induction as generalizing bs with
  | nil =>
    rw [forall₂_nil_left_iff]
    exact ⟨fun h => (Except.ok.inj h).symm, fun h => congrArg Except.ok h.symm⟩
  | cons a as ih =>
    rw [mapM_cons, forall₂_cons_left_iff]
    constructor
    · intro h
      rcases ha : f a with err | b
      · rw [ha] at h
        cases h
      · rw [ha] at h
        rcases has : as.mapM f with err | bs'
        · rw [has] at h
          cases h
        · rw [has] at h
          cases h
          exact ⟨b, bs', rfl, ih.mp has, rfl⟩
    · rintro ⟨b, bs', hb, hbs, rfl⟩
      rw [hb, ih.mpr hbs]
      rfl

theorem exists_of_forall₂ {α β : Type} {R : α → β → Prop} {as : List α} {bs : List β}
    (h : List.Forall₂ R as bs) {a : α} (ha : a ∈ as) : ∃ b ∈ bs, R a b := by
  induction h with
  | nil => cases ha
  | cons hab _ ih =>
    rcases mem_cons.mp ha with rfl | ha
    · exact ⟨_, mem_cons_self, hab⟩
    · rcases ih ha with ⟨b, hb, hR⟩
      exact ⟨b, mem_cons_of_mem _ hb, hR⟩

theorem forall₂_of_forall₂ {α β γ : Type} {R : α → β → Prop} {S : α → γ → Prop}
    {T : γ → β → Prop} {as : List α} {bs : List β} {cs : List γ} (hR : List.Forall₂ R as bs)
    (hS : List.Forall₂ S as cs) (hT : ∀ a b c, R a b → S a c → T c b) :
    List.Forall₂ T cs bs := by
  induction hR generalizing cs with
  | nil =>
    rw [forall₂_nil_left_iff.mp hS]
    exact .nil
  | cons hab _ ih =>
    rcases forall₂_cons_left_iff.mp hS with ⟨c, cs', hac, hcs, rfl⟩
    exact .cons (hT _ _ _ hab hac) (ih hcs)

theorem codesTo_rules {rules : List Rule} {strings : List (Option String)}
    {contents : List RuleContents} (hcont : rules.mapM (Rule.contents strings) = .ok contents)
    (hlen : contents.length < 32768) (hfits : ∀ rule ∈ contents, rule.Fits tables.toRegistry) :
    CodesTo Knows
      (emit (writeShort rules.length) ++ writeAll (Rule.writeBinary tables strings) rules)
      (fun strings => readSized (Rule.readBinary tables.toRegistry binaryCssVersion strings))
      fun strings rules =>
        rules.mapM (Rule.contents strings) = .ok (contents.map RuleContents.restored) := by
  rw [mapM_eq_ok_iff] at hcont
  have hrules : CodesTo Knows (writeAll (Rule.writeBinary tables strings) rules)
      (fun strings' => times rules.length
        (Rule.readBinary tables.toRegistry binaryCssVersion strings'))
      fun strings' rules' => List.Forall₂ (fun rule rule' => ∀ c, rule.contents strings = .ok c →
        rule'.contents strings' = .ok c.restored) rules rules' := by
    refine CodesTo.writeAll rules fun rule hmem => ?_
    rcases exists_of_forall₂ hcont hmem with ⟨c, hc, hrule⟩
    refine (codesTo_rule hrule (hfits c hc)).imp fun strings' rule' hrule' c' hc' => ?_
    rw [hrule] at hc'
    cases hc'
    exact hrule'
  rw [hcont.length_eq] at hrules ⊢
  refine (codesTo_sized hlen hrules).imp fun strings' rules' hrestored => ?_
  rw [mapM_eq_ok_iff, forall₂_map_right_iff]
  exact forall₂_of_forall₂ hcont hrestored fun rule c rule' hrule hrestored =>
    hrestored c hrule

theorem codesTo_stylesheet {stylesheet : Stylesheet} {contents : Contents}
    (hcont : stylesheet.contents = .ok contents) (hfits : contents.Fits tables.toRegistry) :
    CodesTo Knows (stylesheet.writeBinary tables)
      (Stylesheet.readBinary tables.toRegistry binaryCssVersion) fun _ stylesheet =>
        stylesheet.contents = .ok contents.restored := by
  unfold Stylesheet.contents at hcont
  rcases hrules : stylesheet.rules.mapM (Rule.contents stylesheet.stringStore) with err | rules
  · rw [hrules] at hcont
    cases hcont
  · rw [hrules] at hcont
    cases hcont
    have hread := (codesTo_rules hrules hfits.rules_length hfits.rules).append
      (codes_fontFaces hfits.fontFaces_length hfits.fontFaces).to fun strings rules faces =>
        Stylesheet.mk stylesheet.origin rules faces strings
    refine ((codes_origin stylesheet.origin).appendTo hread).imp ?_
    rintro strings _ ⟨rules', faces, hrules', rfl, rfl⟩
    unfold Stylesheet.contents
    rw [hrules']
    rfl

end Codes

namespace Stylesheet

variable {tables : NameTables}

/-- What is written is read to its end. The stylesheet that is read, without a URL, shows the same
rules, selectors and declarations, with the values that are restored. -/
theorem readBinary_restored {stylesheet : Stylesheet} {contents : Contents}
    (hcontents : stylesheet.contents = .ok contents) (hfits : contents.Fits tables.toRegistry)
    {body header : List UInt8} {store : StringStore}
    (hwrite : stylesheet.writeBinary tables .new = .ok (body, store))
    (hstore : store.writeBinary = .ok header) (hlength : store.strings.length < 32768) :
    StringStore.readBinary (header ++ body) = .ok (store.strings, body) ∧
      ∃ read, readBinary tables.toRegistry binaryCssVersion store.strings body = .ok (read, []) ∧
        read.contents = .ok contents.restored := by
  have hknows : Knows store store.strings := ⟨prefix_refl _, hlength⟩
  rcases codesTo_stylesheet hcontents hfits .new body store hwrite store.strings hknows with
    ⟨-, read, hread, hrestores⟩
  exact ⟨StringStore.restores_writeBinary hstore hlength body, read, hrestores.run_eq, hread⟩

section Example

def indexOf (name : String) : Nat := Encodable.encode (name.toList.map Char.toNat)

def nameOf (index : Nat) : String :=
  String.ofList (((Encodable.decode (α := List Nat) index).getD []).map Char.ofNat)

theorem nameOf_indexOf (name : String) : nameOf (indexOf name) = name := by
  have hchars : Char.ofNat ∘ Char.toNat = id := funext Char.ofNat_toNat
  rw [nameOf, indexOf, Encodable.encodek, Option.getD_some, map_map, hchars, map_id,
    String.ofList_toList]

def encodedTables : NameTables :=
  ⟨⟨indexOf, indexOf⟩, nameOf, nameOf, nameOf_indexOf, nameOf_indexOf⟩

def centered : RuleContents where
  selectors := [.simple (.new encodedTables.toRegistry (some "Text") [] [] none)]
  declarations := some
    [⟨"-fx-text-alignment", .mk false
        (some (.enumConverter (some "javafx.scene.text.TextAlignment")))
        (.enum "javafx.scene.text.TextAlignment" "CENTER"), false⟩,
      ⟨"-fx-font-size", .mk false
        (some (.ofClass "javafx.css.converter.FontConverter$FontSizeConverter"))
        (.value (.mk false none (.size 0x4028000000000000#64 .px))), true⟩]

def centeredSheet : Stylesheet := ⟨.author, [.new centered.selectors centered.declarations], [], []⟩

def centeredContents : Contents := ⟨.author, [centered], []⟩

theorem centered_fits : centeredContents.Fits encodedTables.toRegistry where
  rules_length := by decide
  rules := by
    refine forall_mem_singleton.mpr ⟨by decide, ?_, _, rfl, by decide, ?_⟩
    · refine forall_mem_singleton.mpr ⟨⟨_, _, _, _, rfl⟩, ?_⟩
      exact ⟨by decide, by decide⟩
    · intro declaration hmem
      rcases mem_pair.mp hmem with rfl | rfl
      · exact ⟨fun c hc => Option.some.inj hc ▸ trivial, trivial⟩
      · exact ⟨fun c hc => Option.some.inj hc ▸ show _ = false by decide, nofun, trivial⟩
  fontFaces_length := by decide
  fontFaces := nofun

theorem centeredSheet_contents : centeredSheet.contents = .ok centeredContents := rfl

theorem centeredSheet_written : ∃ body store header,
    centeredSheet.writeBinary encodedTables .new = .ok (body, store) ∧
      store.writeBinary = .ok header ∧ store.strings.length < 32768 :=
  ⟨_, _, _, rfl, rfl, by decide⟩

theorem readBinary_restored_centered : ∃ body store header,
    centeredSheet.writeBinary encodedTables .new = .ok (body, store) ∧
      store.writeBinary = .ok header ∧ store.strings.length < 32768 ∧
      StringStore.readBinary (header ++ body) = .ok (store.strings, body) ∧
      ∃ read, readBinary encodedTables.toRegistry binaryCssVersion store.strings body =
        .ok (read, []) ∧ read.contents = .ok centeredContents.restored := by
  rcases centeredSheet_written with ⟨body, store, header, hwrite, hstore, hlength⟩
  exact ⟨body, store, header, hwrite, hstore, hlength,
    readBinary_restored centeredSheet_contents centered_fits hwrite hstore hlength⟩

/-- The enum constant is read as a string, so that the values are not equal. -/
theorem enum_read_as_string : ∃ body store header read contents,
    centeredSheet.writeBinary encodedTables .new = .ok (body, store) ∧
      store.writeBinary = .ok header ∧
      StringStore.readBinary (header ++ body) = .ok (store.strings, body) ∧
      readBinary encodedTables.toRegistry binaryCssVersion store.strings body = .ok (read, []) ∧
      read.contents = .ok contents ∧ centeredSheet.contents ≠ .ok contents := by
  rcases centeredSheet_written with ⟨body, store, header, hwrite, hstore, hlength⟩
  have hknows : Knows store store.strings := ⟨prefix_refl _, hlength⟩
  rcases codesTo_stylesheet centeredSheet_contents centered_fits .new body store hwrite
    store.strings hknows with ⟨-, read, hread, hrestores⟩
  refine ⟨body, store, header, read, centeredContents.restored, hwrite, hstore,
    StringStore.restores_writeBinary hstore hlength body, hrestores.run_eq, hread, ?_⟩
  intro heq
  have hrules := congrArg Contents.rules (Except.ok.inj heq)
  cases hrules

end Example

end Stylesheet

end OpenJfx.Css
