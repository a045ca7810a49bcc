import OpenJfx.Css.CompoundSelector
import OpenJfx.Css.ParsedValue

namespace OpenJfx.Css

open Data Data.WordSet Java Java.DataStream List

structure NameTables extends Registry where
  styleClassName : Nat → String
  pseudoClassName : Nat → String
  styleClassName_styleClass : ∀ name, styleClassName (styleClass name) = name
  pseudoClassName_pseudoClass : ∀ name, pseudoClassName (pseudoClass name) = name

/-- The indexes of the elements in the order of `iterator()`. -/
def BitSet.indexes (s : BitSet) : List Nat :=
  (List.range (64 * s.bits.length)).filter fun i => (word s.bits (i / 64)).getLsbD (i % 64)

def writeNames (size : Nat) (names : List String) : Encoder StringStore Thrown :=
  emit (writeShort size) ++ writeAll (fun name => writeString writeShort (some name)) names

/-- A loop that reads as many elements as a `short` before them says. -/
def readCounted {α : Type} (read : Decoder Thrown α) : Decoder Thrown (List α) := do
  let n ← readShort
  times n.toNat read

def readNames (strings : List (Option String)) : Decoder Thrown (List (Option String)) :=
  readCounted (readString readShort strings)

namespace SimpleSelector

variable (tables : NameTables)

def getStyleClasses (sel : SimpleSelector) : List String :=
  sel.styleClassSet.indexes.map tables.styleClassName

def dirNames : NodeOrientation → List String
  | .rightToLeft => ["dir(rtl)"]
  | .leftToRight => ["dir(ltr)"]
  | .inherit => []

def getPseudoclasses (sel : SimpleSelector) : List String :=
  sel.pseudoClassState.indexes.map tables.pseudoClassName ++ dirNames sel.nodeOrientation

def pclassSize (sel : SimpleSelector) : Nat :=
  sel.pseudoClassState.size + if sel.nodeOrientation = .inherit then 0 else 1

def writeBinary (sel : SimpleSelector) : Encoder StringStore Thrown :=
  emit (writeByte 1) ++ (writeString writeShort (some sel.name) ++
    (writeNames sel.styleClassSet.size (sel.getStyleClasses tables) ++
      (writeString writeShort (some sel.id) ++
        writeNames sel.pclassSize (sel.getPseudoclasses tables))))

def readBinary (registry : Registry) (strings : List (Option String)) :
    Decoder Thrown SimpleSelector := do
  let name ← readString readShort strings
  let styleClasses ← readNames strings
  let id ← readString readShort strings
  let pseudoclasses ← readNames strings
  pure (SimpleSelector.new registry name styleClasses pseudoclasses id)

def Built (registry : Registry) (sel : SimpleSelector) : Prop :=
  ∃ name styleClasses pseudoClasses id, sel = .new registry name styleClasses pseudoClasses id

/-- The numbers of names fit into a `short`. -/
structure Fits (sel : SimpleSelector) : Prop where
  styleClasses : sel.styleClassSet.size < 32768
  pseudoclasses : sel.pclassSize < 32768

end SimpleSelector

/-- A selector as it is read: a compound may have no parts. -/
inductive AnySelector
  | simple (selector : SimpleSelector)
  | compound (selectors : List SimpleSelector) (relationships : List Combinator)

def Combinator.ordinal : Combinator → Nat
  | .child => 0
  | .descendant => 1

def Combinator.readBinary : Decoder Thrown Combinator := do
  let ordinal ← readByte
  pure (if ordinal = 0 then .child else .descendant)

def readPart (registry : Registry) (strings : List (Option String)) :
    Decoder Thrown SimpleSelector := do
  let type ← readByte
  if type = 1 then SimpleSelector.readBinary registry strings else throw .classCast

namespace AnySelector

def writeBinary (tables : NameTables) : AnySelector → Encoder StringStore Thrown
  | .simple selector => selector.writeBinary tables
  | .compound selectors relationships =>
    emit (writeByte 2) ++ ((emit (writeShort selectors.length) ++
      writeAll (SimpleSelector.writeBinary tables) selectors) ++
      (emit (writeShort relationships.length) ++
        writeAll (fun relationship => emit (writeByte relationship.ordinal)) relationships))

def readCompound (registry : Registry) (strings : List (Option String)) :
    Decoder Thrown AnySelector := do
  let selectors ← readCounted (readPart registry strings)
  let relationships ← readCounted Combinator.readBinary
  pure (.compound selectors relationships)

def readBinary (registry : Registry) (strings : List (Option String)) :
    Decoder Thrown AnySelector := do
  let type ← readByte
  if type = 1 then
    let selector ← SimpleSelector.readBinary registry strings
    pure (.simple selector)
  else readCompound registry strings

def Built (registry : Registry) : AnySelector → Prop
  | .simple selector => selector.Built registry
  | .compound selectors _ => ∀ selector ∈ selectors, selector.Built registry

def Fits : AnySelector → Prop
  | .simple selector => selector.Fits
  | .compound selectors relationships =>
    selectors.length < 32768 ∧ relationships.length < 32768 ∧
      ∀ selector ∈ selectors, selector.Fits

end AnySelector

section Indexes

theorem mem_indexes {s : BitSet} {i : Nat} : i ∈ s.indexes ↔ i ∈ members s.bits := by
  rw [BitSet.indexes, mem_filter, mem_range]
  refine and_iff_right_of_imp fun hmem => ?_
  have hlt : i / 64 < s.bits.length := div_lt_of_mem (show i ∈ members s.bits from hmem)
  omega

theorem length_indexes (s : BitSet) : s.indexes.length = s.size := by
  have hnd : s.indexes.Nodup := nodup_range.filter _
  have hset : members s.bits = (s.indexes.toFinset : Set Nat) := by
    ext i
    rw [Finset.mem_coe, mem_toFinset, mem_indexes]
  rw [BitSet.size, size_eq_ncard (by decide), hset, Set.ncard_coe_finset,
    toFinset_card_of_nodup hnd]

end Indexes

namespace SimpleSelector

section Names

variable (index : String → Nat)

theorem mem_addNames (names : List (Option String)) (set : BitSet) (i : Nat) :
    i ∈ members (addNames index set names).bits ↔
      i ∈ members set.bits ∨ ∃ name, some name ∈ names ∧ name ≠ "" ∧ i = index name := by
  induction names generalizing set with
  | nil => simp [addNames]
  | cons name names ih =>
    rw [addNames, foldl_cons, ← addNames, ih]
    cases name with
    | none => simp
    | some name =>
      dsimp only
      split
      · next hemp =>
          subst hemp
          refine or_congr_right (exists_congr fun name => ?_)
          simp only [mem_cons, Option.some.injEq]
          constructor
          · exact fun h => ⟨.inr h.1, h.2⟩
          · exact fun h => ⟨h.1.resolve_left h.2.1, h.2⟩
      · next hne =>
          rw [BitSet.mem_members_add]
          simp only [mem_cons, Option.some.injEq]
          constructor
          · rintro ((rfl | hset) | ⟨n, hn, hrest⟩)
            · exact .inr ⟨name, .inl rfl, hne, rfl⟩
            · exact .inl hset
            · exact .inr ⟨n, .inr hn, hrest⟩
          · rintro (hset | ⟨n, rfl | hn, hrest⟩)
            · exact .inl (.inr hset)
            · exact .inl (.inl hrest.2)
            · exact .inr ⟨n, hn, hrest⟩

theorem addPseudoClasses_snd (pseudoClasses : List (Option String)) (dir : NodeOrientation)
    (set : BitSet) :
    (addPseudoClasses index dir set pseudoClasses).2 =
      addNames index set (pseudoClasses.filter fun pclass => !pclass.any isDir) := by
  induction pseudoClasses generalizing dir set with
  | nil => rfl
  | cons pclass pseudoClasses ih =>
    cases pclass with
    | none =>
      rw [addPseudoClasses, ih]
      rfl
    | some pclass =>
      rw [addPseudoClasses]
      by_cases hemp : pclass = ""
      · subst hemp
        rw [if_pos rfl, ih]
        rfl
      · rw [if_neg hemp]
        cases hdir : isDir pclass with
        | true =>
          rw [if_pos rfl, ih, filter_cons_of_neg (by simp [hdir])]
        | false =>
          rw [if_neg Bool.false_ne_true, ih, filter_cons_of_pos (by simp [hdir]),
            addNames, addNames, foldl_cons]
          dsimp only
          rw [if_neg hemp]

theorem addPseudoClasses_fst_append (pseudoClasses rest : List (Option String))
    (h : ∀ pclass ∈ pseudoClasses, pclass.any isDir = false) (dir : NodeOrientation)
    (set : BitSet) :
    ∃ set', (addPseudoClasses index dir set (pseudoClasses ++ rest)).1 =
      (addPseudoClasses index dir set' rest).1 := by
  induction pseudoClasses generalizing set with
  | nil => exact ⟨set, rfl⟩
  | cons pclass pseudoClasses ih =>
    have htail := ih fun pclass hmem => h pclass (mem_cons_of_mem _ hmem)
    cases pclass with
    | none => exact htail set
    | some pclass =>
      have hdir : isDir pclass = false := h (some pclass) mem_cons_self
      rw [cons_append, addPseudoClasses, hdir]
      split
      · exact htail set
      · exact htail _

theorem addNames_indexes {nameOf : Nat → String} (hnameOf : ∀ name, nameOf (index name) = name)
    {s : BitSet} (htrimmed : Trimmed s.bits)
    (hs : ∀ i ∈ members s.bits, ∃ name, name ≠ "" ∧ i = index name) :
    addNames index BitSet.new ((s.indexes.map nameOf).map some) = s := by
  have hmembers : members (addNames index BitSet.new ((s.indexes.map nameOf).map some)).bits =
      members s.bits := by
    ext i
    rw [mem_addNames]
    constructor
    · rintro (hnew | ⟨name, hname, -, rfl⟩)
      · exact absurd hnew (by simp [BitSet.new])
      · simp only [mem_map, Option.some.injEq, exists_eq_right] at hname
        rcases hname with ⟨i, hi, rfl⟩
        rcases hs i (mem_indexes.mp hi) with ⟨name, -, rfl⟩
        rw [hnameOf]
        exact mem_indexes.mp hi
    · intro hi
      rcases hs i hi with ⟨name, hne, rfl⟩
      refine .inr ⟨name, ?_, hne, rfl⟩
      refine mem_map.mpr ⟨name, mem_map.mpr ⟨index name, mem_indexes.mpr hi, ?_⟩, rfl⟩
      exact hnameOf name
  have hbits := Trimmed.eq_of_members_eq (trimmed_addNames index _ trimmed_nil) htrimmed hmembers
  exact congrArg BitSet.mk hbits

end Names

variable {tables : NameTables}

theorem isDir_dirNames (dir : NodeOrientation) : ∀ name ∈ dirNames dir, isDir name = true := by
  cases dir <;> decide

variable {registry : Registry} {sel : SimpleSelector}

theorem Built.styleClasses (h : sel.Built registry) :
    ∀ i ∈ members sel.styleClassSet.bits, ∃ name, name ≠ "" ∧ i = registry.styleClass name := by
  rcases h with ⟨name, styleClasses, pseudoClasses, id, rfl⟩
  intro i hi
  rcases (mem_addNames registry.styleClass styleClasses BitSet.new i).mp hi with hnew | hname
  · exact absurd hnew (by simp [BitSet.new])
  · rcases hname with ⟨name, -, hne, rfl⟩
    exact ⟨name, hne, rfl⟩

theorem Built.pseudoClasses (h : sel.Built registry) :
    ∀ i ∈ members sel.pseudoClassState.bits,
      ∃ name, name ≠ "" ∧ isDir name = false ∧ i = registry.pseudoClass name := by
  rcases h with ⟨name, styleClasses, pseudoClasses, id, rfl⟩
  intro i hi
  change i ∈ members (addPseudoClasses _ _ _ _).2.bits at hi
  rw [addPseudoClasses_snd, mem_addNames] at hi
  rcases hi with hnew | ⟨name, hname, hne, rfl⟩
  · exact absurd hnew (by simp [BitSet.new])
  · refine ⟨name, hne, ?_, rfl⟩
    have hdir := (mem_filter.mp hname).2
    simpa using hdir

theorem Built.pseudoNames (h : sel.Built tables.toRegistry) :
    ∀ pclass ∈ (sel.pseudoClassState.indexes.map tables.pseudoClassName).map some,
      pclass.any isDir = false := by
  intro pclass hmem
  rcases mem_map.mp hmem with ⟨name, hname, rfl⟩
  rcases mem_map.mp hname with ⟨i, hi, rfl⟩
  rcases h.pseudoClasses i (mem_indexes.mp hi) with ⟨name, -, hdir, rfl⟩
  rw [tables.pseudoClassName_pseudoClass]
  exact hdir

theorem Built.orientation (h : sel.Built tables.toRegistry) :
    (addPseudoClasses tables.pseudoClass .inherit BitSet.new
      ((sel.getPseudoclasses tables).map some)).1 = sel.nodeOrientation := by
  rw [getPseudoclasses, map_append]
  rcases addPseudoClasses_fst_append tables.pseudoClass _ ((dirNames sel.nodeOrientation).map some)
    h.pseudoNames .inherit BitSet.new with ⟨set, hset⟩
  rw [hset]
  cases sel.nodeOrientation <;> rfl

theorem Built.pseudoClassState (h : sel.Built tables.toRegistry) :
    (addPseudoClasses tables.pseudoClass .inherit BitSet.new
      ((sel.getPseudoclasses tables).map some)).2 = sel.pseudoClassState := by
  have hdirs : ((dirNames sel.nodeOrientation).map some).filter
      (fun pclass => !pclass.any isDir) = [] := by
    refine filter_eq_nil_iff.mpr fun pclass hmem => ?_
    rcases mem_map.mp hmem with ⟨name, hname, rfl⟩
    simp [isDir_dirNames sel.nodeOrientation name hname]
  have hnames : ((sel.pseudoClassState.indexes.map tables.pseudoClassName).map some).filter
      (fun pclass => !pclass.any isDir) =
      (sel.pseudoClassState.indexes.map tables.pseudoClassName).map some := by
    refine filter_eq_self.mpr fun pclass hmem => ?_
    rw [h.pseudoNames pclass hmem]
    rfl
  rw [addPseudoClasses_snd, getPseudoclasses, map_append, filter_append, hdirs, hnames,
    append_nil]
  refine addNames_indexes tables.pseudoClass tables.pseudoClassName_pseudoClass
    sel.pseudoClassState_trimmed fun i hi => ?_
  rcases h.pseudoClasses i hi with ⟨name, hne, -, hidx⟩
  exact ⟨name, hne, hidx⟩

theorem Built.flags (h : sel.Built registry) :
    sel.matchOnName = (sel.name != "" && sel.name != "*") ∧ sel.matchOnId = (sel.id != "") ∧
      sel.matchOnStyleClass = decide (sel.styleClassSet.size > 0) := by
  rcases h with ⟨name, styleClasses, pseudoClasses, id, rfl⟩
  refine ⟨?_, ?_, rfl⟩
  · cases name <;> rfl
  · cases id <;> rfl

theorem Built.new_eq (h : sel.Built tables.toRegistry) :
    SimpleSelector.new tables.toRegistry (some sel.name) ((sel.getStyleClasses tables).map some)
      ((sel.getPseudoclasses tables).map some) (some sel.id) = sel := by
  have hstyleClasses := addNames_indexes tables.styleClass tables.styleClassName_styleClass
    sel.styleClassSet_trimmed h.styleClasses
  have horientation := h.orientation
  have hpseudoClasses := h.pseudoClassState
  rcases h.flags with ⟨hname, hid, hclasses⟩
  rw [SimpleSelector.new]
  rcases sel with ⟨name, styleClassSet, id, pseudoClassState, matchOnName, matchOnId,
    matchOnStyleClass, nodeOrientation, ht, hp⟩
  simp only [getStyleClasses, hstyleClasses, horientation, hpseudoClasses, mk.injEq, true_and,
    Option.getD_some, and_true]
  dsimp only at hname hid hclasses
  rw [hname, hid, hclasses]
  exact ⟨rfl, rfl, rfl⟩

theorem length_getStyleClasses (tables : NameTables) (sel : SimpleSelector) :
    (sel.getStyleClasses tables).length = sel.styleClassSet.size := by
  rw [getStyleClasses, length_map, length_indexes]

theorem length_getPseudoclasses (tables : NameTables) (sel : SimpleSelector) :
    (sel.getPseudoclasses tables).length = sel.pclassSize := by
  rw [getPseudoclasses, length_append, length_map, length_indexes, pclassSize]
  cases sel.nodeOrientation <;> rfl

end SimpleSelector

section Codes

theorem codes_counted {α : Type} {w : Encoder StringStore Thrown} {n : Nat}
    {read : List (Option String) → Decoder Thrown α} {as : List α} (hn : n < 32768)
    (hw : Codes Knows w (fun strings => times n (read strings)) as) :
    Codes Knows (emit (writeShort n) ++ w) (fun strings => readCounted (read strings)) as :=
  Codes.append (.emit (restores_short hn)) hw

theorem codes_names {names : List String} {size : Nat} (hsize : names.length = size)
    (hlt : size < 32768) : Codes Knows (writeNames size names) readNames (names.map some) := by
  subst hsize
  exact codes_counted hlt (.writeAll names fun name _ => codes_shortString (some name))

variable {tables : NameTables}

theorem codes_simpleSelector {sel : SimpleSelector} (hbuilt : sel.Built tables.toRegistry)
    (hfits : sel.Fits) :
    Codes Knows (writeString writeShort (some sel.name) ++
        (writeNames sel.styleClassSet.size (sel.getStyleClasses tables) ++
          (writeString writeShort (some sel.id) ++
            writeNames sel.pclassSize (sel.getPseudoclasses tables))))
      (SimpleSelector.readBinary tables.toRegistry) sel := by
  have hstyleClasses := codes_names (sel.length_getStyleClasses tables) hfits.styleClasses
  have hpseudoclasses := codes_names (sel.length_getPseudoclasses tables) hfits.pseudoclasses
  refine (codes_shortString _).append (hstyleClasses.append ((codes_shortString _).append ?_))
  have hnew := hpseudoclasses.bind_pure fun pseudoclasses =>
    SimpleSelector.new tables.toRegistry (some sel.name) ((sel.getStyleClasses tables).map some)
      pseudoclasses (some sel.id)
  rw [hbuilt.new_eq] at hnew
  exact hnew

theorem codes_part {sel : SimpleSelector} (hbuilt : sel.Built tables.toRegistry)
    (hfits : sel.Fits) :
    Codes Knows (sel.writeBinary tables) (readPart tables.toRegistry) sel :=
  (codes_byte (by decide)).append (codes_simpleSelector hbuilt hfits)

theorem codes_combinator (relationship : Combinator) :
    Codes Knows (emit (writeByte relationship.ordinal)) (fun _ => Combinator.readBinary)
      relationship := by
  cases relationship with
  | child | descendant => exact (codes_byte (by decide)).bind_nil fun _ => .pure _

theorem codes_selector {sel : AnySelector} (hbuilt : sel.Built tables.toRegistry)
    (hfits : sel.Fits) :
    Codes Knows (sel.writeBinary tables) (AnySelector.readBinary tables.toRegistry) sel := by
  cases sel with
  | simple selector =>
    exact (codes_byte (by decide)).append
      ((codes_simpleSelector hbuilt hfits).bind_pure AnySelector.simple)
  | compound selectors relationships =>
    rcases hfits with ⟨hsels, hrelationships, hparts⟩
    have hread := codes_counted hsels (.writeAll selectors fun selector hmem =>
      codes_part (hbuilt selector hmem) (hparts selector hmem))
    have hread' := codes_counted hrelationships (.writeAll relationships fun relationship _ =>
      codes_combinator relationship)
    rw [map_id'] at hread hread'
    have hcompound : Codes Knows
        ((emit (writeShort selectors.length) ++
          writeAll (SimpleSelector.writeBinary tables) selectors) ++
          (emit (writeShort relationships.length) ++
            writeAll (fun relationship => emit (writeByte relationship.ordinal)) relationships))
        (AnySelector.readCompound tables.toRegistry) (.compound selectors relationships) :=
      hread.append (hread'.bind_pure (AnySelector.compound selectors))
    exact (codes_byte (by decide)).append hcompound

end Codes

end OpenJfx.Css
