import OpenJfx.Control.TextAreaContent

namespace OpenJfx.Control

open Java
open Control.TextArea (filterInput isInvalidCharacter containsInvalidCharacters)
open List

/-- The methods of a content. The listeners are notified when something has been inserted or
deleted, so the characters that the implementation lets in are a part of the interface here. -/
structure TextContent (σ : Type) where
  empty : σ
  get : σ → Int → Int → Except RuntimeException Text
  insert : σ → Int → Text → Except RuntimeException σ
  delete : σ → Int → Int → Except RuntimeException σ
  length : σ → Int
  legal : UInt16 → Bool

namespace TextContent

/-- With legal arguments the content behaves as a string does whose inserted parts are filtered. -/
structure Lawful {σ : Type} (content : TextContent σ) (Represents : σ → Text → Prop) : Prop where
  empty : Represents content.empty []
  length : ∀ {s text}, Represents s text → content.length s = text.length
  get : ∀ {s text} (start stop : Nat), Represents s text → start ≤ stop → stop ≤ text.length →
    content.get s start stop = .ok ((text.drop start).take (stop - start))
  insert : ∀ {s text} (index : Nat) (added : Text), Represents s text → index ≤ text.length →
    ∃ s', content.insert s index added = .ok s' ∧
      Represents s' (text.take index ++ added.filter content.legal ++ text.drop index)
  delete : ∀ {s text} (start stop : Nat), Represents s text → start ≤ stop → stop ≤ text.length →
    ∃ s', content.delete s start stop = .ok s' ∧
      Represents s' (text.take start ++ text.drop stop)
  legal : ∀ {s text}, Represents s text → ∀ c ∈ text, content.legal c = true

def textField : TextContent Text where
  empty := []
  get := StringBuilder.subSequence
  insert characters index text :=
    let text := filterInput text true true
    if text ≠ [] then StringBuilder.insert characters index text else .ok characters
  delete characters start stop :=
    if stop > start then StringBuilder.delete characters start stop else .ok characters
  length characters := characters.length
  legal c := !isInvalidCharacter c true true

def outcome {ε σ : Type} : EStateM.Result ε σ Unit → Except ε σ
  | .ok _ s => .ok s
  | .error e _ => .error e

def textArea : TextContent TextArea.Content where
  empty := .new
  get := TextArea.Content.get
  insert content index text := outcome ((TextArea.Content.insert index (some text)).run content)
  delete content start stop := outcome ((TextArea.Content.delete start stop).run content)
  length content := content.contentLength
  legal c := !isInvalidCharacter c false false

theorem filterInput_eq (txt : Text) (stripNewlines stripTabs : Bool) :
    filterInput txt stripNewlines stripTabs =
      txt.filter fun c => !isInvalidCharacter c stripNewlines stripTabs := by
  rw [filterInput]
  split_ifs with hinvalid
  · rfl
  · rw [containsInvalidCharacters, any_eq_true] at hinvalid
    symm
    rw [filter_eq_self]
    intro c hc
    cases hchar : isInvalidCharacter c stripNewlines stripTabs with
    | false => rfl
    | true => exact absurd ⟨c, hc, hchar⟩ hinvalid

theorem legal_insert {legal : UInt16 → Bool} {text : Text} (h : ∀ c ∈ text, legal c = true)
    (index : Nat) (added : Text) :
    ∀ c ∈ text.take index ++ added.filter legal ++ text.drop index, legal c = true := by
  intro c hc
  rcases mem_append.mp hc with hc | hc
  · rcases mem_append.mp hc with hc | hc
    · exact h c (mem_of_mem_take hc)
    · exact (mem_filter.mp hc).2
  · exact h c (mem_of_mem_drop hc)

theorem legal_delete {legal : UInt16 → Bool} {text : Text} (h : ∀ c ∈ text, legal c = true)
    (start stop : Nat) : ∀ c ∈ text.take start ++ text.drop stop, legal c = true := by
  intro c hc
  rcases mem_append.mp hc with hc | hc
  · exact h c (mem_of_mem_take hc)
  · exact h c (mem_of_mem_drop hc)

def FieldText (characters text : Text) : Prop :=
  characters = text ∧ ∀ c ∈ text, textField.legal c = true

theorem lawful_textField : textField.Lawful FieldText := by
  constructor
  · exact ⟨rfl, by simp⟩
  · rintro s text ⟨rfl, -⟩
    rfl
  · rintro s text start stop ⟨rfl, -⟩ hle hstop
    refine (StringBuilder.subSequence_natCast s hle hstop).trans ?_
    rw [drop_take]
  · rintro s text index added ⟨rfl, hlegal⟩ hidx
    refine ⟨_, ?_, rfl, legal_insert hlegal index added⟩
    simp only [textField, filterInput_eq]
    split_ifs with hne
    · exact StringBuilder.insert_natCast s hidx _
    · rw [not_not] at hne
      rw [hne, append_nil, take_append_drop]
  · rintro s text start stop ⟨rfl, hlegal⟩ hle hstop
    refine ⟨_, ?_, rfl, legal_delete hlegal start stop⟩
    simp only [textField]
    split_ifs with hlt
    · exact StringBuilder.delete_natCast s hle hstop
    · have hsame : stop = start := by omega
      rw [hsame, take_append_drop]
  · rintro s text ⟨-, hlegal⟩
    exact hlegal

def AreaText (content : TextArea.Content) (text : Text) : Prop :=
  content.Represents text ∧ ∀ c ∈ text, textArea.legal c = true

theorem lawful_textArea : textArea.Lawful AreaText := by
  constructor
  · exact ⟨TextArea.Content.represents_new, by simp⟩
  · rintro s text ⟨h, -⟩
    exact h.length
  · rintro s text start stop ⟨h, -⟩ hle hstop
    exact TextArea.Content.get_spec h hle hstop
  · rintro s text index added ⟨h, hlegal⟩ hidx
    have hcall : TextArea.Content.Call.Legal text (.insert index (some added)) :=
      ⟨by omega, by omega, rfl⟩
    rcases TextArea.Content.perform_legal h hcall with ⟨s', hrun, h'⟩
    refine ⟨s', congrArg outcome hrun, ?_, legal_insert hlegal index added⟩
    rw [TextArea.Content.Call.apply, filterInput_eq] at h'
    exact h'
  · rintro s text start stop ⟨h, hlegal⟩ hle hstop
    have hcall : TextArea.Content.Call.Legal text (.delete start stop) :=
      ⟨by omega, by omega, by omega⟩
    rcases TextArea.Content.perform_legal h hcall with ⟨s', hrun, h'⟩
    exact ⟨s', congrArg outcome hrun, h', legal_delete hlegal start stop⟩
  · rintro s text ⟨-, hlegal⟩
    exact hlegal

end TextContent

end OpenJfx.Control

namespace OpenJfx.Control.TextInputControl

open Java

/-- A record of the list; the links to the other ones are the order in the lists below. -/
structure UndoRedoChange where
  start : Int
  oldText : Text
  newText : Text

namespace UndoRedoChange

def changeDuration : Int := 2500

/-- The static fields, which the controls share. -/
structure Shared where
  prevRecordTime : Int
  spaceCharSequence : Bool

def Shared.hasChangeDurationElapsed (shared : Shared) (now : Int) : Bool :=
  now - shared.prevRecordTime > changeDuration

end UndoRedoChange

/-- The value of `length` is the one that the content had when listeners were notified last.
The records from `undoChange` back to the first one are in `undoChanges`, those that come
after it in `redoChanges`. -/
structure TextInput (σ : Type) where
  content : σ
  length : Int
  anchor : Int
  caretPosition : Int
  undoChanges : List UndoRedoChange
  redoChanges : List UndoRedoChange
  shared : UndoRedoChange.Shared

def clamp (min value max : Int) : Int :=
  if value < min then min else if value > max then max else value

structure Change where
  start : Int
  stop : Int
  text : Text
  anchor : Int
  caretPosition : Int

def Change.ofText (start stop : Int) (text : Text) : Change :=
  ⟨start, stop, text, start + text.length, start + text.length⟩

def Change.ofSelection (anchor caret : Int) : Change := ⟨caret, caret, [], anchor, caret⟩

namespace TextInput

variable {σ : Type} (content : TextContent σ)

def new (shared : UndoRedoChange.Shared) : TextInput σ :=
  { content := content.empty
    length := 0
    anchor := 0
    caretPosition := 0
    undoChanges := []
    redoChanges := []
    shared := shared }

def contentChanged (c : TextInput σ) : TextInput σ := { c with length := content.length c.content }

def insertContent (c : TextInput σ) (index : Int) (text : Text) :
    Except RuntimeException (TextInput σ) := do
  let s ← content.insert c.content index text
  let c := { c with content := s }
  if text.filter content.legal ≠ [] then pure (c.contentChanged content) else pure c

def deleteContent (c : TextInput σ) (start stop : Int) (notifyListeners : Bool) :
    Except RuntimeException (TextInput σ) := do
  let s ← content.delete c.content start stop
  let c := { c with content := s }
  if stop > start ∧ notifyListeners then pure (c.contentChanged content) else pure c

def getText (c : TextInput σ) (start stop : Int) : Except RuntimeException Text :=
  if start > stop then .error .illegalArgument
  else if start < 0 ∨ stop > c.length then .error .indexOutOfBounds
  else content.get c.content start stop

def doSelectRange (c : TextInput σ) (anchor caretPosition : Int) : TextInput σ :=
  { c with
    caretPosition := clamp 0 caretPosition c.length
    anchor := clamp 0 anchor c.length }

def selectionLength (c : TextInput σ) : Int :=
  max c.anchor c.caretPosition - min c.anchor c.caretPosition

/-- The private method `replaceText`. -/
def replaceRange (c : TextInput σ) (start stop : Int) (value : Text) (anchor caretPosition : Int) :
    Except RuntimeException (TextInput σ × Int) := do
  let length := c.length
  let (c, length) ←
    if stop ≠ start then do
      let c ← c.deleteContent content start stop value.isEmpty
      pure (c, length - (stop - start))
    else pure (c, length)
  let c ← c.insertContent content start value
  let adjustmentAmount := value.length - (c.length - length)
  let c := c.doSelectRange (anchor - adjustmentAmount) (caretPosition - adjustmentAmount)
  pure (c, adjustmentAmount)

def addChange (c : TextInput σ) (now start : Int) (oldText newText : Text) : TextInput σ :=
  { c with
    undoChanges := ⟨start, oldText, newText⟩ :: c.undoChanges
    redoChanges := []
    shared := { c.shared with prevRecordTime := now } }

def endOfUndoChange (c : TextInput σ) : Int :=
  match c.undoChanges with
  | [] => -1
  | undoChange :: _ => undoChange.start + undoChange.newText.length

def modifyUndoChange (c : TextInput σ) (f : UndoRedoChange → UndoRedoChange) : TextInput σ :=
  { c with undoChanges := c.undoChanges.modifyHead f }

def deleteFromUndoChange (c : TextInput σ) (change : Change) (oldText : Text) : TextInput σ :=
  match c.undoChanges with
  | [] => c
  | undoChange :: undoChanges =>
    if undoChange.newText.length > 0 then
      let newText := undoChange.newText.take (change.start - undoChange.start).toNat
      if newText.isEmpty then { c with undoChanges := undoChanges }
      else c.modifyUndoChange fun r => { r with newText := newText }
    else if change.start = c.endOfUndoChange then
      c.modifyUndoChange fun r => { r with oldText := r.oldText ++ oldText }
    else c.modifyUndoChange fun r =>
      { r with oldText := oldText ++ r.oldText, start := r.start - 1 }

def createsRecord (c : TextInput σ) (now : Int) (change : Change) (newText : Text)
    (nonEmptySelection forceNewUndoRecord : Bool) : Prop :=
  nonEmptySelection ∨ c.endOfUndoChange = -1 ∨ forceNewUndoRecord ∨
    (newText = [0x20] ∧ c.shared.spaceCharSequence = false) ∨
    c.shared.hasChangeDurationElapsed now ∨
    (c.endOfUndoChange ≠ change.start ∧ c.endOfUndoChange ≠ change.stop) ∨
    change.stop - change.start > 0

instance (c : TextInput σ) (now : Int) (change : Change) (newText : Text)
    (nonEmptySelection forceNewUndoRecord : Bool) :
    Decidable (c.createsRecord now change newText nonEmptySelection forceNewUndoRecord) :=
  inferInstanceAs (Decidable (_ ∨ _ ∨ _ ∨ _ ∨ _ ∨ _ ∨ _))

/-- The end of `updateContent`, where the change is recorded. The branch for a deletion at the
end of a record is never taken, since every deletion needs a new record. -/
def record (c : TextInput σ) (now : Int) (change : Change) (oldText newText : Text)
    (nonEmptySelection forceNewUndoRecord : Bool) : TextInput σ :=
  let createsRecord := c.createsRecord now change newText nonEmptySelection forceNewUndoRecord
  let c := { c with shared := { c.shared with spaceCharSequence := decide (newText = [0x20]) } }
  if createsRecord then c.addChange now change.start oldText newText
  else if change.start ≠ change.stop ∧ change.text.isEmpty then
    c.deleteFromUndoChange change oldText
  else c.modifyUndoChange fun r => { r with newText := r.newText ++ newText }

def updateContent (c : TextInput σ) (now : Int) (change : Change) (forceNewUndoRecord : Bool) :
    Except RuntimeException (TextInput σ) := do
  let nonEmptySelection := decide (c.selectionLength > 0)
  let oldText ← c.getText content change.start change.stop
  let (c, adjustmentAmount) ←
    c.replaceRange content change.start change.stop change.text change.anchor change.caretPosition
  let newText ←
    c.getText content change.start (change.start + change.text.length - adjustmentAmount)
  if newText = oldText then pure c
  else pure (c.record now change oldText newText nonEmptySelection forceNewUndoRecord)

/-- The public method `replaceText`. -/
def replaceText (c : TextInput σ) (now start stop : Int) (text : Text) :
    Except RuntimeException (TextInput σ) :=
  if start > stop then .error .illegalArgument
  else if start < 0 ∨ stop > c.length then .error .indexOutOfBounds
  else c.updateContent content now (.ofText start stop text) (decide (c.length = 0))

def insertText (c : TextInput σ) (now index : Int) (text : Text) :
    Except RuntimeException (TextInput σ) :=
  c.replaceText content now index index text

def appendText (c : TextInput σ) (now : Int) (text : Text) :
    Except RuntimeException (TextInput σ) :=
  c.insertText content now c.length text

def deleteText (c : TextInput σ) (now start stop : Int) : Except RuntimeException (TextInput σ) :=
  c.replaceText content now start stop []

def selectRange (c : TextInput σ) (now anchor caretPosition : Int) :
    Except RuntimeException (TextInput σ) :=
  let caretPosition := clamp 0 caretPosition c.length
  let anchor := clamp 0 anchor c.length
  c.updateContent content now (.ofSelection anchor caretPosition) false

def undo (c : TextInput σ) : Except RuntimeException (TextInput σ) :=
  match c.undoChanges with
  | [] => .ok c
  | undoChange :: undoChanges => do
    let start := undoChange.start
    let newText := undoChange.newText
    let oldText := undoChange.oldText
    let c ← c.deleteContent content start (start + newText.length) oldText.isEmpty
    let c ← c.insertContent content start oldText
    let c := c.doSelectRange start (start + oldText.length)
    pure { c with undoChanges := undoChanges, redoChanges := undoChange :: c.redoChanges }

/-- `redo()`; it is possible when there is a change after the current one. -/
def redo (c : TextInput σ) : Except RuntimeException (TextInput σ) :=
  match c.redoChanges with
  | [] => .ok c
  | undoChange :: redoChanges => do
    let start := undoChange.start
    let newText := undoChange.newText
    let oldText := undoChange.oldText
    let c := { c with undoChanges := undoChange :: c.undoChanges, redoChanges := redoChanges }
    let c ← c.deleteContent content start (start + oldText.length) newText.isEmpty
    let c ← c.insertContent content start newText
    pure (c.doSelectRange (start + newText.length) (start + newText.length))

/-- `setText(value)`: the text property is set and the history begins anew. -/
def setText (c : TextInput σ) (value : Text) : Except RuntimeException (TextInput σ) := do
  let (c, _) ← c.replaceRange content 0 (content.length c.content) value 0 0
  pure ({ c with undoChanges := [], redoChanges := [] }.contentChanged content)

end TextInput

end OpenJfx.Control.TextInputControl
