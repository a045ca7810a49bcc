import OpenJfx.Control.TextInputControl
import OpenJfx.Data.UndoHistory

namespace OpenJfx.Control.TextInputControl

open Java Data.UndoHistory List

namespace UndoRedoChange

def Applies (legal : UInt16 → Bool) (change : UndoRedoChange) (a b : Text) : Prop :=
  ∃ front back : Text, change.start = front.length ∧ a = front ++ change.oldText ++ back ∧
    b = front ++ change.newText ++ back ∧ (∀ c ∈ change.oldText, legal c = true) ∧
    ∀ c ∈ change.newText, legal c = true

theorem Applies.extend {legal : UInt16 → Bool} {change : UndoRedoChange} {a b b' : Text}
    {start : Int} {newText : Text} (h : change.Applies legal a b)
    (hend : change.start + change.newText.length = start)
    (hnext : Applies legal ⟨start, [], newText⟩ b b') :
    Applies legal { change with newText := change.newText ++ newText } a b' := by
  rcases h with ⟨front, back, hstart, ha, hb, hold, hnew⟩
  rcases hnext with ⟨front', back', hstart', hb₁, hb', -, hnew'⟩
  simp only [append_nil] at hstart' hb₁ hb'
  have hlen : (front ++ change.newText).length = front'.length := by
    rw [length_append]
    omega
  rcases append_inj (hb.symm.trans hb₁) hlen with ⟨hfront, hback⟩
  refine ⟨front, back, hstart, ha, ?_, hold, ?_⟩
  · rw [hb', ← hfront, ← hback]
    simp
  · intro c hc
    rcases mem_append.mp hc with hc | hc
    · exact hnew c hc
    · exact hnew' c hc

end UndoRedoChange

namespace TextInput

section

variable {σ : Type} (content : TextContent σ) (Represents : σ → Text → Prop)

structure Coherent (c : TextInput σ) (text : Text) : Prop where
  represents : Represents c.content text
  length : c.length = text.length

/-- A coherent control whose records belong to its text. -/
structure Sound (origin : Text) (c : TextInput σ) (text : Text) : Prop extends
    Coherent Represents c text where
  history : History (UndoRedoChange.Applies content.legal) origin c.undoChanges c.redoChanges text

def text (c : TextInput σ) : Except RuntimeException Text :=
  content.get c.content 0 (content.length c.content)

variable {content Represents}

variable {c : TextInput σ}

variable {text : Text}

theorem Coherent.text_eq (hlaw : content.Lawful Represents) (h : Coherent Represents c text) :
    c.text content = .ok text := by
  have hget := hlaw.get 0 text.length h.represents (Nat.zero_le _) le_rfl
  rw [TextInput.text, hlaw.length h.represents]
  refine hget.trans ?_
  simp

variable {front back : Text}

theorem insertContent_spec (hlaw : content.Lawful Represents)
    (h : Represents c.content (front ++ back)) (value : Text)
    (hlen : value.filter content.legal = [] → c.length = ((front ++ back).length : Nat)) :
    ∃ s, c.insertContent content front.length value = .ok { c with
          content := s
          length := ((front ++ value.filter content.legal ++ back).length : Nat) } ∧
      Represents s (front ++ value.filter content.legal ++ back) := by
  rcases hlaw.insert front.length value h (by simp) with ⟨s, hins, hs⟩
  rw [take_left, drop_left] at hs
  refine ⟨s, ?_, hs⟩
  simp only [insertContent, hins, bind, Except.bind]
  split_ifs with hne
  · rw [contentChanged]
    simp only [hlaw.length hs]
    rfl
  · rw [not_not] at hne
    simp only [hne, append_nil, ← hlen hne]
    rfl

/-- A part of the text is deleted and a value inserted in its place. The length property is
up to date afterwards unless only the deletion has changed something and was not reported. -/
theorem swap_spec (hlaw : content.Lawful Represents) {old : Text}
    (h : Coherent Represents c (front ++ old ++ back)) (value : Text)
    (hval : old = [] ∨ value = [] ∨ value.filter content.legal ≠ []) :
    ∃ s, (c.deleteContent content front.length ((front.length : Int) + old.length)
          value.isEmpty >>= fun c => c.insertContent content front.length value) =
        .ok { c with
          content := s
          length := ((front ++ value.filter content.legal ++ back).length : Nat) } ∧
      Represents s (front ++ value.filter content.legal ++ back) := by
  rcases hlaw.delete front.length (front.length + old.length) h.represents (by omega)
    (by simp) with ⟨s₁, hdel, hs₁⟩
  have hcut : (front ++ old ++ back).take front.length ++
      (front ++ old ++ back).drop (front.length + old.length) = front ++ back := by
    rw [← length_append, drop_left, append_assoc, take_left]
  rw [hcut] at hs₁
  push_cast at hdel
  simp only [deleteContent, hdel]
  split_ifs with hnotify
  · exact insertContent_spec hlaw (c := { c with content := s₁, length := content.length s₁ })
      hs₁ value fun _ => hlaw.length hs₁
  · refine insertContent_spec hlaw (c := { c with content := s₁ }) hs₁ value ?_
    intro hnil
    have hold : old = [] := by
      rcases hval with hold | hemp | hne
      · exact hold
      · subst hemp
        refine eq_nil_of_length_eq_zero ?_
        have hnone : ¬(front.length : Int) < front.length + old.length := by simpa using hnotify
        omega
      · exact absurd hnil hne
    simpa [hold] using h.length

theorem filter_legal {legal : UInt16 → Bool} (h : ∀ c ∈ text, legal c = true) :
    text.filter legal = text :=
  filter_eq_self.mpr h

variable {origin : Text} {change : UndoRedoChange} {changes : List UndoRedoChange}

theorem undo_spec (hlaw : content.Lawful Represents) (h : c.Sound content Represents origin text)
    (hchanges : c.undoChanges = change :: changes) :
    ∃ c' text', c.undo content = .ok c' ∧ c'.Sound content Represents origin text' ∧
      change.Applies content.legal text' text ∧ c'.undoChanges = changes ∧
      c'.redoChanges = change :: c.redoChanges := by
  have hhistory := h.history
  rw [hchanges] at hhistory
  rcases hhistory.undo with ⟨text', happlies, hhistory'⟩
  rcases happlies with ⟨front, back, hstart, htext', htext, hold, hnew⟩
  have hval : change.newText = [] ∨ change.oldText = [] ∨
      change.oldText.filter content.legal ≠ [] := by
    rw [filter_legal hold]
    exact .inr (em _)
  rcases swap_spec hlaw (htext ▸ h.toCoherent) change.oldText hval with ⟨s, hswap, hs⟩
  rw [filter_legal hold] at hswap hs
  have hundo : c.undo content = .ok { TextInput.doSelectRange { c with
          content := s
          length := ((front ++ change.oldText ++ back).length : Nat) }
        change.start (change.start + change.oldText.length) with
      undoChanges := changes
      redoChanges := change :: c.redoChanges } := by
    rw [undo, hchanges]
    simp only [hstart]
    rw [← bind_assoc, hswap]
    rfl
  refine ⟨_, text', hundo, ⟨⟨?_, ?_⟩, hhistory'⟩, ?_, rfl, rfl⟩
  · rw [htext']
    exact hs
  · rw [htext']
    rfl
  · exact ⟨front, back, hstart, htext', htext, hold, hnew⟩

theorem redo_spec (hlaw : content.Lawful Represents) (h : c.Sound content Represents origin text)
    (hchanges : c.redoChanges = change :: changes) :
    ∃ c' text', c.redo content = .ok c' ∧ c'.Sound content Represents origin text' ∧
      change.Applies content.legal text text' := by
  have hhistory := h.history
  rw [hchanges] at hhistory
  rcases hhistory.redo with ⟨text', happlies, hhistory'⟩
  rcases happlies with ⟨front, back, hstart, htext, htext', hold, hnew⟩
  have hval : change.oldText = [] ∨ change.newText = [] ∨
      change.newText.filter content.legal ≠ [] := by
    rw [filter_legal hnew]
    exact .inr (em _)
  have hcoherent : Coherent Represents
      { c with undoChanges := change :: c.undoChanges, redoChanges := changes }
      (front ++ change.oldText ++ back) := by
    rw [← htext]
    exact ⟨h.represents, h.length⟩
  rcases swap_spec hlaw hcoherent change.newText hval with ⟨s, hswap, hs⟩
  rw [filter_legal hnew] at hswap hs
  have hredo : c.redo content = .ok (TextInput.doSelectRange { c with
          content := s
          length := ((front ++ change.newText ++ back).length : Nat)
          undoChanges := change :: c.undoChanges
          redoChanges := changes }
        (change.start + change.newText.length) (change.start + change.newText.length)) := by
    rw [redo, hchanges]
    simp only [hstart]
    rw [← bind_assoc, hswap]
    rfl
  refine ⟨_, text', hredo, ⟨⟨?_, ?_⟩, hhistory'⟩, ?_⟩
  · rw [htext']
    exact hs
  · rw [htext']
    rfl
  · exact ⟨front, back, hstart, htext, htext', hold, hnew⟩

/-- What the private method does; the second result is the number of characters that have not
been let in. -/
theorem replaceRange_spec (hlaw : content.Lawful Represents) {old : Text}
    (h : Coherent Represents c (front ++ old ++ back)) (value : Text)
    (hval : old = [] ∨ value = [] ∨ value.filter content.legal ≠ []) (anchor caret : Int)
    {n : Int} (hn : n = value.length - (value.filter content.legal).length) :
    ∃ s, c.replaceRange content front.length ((front.length : Int) + old.length) value anchor
          caret =
        .ok (TextInput.doSelectRange { c with
          content := s
          length := ((front ++ value.filter content.legal ++ back).length : Nat) }
          (anchor - n) (caret - n), n) ∧
      Represents s (front ++ value.filter content.legal ++ back) := by
  have hlen := h.length
  have hamount :
    (value.length : Int) - (((front ++ value.filter content.legal ++ back).length : Nat) -
      (c.length - ((front.length : Int) + old.length - front.length))) = n := by
    rw [hlen]
    simp only [length_append]
    omega
  rw [replaceRange]
  split_ifs with hold
  · rcases swap_spec hlaw h value hval with ⟨s, hswap, hs⟩
    refine ⟨s, ?_, hs⟩
    simp only [pure_bind]
    rw [← bind_assoc, hswap]
    change Except.ok _ = _
    simp only [hamount]
  · have hnil : old = [] := by
      refine eq_nil_of_length_eq_zero ?_
      omega
    subst hnil
    rw [append_nil] at h
    rcases insertContent_spec hlaw h.represents value (fun _ => h.length) with ⟨s, hins, hs⟩
    refine ⟨s, ?_, hs⟩
    have hamount' : (value.length : Int) -
        (((front ++ value.filter content.legal ++ back).length : Nat) - c.length) = n := by
      rw [h.length]
      simp only [length_append]
      omega
    simp only [pure_bind, hins]
    change Except.ok _ = _
    simp only [hamount']

theorem record_spec {legal : UInt16 → Bool} (text text' : Text)
    (h : History (UndoRedoChange.Applies legal) origin c.undoChanges c.redoChanges text) {now : Int}
    {change : Change} {oldText newText : Text} {nonEmptySelection force : Bool}
    (hle : change.start ≤ change.stop) (hold : change.start = change.stop → oldText = [])
    (happlies : UndoRedoChange.Applies legal ⟨change.start, oldText, newText⟩ text text')
    (hredo : c.createsRecord now change newText nonEmptySelection force ∨ c.redoChanges = []) :
    History (UndoRedoChange.Applies legal) origin
      (c.record now change oldText newText nonEmptySelection force).undoChanges
      (c.record now change oldText newText nonEmptySelection force).redoChanges text' := by
  rw [record]
  split_ifs with hcreates hdel
  · exact h.add happlies
  · -- the range of a deletion is not empty
    refine absurd (.inr (.inr (.inr (.inr (.inr (.inr ?_)))))) hcreates
    omega
  · have hnil : c.redoChanges = [] := hredo.resolve_left hcreates
    simp only [createsRecord, not_or] at hcreates
    rcases hcreates with ⟨-, hend, -, -, -, hplace, hemp⟩
    have hsame : change.start = change.stop := by omega
    rw [hold hsame] at happlies
    cases hchanges : c.undoChanges with
    | nil => exact absurd (by rw [endOfUndoChange, hchanges]) hend
    | cons r rs =>
      rw [hchanges] at h
      have hend' : c.endOfUndoChange = r.start + r.newText.length := by
        rw [endOfUndoChange, hchanges]
      have hstart : r.start + r.newText.length = change.start := by omega
      simp only [hnil]
      exact h.amend fun _ hlast => hlast.extend hstart happlies

theorem deleteFromUndoChange_content (c : TextInput σ) (change : Change) (oldText : Text) :
    (c.deleteFromUndoChange change oldText).content = c.content ∧
      (c.deleteFromUndoChange change oldText).length = c.length := by
  cases hchanges : c.undoChanges with
  | nil => simp only [deleteFromUndoChange, hchanges, and_self]
  | cons r rs =>
    simp only [deleteFromUndoChange, hchanges]
    split_ifs <;> exact ⟨rfl, rfl⟩

theorem record_content (c : TextInput σ) (now : Int) (change : Change) (oldText newText : Text)
    (nonEmptySelection force : Bool) :
    (c.record now change oldText newText nonEmptySelection force).content = c.content ∧
      (c.record now change oldText newText nonEmptySelection force).length = c.length := by
  rw [record]
  split_ifs
  · exact ⟨rfl, rfl⟩
  · exact deleteFromUndoChange_content _ change oldText
  · exact ⟨rfl, rfl⟩

theorem exists_range {start stop : Int} (hnn : 0 ≤ start) (hle : start ≤ stop)
    (hstop : stop ≤ text.length) :
    ∃ front old back : Text, text = front ++ old ++ back ∧ start = front.length ∧
      stop = (front.length : Int) + old.length := by
  refine ⟨text.take start.toNat, (text.take stop.toNat).drop start.toNat, text.drop stop.toNat,
    ?_, ?_, ?_⟩
  · have htake : text.take start.toNat = (text.take stop.toNat).take start.toNat := by
      rw [take_take, Nat.min_eq_left (by omega)]
    rw [htake, take_append_drop, take_append_drop]
  · simp only [length_take]
    omega
  · simp only [length_take, length_drop]
    omega

theorem getText_spec (hlaw : content.Lawful Represents) {part : Text}
    (h : Coherent Represents c (front ++ part ++ back)) :
    c.getText content front.length ((front.length : Int) + part.length) = .ok part := by
  have hget := hlaw.get front.length (front.length + part.length) h.represents (by omega) (by simp)
  have hlen := h.length
  rw [length_append, length_append] at hlen
  rw [getText, if_neg (by omega), if_neg (by omega)]
  push_cast at hget
  rw [hget, append_assoc, drop_left, Nat.add_sub_cancel_left, take_left]

theorem updateContent_spec (hlaw : content.Lawful Represents)
    (h : c.Sound content Represents origin text) (now : Int) (change : Change)
    (hnn : 0 ≤ change.start) (hle : change.start ≤ change.stop) (hstop : change.stop ≤ c.length)
    (hval : change.start = change.stop ∨ change.text = [] ∨
      change.text.filter content.legal ≠ []) (force : Bool) (hredo : c.redoChanges = [] ∨
      (change.start = change.stop ∧ change.text.filter content.legal = []) ∨
      c.createsRecord now change (change.text.filter content.legal)
        (decide (c.selectionLength > 0)) force) :
    ∃ c' text', c.updateContent content now change force = .ok c' ∧
      c'.Sound content Represents origin text' := by
  rw [h.length] at hstop
  rcases exists_range hnn hle hstop with ⟨front, old, back, htext, hstart, hstop'⟩
  have hcoherent : Coherent Represents c (front ++ old ++ back) := htext ▸ h.toCoherent
  have hval' : old = [] ∨ change.text = [] ∨ change.text.filter content.legal ≠ [] := by
    refine hval.imp_left fun heq => eq_nil_of_length_eq_zero ?_
    omega
  rcases replaceRange_spec hlaw hcoherent change.text hval' change.anchor change.caretPosition rfl
    with ⟨s, hreplace, hs⟩
  have hold := getText_spec hlaw hcoherent
  have hcoherent' : Coherent Represents (TextInput.doSelectRange { c with
      content := s
      length := ((front ++ change.text.filter content.legal ++ back).length : Nat) }
      (change.anchor - (change.text.length - (change.text.filter content.legal).length))
      (change.caretPosition - (change.text.length - (change.text.filter content.legal).length)))
      (front ++ change.text.filter content.legal ++ back) := ⟨hs, rfl⟩
  have hnew := getText_spec hlaw hcoherent'
  have hend : (front.length : Int) + change.text.length -
      (change.text.length - (change.text.filter content.legal).length) =
        front.length + (change.text.filter content.legal).length := by omega
  simp only [updateContent, hstart, hstop']
  rw [hold]
  simp only [bind, Except.bind, hreplace, hend, hnew]
  split_ifs with hsame
  · refine ⟨_, text, rfl, ⟨?_, ?_⟩, h.history⟩
    · rw [htext, ← hsame]
      exact hs
    · rw [htext, ← hsame]
      rfl
  · refine ⟨_, front ++ change.text.filter content.legal ++ back, rfl, ⟨?_, ?_⟩, ?_⟩
    · rw [(record_content ..).1]
      exact hs
    · rw [(record_content ..).2]
      rfl
    · refine record_spec text _ ?_ hle ?_ ?_ ?_
      · exact h.history
      · intro heq
        refine eq_nil_of_length_eq_zero ?_
        omega
      · refine ⟨front, back, hstart, htext, rfl, ?_, ?_⟩
        · intro x hx
          exact hlaw.legal h.represents x (by rw [htext]; simp [hx])
        · intro x hx
          exact (mem_filter.mp hx).2
      · rcases hredo with hnil | ⟨heq, hnil⟩ | hcreates
        · exact .inr hnil
        · refine absurd ?_ hsame
          rw [hnil]
          refine (eq_nil_of_length_eq_zero ?_).symm
          omega
        · exact .inl hcreates

theorem insertContent_content (hlaw : content.Lawful Represents) (h : Represents c.content text)
    (value : Text) :
    ∃ c', c.insertContent content 0 value = .ok c' ∧
      Represents c'.content (value.filter content.legal ++ text) := by
  rcases hlaw.insert 0 value h (Nat.zero_le _) with ⟨s, hins, hs⟩
  have hins' : content.insert c.content 0 value = .ok s := hins
  simp only [insertContent, hins']
  split_ifs
  · exact ⟨_, rfl, hs⟩
  · exact ⟨_, rfl, hs⟩

theorem deleteContent_content (hlaw : content.Lawful Represents) (h : Represents c.content text)
    (notify : Bool) :
    ∃ c', c.deleteContent content 0 text.length notify = .ok c' ∧ Represents c'.content [] := by
  rcases hlaw.delete 0 text.length h (Nat.zero_le _) le_rfl with ⟨s, hdel, hs⟩
  simp only [drop_length] at hs
  have hdel' : content.delete c.content 0 text.length = .ok s := hdel
  simp only [deleteContent, hdel']
  split_ifs
  · exact ⟨_, rfl, hs⟩
  · exact ⟨_, rfl, hs⟩

theorem setText_spec (hlaw : content.Lawful Represents) (h : Coherent Represents c text)
    (value : Text) :
    ∃ c', c.setText content value = .ok c' ∧
      c'.Sound content Represents (value.filter content.legal) (value.filter content.legal) := by
  have hreplace : ∃ c' n, c.replaceRange content 0 text.length value 0 0 = .ok (c', n) ∧
      Represents c'.content (value.filter content.legal) := by
    rw [replaceRange]
    split_ifs with hne
    · rcases deleteContent_content hlaw h.represents value.isEmpty with ⟨c₁, hdel, h₁⟩
      rcases insertContent_content hlaw h₁ value with ⟨c₂, hins, h₂⟩
      rw [append_nil] at h₂
      simp only [hdel, bind, Except.bind, pure, Except.pure, hins]
      exact ⟨_, _, rfl, h₂⟩
    · have hnil : text = [] := eq_nil_of_length_eq_zero (by omega)
      rcases insertContent_content hlaw h.represents value with ⟨c₂, hins, h₂⟩
      rw [hnil, append_nil] at h₂
      simp only [bind, Except.bind, pure, Except.pure, hins]
      exact ⟨_, _, rfl, h₂⟩
  rcases hreplace with ⟨c', n, hreplace, hc'⟩
  rw [setText, hlaw.length h.represents, hreplace]
  exact ⟨_, rfl, ⟨hc', hlaw.length hc'⟩, .start⟩

end

end TextInput

inductive Call where
  | replaceText (start stop : Int) (text : Text)
  | insertText (index : Int) (text : Text)
  | appendText (text : Text)
  | deleteText (start stop : Int)
  | selectRange (anchor caretPosition : Int)
  | undo
  | redo
  | elsewhere (shared : UndoRedoChange.Shared)

namespace TextInput

section

variable {σ : Type} (content : TextContent σ)

def step (c : TextInput σ) (now : Int) : Call → Except RuntimeException (TextInput σ)
  | .replaceText start stop text => c.replaceText content now start stop text
  | .insertText index text => c.insertText content now index text
  | .appendText text => c.appendText content now text
  | .deleteText start stop => c.deleteText content now start stop
  | .selectRange anchor caretPosition => c.selectRange content now anchor caretPosition
  | .undo => c.undo content
  | .redo => c.redo content
  | .elsewhere shared => .ok { c with shared := shared }

def editOf (c : TextInput σ) : Call → Option (Int × Int × Text)
  | .replaceText start stop text => some (start, stop, text)
  | .insertText index text => some (index, index, text)
  | .appendText text => some (c.length, c.length, text)
  | .deleteText start stop => some (start, stop, [])
  | _ => none

/-- The edited range lies in the text. -/
def Legal (c : TextInput σ) (call : Call) : Prop :=
  ∀ start stop text, c.editOf call = some (start, stop, text) →
    0 ≤ start ∧ start ≤ stop ∧ stop ≤ c.length

/-- An edit does not replace something by a text that is not empty but of which nothing is let
in, and if it inserts something while a change can be redone, a new record is made for it. -/
def Meets (c : TextInput σ) (now : Int) (call : Call) : Prop :=
  ∀ start stop text, c.editOf call = some (start, stop, text) →
    (start = stop ∨ text = [] ∨ text.filter content.legal ≠ []) ∧
    (c.redoChanges = [] ∨ (start = stop ∧ text.filter content.legal = []) ∨
      c.createsRecord now (.ofText start stop text) (text.filter content.legal)
        (decide (c.selectionLength > 0)) (decide (c.length = 0)))

/-- The states of a control after a text has been set. -/
inductive Reachable (Represents : σ → Text → Prop) (t₀ : Text) : TextInput σ → Prop
  | setText {c c' : TextInput σ} {text : Text} (hc : Coherent Represents c text)
      (hset : c.setText content t₀ = .ok c') : Reachable Represents t₀ c'
  | step {c c' : TextInput σ} (now : Int) (call : Call) (hc : Reachable Represents t₀ c)
      (hlegal : c.Legal call) (hmeets : c.Meets content now call)
      (hstep : c.step content now call = .ok c') : Reachable Represents t₀ c'

/-- `undo()` is called a number of times. -/
def undoTimes : Nat → TextInput σ → Except RuntimeException (TextInput σ)
  | 0, c => .ok c
  | n + 1, c => c.undo content >>= undoTimes n

variable {content} {Represents : σ → Text → Prop} {origin : Text}

variable {c : TextInput σ} {now : Int}

theorem replaceText_spec (hlaw : content.Lawful Represents) {text : Text}
    (h : c.Sound content Represents origin text) {start stop : Int} {value : Text}
    (hlegal : 0 ≤ start ∧ start ≤ stop ∧ stop ≤ c.length)
    (hval : start = stop ∨ value = [] ∨ value.filter content.legal ≠ [])
    (hredo : c.redoChanges = [] ∨ (start = stop ∧ value.filter content.legal = []) ∨
      c.createsRecord now (.ofText start stop value) (value.filter content.legal)
        (decide (c.selectionLength > 0)) (decide (c.length = 0))) :
    ∃ c' text', c.replaceText content now start stop value = .ok c' ∧
      c'.Sound content Represents origin text' := by
  rcases hlegal with ⟨hnn, hle, hstop⟩
  rw [replaceText, if_neg (by omega), if_neg (by omega)]
  exact updateContent_spec hlaw h now (.ofText start stop value) hnn hle hstop hval _ hredo

theorem clamp_range (value : Int) {length : Int} (h : 0 ≤ length) :
    0 ≤ clamp 0 value length ∧ clamp 0 value length ≤ length := by
  rw [clamp]
  split_ifs
  · exact ⟨Int.le_refl 0, h⟩
  · exact ⟨h, Int.le_refl length⟩
  · constructor <;> omega

theorem step_sound (hlaw : content.Lawful Represents) {text : Text}
    (h : c.Sound content Represents origin text) {call : Call} (hlegal : c.Legal call)
    (hmeets : c.Meets content now call) :
    ∃ c' text', c.step content now call = .ok c' ∧ c'.Sound content Represents origin text' := by
  have hedit : ∀ start stop value, c.editOf call = some (start, stop, value) →
      ∃ c' text', c.replaceText content now start stop value = .ok c' ∧
        c'.Sound content Represents origin text' := by
    intro start stop value hcall
    rcases hmeets start stop value hcall with ⟨hval, hredo⟩
    exact replaceText_spec hlaw h (hlegal start stop value hcall) hval hredo
  cases call with
  | replaceText start stop value => exact hedit start stop value rfl
  | insertText index value => exact hedit index index value rfl
  | appendText value => exact hedit c.length c.length value rfl
  | deleteText start stop => exact hedit start stop [] rfl
  | selectRange anchor caretPosition =>
    have hlen : 0 ≤ c.length := by
      rw [h.length]
      omega
    rcases clamp_range caretPosition hlen with ⟨hnn, hle⟩
    exact updateContent_spec hlaw h now
      (.ofSelection (clamp 0 anchor c.length) (clamp 0 caretPosition c.length)) hnn
      (Int.le_refl _) hle (.inl rfl) false (.inr (.inl ⟨rfl, rfl⟩))
  | undo =>
    cases hchanges : c.undoChanges with
    | nil => exact ⟨c, text, by rw [step, undo, hchanges], h⟩
    | cons change changes =>
      rcases undo_spec hlaw h hchanges with ⟨c', text', hundo, h', -⟩
      exact ⟨c', text', hundo, h'⟩
  | redo =>
    cases hchanges : c.redoChanges with
    | nil => exact ⟨c, text, by rw [step, redo, hchanges], h⟩
    | cons change changes =>
      rcases redo_spec hlaw h hchanges with ⟨c', text', hredo, h', -⟩
      exact ⟨c', text', hredo, h'⟩
  | elsewhere shared => exact ⟨_, text, rfl, ⟨h.represents, h.length⟩, h.history⟩

theorem Reachable.sound (hlaw : content.Lawful Represents) {t₀ : Text}
    (hc : Reachable content Represents t₀ c) :
    ∃ text, c.Sound content Represents (t₀.filter content.legal) text := by
  induction hc with
  | setText hc hset =>
    rcases setText_spec hlaw hc t₀ with ⟨c₁, hset', h⟩
    cases hset.symm.trans hset'
    exact ⟨_, h⟩
  | step now call _ hlegal hmeets hstep ih =>
    rcases ih with ⟨text, h⟩
    rcases step_sound hlaw h hlegal hmeets with ⟨c₁, text', hstep', h'⟩
    cases hstep.symm.trans hstep'
    exact ⟨text', h'⟩

theorem undoTimes_spec (hlaw : content.Lawful Represents) (n : Nat) :
    ∀ {c : TextInput σ} {text : Text}, c.Sound content Represents origin text →
      c.undoChanges.length = n →
      ∃ c', undoTimes content n c = .ok c' ∧ c'.undoChanges = [] ∧
        c'.Sound content Represents origin origin := by
  induction n with
  | zero =>
    intro c text h hlen
    have hnil := List.eq_nil_of_length_eq_zero hlen
    have hhistory := h.history
    rw [hnil] at hhistory
    have heq : text = origin := hhistory.eq_origin
    subst heq
    exact ⟨c, rfl, hnil, h⟩
  | succ n ih =>
    intro c text h hlen
    obtain ⟨change, changes, hchanges⟩ := List.exists_cons_of_length_eq_add_one hlen
    rcases undo_spec hlaw h hchanges with ⟨c₁, text', hundo, h₁, -, hrest, -⟩
    rcases ih h₁ (by rw [hrest]; rw [hchanges] at hlen; simpa using hlen) with
      ⟨c₂, hundo', hdone⟩
    exact ⟨c₂, by rw [undoTimes, hundo]; exact hundo', hdone⟩

theorem applies_unique {legal : UInt16 → Bool} {change : UndoRedoChange} {a b b' : Text}
    (h : change.Applies legal a b) (h' : change.Applies legal a b') : b = b' := by
  rcases h with ⟨front, back, hstart, ha, hb, -⟩
  rcases h' with ⟨front', back', hstart', ha', hb', -⟩
  have hlen : (front ++ change.oldText).length = (front' ++ change.oldText).length := by
    rw [List.length_append, List.length_append]
    omega
  rcases List.append_inj (ha.symm.trans ha') hlen with ⟨hfront, hback⟩
  rw [hb, hb', List.append_cancel_right hfront, hback]

/-- What the records are for: no call fails, undoing and redoing a change restores the text,
and undoing everything restores the text that was set. -/
structure Exact (content : TextContent σ) (t₀ : Text) (c : TextInput σ) : Prop where
  succeeds : ∀ now call, c.Legal call → c.Meets content now call →
    ∃ c', c.step content now call = .ok c'
  redo_undo : c.undoChanges ≠ [] → ∃ c₁ c₂ text, c.undo content = .ok c₁ ∧
    c₁.redo content = .ok c₂ ∧ c.text content = .ok text ∧ c₂.text content = .ok text
  undo_all : ∃ c', undoTimes content c.undoChanges.length c = .ok c' ∧ c'.undoChanges = [] ∧
    c'.text content = .ok (t₀.filter content.legal)

theorem Reachable.exact (hlaw : content.Lawful Represents) {t₀ : Text}
    (hc : Reachable content Represents t₀ c) : c.Exact content t₀ := by
  rcases hc.sound hlaw with ⟨text, h⟩
  constructor
  · intro now call hlegal hmeets
    rcases step_sound hlaw h hlegal hmeets with ⟨c', text', hstep, -⟩
    exact ⟨c', hstep⟩
  · intro hne
    obtain ⟨change, changes, hchanges⟩ := List.exists_cons_of_ne_nil hne
    rcases undo_spec hlaw h hchanges with ⟨c₁, text₁, hundo, h₁, happlies, -, hredoChanges⟩
    rcases redo_spec hlaw h₁ hredoChanges with ⟨c₂, text₂, hredo, h₂, happlies'⟩
    rw [← applies_unique happlies happlies'] at h₂
    exact ⟨c₁, c₂, text, hundo, hredo, h.text_eq hlaw, h₂.text_eq hlaw⟩
  · rcases undoTimes_spec hlaw _ h rfl with ⟨c', hundo, hnil, h'⟩
    exact ⟨c', hundo, hnil, h'.text_eq hlaw⟩

/-- In every run of a text field and of a text area in which the calls meet the condition, the
records serve their purpose. -/
theorem run_exact (t₀ : Text) :
    (∀ c, Reachable .textField TextContent.FieldText t₀ c → c.Exact .textField t₀) ∧
      ∀ c, Reachable .textArea TextContent.AreaText t₀ c → c.Exact .textArea t₀ :=
  ⟨fun _ hc => hc.exact TextContent.lawful_textField,
    fun _ hc => hc.exact TextContent.lawful_textArea⟩

/-- A text field in which `XYZ` has been set and then `ab` inserted before it. -/
def inserted : TextInput Text :=
  { content := [97, 98, 88, 89, 90]
    length := 5
    anchor := 2
    caretPosition := 2
    undoChanges := [⟨0, [], [97, 98]⟩]
    redoChanges := []
    shared := ⟨5000, false⟩ }

theorem run_exact_inserted :
    ∃ c', undoTimes .textField 1 inserted = .ok c' ∧
      c'.text .textField = .ok [88, 89, 90] := by
  have hset : Reachable .textField TextContent.FieldText [88, 89, 90]
      { inserted with
        content := [88, 89, 90]
        length := 3
        anchor := 0
        caretPosition := 0
        undoChanges := []
        shared := ⟨0, false⟩ } :=
    .setText (c := .new .textField ⟨0, false⟩) ⟨TextContent.lawful_textField.empty, rfl⟩ rfl
  have hinserted : Reachable .textField TextContent.FieldText [88, 89, 90] inserted := by
    refine .step 5000 (.insertText 0 [97, 98]) hset ?_ ?_ rfl
    · rintro start stop text ⟨⟩
      decide
    · rintro start stop text ⟨⟩
      decide
  rcases ((run_exact [88, 89, 90]).1 inserted hinserted).undo_all with ⟨c', hundo, -, htext⟩
  exact ⟨c', hundo, htext⟩

/-- The calls one after the other, each with its time. -/
def run (content : TextContent σ) (calls : List (Int × Call)) (c : TextInput σ) :
    Except RuntimeException (TextInput σ) :=
  calls.foldlM (fun c call => c.step content call.1 call.2) c

/-- A deletion is undone, then something is inserted at the end of the record before it and
merged into it, and the deletion, whose place is not the right one any more, is redone. With
everything undone the text is not the one that was set. Moreover, replacing something by a line
break in a text field fails. -/
theorem undo_all_after_merge :
    (do
      let c ← (TextInput.new .textField ⟨0, false⟩).setText .textField [88, 89, 90]
      let c ← c.run .textField
        [(5000, .insertText 0 [97, 98]), (5001, .deleteText 3 4), (5002, .undo),
          (5003, .selectRange 2 2), (5004, .insertText 2 [99]), (5005, .redo)]
      let c ← undoTimes .textField c.undoChanges.length c
      c.text .textField) = .ok [89, 89, 90] ∧
    ([89, 89, 90] : Text) ≠ [88, 89, 90] ∧
    (do
      let c ← (TextInput.new .textField ⟨0, false⟩).setText .textField [88, 89]
      let c ← c.run .textField [(5000, .replaceText 0 2 [10])]
      c.text .textField) = .error .indexOutOfBounds :=
  ⟨rfl, by decide, rfl⟩

end

end TextInput

end OpenJfx.Control.TextInputControl
