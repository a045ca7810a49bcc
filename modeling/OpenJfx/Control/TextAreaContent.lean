import OpenJfx.Java.Strings

namespace OpenJfx.Control.TextArea

open Java Data.Lines

def newline : UInt16 := 0x0A

def isInvalidCharacter (c : UInt16) (newlineIllegal tabIllegal : Bool) : Bool :=
  if c = 0x7F then true
  else if c = 0xA then newlineIllegal
  else if c = 0x9 then tabIllegal
  else if c < 0x20 then true
  else false

def containsInvalidCharacters (txt : Text) (newlineIllegal tabIllegal : Bool) : Bool :=
  txt.any fun c => isInvalidCharacter c newlineIllegal tabIllegal

def filterInput (txt : Text) (stripNewlines stripTabs : Bool) : Text :=
  if containsInvalidCharacters txt stripNewlines stripTabs then
    txt.filter fun c => !isInvalidCharacter c stripNewlines stripTabs
  else txt

/-- The paragraphs of the text. A place in it is found by going through them, for changes from the
last one upwards. -/
structure Content where
  paragraphs : List Text
  contentLength : Int

/-- A method that may throw an exception; the content stays as it is at that time. -/
abbrev ContentM := EStateM RuntimeException Content

namespace Content

def new : Content := ⟨[[]], 0⟩

/-- The first loop of `get`: the paragraphs from the one that is reached on, and the offset
in it. -/
def skipParagraphs : List Text → Int → List Text × Int
  | [], offset => ([], offset)
  | paragraph :: paragraphs, offset =>
    let count := (paragraph.length : Int) + 1
    if offset < count then (paragraph :: paragraphs, offset)
    else skipParagraphs paragraphs (offset - count)

/-- The second loop of `get`, with the number of turns that are left. -/
def readCharacters (contentLength : Int) :
    Nat → Int → Text → List Text → Int → Except RuntimeException Text
  | 0, _, _, _, _ => .ok []
  | left + 1, i, paragraph, paragraphs, offset =>
    if offset = paragraph.length ∧ i < contentLength then
      match paragraphs with
      | [] => .error .indexOutOfBounds
      | paragraph :: paragraphs =>
        (newline :: ·) <$> readCharacters contentLength left (i + 1) paragraph paragraphs 0
    else do
      let c ← StringBuilder.charAt paragraph offset
      (c :: ·) <$> readCharacters contentLength left (i + 1) paragraph paragraphs (offset + 1)

def get (content : Content) (start stop : Int) : Except RuntimeException Text :=
  let length := stop - start
  if length < 0 then .error .negativeArraySize
  else
    match skipParagraphs content.paragraphs start with
    | ([], _) => .error .indexOutOfBounds
    | (paragraph :: paragraphs, offset) =>
      readCharacters content.contentLength length.toNat 0 paragraph paragraphs offset

/-- The loop that goes up to the paragraph in which `index` lies. -/
def locate (paragraphs : List Text) (index : Int) :
    Nat → Int → Except RuntimeException (Nat × Text × Int)
  | 0, _ => .error .indexOutOfBounds
  | paragraphIndex + 1, offset =>
    match paragraphs[paragraphIndex]? with
    | none => .error .indexOutOfBounds
    | some paragraph =>
      let offset := offset - (paragraph.length + 1)
      if index < offset then locate paragraphs index paragraphIndex offset
      else .ok (paragraphIndex, paragraph, offset)

def call {α : Type} : Except RuntimeException α → ContentM α
  | .ok a => pure a
  | .error e => throw e

def setParagraph (paragraphIndex : Nat) (paragraph : Text) : ContentM Unit :=
  modify fun content =>
    { content with paragraphs := content.paragraphs.set paragraphIndex paragraph }

/-- `paragraphs.addAll(paragraphIndex, lines)`. -/
def addParagraphs (paragraphIndex : Nat) (lines : List Text) : ContentM Unit :=
  modify fun content =>
    { content with paragraphs :=
        content.paragraphs.take paragraphIndex ++ lines ++ content.paragraphs.drop paragraphIndex }

def clearParagraphs (start stop : Nat) : ContentM Unit :=
  modify fun content =>
    { content with paragraphs := content.paragraphs.take start ++ content.paragraphs.drop stop }

def addLength (length : Int) : ContentM Unit :=
  modify fun content => { content with contentLength := content.contentLength + length }

def splitLines (text : Text) : List Text × Text := text.foldl (splitStep newline) ([], [])

/-- The part of `insert` for a text that is not empty. -/
def insertLines (index : Int) (text : Text) : ContentM Unit := do
  let content ← MonadState.get
  let (lines, line) := splitLines text
  let (paragraphIndex, paragraph, offset) ←
    call (locate content.paragraphs index content.paragraphs.length (content.contentLength + 1))
  let start := index - offset
  match lines with
  | [] =>
    let paragraph ← call (StringBuilder.insert paragraph start line)
    setParagraph paragraphIndex paragraph
  | first :: lines =>
    let stop := paragraph.length
    let trailingText ← call (StringBuilder.subSequence paragraph start stop)
    let paragraph ← call (StringBuilder.delete paragraph start stop)
    setParagraph paragraphIndex paragraph
    let paragraph ← call (StringBuilder.insert paragraph start first)
    setParagraph paragraphIndex paragraph
    addParagraphs (paragraphIndex + 1) (lines ++ [line ++ trailingText])
  addLength text.length

/-- `insert(index, text, notifyListeners)`; the listeners are left out. -/
def insert (index : Int) (text : Option Text) : ContentM Unit := do
  let content ← MonadState.get
  if index < 0 ∨ index > content.contentLength then throw .indexOutOfBounds
  else
    match text with
    | none => throw .illegalArgument
    | some text =>
      let text := filterInput text false false
      if text.length > 0 then insertLines index text else pure ()

/-- The part of `delete` for a range that is not empty. -/
def deleteRange (start stop : Int) : ContentM Unit := do
  let content ← MonadState.get
  let length := stop - start
  let (trailingParagraphIndex, trailingParagraph, trailingOffset) ←
    call (locate content.paragraphs stop content.paragraphs.length (content.contentLength + 1))
  let (leadingParagraphIndex, leadingParagraph, leadingOffset) ←
    call (locate content.paragraphs start (trailingParagraphIndex + 1)
      (trailingOffset + (trailingParagraph.length + 1)))
  if leadingParagraphIndex = trailingParagraphIndex then
    let leadingParagraph ←
      call (StringBuilder.delete leadingParagraph (start - leadingOffset) (stop - leadingOffset))
    setParagraph leadingParagraphIndex leadingParagraph
  else
    let leadingSegment ←
      call (StringBuilder.subSequence leadingParagraph 0 (start - leadingOffset))
    let trailingSegmentLength := start + length - trailingOffset
    let trailingParagraph ←
      call (StringBuilder.delete trailingParagraph 0 trailingSegmentLength)
    setParagraph trailingParagraphIndex trailingParagraph
    if trailingParagraphIndex > leadingParagraphIndex then
      clearParagraphs leadingParagraphIndex trailingParagraphIndex
    let trailingParagraph ← call (StringBuilder.insert trailingParagraph 0 leadingSegment)
    setParagraph leadingParagraphIndex trailingParagraph
  addLength (-length)

/-- `delete(start, end, notifyListeners)`; the listeners are left out. -/
def delete (start stop : Int) : ContentM Unit := do
  let content ← MonadState.get
  if start > stop then throw .illegalArgument
  else if start < 0 ∨ stop > content.contentLength then throw .indexOutOfBounds
  else if stop - start > 0 then deleteRange start stop
  else pure ()

open List

/-- The paragraphs are the lines of the text. -/
structure Represents (content : Content) (text : Text) : Prop where
  joined : [newline].intercalate content.paragraphs = text
  ne_nil : content.paragraphs ≠ []
  lines : ∀ paragraph ∈ content.paragraphs, newline ∉ paragraph
  length : content.contentLength = text.length

theorem represents_new : Represents new [] := by
  refine ⟨?_, ?_, ?_, rfl⟩
  · simp [new]
  · simp [new]
  · simp [new]

theorem locate_spec (paragraphs : List Text) (index : Nat) (i : Nat) :
    i ≤ paragraphs.length → index < (closed newline (paragraphs.take i)).length →
      ∃ front paragraph back, paragraphs = front ++ paragraph :: back ∧
        locate paragraphs index i ((closed newline (paragraphs.take i)).length : Nat) =
          .ok (front.length, paragraph, ((closed newline front).length : Nat)) ∧
        front.length < i ∧ (closed newline front).length ≤ index ∧
        index ≤ (closed newline front).length + paragraph.length := by
  induction i with
  | zero =>
    intro _ hidx
    simp at hidx
  | succ i ih =>
    intro hi hidx
    have hget : paragraphs[i]? = some (paragraphs.get ⟨i, hi⟩) := getElem?_eq_getElem hi
    have htake : paragraphs.take (i + 1) = paragraphs.take i ++ [paragraphs.get ⟨i, hi⟩] := by
      simp
    have hlen : (closed newline (paragraphs.take (i + 1))).length =
        (closed newline (paragraphs.take i)).length + (paragraphs.get ⟨i, hi⟩).length + 1 := by
      rw [htake]
      simp only [closed_append, closed_cons, closed_nil, length_append, length_cons,
        length_nil]
      omega
    generalize paragraphs.get ⟨i, hi⟩ = paragraph at hget hlen htake
    have hoff : (((closed newline (paragraphs.take (i + 1))).length : Nat) : Int) -
        (paragraph.length + 1) = ((closed newline (paragraphs.take i)).length : Nat) := by
      omega
    rw [locate]
    simp only [hget, hoff]
    split_ifs with hlt
    · rcases ih (by omega) (by omega) with ⟨front, p, back, hsplit, hlocate, hfront, hrest⟩
      exact ⟨front, p, back, hsplit, hlocate, by omega, hrest⟩
    · refine ⟨paragraphs.take i, paragraph, paragraphs.drop (i + 1), ?_, ?_, ?_, ?_, ?_⟩
      · have := take_append_drop (i + 1) paragraphs
        rw [htake, append_assoc] at this
        exact this.symm
      · rw [length_take, Nat.min_eq_left (by omega)]
      · rw [length_take]
        omega
      · omega
      · omega

structure Place (content : Content) (text : Text) (index : Nat) (front : List Text)
    (paragraph : Text) (back : List Text) (k : Nat) : Prop where
  split : content.paragraphs = front ++ paragraph :: back
  le_length : k ≤ paragraph.length
  index_eq : index = (closed newline front).length + k
  take_eq : text.take index = closed newline front ++ paragraph.take k
  drop_eq : text.drop index = paragraph.drop k ++ opened newline back

variable {content : Content} {front back : List Text} {index : Nat}

variable {text : Text}

theorem Represents.place (h : content.Represents text) {paragraph : Text}
    (hsplit : content.paragraphs = front ++ paragraph :: back)
    (hle : (closed newline front).length ≤ index)
    (hidx : index ≤ (closed newline front).length + paragraph.length) :
    Place content text index front paragraph back (index - (closed newline front).length) := by
  have htext : text = closed newline front ++ paragraph ++ opened newline back := by
    rw [← h.joined, hsplit, intercalate_append_cons]
  have hk : index - (closed newline front).length ≤ paragraph.length := by omega
  refine ⟨hsplit, hk, by omega, ?_, ?_⟩
  · rw [htext, append_assoc, take_append, take_of_length_le hle,
      take_append_of_le_length hk]
  · rw [htext, append_assoc, drop_append, drop_of_length_le hle,
      drop_append_of_le_length hk, nil_append]

theorem Represents.closed_length (h : content.Represents text) :
    (closed newline (content.paragraphs.take content.paragraphs.length)).length =
      text.length + 1 := by
  rw [take_length, closed_eq newline _ h.ne_nil, h.joined]
  simp

theorem Represents.locate_last (h : content.Represents text) (hidx : index ≤ text.length) :
    ∃ front paragraph back k, Place content text index front paragraph back k ∧
      locate content.paragraphs index content.paragraphs.length (content.contentLength + 1) =
        .ok (front.length, paragraph, ((closed newline front).length : Nat)) := by
  have hlen := h.closed_length
  rcases locate_spec content.paragraphs index content.paragraphs.length le_rfl (by omega) with
    ⟨front, paragraph, back, hsplit, hlocate, -, hle, hidx'⟩
  refine ⟨front, paragraph, back, _, h.place hsplit hle hidx', ?_⟩
  rw [← hlocate, hlen, h.length]
  rfl

@[simp] theorem call_ok {α : Type} (a : α) : call (.ok a) = pure a := rfl

theorem splitLines_spec (text : Text) :
    closed newline (splitLines text).1 ++ (splitLines text).2 = text ∧
      (∀ line ∈ (splitLines text).1, newline ∉ line) ∧ newline ∉ (splitLines text).2 := by
  refine ⟨?_, ?_⟩
  · rw [splitLines, splitStep_foldl]
    simp
  · exact splitStep_not_mem newline text ([], []) (by simp) (by simp)

theorem Represents.replace (h : content.Represents text) {old : List Text}
    (hsplit : content.paragraphs = front ++ old ++ back) {content' : Content} {middle : List Text}
    {text' : Text} (hsplit' : content'.paragraphs = front ++ middle ++ back) (hne : middle ≠ [])
    (hlines : ∀ paragraph ∈ middle, newline ∉ paragraph)
    (htext : closed newline front ++ [newline].intercalate middle ++ opened newline back = text')
    (hlen : content'.contentLength = text'.length) : content'.Represents text' := by
  refine ⟨?_, by simp [hsplit', hne], ?_, hlen⟩
  · rw [← htext, hsplit']
    exact intercalate_replace newline front middle back hne
  · have hold := h.lines
    rw [hsplit] at hold
    rw [hsplit']
    intro paragraph hmem
    rcases mem_append.mp hmem with hmem | hmem
    · rcases mem_append.mp hmem with hmem | hmem
      · exact hold paragraph (by simp [hmem])
      · exact hlines paragraph hmem
    · exact hold paragraph (by simp [hmem])

theorem insertLines_spec (h : content.Represents text) (hidx : index ≤ text.length) (added : Text) :
    ∃ content', (insertLines index added).run content = .ok () content' ∧
      content'.Represents (text.take index ++ added ++ text.drop index) := by
  rcases h.locate_last hidx with ⟨front, paragraph, back, k, hplace, hlocate⟩
  have hstart : (index : Int) - ((closed newline front).length : Nat) = (k : Nat) := by
    have := hplace.index_eq
    omega
  have hsplitLines := splitLines_spec added
  have hk := hplace.le_length
  have hsplit : content.paragraphs = front ++ [paragraph] ++ back := by
    rw [hplace.split, append_cons]
  have hset : ∀ p, content.paragraphs.set front.length p = front ++ p :: back := by
    rw [hplace.split]
    simp
  have hpara : newline ∉ paragraph := h.lines paragraph (by rw [hplace.split]; simp)
  rcases hlines : splitLines added with ⟨lines, line⟩
  rw [hlines] at hsplitLines
  rcases hsplitLines with ⟨hadded, hnewline, hnewline'⟩
  cases lines with
  | nil =>
    refine ⟨⟨front ++ (paragraph.take k ++ line ++ paragraph.drop k) :: back,
      content.contentLength + added.length⟩, ?_, ?_⟩
    · simp only [insertLines, EStateM.run_bind, EStateM.run_get, hlocate, hlines, call_ok, hstart,
        EStateM.run_pure, StringBuilder.insert_natCast _ hk, setParagraph, addLength,
        EStateM.run_modify, hset]
    · have hline : line = added := by simpa using hadded
      refine h.replace hsplit (append_cons front _ back) (by simp) ?_ ?_ ?_
      · intro p hp
        rw [mem_singleton.mp hp]
        simp only [mem_append, not_or]
        exact ⟨⟨fun hmem => hpara (mem_of_mem_take hmem), hnewline'⟩,
          fun hmem => hpara (mem_of_mem_drop hmem)⟩
      · rw [hplace.take_eq, hplace.drop_eq, hline]
        simp
      · rw [h.length]
        simp
        omega
  | cons first lines =>
    have hdel : StringBuilder.delete paragraph (k : Nat) (paragraph.length : Nat) =
        .ok (paragraph.take k) := by
      rw [StringBuilder.delete_natCast _ hk le_rfl]
      simp
    have hlen : (paragraph.take k).length = k := by simp [hk]
    have hins : StringBuilder.insert (paragraph.take k) (k : Nat) first =
        .ok (paragraph.take k ++ first) := by
      rw [StringBuilder.insert_natCast _ (Nat.le_of_eq hlen.symm),
        take_of_length_le (Nat.le_of_eq hlen),
        drop_of_length_le (Nat.le_of_eq hlen), append_nil]
    refine ⟨⟨front ++
      (paragraph.take k ++ first) :: (lines ++ [line ++ paragraph.drop k]) ++ back,
      content.contentLength + added.length⟩, ?_, ?_⟩
    · simp only [insertLines, EStateM.run_bind, EStateM.run_get, hlocate, hlines, call_ok, hstart,
        EStateM.run_pure, StringBuilder.subSequence_natCast _ hk le_rfl, hdel, hins,
        setParagraph, addParagraphs, addLength, EStateM.run_modify, hset]
      rw [set_append_right _ _ le_rfl, Nat.sub_self, set_cons_zero, append_cons,
        take_left' (by simp), drop_left' (by simp)]
      simp
    · refine h.replace hsplit rfl (by simp) ?_ ?_ ?_
      · intro p hp
        rw [mem_cons, mem_append, mem_singleton] at hp
        rcases hp with rfl | hp | rfl
        · simp only [mem_append, not_or]
          exact ⟨fun hmem => hpara (mem_of_mem_take hmem), hnewline first (by simp)⟩
        · exact hnewline p (by simp [hp])
        · simp only [mem_append, not_or]
          exact ⟨hnewline', fun hmem => hpara (mem_of_mem_drop hmem)⟩
      · rw [hplace.take_eq, hplace.drop_eq, ← hadded, ← cons_append,
          intercalate_append_cons]
        simp
      · rw [h.length]
        simp
        omega

theorem deleteRange_spec (h : content.Represents text) {start stop : Nat} (hle : start ≤ stop)
    (hstop : stop ≤ text.length) :
    ∃ content', (deleteRange start stop).run content = .ok () content' ∧
      content'.Represents (text.take start ++ text.drop stop) := by
  rcases h.locate_last hstop with ⟨front, paragraph, back, k, hplace, hlocate⟩
  -- the second search starts at the paragraph that the first one has found
  have htake : content.paragraphs.take (front.length + 1) = front ++ [paragraph] := by
    rw [hplace.split, append_cons, take_left' (by simp)]
  have hlen : (closed newline (content.paragraphs.take (front.length + 1))).length =
      (closed newline front).length + (paragraph.length + 1) := by
    rw [htake]
    simp
  have hk := hplace.le_length
  have hidx := hplace.index_eq
  have hlt : front.length < content.paragraphs.length := by
    rw [hplace.split]
    simp
  rcases locate_spec content.paragraphs start (front.length + 1) hlt (by omega) with
    ⟨front', paragraph', back', hsplit', hlocate', hfront', hle', hidx'⟩
  have hplace' := h.place hsplit' hle' hidx'
  rw [hlen] at hlocate'
  push_cast at hlocate'
  generalize hk' : start - (closed newline front').length = k' at hplace'
  have hstart : (start : Int) - ((closed newline front').length : Nat) = (k' : Nat) := by omega
  have hend : (start : Int) + ((stop : Int) - start) - ((closed newline front).length : Nat) =
      (k : Nat) := by omega
  have hpara : newline ∉ paragraph := h.lines paragraph (by rw [hplace.split]; simp)
  have hpara' : newline ∉ paragraph' := h.lines paragraph' (by rw [hsplit']; simp)
  obtain ⟨middle, hmiddle⟩ : front' <+: front :=
    prefix_of_prefix_length_le ⟨_, hsplit'.symm⟩ ⟨_, hplace.split.symm⟩ (by omega)
  have hmerged : newline ∉ paragraph'.take k' ++ paragraph.drop k := by
    simp only [mem_append, not_or]
    exact ⟨fun hmem => hpara' (mem_of_mem_take hmem),
      fun hmem => hpara (mem_of_mem_drop hmem)⟩
  have hlength : content.contentLength + -((stop : Int) - start) =
      ((text.take start ++ text.drop stop).length : Nat) := by
    rw [h.length]
    simp
    omega
  have hset : ∀ p, content.paragraphs.set front.length p = front ++ p :: back := by
    rw [hplace.split]
    simp
  refine ⟨⟨front' ++ (paragraph'.take k' ++ paragraph.drop k) :: back,
    content.contentLength + -((stop : Int) - start)⟩, ?_, ?_⟩
  · have hk'' := hplace'.le_length
    rcases Nat.lt_or_eq_of_le (Nat.le_of_lt_succ hfront') with hbef | hsame
    · have hsub : StringBuilder.subSequence paragraph' 0 (k' : Nat) = .ok (paragraph'.take k') :=
        StringBuilder.subSequence_natCast paragraph' (Nat.zero_le k') hk''
      have hdel : StringBuilder.delete paragraph 0 (k : Nat) = .ok (paragraph.drop k) :=
        StringBuilder.delete_natCast paragraph (Nat.zero_le k) hk
      have hins : StringBuilder.insert (paragraph.drop k) 0 (paragraph'.take k') =
          .ok (paragraph'.take k' ++ paragraph.drop k) :=
        StringBuilder.insert_natCast (paragraph.drop k) (Nat.zero_le _) (paragraph'.take k')
      have hne : ¬ front'.length = front.length := by omega
      have hclear : (front ++ paragraph.drop k :: back).take front'.length = front' := by
        rw [← hmiddle, append_assoc, take_left]
      simp only [deleteRange, EStateM.run_bind, EStateM.run_get, hlocate, call_ok, hlocate', hstart,
        hend, EStateM.run_pure, if_neg hne, hsub, hdel, hins, setParagraph, clearParagraphs,
        addLength, EStateM.run_modify, hset, gt_iff_lt, hbef, if_true, hclear, drop_left]
      rw [set_append_right _ _ le_rfl, Nat.sub_self, set_cons_zero]
    · rcases append_inj (hsplit'.symm.trans hplace.split) hsame with ⟨hfront, hrest⟩
      have hsame' : paragraph' = paragraph := (List.cons.inj hrest).1
      subst hfront hsame'
      have hkk : k' ≤ k := by omega
      have hend' : (stop : Int) - ((closed newline front').length : Nat) = (k : Nat) := by omega
      simp only [deleteRange, EStateM.run_bind, EStateM.run_get, hlocate, call_ok, hlocate', hstart,
        hend', EStateM.run_pure, if_true, StringBuilder.delete_natCast _ hkk hk, setParagraph,
        addLength, EStateM.run_modify, hset]
  · have hold : content.paragraphs = front' ++ (middle ++ [paragraph]) ++ back := by
      rw [hplace.split, ← hmiddle]
      simp
    refine h.replace hold (append_cons front' _ back) (by simp) ?_ ?_ hlength
    · intro p hp
      rw [mem_singleton.mp hp]
      exact hmerged
    · rw [hplace'.take_eq, hplace.drop_eq]
      simp

theorem readCharacters_spec (contentLength : Int) (left : Nat) :
    ∀ (i : Int) (paragraph : Text) (paragraphs : List Text) (offset : Nat),
      i + left ≤ contentLength → offset ≤ paragraph.length →
      left ≤ (paragraph.drop offset ++ opened newline paragraphs).length →
      readCharacters contentLength left i paragraph paragraphs offset =
        .ok ((paragraph.drop offset ++ opened newline paragraphs).take left) := by
  induction left with
  | zero => exact fun i paragraph paragraphs offset _ _ _ => rfl
  | succ left ih =>
    intro i paragraph paragraphs offset hi hoff hleft
    rcases Nat.lt_or_eq_of_le hoff with hlt | heq
    · have hread := ih (i + 1) paragraph paragraphs (offset + 1) (by push_cast at hi; omega) hlt
      rw [drop_eq_getElem_cons hlt, cons_append] at hleft ⊢
      unfold readCharacters
      rw [if_neg (by omega),
        StringBuilder.charAt_natCast (getElem?_eq_getElem hlt)]
      have hcast : (offset : Int) + 1 = ((offset + 1 : Nat) : Int) := by simp
      rw [hcast]
      rw [hread (by simpa using hleft)]
      rfl
    · subst heq
      rw [drop_length] at hleft ⊢
      unfold readCharacters
      rw [if_pos ⟨rfl, by push_cast at hi; omega⟩]
      cases paragraphs with
      | nil => simp at hleft
      | cons paragraph paragraphs =>
        have hread := ih (i + 1) paragraph paragraphs 0 (by push_cast at hi; omega)
          (Nat.zero_le _)
        change (newline :: ·) <$> readCharacters contentLength left (i + 1) paragraph
          paragraphs ((0 : Nat) : Int) = _
        rw [hread (by simpa using hleft)]
        rfl

theorem skipParagraphs_spec (paragraphs : List Text) :
    ∀ start : Nat, start < (closed newline paragraphs).length →
      ∃ paragraph rest offset,
        skipParagraphs paragraphs start = (paragraph :: rest, ((offset : Nat) : Int)) ∧
        offset ≤ paragraph.length ∧
        paragraph.drop offset ++ opened newline rest =
          ([newline].intercalate paragraphs).drop start := by
  induction paragraphs with
  | nil =>
    intro start hstart
    simp at hstart
  | cons paragraph paragraphs ih =>
    intro start hstart
    rw [skipParagraphs, intercalate_cons]
    split_ifs with hlt
    · have hle : start ≤ paragraph.length := by omega
      refine ⟨paragraph, paragraphs, start, rfl, hle, ?_⟩
      rw [drop_append_of_le_length hle]
    · have hcast : (start : Int) - (paragraph.length + 1) =
          ((start - (paragraph.length + 1) : Nat) : Int) := by omega
      rw [closed_cons, length_append, length_cons] at hstart
      rcases ih (start - (paragraph.length + 1)) (by omega) with
        ⟨p, rest, offset, hskip, hle, hdrop⟩
      refine ⟨p, rest, offset, by rw [hcast, hskip], hle, ?_⟩
      have hne : paragraphs ≠ [] := by
        rintro rfl
        simp at hstart
        omega
      have hshort : (paragraph ++ [newline]).length ≤ start := by
        rw [length_append, length_singleton]
        omega
      rw [hdrop, opened_eq newline _ hne, append_cons, drop_append,
        drop_of_length_le hshort]
      simp

theorem get_spec (h : content.Represents text) {start stop : Nat} (hle : start ≤ stop)
    (hstop : stop ≤ text.length) :
    content.get start stop = .ok ((text.drop start).take (stop - start)) := by
  have hlen := h.closed_length
  rw [take_length] at hlen
  rcases skipParagraphs_spec content.paragraphs start (by omega) with
    ⟨paragraph, rest, offset, hskip, hoff, hdrop⟩
  rw [h.joined] at hdrop
  have hleft : ((stop : Int) - start).toNat = stop - start := by omega
  have hread := readCharacters_spec content.contentLength (stop - start) 0 paragraph rest offset
    (by rw [h.length]; omega) hoff (by rw [hdrop, length_drop]; omega)
  rw [get]
  simp only [if_neg (show ¬ ((stop : Int) - start < 0) by omega), hskip, hleft]
  rw [hread, hdrop]

inductive Call where
  | insert (index : Int) (text : Option Text)
  | delete (start stop : Int)

def Call.Legal (text : Text) : Call → Prop
  | .insert index added => 0 ≤ index ∧ index ≤ text.length ∧ added.isSome = true
  | .delete start stop => 0 ≤ start ∧ start ≤ stop ∧ stop ≤ text.length

instance Call.decidableLegal (text : Text) : (call : Call) → Decidable (call.Legal text)
  | .insert _ _ => inferInstanceAs (Decidable (_ ∧ _ ∧ _))
  | .delete _ _ => inferInstanceAs (Decidable (_ ∧ _ ∧ _))

def Call.apply (text : Text) : Call → Text
  | .insert index added =>
    text.take index.toNat ++ filterInput (added.getD []) false false ++ text.drop index.toNat
  | .delete start stop => text.take start.toNat ++ text.drop stop.toNat

def perform : Call → ContentM Unit
  | .insert index text => insert index text
  | .delete start stop => delete start stop

theorem perform_legal (h : content.Represents text) {call : Call} (hlegal : call.Legal text) :
    ∃ content', (perform call).run content = .ok () content' ∧
      content'.Represents (call.apply text) := by
  cases call with
  | insert index added =>
    rcases hlegal with ⟨hnn, hle, hsome⟩
    obtain ⟨added, rfl⟩ := Option.isSome_iff_exists.mp hsome
    obtain ⟨index, rfl⟩ := Int.eq_ofNat_of_zero_le hnn
    have hidx : index ≤ text.length := by omega
    simp only [perform, insert, EStateM.run_bind, EStateM.run_get, h.length,
      if_neg (show ¬ ((index : Int) < 0 ∨ (index : Int) > text.length) by omega)]
    split_ifs with hlen
    · exact insertLines_spec h hidx _
    · refine ⟨content, rfl, ?_⟩
      have hnil : filterInput added false false = [] := eq_nil_of_length_eq_zero (by omega)
      simpa [Call.apply, hnil] using h
  | delete start stop =>
    rcases hlegal with ⟨hnn, hle, hstop⟩
    obtain ⟨start, rfl⟩ := Int.eq_ofNat_of_zero_le hnn
    obtain ⟨stop, rfl⟩ := Int.eq_ofNat_of_zero_le (Int.le_trans hnn hle)
    simp only [perform, delete, EStateM.run_bind, EStateM.run_get, h.length,
      if_neg (show ¬ ((start : Int) > stop) by omega),
      if_neg (show ¬ ((start : Int) < 0 ∨ (stop : Int) > text.length) by omega)]
    split_ifs with hlen
    · exact deleteRange_spec h (by omega) (by omega)
    · refine ⟨content, rfl, ?_⟩
      have hsame : stop = start := by omega
      simpa [Call.apply, hsame] using h

theorem perform_illegal (h : content.Represents text) {call : Call} (hillegal : ¬ call.Legal text) :
    ∃ exception, (perform call).run content = .error exception content := by
  cases call with
  | insert index added =>
    simp only [perform, insert, EStateM.run_bind, EStateM.run_get, h.length]
    split_ifs with hidx
    · exact ⟨_, rfl⟩
    · cases added with
      | none => exact ⟨_, rfl⟩
      | some added =>
        refine absurd ⟨?_, ?_, rfl⟩ hillegal
        · omega
        · omega
  | delete start stop =>
    simp only [perform, delete, EStateM.run_bind, EStateM.run_get, h.length]
    split_ifs with horder hrange
    · exact ⟨_, rfl⟩
    · exact ⟨_, rfl⟩
    all_goals
      refine absurd ⟨?_, ?_, ?_⟩ hillegal
      · omega
      · omega
      · omega

/-- The content after a call, whether an exception has been thrown or not. -/
def after (content : Content) (call : Call) : Content :=
  match (perform call).run content with
  | .ok _ content => content
  | .error _ content => content

/-- The string after a call; one with illegal arguments does not count. -/
def plainAfter (text : Text) (call : Call) : Text :=
  if call.Legal text then call.apply text else text

theorem represents_run (calls : List Call) :
    ∀ (content : Content) (text : Text), content.Represents text →
      (calls.foldl after content).Represents (calls.foldl plainAfter text) := by
  induction calls with
  | nil => exact fun content text h => h
  | cons call calls ih =>
    intro content text h
    refine ih _ _ ?_
    rw [after, plainAfter]
    split_ifs with hlegal
    · rcases perform_legal h hlegal with ⟨content', hrun, h'⟩
      rw [hrun]
      exact h'
    · rcases perform_illegal h hlegal with ⟨exception, hrun⟩
      rw [hrun]
      exact h

/-- After any calls the content stands for the string that the same calls make of the empty
one. All its parts can be read, a further call with legal arguments succeeds, and one with
illegal arguments throws an exception and leaves the content as it is. -/
theorem run_represents (calls : List Call) :
    (calls.foldl after new).Represents (calls.foldl plainAfter []) ∧
    (∀ start stop : Nat, start ≤ stop → stop ≤ (calls.foldl plainAfter []).length →
      (calls.foldl after new).get start stop =
        .ok (((calls.foldl plainAfter []).drop start).take (stop - start))) ∧
    ∀ call : Call,
      (call.Legal (calls.foldl plainAfter []) → ∃ content,
        (perform call).run (calls.foldl after new) = .ok () content) ∧
      (¬ call.Legal (calls.foldl plainAfter []) → ∃ exception,
        (perform call).run (calls.foldl after new) = .error exception (calls.foldl after new)) := by
  have h := represents_run calls new [] represents_new
  refine ⟨h, fun start stop => get_spec h, ?_⟩
  intro call
  refine ⟨fun hlegal => ?_, perform_illegal h⟩
  rcases perform_legal h hlegal with ⟨content, hrun, -⟩
  exact ⟨content, hrun⟩

end Content

end OpenJfx.Control.TextArea
