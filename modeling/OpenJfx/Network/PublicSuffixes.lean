import OpenJfx.Network.CookieManager
import OpenJfx.Network.CookieStoreGet

namespace OpenJfx.Network.PublicSuffixes

open Java List

/-- `\s` of the regular expressions. -/
def isSpace (c : UInt16) : Bool := c = 32 || (9 ≤ c && c ≤ 13)

/-- What a line of the list says before `IDN.toASCII` is called. -/
def parseLine (line : JString) : Option (Rule × JString) :=
  let line := line.takeWhile fun c => !isSpace c
  if line.length = 0 then none
  else if (str "//").isPrefixOf line then none
  else if (str "!").isPrefixOf line then some (.exceptionRule, line.drop 1)
  else if (str "*.").isPrefixOf line then some (.wildcardRule, line.drop 2)
  else some (.simpleRule, line)

section

-- `IDN.toASCII`, which throws for some names
variable (toASCII : JString → Option JString)

def loadLine (result : HashMap JString Rule) (line : JString) : HashMap JString Rule :=
  match parseLine line with
  | none => result
  | some (rule, name) =>
    match toASCII name with
    | none => result
    | some name => result.put name rule

def loadRules (lines : List JString) : HashMap JString Rule :=
  lines.foldl (loadLine toASCII) HashMap.empty

end

/-- The text of a line is what stands before the first white space. -/
def IsText (line text : JString) : Prop :=
  (∀ c ∈ text, isSpace c = false) ∧
    ∃ rest, line = text ++ rest ∧ ∀ c ∈ rest.head?, isSpace c = true

inductive IsRule : JString → Rule → JString → Prop
  | simple {name : JString} (hne : name ≠ []) (hcomment : ¬ str "//" <+: name)
    (hexception : ¬ str "!" <+: name) (hwildcard : ¬ str "*." <+: name) :
    IsRule name .simpleRule name
  | wildcard (name : JString) : IsRule (str "*." ++ name) .wildcardRule name
  | exception (name : JString) : IsRule (str "!" ++ name) .exceptionRule name

section

variable (toASCII : JString → Option JString)

/-- The line is a rule of this kind for the domain. -/
def Declares (line : JString) (rule : Rule) (domain : JString) : Prop :=
  ∃ text name, IsText line text ∧ IsRule text rule name ∧ toASCII name = some domain

def Declared (lines : List JString) (rule : Rule) (domain : JString) : Prop :=
  ∃ line ∈ lines, Declares toASCII line rule domain

/-- The last of the rules for the domain is of this kind. -/
def DeclaredLast (lines : List JString) (rule : Rule) (domain : JString) : Prop :=
  ∃ before line after, lines = before ++ line :: after ∧ Declares toASCII line rule domain ∧
    ∀ rule', ¬ Declared toASCII after rule' domain

/-- The domain without its first label; for a top-level domain, the root of the names. -/
inductive IsParent : JString → JString → Prop
  | label {label parent : JString} (h : dot ∉ label) : IsParent (label ++ dot :: parent) parent
  | root {label : JString} (h : dot ∉ label) : IsParent label []

/-- What the rules say about a domain. -/
def IsSuffix (lines : List JString) (domain : JString) : Prop :=
  ¬ Declared toASCII lines .exceptionRule domain ∧
    (Declared toASCII lines .simpleRule domain ∨ Declared toASCII lines .wildcardRule domain ∨
      ∃ parent, IsParent domain parent ∧ Declared toASCII lines .wildcardRule parent)

/-- No rule that matters is followed by the last one of another kind for its name. -/
def NotReplaced (lines : List JString) (domain : JString) : Prop :=
  (Declared toASCII lines .exceptionRule domain →
      DeclaredLast toASCII lines .exceptionRule domain) ∧
    ((∀ rule, ¬ Declared toASCII lines rule domain) → ∀ parent, IsParent domain parent →
      Declared toASCII lines .wildcardRule parent → DeclaredLast toASCII lines .wildcardRule parent)

end

section

variable {toASCII : JString → Option JString} {line domain name : JString} {rule : Rule}

theorem isText_iff {text : JString} :
    IsText line text ↔ text = line.takeWhile fun c => !isSpace c := by
  constructor
  · rintro ⟨htext, rest, rfl, hrest⟩
    have hstop : rest.takeWhile (fun c => !isSpace c) = [] := by
      cases rest with
      | nil => rfl
      | cons c rest => rw [takeWhile_cons_of_neg (by simp [hrest c rfl])]
    rw [takeWhile_append_of_pos (by simpa using htext), hstop, append_nil]
  · rintro rfl
    refine ⟨?_, line.dropWhile fun c => !isSpace c, (takeWhile_append_dropWhile ..).symm, ?_⟩
    · intro c hc
      simpa using mem_takeWhile_imp hc
    · intro c hc
      have hstop := head?_dropWhile_not (fun c => !isSpace c) line
      rw [Option.mem_def.mp hc] at hstop
      simpa using hstop

theorem isRule_iff {text : JString} (htext : ∀ c ∈ text, isSpace c = false) :
    IsRule text rule name ↔ parseLine text = some (rule, name) := by
  have hall : text.takeWhile (fun c => !isSpace c) = text := by
    rw [takeWhile_eq_self_iff]
    simpa using htext
  rw [parseLine, hall]
  constructor
  · rintro (⟨hne, hcomment, hexception, hwildcard⟩ | ⟨name⟩ | ⟨name⟩)
    · rw [if_neg (by simpa using hne), if_neg (by rwa [ isPrefixOf_iff_prefix]),
        if_neg (by rwa [ isPrefixOf_iff_prefix]), if_neg (by rwa [ isPrefixOf_iff_prefix])]
    · rfl
    · rfl
  · intro hparse
    split_ifs at hparse with hne hcomment hexception hwildcard
    · obtain ⟨name', rfl⟩ := isPrefixOf_iff_prefix.mp hexception
      cases hparse
      exact .exception name'
    · obtain ⟨name', rfl⟩ := isPrefixOf_iff_prefix.mp hwildcard
      cases hparse
      exact .wildcard name'
    · cases hparse
      rw [ isPrefixOf_iff_prefix] at hcomment hexception hwildcard
      exact .simple (fun hnil => hne (by rw [hnil]; rfl)) hcomment hexception hwildcard

theorem parseLine_takeWhile (line : JString) :
    parseLine (line.takeWhile fun c => !isSpace c) = parseLine line := by
  simp only [parseLine, takeWhile_takeWhile, Bool.decide_and, Bool.and_self, Bool.decide_eq_true]

theorem declares_iff :
    Declares toASCII line rule domain ↔
      ∃ name, parseLine line = some (rule, name) ∧ toASCII name = some domain := by
  constructor
  · rintro ⟨text, name, htext, hrule, hname⟩
    rw [isRule_iff htext.1, isText_iff.mp htext, parseLine_takeWhile] at hrule
    exact ⟨name, hrule, hname⟩
  · rintro ⟨name, hparse, hname⟩
    have htext : IsText line (line.takeWhile fun c => !isSpace c) := isText_iff.mpr rfl
    refine ⟨_, name, htext, ?_, hname⟩
    rw [isRule_iff htext.1, parseLine_takeWhile]
    exact hparse

theorem get_loadLine_of_declares (h : Declares toASCII line rule domain)
    (result : HashMap JString Rule) : (loadLine toASCII result line).get domain = some rule := by
  obtain ⟨name, hparse, hname⟩ := declares_iff.mp h
  simp only [loadLine, hparse, hname]
  rw [HashMap.get_put, if_pos rfl]

theorem get_loadLine_of_not (h : ∀ rule, ¬ Declares toASCII line rule domain)
    (result : HashMap JString Rule) :
    (loadLine toASCII result line).get domain = result.get domain := by
  rw [loadLine]
  split
  · rfl
  · rename_i rule name hparse
    split
    · rfl
    · rename_i domain' hname
      rw [HashMap.get_put, if_neg]
      rintro rfl
      exact h rule (declares_iff.mpr ⟨name, hparse, hname⟩)

theorem declares_inj {rule' : Rule} (h : Declares toASCII line rule domain)
    (h' : Declares toASCII line rule' domain) : rule = rule' := by
  obtain ⟨name, hparse, -⟩ := declares_iff.mp h
  obtain ⟨name', hparse', -⟩ := declares_iff.mp h'
  rw [hparse] at hparse'
  cases hparse'
  rfl

variable {lines : List JString}

theorem declared_concat_iff :
    Declared toASCII (lines ++ [line]) rule domain ↔
      Declared toASCII lines rule domain ∨ Declares toASCII line rule domain := by
  simp only [Declared, mem_append, mem_singleton]
  constructor
  · rintro ⟨line', hmem | rfl, h⟩
    · exact .inl ⟨line', hmem, h⟩
    · exact .inr h
  · rintro (⟨line', hmem, h⟩ | h)
    · exact ⟨line', .inl hmem, h⟩
    · exact ⟨line, .inr rfl, h⟩

theorem declaredLast_concat_iff :
    DeclaredLast toASCII (lines ++ [line]) rule domain ↔
      Declares toASCII line rule domain ∨
        (∀ rule', ¬ Declares toASCII line rule' domain) ∧
          DeclaredLast toASCII lines rule domain := by
  constructor
  · rintro ⟨before, line', after, heq, hline, hafter⟩
    rcases eq_nil_or_concat after with rfl | ⟨after, last, rfl⟩
    · obtain ⟨-, hlast⟩ := append_inj' heq rfl
      cases hlast
      exact .inl hline
    · rw [concat_eq_append, ← cons_append, ← append_assoc] at heq
      obtain ⟨hlines, hlast⟩ := append_inj' heq rfl
      cases hlast
      simp only [concat_eq_append, declared_concat_iff, not_or] at hafter
      exact .inr ⟨fun rule' => (hafter rule').2, before, line', after, hlines, hline,
        fun rule' => (hafter rule').1⟩
  · rintro (hline | ⟨hline, before, line', after, rfl, hline', hafter⟩)
    · exact ⟨lines, line, [], rfl, hline, by simp [Declared]⟩
    · refine ⟨before, line', after ++ [line], by simp, hline', ?_⟩
      intro rule'
      rw [declared_concat_iff, not_or]
      exact ⟨hafter rule', hline rule'⟩

/-- The map has the kind of the last rule for a name. -/
theorem get_loadRules_eq_some_iff :
    (loadRules toASCII lines).get domain = some rule ↔
      DeclaredLast toASCII lines rule domain := by
  induction lines using List.reverseRecOn with
  | nil =>
    refine iff_of_false ?_ ?_
    · rw [loadRules, foldl_nil, HashMap.get_empty]
      simp
    · rintro ⟨before, line, after, heq, -⟩
      simp at heq
  | append_singleton lines line ih =>
    rw [loadRules, foldl_append, foldl_cons, foldl_nil, ← loadRules, declaredLast_concat_iff]
    by_cases hline : ∃ rule', Declares toASCII line rule' domain
    · obtain ⟨rule', hrule'⟩ := hline
      rw [get_loadLine_of_declares hrule']
      constructor
      · rintro ⟨⟩
        exact .inl hrule'
      · rintro (h | ⟨h, -⟩)
        · rw [declares_inj h hrule']
        · exact absurd hrule' (h rule')
    · rw [not_exists] at hline
      rw [get_loadLine_of_not hline, ih, or_iff_right (hline rule)]
      exact (and_iff_right hline).symm

theorem DeclaredLast.declared (h : DeclaredLast toASCII lines rule domain) :
    Declared toASCII lines rule domain := by
  obtain ⟨before, line, after, rfl, hline, -⟩ := h
  exact ⟨line, by simp, hline⟩

theorem get_loadRules_eq_none_iff :
    (loadRules toASCII lines).get domain = none ↔ ∀ rule, ¬ Declared toASCII lines rule domain := by
  induction lines using List.reverseRecOn with
  | nil => exact iff_of_true rfl (by simp [Declared])
  | append_singleton lines line ih =>
    rw [loadRules, foldl_append, foldl_cons, foldl_nil, ← loadRules]
    simp only [declared_concat_iff, not_or]
    by_cases hline : ∃ rule', Declares toASCII line rule' domain
    · obtain ⟨rule', hrule'⟩ := hline
      rw [get_loadLine_of_declares hrule']
      refine iff_of_false (by simp) ?_
      intro h
      exact (h rule').2 hrule'
    · rw [not_exists] at hline
      rw [get_loadLine_of_not hline, ih]
      exact forall_congr' fun rule => (and_iff_left (hline rule)).symm

/-- The parent that `isPublicSuffix` looks up. -/
def lookedUp (domain : JString) : JString :=
  match domain.idxOf? dot with
  | some pos => domain.drop (pos + 1)
  | none => []

theorem idxOf?_label {label : JString} (h : dot ∉ label) (parent : JString) :
    (label ++ dot :: parent).idxOf? dot = some label.length := by
  rw [idxOf?_eq_some_iff]
  refine ⟨by simp, by simp, ?_⟩
  intro j hj
  rw [getElem_append_left hj]
  exact ne_of_mem_of_not_mem (getElem_mem hj) h

theorem isParent_iff {parent : JString} : IsParent domain parent ↔ parent = lookedUp domain := by
  rw [lookedUp]
  constructor
  · rintro (⟨h⟩ | ⟨h⟩)
    · rename_i label
      rw [idxOf?_label h]
      change parent = drop (label.length + 1) (label ++ dot :: parent)
      rw [append_cons, drop_left' (by simp)]
    · simp only [idxOf?_eq_none_iff.mpr h]
  · rintro rfl
    split
    · rename_i pos hpos
      obtain ⟨front, hsplit, hfront⟩ := CookieStore.exists_of_idxOf?_eq_some hpos
      conv_lhs => rw [hsplit]
      exact .label hfront
    · rename_i hnone
      exact .root (idxOf?_eq_none_iff.mp hnone)

theorem isPublicSuffix_eq (rules : JString → Option Rule) (domain : JString) :
    isPublicSuffix rules domain =
      if domain.length = 0 then false
      else
        match rules domain with
        | some .exceptionRule => false
        | some .simpleRule | some .wildcardRule => true
        | none => rules (lookedUp domain) = some .wildcardRule := rfl

theorem isPublicSuffix_iff (hne : domain ≠ []) :
    isPublicSuffix (loadRules toASCII lines).get domain = true ↔
      DeclaredLast toASCII lines .simpleRule domain ∨
        DeclaredLast toASCII lines .wildcardRule domain ∨
        (∀ rule, ¬ Declared toASCII lines rule domain) ∧
          ∃ parent, IsParent domain parent ∧ DeclaredLast toASCII lines .wildcardRule parent := by
  simp only [← get_loadRules_eq_some_iff, ← get_loadRules_eq_none_iff, isParent_iff,
    exists_eq_left]
  rw [isPublicSuffix_eq, if_neg (by simpa using hne)]
  cases (loadRules toASCII lines).get domain with
  | none => simp
  | some rule => cases rule <;> simp

/-- A domain has no rules, or the last of them is of one kind. -/
theorem declared_cases (toASCII : JString → Option JString) (lines : List JString)
    (domain : JString) :
    (∀ rule, ¬ Declared toASCII lines rule domain) ∨
      ∃ rule, DeclaredLast toASCII lines rule domain ∧
        ∀ rule', DeclaredLast toASCII lines rule' domain → rule' = rule := by
  cases hget : (loadRules toASCII lines).get domain with
  | none => exact .inl (get_loadRules_eq_none_iff.mp hget)
  | some rule =>
    refine .inr ⟨rule, get_loadRules_eq_some_iff.mp hget, ?_⟩
    intro rule' hlast
    rw [← get_loadRules_eq_some_iff, hget] at hlast
    cases hlast
    rfl

/-- The lookup follows the rules exactly when none of them is replaced by another kind. -/
theorem isPublicSuffix_follows_iff (toASCII : JString → Option JString) (lines : List JString)
    (domain : JString) (hne : domain ≠ []) :
    (isPublicSuffix (loadRules toASCII lines).get domain = true ↔
        IsSuffix toASCII lines domain) ↔
      NotReplaced toASCII lines domain := by
  rw [isPublicSuffix_iff hne, IsSuffix, NotReplaced]
  rcases declared_cases toASCII lines domain with hnone | ⟨rule, hlast, honly⟩
  · -- only the parent can have a rule that counts
    have hnot : ∀ rule, ¬ DeclaredLast toASCII lines rule domain :=
      fun rule hlast => hnone rule hlast.declared
    simp only [hnone, hnot, not_false_eq_true, false_or, true_and, false_imp_iff, implies_true,
      forall_const, isParent_iff, exists_eq_left, forall_eq]
    exact ⟨fun h => h.mpr, fun h => ⟨DeclaredLast.declared, h⟩⟩
  · have hsome : ¬ ∀ rule, ¬ Declared toASCII lines rule domain :=
      fun hnone => hnone rule hlast.declared
    simp only [hsome, false_and, or_false, false_imp_iff, and_true]
    cases rule with
    | exceptionRule =>
      refine iff_of_true (iff_of_false ?_ ?_) fun _ => hlast
      · rintro (h | h) <;> cases honly _ h
      · exact fun h => h.1 hlast.declared
    | simpleRule =>
      have hexception : ¬ DeclaredLast toASCII lines .exceptionRule domain := by
        intro h
        cases honly _ h
      simp only [hlast, hlast.declared, hexception, true_or, true_iff, and_true]
    | wildcardRule =>
      have hexception : ¬ DeclaredLast toASCII lines .exceptionRule domain := by
        intro h
        cases honly _ h
      simp only [hlast, hlast.declared, hexception, true_or, or_true, true_iff, and_true]

instance (line : JString) (rule : Rule) (domain : JString) :
    Decidable (Declares toASCII line rule domain) :=
  decidable_of_iff ((parseLine line).bind (fun p => (toASCII p.2).map (p.1, ·)) =
      some (rule, domain)) (by
    rw [declares_iff, Option.bind_eq_some_iff]
    simp)

instance (lines : List JString) (rule : Rule) (domain : JString) :
    Decidable (Declared toASCII lines rule domain) :=
  inferInstanceAs (Decidable (∃ line ∈ lines, _))

instance (lines : List JString) (rule : Rule) (domain : JString) :
    Decidable (DeclaredLast toASCII lines rule domain) :=
  decidable_of_iff _ get_loadRules_eq_some_iff

instance (lines : List JString) (domain : JString) : Decidable (IsSuffix toASCII lines domain) :=
  decidable_of_iff (¬ Declared toASCII lines .exceptionRule domain ∧
      (Declared toASCII lines .simpleRule domain ∨ Declared toASCII lines .wildcardRule domain ∨
        Declared toASCII lines .wildcardRule (lookedUp domain))) (by
    simp only [IsSuffix, isParent_iff, exists_eq_left])

end

/-- The exception of the test, below a wildcard and with a comment and a blank line. -/
theorem isPublicSuffix_follows_metro :
    (isPublicSuffix (loadRules some [str "// jp", str "", str "jp", str "*.tokyo.jp  2012",
          str "!metro.tokyo.jp"]).get (str "metro.tokyo.jp") = true ↔
        IsSuffix some [str "// jp", str "", str "jp", str "*.tokyo.jp  2012",
          str "!metro.tokyo.jp"] (str "metro.tokyo.jp")) := by
  refine (isPublicSuffix_follows_iff some _ _ (by decide)).mpr ⟨fun _ => by decide, ?_⟩
  intro hnone
  exact absurd (by decide) (hnone .exceptionRule)

/-- The simple rule replaces the wildcard rule for the same name, unless it comes first. -/
theorem wildcard_replaced :
    isPublicSuffix (loadRules some [str "*.ck", str "ck"]).get (str "www.ck") = false ∧
      isPublicSuffix (loadRules some [str "ck", str "*.ck"]).get (str "www.ck") = true ∧
      IsSuffix some [str "*.ck", str "ck"] (str "www.ck") ∧
      ¬ (isPublicSuffix (loadRules some [str "*.ck", str "ck"]).get (str "www.ck") = true ↔
        IsSuffix some [str "*.ck", str "ck"] (str "www.ck")) := by
  decide

end OpenJfx.Network.PublicSuffixes
