import OpenJfx.Fxml.ExpressionValueOf

namespace OpenJfx.Fxml

open Data.Postfix List

section

variable {δ : Type} (platform : Platform δ)

/-- A turn of the loop of `toString`. There is no `charAt(0)` in the empty element. -/
def printKey (i : Nat) : List Nat → Option (List Nat)
  | [] => none
  | c :: element =>
    if platform.isDigit c then some (unit '[' :: (c :: element ++ [unit ']']))
    else if 0 < i then some (unit '.' :: c :: element)
    else some (c :: element)

def printKeys : Nat → KeyPath → Option (List Nat)
  | _, [] => some []
  | i, element :: elements => do
    let text ← printKey platform i element
    let rest ← printKeys (i + 1) elements
    pure (text ++ rest)

def printKeyPath (path : KeyPath) : Option (List Nat) := printKeys platform 0 path

def IsIndex (key : List Nat) : Prop := key ≠ [] ∧ ∀ c ∈ key, platform.isDigit c = true

section

variable {platform}

variable {key : List Nat}

theorem IsName.printKey (h : IsName platform key) (i : Nat) :
    printKey platform i key = some (if 0 < i then unit '.' :: key else key) := by
  rcases h with ⟨⟨c, key, rfl, hstart⟩, -⟩
  have hdigit : ¬ platform.isDigit c = true := by
    intro hdigit
    rw [platform.digit_not_start c hdigit] at hstart
    exact nomatch hstart
  rw [Fxml.printKey]
  split_ifs <;> rfl

theorem IsIndex.printKey (h : IsIndex platform key) (i : Nat) :
    printKey platform i key = some (unit '[' :: (key ++ [unit ']'])) := by
  rcases h with ⟨hne, hdigit⟩
  rcases exists_cons_of_ne_nil hne with ⟨c, key, rfl⟩
  exact if_pos (hdigit c mem_cons_self)

variable {keys : KeyPath}

theorem printKeys_spells (hkeys : ∀ key ∈ keys, IsName platform key ∨ IsIndex platform key) :
    ∀ i : Nat,
      ∃ text, printKeys platform (i + 1) keys = some text ∧ SpellsKeys platform keys text := by
  induction keys with
  | nil => exact fun _ => ⟨[], rfl, .nil⟩
  | cons key keys ih =>
    intro i
    rcases ih (fun key hkey => hkeys key (mem_cons_of_mem _ hkey)) (i + 1) with
      ⟨text, hprint, hspells⟩
    rcases hkeys key mem_cons_self with hname | hidx
    · refine ⟨unit '.' :: (key ++ text), ?_, .name hname hspells⟩
      rw [printKeys, hname.printKey, hprint]
      rfl
    · refine ⟨unit '[' :: (key ++ [unit ']']) ++ text, ?_,
        .bracketed (.index hidx.1 hidx.2) hspells⟩
      rw [printKeys, hidx.printKey, hprint]
      rfl

theorem printKeyPath_spells (hkeys : ∀ k ∈ key :: keys, IsName platform k ∨ IsIndex platform k) :
    ∃ spelling text, printKeyPath platform (key :: keys) = some (spelling ++ text) ∧
      SpellsKey platform key spelling ∧ SpellsKeys platform keys text ∧
      (IsName platform key → spelling = key) := by
  rcases printKeys_spells (fun k hk => hkeys k (mem_cons_of_mem _ hk)) 0 with
    ⟨text, hprint, hspells⟩
  have hpath : ∀ spelling, printKey platform 0 key = some spelling →
      printKeyPath platform (key :: keys) = some (spelling ++ text) := by
    intro spelling hspelling
    rw [printKeyPath, printKeys, hspelling, hprint]
    rfl
  rcases hkeys key mem_cons_self with hname | hidx
  · exact ⟨key, text, hpath key (hname.printKey 0), .inl ⟨hname, rfl⟩, hspells, fun _ => rfl⟩
  · refine ⟨_, text, hpath _ (hidx.printKey 0), .inr (.index hidx.1 hidx.2), hspells, ?_⟩
    rintro ⟨⟨c, key, rfl, hstart⟩, -⟩
    rw [platform.digit_not_start c (hidx.2 c mem_cons_self)] at hstart
    exact nomatch hstart

theorem valueOf_variable {text : List Nat} (hname : IsName platform key)
    (hkeys : SpellsKeys platform keys text) (hnot : NotKeyword (key ++ text) []) :
    valueOf platform (key ++ text) = .ok (.atom (.variable (key :: keys))) := by
  let piece : Piece platform :=
    { blank := []
      token := .part (.atom (.variable (key :: keys)))
      spelling := key ++ text
      isBlank := forall_mem_nil _
      isSpelled := .variable hname hkeys }
  have htext : textOf [] [piece] = key ++ text := append_nil _
  have hval : valueOf platform (textOf [] [piece]) = _ ↔ _ :=
    valueOf_textOf_iff (.atom (.variable (key :: keys))) [piece] rfl (forall_mem_nil _)
      ⟨fun _ _ => hnot, trivial⟩
  rw [htext] at hval
  exact hval.mpr trivial

/-- A path whose keys are names and numbers is read back from what it prints, and as a variable
if it starts with a name and is not taken for a keyword. -/
theorem readKeyPath_printKeyPath {source rest : List Nat} {path : KeyPath}
    (hread : readKeyPath platform source = .ok (path, rest))
    (hkeys : ∀ key ∈ path, IsName platform key ∨ IsIndex platform key) :
    ∃ printed, printKeyPath platform path = some printed ∧
      readKeyPath platform printed = .ok (path, []) ∧
      ((∀ key ∈ path.head?, IsName platform key) → NotKeyword printed [] →
        valueOf platform printed = .ok (.atom (.variable path))) := by
  have hne : path ≠ [] := by
    rintro rfl
    rw [readKeyPath] at hread
    cases hloop : readKeys platform source.length source with
    | error failure =>
      rw [hloop] at hread
      cases hread
    | ok result =>
      rw [hloop] at hread
      change (if result.1 = [] then _ else Except.ok (result.1, result.2)) = _ at hread
      split_ifs at hread with hempty
      injection hread with heq
      exact hempty (congrArg Prod.fst heq)
  rcases exists_cons_of_ne_nil hne with ⟨key, keys, rfl⟩
  rcases printKeyPath_spells hkeys with ⟨spelling, text, hprint, hkey, hspells, hname⟩
  refine ⟨spelling ++ text, hprint, ?_, ?_⟩
  · have hpath : readKeyPath platform (spelling ++ text ++ []) = _ :=
      readKeyPath_append hkey hspells (by simp [EndsWord])
    rwa [append_nil] at hpath
  · intro hfirst hnot
    have hkeyName := hfirst key rfl
    rw [hname hkeyName] at hnot ⊢
    exact valueOf_variable hkeyName hspells hnot

def listPath : KeyPath := [[unit 'a'], [unit '0'], [unit 'b']]

theorem valueOf_printed_index :
    printKeyPath ascii listPath = some ("a[0].b".toList.map unit) ∧
      valueOf ascii ("a[0].b".toList.map unit) = .ok (.atom (.variable listPath)) := by
  have hread : readKeyPath ascii ("a['0'].b".toList.map unit) = .ok (listPath, []) := by decide
  have hprint : printKeyPath ascii listPath = some ("a[0].b".toList.map unit) := by decide
  rcases readKeyPath_printKeyPath hread (by
    intro key hkey
    simp only [listPath, mem_cons, not_mem_nil, or_false] at hkey
    rcases hkey with rfl | rfl | rfl
    · exact .inl (isName_letter 'a' (by decide))
    · exact .inr ⟨cons_ne_nil _ _, by decide⟩
    · exact .inl (isName_letter 'b' (by decide))) with ⟨printed, hprinted, -, hvalue⟩
  obtain rfl := Option.some.inj (hprint.symm.trans hprinted)
  refine ⟨hprint, hvalue ?_ ?_⟩
  · rintro key hkey
    obtain rfl := Option.some.inj hkey
    exact isName_letter 'a' (by decide)
  · unfold NotKeyword
    decide

/-- The path that is read from `null` is printed as `null`, which is a literal. -/
theorem valueOf_printed_null :
    readKeyPath ascii nullKeyword = .ok ([nullKeyword], []) ∧
      printKeyPath ascii [nullKeyword] = some nullKeyword ∧
      valueOf ascii nullKeyword = .ok (.atom (.literal .null)) ∧
      valueOf ascii nullKeyword ≠ .ok (.atom (.variable [nullKeyword])) := by
  decide

/-- A quoted key is printed without its quotes, which then spells two keys. -/
example :
    readKeyPath ascii ("[\"a.b\"]".toList.map unit) = .ok (["a.b".toList.map unit], []) ∧
      printKeyPath ascii ["a.b".toList.map unit] = some ("a.b".toList.map unit) ∧
      readKeyPath ascii ("a.b".toList.map unit) = .ok ([[unit 'a'], [unit 'b']], []) := by
  decide

end

end

end OpenJfx.Fxml
