import Mathlib.Data.List.Basic

/-!
Texts as lists of lines. The lines before a place of the text are followed by
the separator, those after it are preceded by it.
-/

namespace OpenJfx.Data.Lines

open List

variable {α : Type} (sep : α)

def closed (lines : List (List α)) : List α := lines.flatMap fun line => line ++ [sep]

def opened (lines : List (List α)) : List α := lines.flatMap fun line => sep :: line

@[simp] theorem closed_nil : closed sep [] = [] := rfl

@[simp] theorem closed_cons (line : List α) (lines : List (List α)) :
    closed sep (line :: lines) = line ++ sep :: closed sep lines := by
  simp [closed]

@[simp] theorem closed_append (front back : List (List α)) :
    closed sep (front ++ back) = closed sep front ++ closed sep back := by
  simp [closed]

@[simp] theorem opened_nil : opened sep [] = [] := rfl

@[simp] theorem opened_cons (line : List α) (lines : List (List α)) :
    opened sep (line :: lines) = sep :: line ++ opened sep lines := by
  simp [opened]

@[simp] theorem opened_append (front back : List (List α)) :
    opened sep (front ++ back) = opened sep front ++ opened sep back := by
  simp [opened]

theorem intercalate_cons (line : List α) (lines : List (List α)) :
    [sep].intercalate (line :: lines) = line ++ opened sep lines := by
  induction lines generalizing line with
  | nil => simp
  | cons next lines ih =>
    rw [intercalate_cons_cons, ih]
    simp

theorem opened_eq (lines : List (List α)) (hne : lines ≠ []) :
    opened sep lines = sep :: [sep].intercalate lines := by
  cases lines with
  | nil => exact absurd rfl hne
  | cons line lines => rw [intercalate_cons, opened_cons, cons_append]

/-- The text around one of its lines. -/
theorem intercalate_append_cons (front back : List (List α)) (line : List α) :
    [sep].intercalate (front ++ line :: back) = closed sep front ++ line ++ opened sep back := by
  induction front with
  | nil => simp [intercalate_cons]
  | cons first front ih =>
    rw [cons_append, intercalate_cons_of_ne_nil (by simp), ih]
    simp

theorem closed_eq (lines : List (List α)) (hne : lines ≠ []) :
    closed sep lines = [sep].intercalate lines ++ [sep] := by
  rcases eq_nil_or_concat lines with hnil | ⟨front, line, rfl⟩
  · exact absurd hnil hne
  · rw [concat_eq_append, closed_append, intercalate_append_cons]
    simp

theorem intercalate_replace (front lines back : List (List α)) (hne : lines ≠ []) :
    [sep].intercalate (front ++ lines ++ back) =
      closed sep front ++ [sep].intercalate lines ++ opened sep back := by
  cases lines with
  | nil => exact absurd rfl hne
  | cons line rest =>
    rw [append_assoc, cons_append, intercalate_append_cons, intercalate_cons]
    simp

/-- The step of a loop that splits a text: the complete lines and the one that is read. -/
def splitStep [DecidableEq α] (state : List (List α) × List α) (c : α) : List (List α) × List α :=
  if c = sep then (state.1 ++ [state.2], []) else (state.1, state.2 ++ [c])

theorem splitStep_foldl [DecidableEq α] (text : List α) :
    ∀ state, closed sep (text.foldl (splitStep sep) state).1 ++
        (text.foldl (splitStep sep) state).2 = closed sep state.1 ++ state.2 ++ text := by
  induction text with
  | nil => simp
  | cons c text ih =>
    intro state
    rw [foldl_cons, ih]
    by_cases hc : c = sep
    · simp [splitStep, hc]
    · simp [splitStep, hc]

theorem splitStep_not_mem [DecidableEq α] (text : List α) :
    ∀ state : List (List α) × List α, (∀ line ∈ state.1, sep ∉ line) → sep ∉ state.2 →
      (∀ line ∈ (text.foldl (splitStep sep) state).1, sep ∉ line) ∧
        sep ∉ (text.foldl (splitStep sep) state).2 := by
  induction text with
  | nil => exact fun _ hlines hline => ⟨hlines, hline⟩
  | cons c text ih =>
    intro state hlines hline
    apply ih
    · intro line hmem
      rw [splitStep] at hmem
      split_ifs at hmem with hc
      · rcases mem_append.mp hmem with hmem | hmem
        · exact hlines line hmem
        · rw [mem_singleton.mp hmem]
          exact hline
      · exact hlines line hmem
    · rw [splitStep]
      split_ifs with hc
      · simp
      · simp [hline, Ne.symm hc]

end OpenJfx.Data.Lines
