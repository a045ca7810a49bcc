import Mathlib.Data.List.Induction

namespace OpenJfx.Data.DoublyLinked

open List

variable {α : Type}

/-- Each element has the element after it and the one before it. -/
def Linked (next prev : α → Option α) : Option α → List α → Option α → Prop
  | _, [], _ => True
  | before, x :: l, after =>
    prev x = before ∧ next x = l.head?.or after ∧ Linked next prev (some x) l after

variable {next prev next' prev' : α → Option α} {before after : Option α} {l l' pre post : List α}
  {x : α}

theorem linked_append : Linked next prev before (l ++ l') after ↔
    Linked next prev before l (l'.head?.or after) ∧
      Linked next prev (l.getLast?.or before) l' after := by
  induction l generalizing before with
  | nil => exact ⟨fun h => ⟨trivial, h⟩, And.right⟩
  | cons x l ih =>
    have hlast : (x :: l).getLast?.or before = l.getLast?.or (some x) := by
      rw [getLast?_cons]
      cases l.getLast? <;> rfl
    rw [cons_append, Linked, ih, hlast, head?_append, Option.or_assoc]
    exact ⟨fun ⟨h, h', h'', h'''⟩ => ⟨⟨h, h', h''⟩, h'''⟩,
      fun ⟨⟨h, h', h''⟩, h'''⟩ => ⟨h, h', h'', h'''⟩⟩

theorem Linked.congr (h : Linked next prev before l after) (hnext : ∀ y ∈ l, next' y = next y)
    (hprev : ∀ y ∈ l, prev' y = prev y) : Linked next' prev' before l after := by
  induction l generalizing before with
  | nil => trivial
  | cons x l ih =>
    obtain ⟨hp, hn, hl⟩ := h
    refine ⟨(hprev x (by simp)).trans hp, (hnext x (by simp)).trans hn, ?_⟩
    exact ih hl (fun y hy => hnext y (mem_cons_of_mem x hy))
      fun y hy => hprev y (mem_cons_of_mem x hy)

theorem Linked.next_eq (h : Linked next prev before (pre ++ x :: post) after) :
    next x = post.head?.or after := (linked_append.mp h).2.2.1

theorem Linked.prev_eq (h : Linked next prev before (pre ++ x :: post) after) :
    prev x = pre.getLast?.or before := (linked_append.mp h).2.1

section Update

variable [DecidableEq α]

def setAt (f : α → Option α) : Option α → Option α → α → Option α
  | none, _ => f
  | some x, v => Function.update f x v

theorem setAt_of_ne {f : α → Option α} {o v : Option α} {y : α} (h : o ≠ some y) :
    setAt f o v y = f y := by
  cases o with
  | none => rfl
  | some x => exact Function.update_of_ne (fun heq => h (congrArg some heq.symm)) _ _

theorem setAt_self {f : α → Option α} {v : Option α} : setAt f (some x) v x = v :=
  Function.update_self _ _ _

theorem Linked.setAt_last (h : Linked next prev before l after) (hnd : l.Nodup) :
    Linked (setAt next l.getLast? after') prev before l after' := by
  cases l using List.reverseRecOn with
  | nil => trivial
  | append_singleton l x =>
    obtain ⟨hl, hp, -, -⟩ := linked_append.mp h
    have hx : x ∉ l := fun hx => (nodup_append.mp hnd).2.2 x hx x (by simp) rfl
    rw [getLast?_concat]
    refine linked_append.mpr
      ⟨hl.congr (fun y hy => setAt_of_ne ?_) fun _ _ => rfl, hp, ?_, trivial⟩
    · rintro ⟨⟩
      exact hx hy
    · exact setAt_self

theorem Linked.setAt_first (h : Linked next prev before l after) (hnd : l.Nodup) :
    Linked next (setAt prev l.head? before') before' l after := by
  cases l with
  | nil => trivial
  | cons x l =>
    obtain ⟨-, hn, hl⟩ := h
    have hx : x ∉ l := (nodup_cons.mp hnd).1
    refine ⟨setAt_self, hn, hl.congr (fun _ _ => rfl) fun y hy => setAt_of_ne ?_⟩
    rintro ⟨⟩
    exact hx hy

theorem Linked.unlink (h : Linked next prev none (pre ++ x :: post) none)
    (hnd : (pre ++ x :: post).Nodup) :
    Linked (setAt next pre.getLast? post.head?) (setAt prev post.head? pre.getLast?) none
      (pre ++ post) none := by
  obtain ⟨hpre, -, -, hpost⟩ := linked_append.mp h
  obtain ⟨hnd₁, hnd₂, hapart⟩ := nodup_append.mp hnd
  have hpost' : ∀ y ∈ post, pre.getLast? ≠ some y := fun y hy hlast =>
    hapart y (mem_of_getLast? hlast) y (mem_cons_of_mem x hy) rfl
  have hpre' : ∀ y ∈ pre, post.head? ≠ some y := fun y hy hhead =>
    hapart y hy y (mem_cons_of_mem x (mem_of_head? hhead)) rfl
  refine linked_append.mpr ⟨?_, ?_⟩
  · rw [Option.or_none]
    exact (hpre.setAt_last hnd₁).congr (fun _ _ => rfl) fun y hy => setAt_of_ne (hpre' y hy)
  · rw [Option.or_none]
    exact (hpost.setAt_first (nodup_cons.mp hnd₂).2).congr
      (fun y hy => setAt_of_ne (hpost' y hy)) fun _ _ => rfl

theorem Linked.link_last (h : Linked next prev none l none) (hnd : l.Nodup) (hx : x ∉ l) :
    Linked (Function.update (setAt next l.getLast? (some x)) x none)
      (Function.update prev x l.getLast?) none (l ++ [x]) none := by
  have hne : ∀ y ∈ l, y ≠ x := fun y hy heq => hx (heq ▸ hy)
  refine linked_append.mpr ⟨?_, ?_⟩
  · exact (h.setAt_last hnd).congr (fun y hy => Function.update_of_ne (hne y hy) _ _)
      fun y hy => Function.update_of_ne (hne y hy) _ _
  · refine ⟨?_, Function.update_self _ _ _, trivial⟩
    rw [Function.update_self, Option.or_none]

end Update

end OpenJfx.Data.DoublyLinked
