import Mathlib.Logic.Function.Basic

namespace OpenJfx.Data.UndoHistory

variable {S E : Type}

/-- The changes, with the last one first, lead from the origin to a state. -/
inductive Past (Step : E → S → S → Prop) (origin : S) : List E → S → Prop
  | nil : Past Step origin [] origin
  | cons {e : E} {es : List E} {s t : S} (h : Past Step origin es s) (hstep : Step e s t) :
      Past Step origin (e :: es) t

/-- The changes can be made from a state, one after the other. -/
inductive Future (Step : E → S → S → Prop) : List E → S → Prop
  | nil {s : S} : Future Step [] s
  | cons {e : E} {es : List E} {s t : S} (hstep : Step e s t) (h : Future Step es t) :
      Future Step (e :: es) s

/-- The changes before the present state lead to it from the origin, those after it can be made. -/
structure History (Step : E → S → S → Prop) (origin : S) (past future : List E) (s : S) :
    Prop where
  past : Past Step origin past s
  future : Future Step future s

variable {Step : E → S → S → Prop} {origin s t : S} {past future : List E} {e : E}

theorem History.start : History Step origin [] [] origin := ⟨.nil, .nil⟩

theorem History.eq_origin (h : History Step origin [] future s) : s = origin := by
  cases h.past
  rfl

theorem History.add (h : History Step origin past future s) (hstep : Step e s t) :
    History Step origin (e :: past) [] t :=
  ⟨.cons h.past hstep, .nil⟩

theorem History.amend (h : History Step origin (e :: past) future s) {e' : E}
    (hstep : ∀ r, Step e r s → Step e' r t) : History Step origin (e' :: past) [] t := by
  cases h.past with
  | cons hpast hlast => exact ⟨.cons hpast (hstep _ hlast), .nil⟩

theorem History.undo (h : History Step origin (e :: past) future t) :
    ∃ s, Step e s t ∧ History Step origin past (e :: future) s := by
  cases h.past with
  | cons hpast hlast => exact ⟨_, hlast, hpast, .cons hlast h.future⟩

theorem History.redo (h : History Step origin past (e :: future) s) :
    ∃ t, Step e s t ∧ History Step origin (e :: past) future t := by
  cases h.future with
  | cons hnext hfuture => exact ⟨_, hnext, .cons h.past hnext, hfuture⟩

end OpenJfx.Data.UndoHistory
