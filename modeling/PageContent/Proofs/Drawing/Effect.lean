/-
# What an operator changes

The parts of a canvas change for reasons of their own, and each is followed here
by itself, once for an operator and once for a run:

| part | changed by | |
| --- | --- | --- |
| the pen and the saved pens | save, restore, what sets the pen | `pens_draw` |
| text mode | begin and end of text | `inText_draw` |
| the path | steps, batches, what paints or drops it | `PathInvariant` |

Neither the options nor the path nor text mode has a say in what becomes of the
pens: they are a function of the operators alone (`pens_drawAll`).  The path
depends on all the rest, but only ever grows by a step or is dropped; what holds
of the empty path and survives every step holds of all paths that a run builds
and of all that it paints (`PathInvariant.drawAll`, `PathInvariant.paintings`).
-/

import PageContent.Proofs.Drawing.Painting

namespace PageContent

/-! ## Pens -/

/-- The pen after an operator, as far as nothing is saved or restored. -/
def Pen.after (pen : Pen) : Operator → Pen
  | .transform m => pen.transform m
  | .lineWidth w => { pen with lineWidth := w }
  | .opacity change => pen.setOpacity change
  | .color target components => pen.setColor target components
  | _ => pen

/-- The pen and the pens saved, the latest first. -/
structure Pens where
  pen : Pen
  saved : List Pen
deriving DecidableEq, Repr

namespace Pens

/-- The pens after an operator. -/
def after (p : Pens) : Operator → Pens
  | .save => { p with saved := p.pen :: p.saved }
  | .restore => match p.saved with
    | [] => p
    | pen :: saved => { pen, saved }
  | op => { p with pen := p.pen.after op }

/-- The pens after an operator of the list; a malformed one leaves them alone. -/
def afterRaw (p : Pens) (raw : RawOperator) : Pens :=
  match Operator.decode raw with
  | .ok op => p.after op
  | .error _ => p

theorem after_of_buildsPath (p : Pens) {op : Operator} (h : op.buildsPath = true) :
    p.after op = p := by
  cases op with
  | step s => rfl
  | batch paint numbers => rfl
  | _ => exact absurd h Bool.false_ne_true

end Pens

namespace GraphicsState

variable (s : GraphicsState)

theorem path_restore : s.restore.path = s.path := by
  obtain ⟨pen, path, inText, _ | ⟨q, saved⟩⟩ := s <;> rfl

theorem inText_restore : s.restore.inText = s.inText := by
  obtain ⟨pen, path, inText, _ | ⟨q, saved⟩⟩ := s <;> rfl

end GraphicsState

namespace Canvas

variable (o : DrawingOptions) (c : Canvas)

/-- The pens of a canvas. -/
def pens : Pens := { pen := c.state.pen, saved := c.state.saved }

theorem state_addStep (step : PathStep) :
    (addStep o c step).state =
      { c.state with path := Path.add (place o c.state.pen) c.state.path step } := by
  rw [addStep_eq]

theorem state_foldl_addStep (steps : List PathStep) :
    (steps.foldl (addStep o) c).state =
      { c.state with path := steps.foldl (Path.add (place o c.state.pen)) c.state.path } := by
  induction steps generalizing c with
  | nil => rfl
  | cons step steps ih => rw [List.foldl_cons, ih, state_addStep]; rfl

theorem pens_addStep (step : PathStep) : (addStep o c step).pens = c.pens := by
  rw [pens, pens, state_addStep]

theorem pens_foldl_addStep (steps : List PathStep) :
    (steps.foldl (addStep o) c).pens = c.pens := by
  rw [pens, pens, state_foldl_addStep]

/-- **What an operator does to the pens is up to the operator.** -/
theorem pens_draw (op : Operator) (index : UInt64) :
    (draw o c op index).pens = c.pens.after op := by
  unfold draw
  split
  · rename_i hskipped
    exact (Pens.after_of_buildsPath c.pens ((Bool.and_eq_true _ _).mp hskipped).2).symm
  · cases op with
    | restore => obtain ⟨⟨pen, path, inText, _ | ⟨q, saved⟩⟩, shapes, images, tally⟩ := c <;> rfl
    | step s => exact pens_addStep o c s
    | batch p numbers =>
      cases p with
      | some p => exact pens_foldl_addStep o c _
      | none => exact pens_foldl_addStep o c _
    | _ => rfl

theorem pens_drawRaw (raw : RawOperator) : (drawRaw o c raw).pens = c.pens.afterRaw raw := by
  unfold drawRaw Pens.afterRaw
  cases Operator.decode raw with
  | ok op => exact pens_draw o c op raw.index
  | error e => rfl

/-- **The pens of a run are a function of its operators.** -/
theorem pens_drawAll (raws : List RawOperator) :
    (drawAll o c raws).pens = raws.foldl Pens.afterRaw c.pens := by
  induction raws generalizing c with
  | nil => rfl
  | cons raw raws ih =>
    rw [List.foldl_cons, ← pens_drawRaw o]
    exact ih (drawRaw o c raw)

end Canvas

/-! ## Text mode -/

/-- Whether an operator is followed by text mode. -/
def Operator.inTextAfter (inText : Bool) : Operator → Bool
  | .beginText => true
  | .endText => false
  | _ => inText

namespace Canvas

variable (o : DrawingOptions) (c : Canvas)

theorem inText_draw (op : Operator) (index : UInt64) :
    (draw o c op index).state.inText = op.inTextAfter c.state.inText := by
  unfold draw
  split
  · rename_i hskipped
    have hbuilds : op.buildsPath = true := ((Bool.and_eq_true _ _).mp hskipped).2
    cases op with
    | step s => rfl
    | batch p numbers => rfl
    | _ => exact absurd hbuilds Bool.false_ne_true
  · cases op with
    | restore => exact GraphicsState.inText_restore c.state
    | step s => exact inText_addStep o c s
    | batch p numbers =>
      have hsteps : ((Batch.steps numbers).foldl (addStep o) c).state.inText = c.state.inText := by
        rw [state_foldl_addStep]
      cases p with
      | some p => exact hsteps
      | none => exact hsteps
    | _ => rfl

end Canvas

/-! ## Paths -/

/-- A property of paths that the empty path has and that no step takes away. -/
structure PathInvariant (o : DrawingOptions) (P : List Segment → Prop) : Prop where
  nil : P []
  add : ∀ pen path step, P path → P (Path.add (Canvas.place o pen) path step)

namespace PathInvariant

open Canvas

variable {o : DrawingOptions} {P : List Segment → Prop} {c : Canvas}

theorem foldl_add (h : PathInvariant o P) (pen : Pen) (steps : List PathStep) {path : List Segment}
    (hpath : P path) : P (steps.foldl (Path.add (place o pen)) path) := by
  induction steps generalizing path with
  | nil => exact hpath
  | cons step steps ih => exact ih (h.add pen path step hpath)

theorem foldl_addStep (h : PathInvariant o P) (hc : P c.state.path) (steps : List PathStep) :
    P (steps.foldl (addStep o) c).state.path := by
  rw [state_foldl_addStep]
  exact h.foldl_add c.state.pen steps hc

/-- An operator keeps what steps keep. -/
theorem draw (h : PathInvariant o P) (hc : P c.state.path) (op : Operator) (index : UInt64) :
    P (draw o c op index).state.path := by
  unfold Canvas.draw
  split
  · exact hc
  · cases op with
    | restore => exact (GraphicsState.path_restore c.state).symm ▸ hc
    | step s =>
      show P (addStep o c s).state.path
      rw [state_addStep]
      exact h.add c.state.pen c.state.path s hc
    | batch p numbers =>
      cases p with
      | some p => exact h.nil
      | none => exact h.nil
    | beginText => exact h.nil
    | endText => exact h.nil
    | paint p => exact h.nil
    | clip rule => exact h.nil
    | endPath => exact h.nil
    | _ => exact hc

theorem drawRaw (h : PathInvariant o P) (hc : P c.state.path) (raw : RawOperator) :
    P (drawRaw o c raw).state.path := by
  unfold Canvas.drawRaw
  split
  · exact h.draw hc _ raw.index
  · exact hc

/-- **What steps keep holds of the path after every run.** -/
theorem drawAll (h : PathInvariant o P) (hc : P c.state.path) (raws : List RawOperator) :
    P (drawAll o c raws).state.path := by
  induction raws generalizing c with
  | nil => exact hc
  | cons raw raws ih => exact ih (h.drawRaw hc raw)

theorem paintingOf (h : PathInvariant o P) (hc : P c.state.path) (p : Paint) (index : UInt64) :
    P (paintingOf c p index).path := by
  unfold Canvas.paintingOf
  dsimp only
  split
  · exact h.add c.state.pen c.state.path .close hc
  · exact hc

theorem painting? (h : PathInvariant o P) (hc : P c.state.path) {op : Operator} {index : UInt64}
    {q : Painting} (hq : painting? o c op index = some q) : P q.path := by
  unfold Canvas.painting? at hq
  split at hq
  · exact absurd hq (Option.some_ne_none q).symm
  · cases op with
    | paint p =>
      obtain rfl := Option.some.inj hq
      exact h.paintingOf hc p index
    | batch p numbers =>
      cases p with
      | none => exact absurd hq (Option.some_ne_none q).symm
      | some p =>
        obtain rfl := Option.some.inj hq
        exact h.paintingOf (h.foldl_addStep hc (Batch.steps numbers)) p index
    | _ => exact absurd hq (Option.some_ne_none q).symm

/-- **What steps keep holds of every path that a run paints.** -/
theorem paintings (h : PathInvariant o P) (hc : P c.state.path) {raws : List RawOperator}
    {q : Painting} (hq : q ∈ paintings o c raws) : P q.path := by
  induction raws generalizing c with
  | nil => exact absurd hq List.not_mem_nil
  | cons raw raws ih =>
    rcases List.mem_append.1 hq with hq | hq
    · obtain ⟨op, -, hop⟩ := Option.bind_eq_some_iff.1 (Option.mem_toList.1 hq)
      exact h.painting? hc hop
    · exact ih (h.drawRaw hc raw) hq

end PathInvariant
end PageContent
