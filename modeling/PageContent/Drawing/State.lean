/-
# The graphics state

The pen is what `save` keeps and `restore` brings back: line width, colors,
opacities and the matrix that takes user space to the page.  The path under
construction and the text mode belong to no pen, so saving and restoring leave
them alone.
-/

import PageContent.Color
import PageContent.Drawing.Operator

namespace PageContent

/-- The part of the graphics state that is saved and restored. -/
structure Pen where
  lineWidth : Float := 1
  strokeColor : String := Color.black
  fillColor : String := Color.black
  opacity : Float := 1
  fillOpacity : Float := 1
  matrix : Matrix Float := .identity
deriving DecidableEq, Repr

namespace Pen

/-- The pen with the opacities that a change sets. -/
def setOpacity (pen : Pen) (change : OpacityChange) : Pen :=
  { pen with
    opacity := change.opacity.getD pen.opacity
    fillOpacity := change.fillOpacity.getD pen.fillOpacity }

/-- The pen with one of its colors set. -/
def setColor (pen : Pen) (target : ColorTarget) (components : List Float) : Pen :=
  match target with
  | .stroke => { pen with strokeColor := Color.ofComponents components }
  | .fill => { pen with fillColor := Color.ofComponents components }

/-- The pen with a matrix applied before its own. -/
def transform (pen : Pen) (m : Matrix Float) : Pen :=
  { pen with matrix := m.compose pen.matrix }

end Pen

/-- The state that operators act on. -/
structure GraphicsState where
  pen : Pen := {}
  path : List Segment := []
  inText : Bool := false
  /-- The saved pens, the latest first. -/
  saved : List Pen := []
deriving DecidableEq, Repr

namespace GraphicsState

/-- The pen is saved. -/
def save (s : GraphicsState) : GraphicsState := { s with saved := s.pen :: s.saved }

/-- The pen saved last, and the state that has it back; nothing if none is saved. -/
def restore? (s : GraphicsState) : Option GraphicsState :=
  match s.saved with
  | [] => none
  | pen :: saved => some { s with pen, saved }

/-- The pen saved last is back; without one nothing changes. -/
def restore (s : GraphicsState) : GraphicsState := s.restore?.getD s

/-- How many pens are saved. -/
def depth (s : GraphicsState) : Nat := s.saved.length

@[simp] theorem restore_save (s : GraphicsState) : s.save.restore = s := rfl

theorem restore_of_saved_nil {s : GraphicsState} (h : s.saved = []) : s.restore = s := by
  simp [restore, restore?, h]

end GraphicsState
end PageContent
