/-
# Options of the drawing

Paths on real pages carry strays: jumps that join unrelated parts, long beams
between two points, thin needles across the page.  What counts as stray is a
fraction of the height of the page.
-/

import PageContent.Geometry.Matrix

namespace PageContent

/-- How a page is drawn. -/
structure DrawingOptions where
  viewport : Viewport Float := ⟨792, 1, 1⟩
  /-- Fraction of the height from which a jump cuts a path. -/
  jumpRatio : Float := 0.4
  /-- Fraction of the height from which an unfilled path of two segments is a beam. -/
  beamRatio : Float := 0.5
  /-- Fraction of the height from which a short unfilled path is a needle. -/
  needleRatio : Float := 0.8
  /-- The fewest segments of a painted sub-path. -/
  minSegments : Nat := 2
  /-- The fewest segments of a path that is not short. -/
  needleMaxSegments : Nat := 5
  /-- Filled paths are cut at jumps as well. -/
  splitsFilledJumps : Bool := false
deriving DecidableEq, Repr

namespace DrawingOptions

/-- The defaults for a page of a height. -/
def ofHeight (height : Float) : DrawingOptions := { viewport := ⟨height, 1, 1⟩ }

/-- The distance from which a jump cuts a path. -/
def jump (o : DrawingOptions) : Float := o.viewport.height * o.jumpRatio

/-- The length from which an unfilled path of two segments is a beam. -/
def beam (o : DrawingOptions) : Float := o.viewport.height * o.beamRatio

/-- The extent from which a short unfilled path is a needle. -/
def needle (o : DrawingOptions) : Float := o.viewport.height * o.needleRatio

end DrawingOptions
end PageContent
