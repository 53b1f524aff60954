/-
# Drawing a page

A canvas holds the graphics state, the shapes and images drawn so far and a
tally.  `Canvas.draw` applies one operator; `Canvas.drawRaw` decodes it first,
and a malformed one only counts as such.

Painting cuts the path into sub-paths, drops the strays among them and makes a
shape of each of the others.  An unfilled sub-path is dropped when it is

* a beam: two segments, further apart than the beam length, or
* a needle: few segments, and a box wider or higher than the needle extent.

In text mode nothing builds a path, but for a `close`.
-/

import PageContent.Drawing.Options
import PageContent.Drawing.State

namespace PageContent

/-- What has been counted while drawing. -/
structure Tally where
  paths : Nat := 0
  rects : Nat := 0
  colors : Nat := 0
  images : Nat := 0
  malformed : Nat := 0
deriving DecidableEq, Repr

/-- A page under the pen. -/
structure Canvas where
  state : GraphicsState := {}
  shapes : List Shape := []
  images : List Image := []
  tally : Tally := {}
deriving DecidableEq, Repr

namespace Path

/-- The finite end points of a path. -/
def points (path : List Segment) : List (Point Float) :=
  (path.filterMap Segment.end?).filter Point.isFinite

/-- Two segments, further apart than the beam length. -/
def isBeam (o : DrawingOptions) (path : List Segment) : Bool :=
  match path, points path with
  | [_, _], p :: q :: _ => decide (o.beam < p.distance q)
  | _, _ => false

/-- Few segments in a box wider or higher than the needle extent. -/
def isNeedle (o : DrawingOptions) (path : List Segment) : Bool :=
  match bounds path with
  | some box => (decide (o.needle < box.width) || decide (o.needle < box.height)) &&
      decide (path.length < o.needleMaxSegments)
  | none => false

/-- A sub-path worth painting: enough segments, two end points, and no stray if it
is not filled. -/
def isKept (o : DrawingOptions) (filled : Bool) (path : List Segment) : Bool :=
  decide (o.minSegments ≤ path.length) && decide (2 ≤ (points path).length) &&
    (filled || (!isBeam o path && !isNeedle o path))

end Path

namespace Canvas

/-- The place on the page of a point in user space. -/
def place (o : DrawingOptions) (pen : Pen) (p : Point Float) : Point Float :=
  o.viewport.place pen.matrix p

/-- The canvas with another graphics state. -/
def withState (c : Canvas) (state : GraphicsState) : Canvas := { c with state }

/-- The canvas with another pen. -/
def withPen (c : Canvas) (pen : Pen) : Canvas := c.withState { c.state with pen }

/-- The canvas with another path. -/
def withPath (c : Canvas) (path : List Segment) : Canvas := c.withState { c.state with path }

/-- A step added to the path. -/
def addStep (o : DrawingOptions) (c : Canvas) (step : PathStep) : Canvas :=
  let c := c.withPath (Path.add (place o c.state.pen) c.state.path step)
  if step.isRectangle then { c with tally := { c.tally with rects := c.tally.rects + 1 } } else c

/-- The threshold at which a path to be painted is cut. -/
def cutLength (o : DrawingOptions) (filled : Bool) : Option Float :=
  if filled && !o.splitsFilledJumps then none else some o.jump

/-- The shape of a sub-path, named for the operator that painted it and its place
among the sub-paths. -/
def shapeOf (pen : Pen) (paint : Paint) (index : UInt64) (place : Nat) (path : List Segment) :
    Shape :=
  { id := "path_" ++ toString index.toNat ++ "_" ++ toString place
    path
    thickness := pen.lineWidth
    strokeColor := pen.strokeColor
    fillColor := pen.fillColor
    opacity := pen.opacity
    isFilled := paint.fills
    isStroked := paint.strokes }

/-- The shapes that painting makes of a path; places count dropped sub-paths too. -/
def shapesOf (o : DrawingOptions) (pen : Pen) (paint : Paint) (index : UInt64)
    (path : List Segment) : List Shape :=
  ((Path.subPaths path (cutLength o paint.fills)).zipIdx.filter
    fun (sub, _) => Path.isKept o paint.fills sub).map
    fun (sub, i) => shapeOf pen paint index i sub

/-- The path is painted and gone. -/
def paint (o : DrawingOptions) (c : Canvas) (paint : Paint) (index : UInt64) : Canvas :=
  let path := if paint.closes then c.state.path ++ [.close] else c.state.path
  let shapes := shapesOf o c.state.pen paint index path
  let c := c.withPath []
  { c with
    shapes := c.shapes ++ shapes
    tally := { c.tally with paths := c.tally.paths + shapes.length } }

/-- The image of the unit square is placed on the page. -/
def placeImage (o : DrawingOptions) (c : Canvas) (name : Option String) (index : UInt64) :
    Canvas :=
  let corner (x y : Float) := place o c.state.pen ⟨x, y⟩
  let image : Image :=
    { id := "image_" ++ toString index.toNat
      name
      bbox := Box.hull (corner 0 0) [corner 1 0, corner 0 1, corner 1 1]
      opacity := c.state.pen.opacity }
  { c with
    images := c.images ++ [image]
    tally := { c.tally with images := c.tally.images + 1 } }

/-- A color is set and counted. -/
def setColor (c : Canvas) (target : ColorTarget) (components : List Float) : Canvas :=
  let c := c.withPen (c.state.pen.setColor target components)
  { c with tally := { c.tally with colors := c.tally.colors + 1 } }

/-- Text mode begins or ends, and with it the path. -/
def setText (c : Canvas) (inText : Bool) : Canvas :=
  c.withState { c.state with inText, path := [] }

/-- One operator at its place in the list. -/
def draw (o : DrawingOptions) (c : Canvas) (op : Operator) (index : UInt64) : Canvas :=
  if c.state.inText && op.buildsPath then c
  else match op with
    | .save => c.withState c.state.save
    | .restore => c.withState c.state.restore
    | .transform m => c.withPen (c.state.pen.transform m)
    | .lineWidth w => c.withPen { c.state.pen with lineWidth := w }
    | .opacity change => c.withPen (c.state.pen.setOpacity change)
    | .color target components => c.setColor target components
    | .beginText => c.setText true
    | .endText => c.setText false
    | .step s => addStep o c s
    | .batch p numbers =>
      let c := (Batch.steps numbers).foldl (addStep o) c
      match p with
      | some p => paint o c p index
      | none => c.withPath []
    | .paint p => paint o c p index
    | .clip _ | .endPath => c.withPath []
    | .image name => placeImage o c name index
    | .unsupported _ => c

/-- An operator of the list is decoded and applied; a malformed one is counted. -/
def drawRaw (o : DrawingOptions) (c : Canvas) (raw : RawOperator) : Canvas :=
  match Operator.decode raw with
  | .ok op => draw o c op raw.index
  | .error _ => { c with tally := { c.tally with malformed := c.tally.malformed + 1 } }

/-- A list of operators applied in order. -/
def drawAll (o : DrawingOptions) (c : Canvas) (raws : List RawOperator) : Canvas :=
  raws.foldl (drawRaw o) c

theorem drawAll_append (o : DrawingOptions) (c : Canvas) (first second : List RawOperator) :
    drawAll o c (first ++ second) = drawAll o (drawAll o c first) second :=
  List.foldl_append

/-- The canvas of a page. -/
def ofOperators (o : DrawingOptions) (raws : List RawOperator) : Canvas := drawAll o {} raws

end Canvas
end PageContent
