/-
# Building the scene of a page

A page comes as a list of drawing operators and a list of glyph runs.  The
operators are drawn on a canvas, the runs become fragments in blocks, and the
fragments are merged into lines.  The scene graph holds the shapes, then the
images, then the lines.
-/

import PageContent.Drawing.Canvas
import PageContent.Error
import PageContent.Font.Measure
import PageContent.Scene.Graph
import PageContent.Text.Run

namespace PageContent

/-- The input of a page. -/
structure Page where
  operators : List RawOperator := []
  runs : List GlyphRun := []
  styles : StyleHints := .empty
deriving Repr

instance : Recorded Page where
  toJson p := .object
    [("operators", toJson p.operators), ("glyphRuns", toJson p.runs),
      ("styles", toJson p.styles)]
  ofJson? j := do
    let [operators, runs, styles] ← j.fields? [["operators"], ["glyphRuns"], ["styles"]] 0 | none
    return {
      operators := ← Json.orElse [] operators
      runs := ← Json.orElse [] runs
      styles := ← Json.orElse .empty styles }

/-- The page that a JSON text holds. -/
def Page.read? (text : String) : Option Page := (Json.parse? text).bind ofJson?

/-- How a scene is built.  Fragments run down the page, so ascending tops give the
reading order. -/
structure SceneOptions where
  drawing : DrawingOptions := {}
  text : TextOptions := {}
  merge : MergeOptions := { order := .ascending }
deriving DecidableEq, Repr

namespace SceneOptions

/-- The defaults for a page of a height. -/
def ofHeight (height : Float) : SceneOptions :=
  { drawing := .ofHeight height, text := .ofHeight height }

/-- The same scale for drawing and text. -/
def withScale (o : SceneOptions) (scaleX scaleY : Float) : SceneOptions :=
  { o with
    drawing := { o.drawing with viewport := { o.drawing.viewport with scaleX, scaleY } }
    text := { o.text with viewport := { o.text.viewport with scaleX, scaleY } } }

/-- The numbers that have to be positive. -/
def dimensions (o : SceneOptions) : List (Dimension × Float) :=
  [(.viewportHeight, o.drawing.viewport.height), (.scaleX, o.drawing.viewport.scaleX),
    (.scaleY, o.drawing.viewport.scaleY), (.textViewportHeight, o.text.viewport.height),
    (.textScaleX, o.text.viewport.scaleX), (.textScaleY, o.text.viewport.scaleY)]

/-- The options are usable: of the numbers that are not finite or not positive the
first is the error. -/
def validate (o : SceneOptions) : Except Error Unit :=
  match o.dimensions.find? fun (_, x) => !x.isFinite || decide (x ≤ 0) with
  | some (what, x) => .error (.notPositive what x)
  | none => .ok ()

end SceneOptions

/-- What was built for a page. -/
structure Scene where
  shapes : List Shape
  images : List Image
  blocks : List Block
  lines : List Line
  tally : Tally
deriving DecidableEq, Repr

namespace Scene

/-- How the NaNs among the places of the fragments of a page came about. -/
def origins (o : SceneOptions) (page : Page) : NaNOrigins :=
  let starts := TextOptions.givenNaNs o.text.tracedLeft page.runs
  let tops := TextOptions.givenNaNs o.text.tracedTop page.runs
  { start := fun f => if starts.contains f.id then .given else .computed
    top := fun f => if tops.contains f.id then .given else .computed }

/-- The scene of a page whose blocks of text are known. -/
def assemble (o : SceneOptions) (page : Page) (blocks : List Block) : Scene :=
  let canvas := Canvas.ofOperators o.drawing page.operators
  { shapes := canvas.shapes
    images := canvas.images
    blocks
    lines := Merge.linesBy (origins o page) o.merge (blocks.flatMap Block.children)
    tally := canvas.tally }

/-- The scene of a page. -/
def build (o : SceneOptions) (page : Page) : Scene :=
  assemble o page (o.text.blocks page.styles page.runs)

/-- The scene of a page, its text measured. -/
def buildMeasured (o : SceneOptions) (m : Measurer) (page : Page) : Scene :=
  assemble o page (m.refine (o.text.blocks page.styles page.runs))

/-- The scene of the page that a JSON text holds; wrong options count before a wrong text. -/
def read (o : SceneOptions) (text : String) : Except Error Scene := do
  o.validate
  match Page.read? text with
  | some page => return build o page
  | none => throw .json

/-- The nodes of the scene: shapes, images, lines. -/
def graph (s : Scene) : SceneGraph :=
  { nodes := s.shapes.map .shape ++ s.images.map .image ++ s.lines.map .line }

/-- The scene file. -/
def write (format : Json.Format) (s : Scene) : String := s.graph.write format

/-- The text of the lines. -/
def plainText (s : Scene) : String := Line.plainText s.lines

end Scene
end PageContent
