/-
# Boxes

A box `[x0, y0, x1, y1]` is spanned by its left, top, right and bottom edge.
The envelope of some boxes has the least left and top edge and the greatest
right and bottom edge among them; a NaN stands aside for any number.
-/

import PageContent.Geometry.Matrix

namespace PageContent

/-- An axis-aligned box on the shown page. -/
structure Box where
  x0 : Float
  y0 : Float
  x1 : Float
  y1 : Float
deriving DecidableEq, Repr

namespace Box

/-- The box of no extent at the corner of the page. -/
def zero : Box := ⟨0, 0, 0, 0⟩

/-- The box of a single point. -/
def ofPoint (p : Point Float) : Box := ⟨p.x, p.y, p.x, p.y⟩

/-- The least box around two boxes. -/
def join (b c : Box) : Box :=
  { x0 := Binary64.least b.x0 c.x0
    y0 := Binary64.least b.y0 c.y0
    x1 := Binary64.greatest b.x1 c.x1
    y1 := Binary64.greatest b.y1 c.y1 }

/-- The least box around a point and some more. -/
def hull (p : Point Float) (ps : List (Point Float)) : Box :=
  ps.foldl (fun b q => b.join (ofPoint q)) (ofPoint p)

/-- The least box around some boxes, if there are any. -/
def envelope : List Box → Option Box
  | [] => none
  | b :: bs => some (bs.foldl join b)

/-- The least box around those points that are finite, if there are any. -/
def around (points : List (Point Float)) : Option Box :=
  match points.filter Point.isFinite with
  | [] => none
  | p :: ps => some (hull p ps)

def width (b : Box) : Float := b.x1 - b.x0

def height (b : Box) : Float := b.y1 - b.y0

end Box

instance : Recorded Box where
  toJson b := Json.ofFloats [b.x0, b.y0, b.x1, b.y1]
  ofJson? j := do
    let [x0, y0, x1, y1] ← Json.floats? j | none
    return ⟨x0, y0, x1, y1⟩

end PageContent
