/-
# Text fragments

A fragment is a run of text in one style at one place of the page.  Its box is
always there; its origin on the baseline may be missing, and then the corner of
the box stands in.
-/

import PageContent.Color
import PageContent.Geometry.Box
import PageContent.Text.FontStyle

namespace PageContent

/-- A character of a fragment, its offset from the left edge and its width. -/
structure Glyph where
  char : Char
  x : Float
  width : Float
deriving DecidableEq, Repr

instance : Recorded Glyph where
  toJson g := .object [("ch", toJson g.char), ("x", toJson g.x), ("w", toJson g.width)]
  ofJson? j := do
    let [char, x, width] ← j.fields? [["ch"], ["x"], ["w"]] 3 | none
    return { char := ← Json.need char, x := ← Json.need x, width := ← Json.need width }

/-- A run of text in one style. -/
structure Fragment where
  id : String
  content : String
  bbox : Box
  origin : Option (Point Float) := none
  matrix : Linear := .identity
  font : String := ""
  /-- The font size; a negative one is that of text upside down. -/
  size : Float := 0
  color : Rgb := .black
  isBold : Bool := false
  isItalic : Bool := false
  weight : FontWeight := .normal
  fallbackFamily : Option String := none
  /-- The line the fragment belongs to, where its extractor knows that. -/
  lineId : Option String := none
  glyphs : List Glyph := []
deriving DecidableEq, Repr

namespace Fragment

/-- The fragment with its origin and font set. -/
def placed (f : Fragment) (origin : Point Float) (font : String) (size : Float) : Fragment :=
  { f with origin := some origin, font, size }

/-- The height of the baseline, else the top of the box. -/
def baseline (f : Fragment) : Float := f.origin.elim f.bbox.y0 Point.y

/-- Where the text starts, else the left edge of the box. -/
def startX (f : Fragment) : Float := f.origin.elim f.bbox.x0 Point.x

/-- The text as characters. -/
def chars (f : Fragment) : List Char := f.content.toList

end Fragment

/-- The fragment of a record. -/
def Fragment.read? (site : Json.Site) (j : Json) : Option Fragment := do
  let [id, content, bbox, origin, matrix, font, size, color, isBold, isItalic, weight,
      fallbackFamily, lineId, glyphs] ←
    j.fields? [["id"], ["content"], ["bbox"], ["origin"], ["matrix"], ["font"], ["size"],
      ["color"], ["is_bold"], ["is_italic"], ["weight"], ["fallback_family"], ["line_id"],
      ["glyphs"]] 3 | none
  return {
    id := ← Json.need id
    content := ← Json.need content
    bbox := ← Json.need bbox
    origin := ← Json.orElse none origin
    matrix := ← Json.orElse .identity matrix
    font := ← Json.orElse "" font
    size := ← Json.orElse 0 size
    color := ← Json.orElse .black color
    isBold := ← Json.orElse false isBold
    isItalic := ← Json.orElse false isItalic
    weight := ← Json.readOr (FontWeight.read? site) .normal weight
    fallbackFamily := ← Json.orElse none fallbackFamily
    lineId := ← Json.orElse none lineId
    glyphs := ← Json.orElse [] glyphs }

instance : Recorded Fragment where
  toJson f := .object
    ([("id", toJson f.id), ("content", toJson f.content), ("bbox", toJson f.bbox),
      ("origin", toJson f.origin), ("matrix", toJson f.matrix), ("font", toJson f.font),
      ("size", toJson f.size), ("color", toJson f.color), ("is_bold", toJson f.isBold),
      ("is_italic", toJson f.isItalic), ("weight", toJson f.weight)] ++
      Json.optionalField "fallback_family" f.fallbackFamily ++
      Json.optionalField "line_id" f.lineId ++
      (if f.glyphs.isEmpty then [] else [("glyphs", toJson f.glyphs)]))
  ofJson? := Fragment.read? .outside

/-- A coarse group of fragments. -/
structure Block where
  id : String
  bbox : Box
  children : List Fragment
deriving DecidableEq, Repr

/-- The block whose box is the envelope of its children, or of no extent if it has none. -/
def Block.ofChildren (id : String) (children : List Fragment) : Block :=
  { id, bbox := (Box.envelope (children.map Fragment.bbox)).getD .zero, children }

instance : Recorded Block where
  toJson b := .object
    [("id", toJson b.id), ("bbox", toJson b.bbox), ("children", toJson b.children)]
  ofJson? j := do
    let [id, bbox, children] ← j.fields? [["id"], ["bbox"], ["children"]] 3 | none
    return { id := ← Json.need id, bbox := ← Json.need bbox, children := ← Json.need children }

end PageContent
