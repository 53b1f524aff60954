/-
# Lines of text

A line is made of fragments, left to right.  Style and origin are those of the
first one; the box grows with every fragment that joins.
-/

import PageContent.Text.Blank
import PageContent.Text.Fragment

namespace PageContent

/-- A line of text with the fragments it is made of. -/
structure Line where
  id : String
  content : String
  bbox : Box
  origin : Option (Point Float)
  font : String
  size : Float
  color : Rgb
  matrix : Linear
  isBold : Bool
  isItalic : Bool
  items : List Fragment
deriving DecidableEq, Repr

namespace Line

/-- The line of a single fragment. -/
def start (id : String) (first : Fragment) : Line :=
  { id
    content := first.content
    bbox := first.bbox
    origin := first.origin
    font := first.font
    size := first.size
    color := first.color
    matrix := first.matrix
    isBold := first.isBold
    isItalic := first.isItalic
    items := [first] }

/-- The fragment that joined last. -/
def lastItem? (l : Line) : Option Fragment := l.items.getLast?

end Line

/-- The line of a record. -/
def Line.read? (site : Json.Site) (j : Json) : Option Line := do
  let [id, content, bbox, origin, font, size, color, matrix, isBold, isItalic, items] ←
    j.fields? [["id"], ["content"], ["bbox"], ["origin"], ["font"], ["size"], ["color"],
      ["matrix"], ["is_bold"], ["is_italic"], ["items"]] 11 | none
  return {
    id := ← Json.need id
    content := ← Json.need content
    bbox := ← Json.need bbox
    origin := ← Json.orElse none origin
    font := ← Json.need font
    size := ← Json.need size
    color := ← Json.need color
    matrix := ← Json.need matrix
    isBold := ← Json.need isBold
    isItalic := ← Json.need isItalic
    items := ← items.bind (Json.list? (Fragment.read? site)) }

instance : Recorded Line where
  toJson l := .object
    [("id", toJson l.id), ("content", toJson l.content), ("bbox", toJson l.bbox),
      ("origin", toJson l.origin), ("font", toJson l.font), ("size", toJson l.size),
      ("color", toJson l.color), ("matrix", toJson l.matrix), ("is_bold", toJson l.isBold),
      ("is_italic", toJson l.isItalic), ("items", toJson l.items)]
  ofJson? := Line.read? .outside

/-- The text of a page: the lines in their order without trailing blanks, one under
the other, and no blanks around the whole. -/
def Line.plainText (lines : List Line) : String :=
  String.ofList (Text.trim
    ((lines.map fun l => Text.trimEnd l.content.toList).intersperse ['\n']).flatten)

end PageContent
