/-
# Paragraphs

A paragraph, list item or heading as an editor holds it: a box, the places
where its first and its further lines start, a style and the lines it has.
-/

import PageContent.Text.Fragment

namespace PageContent

/-- What a paragraph is. -/
inductive ParagraphKind where
  | paragraph
  | listItem
  | heading
  | other
deriving DecidableEq, Repr

/-- The name of a kind in a document. -/
def ParagraphKind.name : ParagraphKind → String
  | .paragraph => "paragraph"
  | .listItem => "list-item"
  | .heading => "heading"
  | .other => "other"

/-- The kind of a name; a name that is not known means some other kind. -/
def ParagraphKind.ofName : String → ParagraphKind
  | "paragraph" => .paragraph
  | "list-item" => .listItem
  | "heading" => .heading
  | _ => .other

instance : Recorded ParagraphKind where
  toJson k := .string k.name
  ofJson? j := (j.choice? .outside).map .ofName

/-- The font and size of a paragraph. -/
structure ParagraphStyle where
  font : String
  size : Float
deriving DecidableEq, Repr

instance : Recorded ParagraphStyle where
  toJson s := .object [("font", toJson s.font), ("size", toJson s.size)]
  ofJson? j := do
    let [font, size] ← j.fields? [["font"], ["size"]] 2 | none
    return { font := ← Json.need font, size := ← Json.need size }

/-- A line that a paragraph has. -/
structure ParagraphLine where
  y : Float
  content : String := ""
  items : List Fragment := []
deriving DecidableEq, Repr

instance : Recorded ParagraphLine where
  toJson l := .object [("y", toJson l.y), ("content", toJson l.content), ("items", toJson l.items)]
  ofJson? j := do
    let [y, content, items] ← j.fields? [["y"], ["content"], ["items"]] 1 | none
    return {
      y := ← Json.need y
      content := ← Json.orElse "" content
      items := ← Json.orElse [] items }

/-- A paragraph in an editor. -/
structure Paragraph where
  id : String
  bbox : Box
  /-- Where the first line starts. -/
  indentX : Float
  /-- Where the other lines start, if not there too. -/
  textX : Option Float := none
  kind : ParagraphKind := .paragraph
  style : ParagraphStyle
  lines : List ParagraphLine := []
deriving DecidableEq, Repr

namespace Paragraph

/-- Where the lines behind the first one start. -/
def continuationX (p : Paragraph) : Float := p.textX.getD p.indentX

/-- The baseline of the first line it has. -/
def firstLineY (p : Paragraph) : Option Float := p.lines.head?.map ParagraphLine.y

end Paragraph

instance : Recorded Paragraph where
  toJson p := .object
    [("id", toJson p.id), ("bbox", toJson p.bbox), ("indentX", toJson p.indentX),
      ("textX", toJson p.textX), ("type", toJson p.kind), ("style", toJson p.style),
      ("lines", toJson p.lines)]
  ofJson? j := do
    let [id, bbox, indentX, textX, kind, style, lines] ←
      j.fields? [["id"], ["bbox"], ["indentX"], ["textX"], ["type"], ["style"], ["lines"]] 6 | none
    return {
      id := ← Json.need id
      bbox := ← Json.need bbox
      indentX := ← Json.need indentX
      textX := ← Json.orElse none textX
      kind := ← Json.orElse .paragraph kind
      style := ← Json.need style
      lines := ← Json.orElse [] lines }

end PageContent
