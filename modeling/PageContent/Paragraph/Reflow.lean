/-
# Breaking an edited paragraph into lines

The new text is cut into words and gaps, and these are put on a line one after
the other as long as they fit.  A piece that does not fit, on a line that is not
empty, ends it: the line loses its trailing blanks, and the next one starts with
the piece without its leading blanks.  So a gap at a break disappears, and a
word wider than a line stands on a line alone.

Widths come from the metrics of the font where the table has them, and are
estimated from the number of characters elsewhere.  The estimate, and the
metrics on request, give the first line its own indent.
-/

import PageContent.Font.Metrics
import PageContent.Line.Basic
import PageContent.Paragraph.Basic
import PageContent.Text.Words

namespace PageContent

/-- How text is broken into lines. -/
structure ReflowOptions where
  /-- Line height in font sizes, with metrics. -/
  lineHeightRatio : Float := 1.2
  /-- Line height in font sizes, with estimated widths. -/
  estimateLineHeightRatio : Float := 1.25
  /-- Estimated width of a character in font sizes. -/
  estimateCharRatio : Float := 0.5
  /-- Width of a character that the metrics do not know, in hundredths of the size. -/
  fallbackCharWidth : Float := 50
  /-- Width given to the item of a line. -/
  placeholderWidth : Float := 100
  /-- With metrics, too, the first line has its own indent. -/
  honorsFirstLineIndent : Bool := false
deriving DecidableEq, Repr

/-- A line of a broken text. -/
structure ReflowLine where
  content : String
  y : Float
  x : Float
  items : List Fragment
deriving DecidableEq, Repr

/-- The line as a record: named and styled as its first item and as wide as its
widest, with the content of the line. -/
def ReflowLine.toLine (l : ReflowLine) : Line :=
  match l.items with
  | [] => .start "" { id := "", content := l.content, bbox := .ofPoint ⟨l.x, l.y⟩,
                      origin := some ⟨l.x, l.y⟩ }
  | first :: rest =>
    { Line.start first.id first with
      content := l.content
      bbox := { first.bbox with
        x1 := rest.foldl (fun x f => Binary64.greatest x f.bbox.x1) first.bbox.x1 }
      items := first :: rest }

namespace Reflow

/-- Where the widths of words come from. -/
inductive Widths where
  | metrics (m : GlyphMetrics)
  | estimate
deriving DecidableEq, Repr

/-- The metrics of the first entry for a font, or an estimate. -/
def widthsFor (fonts : List FontMetrics) (font : String) : Widths :=
  match (fonts.find? (·.name == font)).bind FontMetrics.metrics with
  | some m => .metrics m
  | none => .estimate

/-- The width of a piece of text. -/
def width (o : ReflowOptions) (size : Float) (widths : Widths) (text : List Char) : Float :=
  match widths with
  | .metrics m => text.foldl (fun w c => w + m.advance o.fallbackCharWidth size c) 0
  | .estimate => Float.ofNat text.length * size * o.estimateCharRatio

/-- From one line to the next. -/
def lineHeight (o : ReflowOptions) (size : Float) : Widths → Float
  | .metrics _ => size * o.lineHeightRatio
  | .estimate => size * o.estimateLineHeightRatio

/-- The first line is broken against its own indent. -/
def indentsFirst (o : ReflowOptions) : Widths → Bool
  | .metrics _ => o.honorsFirstLineIndent
  | .estimate => true

/-- The measures that a text is broken by: the width of a piece, and the room on the
first line and on the others. -/
structure Measures where
  width : List Char → Float
  firstRoom : Float
  room : Float

/-- The text of a line, and whether it ended because the next piece did not fit. -/
structure Filled where
  text : List Char
  isBroken : Bool
deriving DecidableEq, Repr

/-- The lines that pieces of text fill: `atFirst` says that no line stands yet, `line`
is the text of the line being filled and `used` its width.  The last line keeps its
trailing blanks, and it is dropped when it has no text. -/
def fill (m : Measures) : (atFirst : Bool) → (line : List Char) → (used : Float) →
    List (List Char) → List Filled
  | _, [], _, [] => []
  | _, line, _, [] => [⟨line, false⟩]
  | atFirst, line, used, piece :: pieces =>
    if (if atFirst then m.firstRoom else m.room) < used + m.width piece && !line.isEmpty then
      ⟨Text.trimEnd line, true⟩ ::
        fill m false (Text.trimStart piece) (m.width (Text.trimStart piece)) pieces
    else fill m atFirst (line ++ piece) (used + m.width piece) pieces

/-- The measures of a paragraph. -/
def measures (o : ReflowOptions) (p : Paragraph) (widths : Widths) : Measures :=
  { width := width o p.style.size widths
    firstRoom := p.bbox.x1 - (if indentsFirst o widths then p.indentX else p.continuationX)
    room := p.bbox.x1 - p.continuationX }

/-- The lines that a text is broken into. -/
def filled (o : ReflowOptions) (p : Paragraph) (widths : Widths) (text : List Char) :
    List Filled :=
  fill (measures o p widths) true [] 0 (Text.splitWords text)

/-- The `n`-th line of a paragraph, with its single item. -/
def lineAt (o : ReflowOptions) (p : Paragraph) (content : List Char) (n : Nat) (x y : Float) :
    ReflowLine :=
  let item : Fragment :=
    { id := "reflow-" ++ p.id ++ "-" ++ toString n
      content := String.ofList content
      bbox := ⟨x, y - p.style.size, x + o.placeholderWidth, y⟩ }
  { content := String.ofList content
    y
    x
    items := [item.placed ⟨x, y⟩ p.style.font p.style.size] }

/-- Where the `n`-th line starts.  The first one has its own indent if widths of its kind
give it one, and also if the text ended before it was full. -/
def startX (o : ReflowOptions) (p : Paragraph) (widths : Widths) (n : Nat) (isBroken : Bool) :
    Float :=
  if n = 0 && (!isBroken || indentsFirst o widths) then p.indentX else p.continuationX

/-- Lines laid one under the other from the `n`-th on. -/
def place (o : ReflowOptions) (p : Paragraph) (widths : Widths) :
    (n : Nat) → (y : Float) → List Filled → List ReflowLine
  | _, _, [] => []
  | n, y, l :: ls =>
    lineAt o p l.text n (startX o p widths n l.isBroken) y ::
      place o p widths (n + 1) (y + lineHeight o p.style.size widths) ls

/-- Where the first baseline is: where it was, else one size under the top. -/
def firstY (p : Paragraph) : Float := p.firstLineY.getD (p.bbox.y0 + p.style.size)

/-- The lines that a new text of a paragraph is broken into. -/
def lines (o : ReflowOptions) (fonts : List FontMetrics) (p : Paragraph) (text : String) :
    List ReflowLine :=
  let widths := widthsFor fonts p.style.font
  place o p widths 0 (firstY p) (filled o p widths text.toList)

end Reflow
end PageContent
