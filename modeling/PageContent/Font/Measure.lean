/-
# Measuring text

A measurer gives the advance of a character in a font.  The one built on a
metrics table knows the fonts that have metrics there, of several entries for
one name the last; any other font advances by a fixed fraction of its size.
-/

import PageContent.Font.Metrics
import PageContent.Text.Fragment

namespace PageContent

/-- A font as a measurer is asked for it. -/
structure FontSpec where
  family : String
  fallbackFamily : Option String := none
  size : Float
  weight : FontWeight := .normal
  isItalic : Bool := false
deriving DecidableEq, Repr

/-- The font of a fragment; text upside down has the same font. -/
def FontSpec.ofFragment (f : Fragment) : FontSpec :=
  { family := f.font
    fallbackFamily := f.fallbackFamily
    size := f.size.abs
    weight := f.weight
    isItalic := f.isItalic }

/-- The advance of a character in a font. -/
abbrev Measurer := Char → FontSpec → Float

namespace Measurer

/-- The width of a text: the sum of its advances. -/
def measure (m : Measurer) (text : List Char) (font : FontSpec) : Float :=
  text.foldl (fun width c => width + m c font) 0

/-- The metrics that a table has for a font, of several entries the last one's. -/
def metrics? (fonts : List FontMetrics) (family : String) : Option GlyphMetrics :=
  fonts.reverse.findSome? fun f => if f.name = family then f.metrics else none

/-- The width of a character that neither it nor the space has a width for. -/
def fallbackWidth : Float := 50

/-- The advance in fonts without metrics, in font sizes. -/
def defaultEm : Float := 0.5

/-- The measurer of a metrics table; fonts without metrics advance by `em` sizes. -/
def ofFonts (fonts : List FontMetrics) (em : Float) : Measurer := fun c font =>
  match metrics? fonts font.family with
  | some m => m.advance fallbackWidth font.size c
  | none => font.size * em

/-- The glyphs of a text from an offset on, and the offset behind them. -/
def glyphs (m : Measurer) (font : FontSpec) : (x : Float) → List Char → List Glyph × Float
  | x, [] => ([], x)
  | x, c :: text =>
    let width := m c font
    let (rest, stop) := glyphs m font (x + width) text
    ({ char := c, x, width } :: rest, stop)

/-- A fragment with its glyphs measured, and as wide as they are. -/
def refineFragment (m : Measurer) (f : Fragment) : Fragment :=
  let (glyphs, width) := glyphs m (.ofFragment f) 0 f.chars
  { f with glyphs, bbox := { f.bbox with x1 := f.bbox.x0 + width } }

/-- Blocks with all their fragments measured. -/
def refine (m : Measurer) (blocks : List Block) : List Block :=
  blocks.map fun b => .ofChildren b.id (b.children.map m.refineFragment)

end Measurer

/-- How text is scaled to fit. -/
structure FitOptions where
  least : Float := 0.75
  greatest : Float := 1.1
  /-- Space kept free of the target. -/
  cushion : Float := 0.5
deriving DecidableEq, Repr

/-- The bounds of a fit do not bound anything. -/
inductive FitFault where
  | unorderedBounds
deriving DecidableEq, Repr

/-- The horizontal scale that fits a measured width into a target, within bounds;
`1` when either width is not a positive number. -/
def FitOptions.ratio (o : FitOptions) (measured target : Float) : Except FitFault Float :=
  if measured ≤ 0 ∨ target ≤ 0 ∨ measured.isFinite = false ∨ target.isFinite = false then .ok 1
  else if ¬ o.least ≤ o.greatest then .error .unorderedBounds
  else
    let ratio := Binary64.greatest (target - o.cushion) 1 / measured
    .ok (if ratio < o.least then o.least else if o.greatest < ratio then o.greatest else ratio)

end PageContent
