/-
# Font metrics

A font that could be harvested has a table of advance widths by character, in
hundredths of the font size.  A zero and a missing width both mean that the
width is not known.
-/

import PageContent.Json.Recorded

namespace PageContent

/-- The metrics of the glyphs of a font. -/
structure GlyphMetrics where
  /-- Widths by character, in hundredths of the font size. -/
  widths : Table Float := .empty
  ascender : Float := 0
  descender : Float := 0
deriving DecidableEq, Repr

namespace GlyphMetrics

/-- The known width of a character. -/
def width? (m : GlyphMetrics) (c : Char) : Option Float :=
  (m.widths.get? (String.ofList [c])).filter fun w => !(w == 0) && w.isFinite

/-- The advance of a character at a font size: by its own width, else by that of the
space, else by `fallback`. -/
def advance (m : GlyphMetrics) (fallback size : Float) (c : Char) : Float :=
  ((m.width? c).or (m.width? ' ')).getD fallback / 100 * size

end GlyphMetrics

instance : Recorded GlyphMetrics where
  toJson m := .object
    [("widths", toJson m.widths), ("ascender", toJson m.ascender),
      ("descender", toJson m.descender)]
  ofJson? j := do
    let [widths, ascender, descender] ←
      j.fields? [["widths"], ["ascender"], ["descender"]] 0 | none
    return {
      widths := ← Json.orElse .empty widths
      ascender := ← Json.orElse 0 ascender
      descender := ← Json.orElse 0 descender }

/-- A font of the metrics table; one that could not be harvested has no metrics. -/
structure FontMetrics where
  name : String
  metrics : Option GlyphMetrics := none
deriving DecidableEq, Repr

instance : Recorded FontMetrics where
  toJson f := .object [("name", toJson f.name), ("metrics", toJson f.metrics)]
  ofJson? j := do
    let [name, metrics] ← j.fields? [["name"], ["metrics"]] 1 | none
    return { name := ← Json.need name, metrics := ← Json.orElse none metrics }

end PageContent
