/-
# From glyph runs to fragments

A run of glyphs comes with the matrix that places it, in user space.  Its
fragment has

| field | value |
| --- | --- |
| size | `√(a² + b²)`, or the default size where that is zero or not finite |
| left, baseline | `e`, `height - f` |
| top | the baseline less the size times the cap height |
| bottom, right | top plus size, left plus width |

each scaled along its axis.  Runs are numbered in their order, empty ones
included, and the fragments that have text are bundled into blocks.
-/

import PageContent.Number.Traced
import PageContent.Text.Fragment

namespace PageContent

/-- A run of glyphs, placed in user space. -/
structure GlyphRun where
  transform : Matrix Float
  text : String
  width : Float
  font : String
deriving DecidableEq, Repr

instance : Recorded GlyphRun where
  toJson r := .object
    [("transform", toJson r.transform), ("str", toJson r.text), ("width", toJson r.width),
      ("fontName", toJson r.font)]
  ofJson? j := do
    let [transform, text, width, font] ←
      j.fields? [["transform"], ["str"], ["width"], ["fontName"]] 2 | none
    return {
      transform := ← Json.need transform
      text := ← Json.need text
      width := ← Json.orElse 0 width
      font := ← Json.orElse "" font }

/-- What is known of the style of a font resource. -/
structure StyleHint where
  fontFamily : Option String
deriving DecidableEq, Repr

instance : Recorded StyleHint where
  toJson h := .object [("fontFamily", toJson h.fontFamily)]
  ofJson? j := do
    let [fontFamily] ← j.fields? [["fontFamily"]] 0 | none
    return { fontFamily := ← Json.orElse none fontFamily }

/-- Style hints by the name of the font resource. -/
abbrev StyleHints := Table StyleHint

/-- How runs become fragments. -/
structure TextOptions where
  viewport : Viewport Float := ⟨792, 1, 1⟩
  /-- Height of the text above its baseline, in font sizes. -/
  capHeightRatio : Float := 0.82
  defaultFontSize : Float := 12
  /-- Fragments in a block; at least one in any case. -/
  chunkSize : Nat := 10
  fallbackFamily : String := "sans-serif"
deriving DecidableEq, Repr

namespace TextOptions

/-- The defaults for a page of a height. -/
def ofHeight (height : Float) : TextOptions := { viewport := ⟨height, 1, 1⟩ }

/-- The options with another number of fragments in a block, at least one. -/
def withChunkSize (o : TextOptions) (size : Nat) : TextOptions := { o with chunkSize := max size 1 }

/-- The font size under a matrix. -/
def sizeOf (o : TextOptions) (m : Matrix Float) : Float :=
  let size := (m.a * m.a + m.b * m.b).sqrt
  if size == 0 || !size.isFinite then o.defaultFontSize else size

/-- The family to use where the font of a run is missing. -/
def familyOf (o : TextOptions) (hints : StyleHints) (font : String) : String :=
  ((hints.get? font).bind StyleHint.fontFamily).getD o.fallbackFamily

/-- The shown left edge of text at `x`. -/
def leftOf {α : Type} [Mul α] (x scaleX : α) : α := x * scaleX

/-- The shown top of text of a size: it rises a part `rise` of the size above a baseline
at `y` on a page of a height. -/
def topOf {α : Type} [Sub α] [Mul α] (height y size rise scaleY : α) : α :=
  (height - y - size * rise) * scaleY

/-- The fragment of a run. -/
def fragment (o : TextOptions) (hints : StyleHints) (id : String) (run : GlyphRun) : Fragment :=
  let m := run.transform
  let v := o.viewport
  let userSize := o.sizeOf m
  let size := userSize * v.scaleY
  let x := leftOf m.e v.scaleX
  let top := topOf v.height m.f userSize o.capHeightRatio v.scaleY
  let baseline := (v.height - m.f) * v.scaleY
  let weight := FontName.weight run.font
  { id
    content := run.text
    bbox := ⟨x, top, x + run.width * v.scaleX, top + size⟩
    origin := some ⟨x, baseline⟩
    matrix := ⟨m.a, m.b, m.c, m.d⟩
    font := run.font
    size
    weight
    isBold := weight = .bold
    isItalic := FontName.isItalic run.font
    fallbackFamily := some (o.familyOf hints run.font) }

/-- The left edge of the fragment of a run, where it starts too, traced back to the options. -/
def tracedLeft (o : TextOptions) (run : GlyphRun) : Traced :=
  leftOf (.given run.transform.e) (.given o.viewport.scaleX)

/-- The top of the fragment of a run, traced back to the options. -/
def tracedTop (o : TextOptions) (run : GlyphRun) : Traced :=
  topOf (.given o.viewport.height) (.given run.transform.f) (.given (o.sizeOf run.transform))
    (.given o.capHeightRatio) (.given o.viewport.scaleY)

/-- The name of the fragment of the run at a place. -/
def nameAt (i : Nat) : String := "frag_" ++ toString i

/-- The names of the fragments of which a traced number is a NaN that was given. -/
def givenNaNs (traced : GlyphRun → Traced) (runs : List GlyphRun) : List String :=
  runs.zipIdx.filterMap fun (run, i) =>
    if (traced run).isGivenNaN then some (nameAt i) else none

/-- The fragments of the runs that have text, each named for its place among all runs. -/
def fragments (o : TextOptions) (hints : StyleHints) (runs : List GlyphRun) : List Fragment :=
  (runs.zipIdx.map fun (run, i) => o.fragment hints (nameAt i) run).filter
    fun f => !f.content.isEmpty

/-- A list cut into pieces of `size` elements, the last of them perhaps shorter. -/
def chunksWith {α : Type} (size : Nat) : (fuel : Nat) → List α → List (List α)
  | 0, _ => []
  | _, [] => []
  | fuel + 1, l => l.take size :: chunksWith size fuel (l.drop size)

/-- The fragments of the runs in blocks, each named for its first fragment. -/
def blocks (o : TextOptions) (hints : StyleHints) (runs : List GlyphRun) : List Block :=
  let size := max o.chunkSize 1
  let fragments := o.fragments hints runs
  (chunksWith size fragments.length fragments).zipIdx.map fun (chunk, n) =>
    .ofChildren ("block_" ++ toString (n * size)) chunk

end TextOptions
end PageContent
