/-
# Blank characters

The characters that separate words, and that trimming removes, are those with
the Unicode property `White_Space`:

| range | characters |
| --- | --- |
| `U+0009 … U+000D`, `U+0020` | tab, line breaks, space |
| `U+0085`, `U+00A0` | next line, no-break space |
| `U+1680`, `U+2000 … U+200A` | ogham space mark, typographic spaces |
| `U+2028`, `U+2029` | line and paragraph separators |
| `U+202F`, `U+205F`, `U+3000` | narrow no-break, mathematical, ideographic space |
-/

namespace PageContent
namespace Text

/-- A character with the Unicode property `White_Space`. -/
def isBlank (c : Char) : Bool :=
  let n := c.toNat
  (0x09 ≤ n && n ≤ 0x0D) || n == 0x20 || n == 0x85 || n == 0xA0 || n == 0x1680 ||
    (0x2000 ≤ n && n ≤ 0x200A) || n == 0x2028 || n == 0x2029 || n == 0x202F || n == 0x205F ||
    n == 0x3000

/-- A text without the blanks at its start. -/
def trimStart (s : List Char) : List Char := s.dropWhile isBlank

/-- A text without the blanks at its end. -/
def trimEnd (s : List Char) : List Char := (s.reverse.dropWhile isBlank).reverse

/-- A text without the blanks at either end. -/
def trim (s : List Char) : List Char := trimEnd (trimStart s)

/-- The text starts with a blank. -/
def startsBlank (s : List Char) : Bool := s.head?.any isBlank

/-- The text ends with a blank. -/
def endsBlank (s : List Char) : Bool := s.getLast?.any isBlank

/-- What `trimStart` removes is a run of blanks in front of what it keeps. -/
theorem takeWhile_append_trimStart (s : List Char) : s.takeWhile isBlank ++ trimStart s = s :=
  List.takeWhile_append_dropWhile

/-- What `trimEnd` removes is a run of blanks behind what it keeps. -/
theorem trimEnd_append_takeWhile (s : List Char) :
    trimEnd s ++ (s.reverse.takeWhile isBlank).reverse = s := by
  rw [trimEnd, ← List.reverse_append, List.takeWhile_append_dropWhile, List.reverse_reverse]

end Text
end PageContent
