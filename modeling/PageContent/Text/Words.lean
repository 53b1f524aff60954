/-
# Words and the gaps between them

`splitWords` cuts a text into word, gap, word, …, word: the pieces at even
places hold no blank, those at odd places are runs of blanks, and only the first
and the last word may be empty.

| text | pieces |
| --- | --- |
| the empty text | one empty word |
| `a b` | `a`, one space, `b` |
| one space | an empty word, one space, an empty word |

The pieces are built from the end of the text: a character goes in front of the
pieces of what follows it.
-/

import PageContent.Text.Blank

namespace PageContent
namespace Text

/-- The pieces of `c :: s` from the pieces of `s`: a word character lengthens the
first word; a blank lengthens the gap behind an empty first word, or else opens a
gap of its own. -/
def prependChar (c : Char) : List (List Char) → List (List Char)
  | [] :: gap :: rest =>
    if isBlank c then [] :: (c :: gap) :: rest else [c] :: gap :: rest
  | word :: rest =>
    if isBlank c then [] :: [c] :: word :: rest else (c :: word) :: rest
  | [] => [[c]]

/-- Words and gaps in turn, starting and ending with a word. -/
def splitWords (s : List Char) : List (List Char) := s.foldr prependChar [[]]

theorem splitWords_cons (c : Char) (s : List Char) :
    splitWords (c :: s) = prependChar c (splitWords s) := rfl

theorem flatten_prependChar (c : Char) (pieces : List (List Char)) :
    (prependChar c pieces).flatten = c :: pieces.flatten := by
  unfold prependChar
  split
  · split <;> simp
  · split <;> simp
  · simp

/-- Cutting a text into words and gaps loses nothing. -/
theorem flatten_splitWords (s : List Char) : (splitWords s).flatten = s := by
  induction s with
  | nil => rfl
  | cons c s ih => rw [splitWords_cons, flatten_prependChar, ih]

example : splitWords " a  b".toList = [[], [' '], ['a'], [' ', ' '], ['b']] := by decide

end Text
end PageContent
