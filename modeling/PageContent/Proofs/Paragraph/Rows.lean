/-
# Rows

A row is a line as it is filled: the pieces of the text that go on it, the first of them
without its leading blanks.

| of a row | is |
| --- | --- |
| `Row.tokens` | the pieces of the text that it takes |
| `Row.pieces` | what stands on the line |
| `Row.contents` | what is written: no trailing blanks, if another row follows |

The pieces of a row stand together among those of the text, so they are words and gaps in
turn, and those of the last row end with a word.  On the line the row starts with a word in
any case: a gap that opens it is lost there (`Row.exists_inTurn`).
-/

import PageContent.Proofs.Text.Split

namespace PageContent
namespace Reflow

open Text (InTurn IsPiece IsSplit)

/-- A line as it is filled: the piece of the text that opens it and those that follow. -/
structure Row where
  opening : List Char
  more : List (List Char)

namespace Row

/-- The pieces of the text that the row takes. -/
def tokens (r : Row) : List (List Char) := r.opening :: r.more

/-- What stands on the line: the opening piece loses its leading blanks. -/
def pieces (r : Row) : List (List Char) := Text.trimStart r.opening :: r.more

def text (r : Row) : List Char := r.pieces.flatten

/-- A piece behind the others. -/
def push (r : Row) (piece : List Char) : Row := { r with more := r.more ++ [piece] }

theorem tokens_push (r : Row) (piece : List Char) :
    (r.push piece).tokens = r.tokens ++ [piece] := rfl

theorem pieces_push (r : Row) (piece : List Char) :
    (r.push piece).pieces = r.pieces ++ [piece] := rfl

theorem text_push (r : Row) (piece : List Char) : (r.push piece).text = r.text ++ piece := by
  rw [text, pieces_push, List.flatten_append, List.flatten_singleton, text]

/-- What is written of rows: each but the last without its trailing blanks, and the last one
unless it is empty. -/
def contents : List Row → List (List Char)
  | [] => []
  | [r] => if r.text = [] then [] else [r.text]
  | r :: s :: rows => Text.trimEnd r.text :: contents (s :: rows)

end Row

variable {rows : List Row} {k : Nat} {r : Row}

/-- The rows of some pieces start with the first of these. -/
theorem exists_cons_of_tokens {piece : List Char} {pieces : List (List Char)}
    (h : rows.flatMap Row.tokens = piece :: pieces) :
    ∃ s rows', rows = s :: rows' ∧ s.opening = piece := by
  cases rows with
  | nil => exact absurd h nofun
  | cons s rows' =>
    rw [List.flatMap_cons] at h
    exact ⟨s, rows', rfl, (List.cons.inj h).1⟩

/-- The pieces of a row stand together: in front of the first row stands nothing, and behind
a row the piece that opens the next one. -/
theorem exists_append_tokens (hr : rows[k]? = some r) :
    ∃ before after, rows.flatMap Row.tokens = before ++ (r.tokens ++ after) ∧
      (before = [] ↔ k = 0) ∧ after.head? = rows[k + 1]?.map Row.opening := by
  induction rows generalizing k with
  | nil => exact absurd hr nofun
  | cons s rows ih =>
    cases k with
    | zero =>
      obtain rfl := Option.some.inj hr
      refine ⟨[], rows.flatMap Row.tokens, rfl, iff_of_true rfl rfl, ?_⟩
      cases rows with
      | nil => rfl
      | cons t rows => rfl
    | succ k =>
      obtain ⟨before, after, heq, -, hafter⟩ := ih hr
      refine ⟨s.tokens ++ before, after, ?_, iff_of_false nofun (Nat.succ_ne_zero k), hafter⟩
      rw [List.flatMap_cons, heq, List.append_assoc]

/-- What is written is that of a row: without its trailing blanks if another one follows, else
as it is, unless it is empty. -/
theorem Row.exists_of_getElem?_contents {content : List Char}
    (h : (Row.contents rows)[k]? = some content) :
    ∃ r, rows[k]? = some r ∧
      ((∃ s, rows[k + 1]? = some s) ∧ content = Text.trimEnd r.text ∨
        rows[k + 1]? = none ∧ content = r.text ∧ r.text ≠ []) := by
  induction rows generalizing k with
  | nil => simp [Row.contents] at h
  | cons r rows ih =>
    cases rows with
    | nil =>
      by_cases hne : r.text = []
      · simp [Row.contents, hne] at h
      · rw [Row.contents, if_neg hne] at h
        cases k with
        | zero => exact ⟨r, rfl, .inr ⟨rfl, (Option.some.inj h).symm, hne⟩⟩
        | succ k => simp at h
    | cons s rows =>
      cases k with
      | zero => exact ⟨r, rfl, .inl ⟨⟨s, rfl⟩, (Option.some.inj h).symm⟩⟩
      | succ k => exact ih h

/-! ## Words and gaps on a row -/

theorem Row.getLast_pieces {word : List Char} (hlast : r.tokens.getLast? = some word)
    (hword : ∀ c ∈ word, Text.isBlank c = false) : r.pieces.getLast? = some word := by
  obtain ⟨opening, more⟩ := r
  cases more with
  | nil =>
    obtain rfl := Option.some.inj hlast
    exact congrArg some (Text.trimStart_of_forall hword)
  | cons piece more =>
    rw [Row.tokens, List.getLast?_cons_cons] at hlast
    rw [Row.pieces, List.getLast?_cons_cons, hlast]

/-- The last row ends with a word. -/
theorem Row.exists_getLast_tokens {text : List Char}
    (htokens : rows.flatMap Row.tokens = Text.splitWords text) (hr : rows[k]? = some r)
    (hlast : rows[k + 1]? = none) :
    ∃ word, r.tokens.getLast? = some word ∧ ∀ c ∈ word, Text.isBlank c = false := by
  obtain ⟨before, after, heq, -, hafter⟩ := exists_append_tokens hr
  obtain rfl : after = [] := List.head?_eq_none_iff.1 (by rw [hafter, hlast]; rfl)
  have hne : r.tokens ≠ [] := List.cons_ne_nil _ _
  have hgetLast := List.getLast?_eq_some_getLast hne
  refine ⟨_, hgetLast, Text.getLast_splitWords (s := text) ?_⟩
  rw [← htokens, heq, List.append_nil, List.getLast?_append_of_ne_nil _ hne, hgetLast]

/-- The pieces of a row are words and gaps in turn. -/
theorem Row.exists_inTurn_tokens {text : List Char}
    (htokens : rows.flatMap Row.tokens = Text.splitWords text) (hr : rows[k]? = some r) :
    ∃ atWord, InTurn atWord r.tokens := by
  obtain ⟨before, after, heq, -⟩ := exists_append_tokens hr
  have h := (Text.isSplit_splitWords text).toInTurn
  rw [← htokens, heq] at h
  exact h.infix

/-- **A row starts with a word**, or with what is left of a gap and a word. -/
theorem Row.exists_inTurn {atWord : Bool} (h : InTurn atWord r.tokens) :
    ∃ pieces, InTurn true pieces ∧ (r.pieces = pieces ∨ r.pieces = [] :: pieces) := by
  obtain ⟨opening, more⟩ := r
  cases atWord with
  | true =>
    refine ⟨opening :: more, h, .inl ?_⟩
    rw [Row.pieces, Text.trimStart_of_forall h.alternates.1]
  | false =>
    refine ⟨more, h.of_gap, .inr ?_⟩
    rw [Row.pieces, h.alternates.2.1.trimStart_eq_nil]

end Reflow
end PageContent
