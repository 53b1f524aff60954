/-
# Reflow keeps the text

Whatever the measures, the lines that words and gaps fill are the contents of a
weave of the text (`isWeave_fill`): what is not on a line is a gap behind one.
The invariant is on the line being filled.  In front of a gap it may be
anything, since the gap, if it breaks the line, is lost as a whole; in front of
a word it is empty or ends with a blank, so that a break loses a blank there
too.

From the weave come the words of the lines and, for a text of single spaces, the
text itself (`lines_conserve`).  No number is looked at: a width may be a NaN.
-/

import PageContent.Paragraph.Reflow
import PageContent.Proofs.Text.Words

namespace PageContent
namespace Reflow

open Text (IsGap IsWeave IsSingleSpaced Alternates words trailing)

/-- A piece breaks a line that is not empty, or goes on it. -/
theorem fill_cons (m : Measures) (atFirst : Bool) (line : List Char) (used : Float)
    (piece : List Char) (pieces : List (List Char)) :
    (line ≠ [] ∧ fill m atFirst line used (piece :: pieces) =
      ⟨Text.trimEnd line, true⟩ ::
        fill m false (Text.trimStart piece) (m.width (Text.trimStart piece)) pieces) ∨
    fill m atFirst line used (piece :: pieces) =
      fill m atFirst (line ++ piece) (used + m.width piece) pieces := by
  rw [fill]
  generalize (if atFirst then m.firstRoom else m.room) = room
  split
  · rename_i hbreak
    rw [Bool.and_eq_true, Bool.not_eq_true', List.isEmpty_eq_false_iff] at hbreak
    exact .inl ⟨hbreak.2, rfl⟩
  · exact .inr rfl

/-! ## One break -/

/-- The line may be broken in front of the next piece without words running together. -/
def IsBreakable (atWord : Bool) (line : List Char) : Prop :=
  atWord = true → line = [] ∨ trailing line ≠ []

/-- What a break in front of a piece loses: the blanks at the end of the line and those at the
start of the piece. -/
def lost (line piece : List Char) : List Char := trailing line ++ piece.takeWhile Text.isBlank

theorem isGap_lost (line piece : List Char) : IsGap (lost line piece) :=
  (Text.isGap_trailing line).append (Text.isGap_takeWhile piece)

/-- A break loses nothing else. -/
theorem trimEnd_append_lost (line piece rest : List Char) :
    Text.trimEnd line ++ (lost line piece ++ (Text.trimStart piece ++ rest)) =
      line ++ (piece ++ rest) := by
  calc
    _ = (Text.trimEnd line ++ trailing line) ++
        ((piece.takeWhile Text.isBlank ++ Text.trimStart piece) ++ rest) := by
      simp only [lost, List.append_assoc]
    _ = line ++ (piece ++ rest) := by
      rw [Text.trimEnd_append_trailing, Text.takeWhile_append_trimStart]

variable {atWord : Bool} {line piece : List Char} {pieces : List (List Char)}

theorem lost_ne_nil (hpieces : Alternates atWord (piece :: pieces))
    (hline : IsBreakable atWord line) (hne : line ≠ []) : lost line piece ≠ [] := by
  intro h
  obtain ⟨htrailing, htake⟩ := List.append_eq_nil_iff.1 h
  cases atWord with
  | true => exact ((hline rfl).resolve_left hne) htrailing
  | false =>
    obtain ⟨hpiece, hgap, -⟩ := hpieces
    refine hpiece ?_
    rw [← Text.takeWhile_append_trimStart piece, htake, hgap.trimStart_eq_nil, List.append_nil]

/-- The line that a break begins may be broken in front of the next piece. -/
theorem isBreakable_trimStart (hpieces : Alternates atWord (piece :: pieces)) :
    IsBreakable (!atWord) (Text.trimStart piece) := by
  intro hword
  cases atWord with
  | true => exact absurd hword Bool.false_ne_true
  | false => exact .inl hpieces.2.1.trimStart_eq_nil

/-- So may the line that a piece goes on. -/
theorem isBreakable_append (hpieces : Alternates atWord (piece :: pieces)) (line : List Char) :
    IsBreakable (!atWord) (line ++ piece) := by
  intro hword
  cases atWord with
  | true => exact absurd hword Bool.false_ne_true
  | false => exact .inr (Text.trailing_append_ne_nil line hpieces.1 hpieces.2.1)

theorem alternates_tail (hpieces : Alternates atWord (piece :: pieces)) :
    Alternates (!atWord) pieces := by
  cases atWord with
  | true => exact hpieces.2
  | false => exact hpieces.2.2

/-! ## A whole text -/

/-- **Filling lines weaves a text** out of the line begun and the pieces to come. -/
theorem isWeave_fill (m : Measures) (hpieces : Alternates atWord pieces)
    (hline : IsBreakable atWord line) (atFirst : Bool) (used : Float) :
    ∃ gaps, IsWeave ((fill m atFirst line used pieces).map Filled.text) gaps
      (line ++ pieces.flatten) := by
  induction pieces generalizing atWord atFirst line used with
  | nil =>
    rw [List.flatten_nil, List.append_nil]
    cases line with
    | nil => exact ⟨[], .nil⟩
    | cons c line =>
      have h := IsWeave.cons (c :: line) Text.isGap_nil (fun h => absurd rfl h) .nil
      rw [List.append_nil, List.append_nil] at h
      exact ⟨[[]], h⟩
  | cons piece pieces ih =>
    have hnext := alternates_tail hpieces
    rcases fill_cons m atFirst line used piece pieces with ⟨hne, heq⟩ | heq <;> rw [heq]
    · obtain ⟨gaps, h⟩ := ih hnext (isBreakable_trimStart hpieces) false
        (m.width (Text.trimStart piece))
      have hweave := h.cons (Text.trimEnd line) (isGap_lost line piece) fun _ =>
        lost_ne_nil hpieces hline hne
      rw [trimEnd_append_lost, ← List.flatten_cons] at hweave
      exact ⟨lost line piece :: gaps, hweave⟩
    · obtain ⟨gaps, h⟩ := ih hnext (isBreakable_append hpieces line) atFirst
        (used + m.width piece)
      rw [List.append_assoc, ← List.flatten_cons] at h
      exact ⟨gaps, h⟩

/-- The lines of a text weave it. -/
theorem isWeave_filled (o : ReflowOptions) (p : Paragraph) (widths : Widths) (text : List Char) :
    ∃ gaps, IsWeave ((filled o p widths text).map Filled.text) gaps text := by
  obtain ⟨word, rest, heq, h⟩ := Text.alternates_splitWords text
  rw [← heq] at h
  have hweave := isWeave_fill (measures o p widths) h (fun _ => .inl rfl) true 0
  rwa [Text.flatten_splitWords, List.nil_append] at hweave

/-- Something begun comes out as a line. -/
theorem fill_ne_nil (m : Measures) (h : line ++ pieces.flatten ≠ []) (atFirst : Bool)
    (used : Float) : fill m atFirst line used pieces ≠ [] := by
  induction pieces generalizing atFirst line used with
  | nil =>
    rw [List.flatten_nil, List.append_nil] at h
    cases line with
    | nil => exact absurd rfl h
    | cons c line => exact List.cons_ne_nil _ _
  | cons piece pieces ih =>
    rcases fill_cons m atFirst line used piece pieces with ⟨-, heq⟩ | heq <;> rw [heq]
    · exact List.cons_ne_nil _ _
    · exact ih (by rwa [List.append_assoc, ← List.flatten_cons]) atFirst (used + m.width piece)

/-- Only the empty text has no line. -/
theorem filled_eq_nil_iff (o : ReflowOptions) (p : Paragraph) (widths : Widths)
    (text : List Char) : filled o p widths text = [] ↔ text = [] := by
  constructor
  · intro h
    by_contra hne
    have hpieces : [] ++ (Text.splitWords text).flatten ≠ [] := by
      rwa [List.nil_append, Text.flatten_splitWords]
    exact fill_ne_nil (measures o p widths) hpieces true 0 h
  · rintro rfl
    rw [filled, Text.splitWords, List.foldr_nil]
    rcases fill_cons (measures o p widths) true [] 0 [] [] with ⟨hne, -⟩ | heq
    · exact absurd rfl hne
    · rw [heq]
      rfl

/-- Placing lines changes no content. -/
theorem map_content_place (o : ReflowOptions) (p : Paragraph) (widths : Widths) (n : Nat)
    (y : Float) (ls : List Filled) :
    (place o p widths n y ls).map ReflowLine.content = ls.map (String.ofList ∘ Filled.text) := by
  induction ls generalizing n y with
  | nil => rfl
  | cons l ls ih =>
    rw [place, List.map_cons, List.map_cons, ih]
    rfl

/-- The contents of the lines that a text is broken into. -/
def contents (o : ReflowOptions) (fonts : List FontMetrics) (p : Paragraph) (text : String) :
    List String :=
  (lines o fonts p text).map ReflowLine.content

theorem map_toList_contents (o : ReflowOptions) (fonts : List FontMetrics) (p : Paragraph)
    (text : String) :
    (contents o fonts p text).map String.toList =
      (filled o p (widthsFor fonts p.style.font) text.toList).map Filled.text := by
  rw [contents, lines, map_content_place, List.map_map]
  exact List.map_congr_left fun _ _ => String.toList_ofList

theorem lines_eq_nil_iff (o : ReflowOptions) (fonts : List FontMetrics) (p : Paragraph)
    (text : String) : lines o fonts p text = [] ↔ text = "" := by
  rw [← List.map_eq_nil_iff (f := ReflowLine.content), ← contents,
    ← List.map_eq_nil_iff (f := String.toList), map_toList_contents, List.map_eq_nil_iff,
    filled_eq_nil_iff, String.toList_eq_nil_iff]

/-- **Reflow loses and invents no text and cuts no word.**  A text has no line only if it is
empty.  Its lines are the contents of a weave of it, so that they have its words; if its gaps
are single spaces, the lines joined by spaces are the text, and break into the same lines. -/
theorem lines_conserve (o : ReflowOptions) (fonts : List FontMetrics) (p : Paragraph)
    (text : String) :
    (lines o fonts p text = [] ↔ text = "") ∧
    (∃ gaps, IsWeave ((contents o fonts p text).map String.toList) gaps text.toList) ∧
    (contents o fonts p text).flatMap (fun c => words c.toList) = words text.toList ∧
    (IsSingleSpaced text.toList → " ".intercalate (contents o fonts p text) = text ∧
      lines o fonts p (" ".intercalate (contents o fonts p text)) = lines o fonts p text) := by
  obtain ⟨gaps, hweave⟩ := isWeave_filled o p (widthsFor fonts p.style.font) text.toList
  rw [← map_toList_contents] at hweave
  refine ⟨lines_eq_nil_iff o fonts p text, ⟨gaps, hweave⟩, ?_, fun hspaced => ?_⟩
  · rw [← hweave.flatMap_words, List.flatMap_map]
  · have hjoined : " ".intercalate (contents o fonts p text) = text := by
      rw [← String.toList_inj, String.toList_intercalate]
      exact hweave.intercalate_eq hspaced.end_eq hspaced.run_eq
    exact ⟨hjoined, by rw [hjoined]⟩

/-- On lines three estimated characters wide, two words come out on two lines, and joined are the
text again. -/
theorem lines_conserve_two_words :
    IsSingleSpaced "ab cd".toList ∧
      contents {} [] { id := "", bbox := ⟨0, 0, 30, 20⟩, indentX := 0, style := ⟨"", 20⟩ } "ab cd" =
        ["ab", "cd"] ∧
      " ".intercalate (contents {} []
        { id := "", bbox := ⟨0, 0, 30, 20⟩, indentX := 0, style := ⟨"", 20⟩ } "ab cd") = "ab cd" :=
  ⟨by decide, by decide +kernel, ((lines_conserve {} [] _ "ab cd").2.2.2 (by decide)).1⟩

end Reflow
end PageContent
