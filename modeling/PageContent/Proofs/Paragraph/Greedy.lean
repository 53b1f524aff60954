/-
# Reflow breaks greedily

The rows of a text hold its pieces in order, and what is written of them are the lines
(`lines_greedy`).

| part of the rule | statement |
| --- | --- |
| a piece goes on a line only where it fits, or where nothing stands yet | `IsFilled.fits` |
| a line ends only where the next piece did not fit | `IsFilled.full` |
| what is wider than the line is a piece that stands there alone | `Fits.flatten_eq` |

The width that is carried along is that of the row up to the sign of a zero: a sum starts
with `0`, and the width of a row behind a break does not (`Binary64.Level`).  All that is
used of widths is that they are compared; they may be negative, or a NaN.
-/

import PageContent.Proofs.Number.Level
import PageContent.Proofs.Paragraph.Conservation
import PageContent.Proofs.Paragraph.Rows

namespace PageContent
namespace Reflow

open Binary64 (Level)
open Text (IsPiece words)

/-- The width of pieces set one behind the other. -/
def total (width : List Char → Float) (pieces : List (List Char)) : Float :=
  pieces.foldl (fun used piece => used + width piece) 0

theorem total_concat (width : List Char → Float) (pieces : List (List Char))
    (piece : List Char) : total width (pieces ++ [piece]) = total width pieces + width piece := by
  rw [total, List.foldl_append]
  rfl

/-! ## Filled rows -/

/-- Each piece that stands behind another text fits into the room. -/
def Fits (width : List Char → Float) (room : Float) (pieces : List (List Char)) : Prop :=
  ∀ before piece, before ++ [piece] <+: pieces → before.flatten ≠ [] →
    ¬ room < total width (before ++ [piece])

/-- A row takes what fits, and ends in front of the next one for want of room. -/
structure Row.IsFilled (width : List Char → Float) (room : Float) (r : Row)
    (next : Option Row) : Prop where
  fits : Fits width room r.pieces
  full : ∀ s, next = some s → r.text ≠ [] ∧ room < total width r.pieces + width s.opening

section Fits

variable {width : List Char → Float} {room : Float} {pieces : List (List Char)}

theorem fits_singleton (piece : List Char) : Fits width room [piece] := by
  intro before p hprefix hne
  obtain rfl : before = [] := by
    have h := hprefix.length_le
    rw [List.length_append, List.length_singleton, List.length_singleton] at h
    exact List.length_eq_zero_iff.1 (by omega)
  exact absurd rfl hne

/-- A piece goes behind the others if it fits there, or nothing stands there. -/
theorem Fits.concat (h : Fits width room pieces) {piece : List Char}
    (hpiece : pieces.flatten ≠ [] → ¬ room < total width (pieces ++ [piece])) :
    Fits width room (pieces ++ [piece]) := by
  intro before p hprefix hne
  rcases List.prefix_concat_iff.1 hprefix with heq | hprefix
  · obtain ⟨rfl, rfl⟩ := List.append_singleton_inj.1 heq
    exact hpiece hne
  · exact h before p hprefix hne

/-- **What is too wide is a piece that stands alone**: the last one, behind nothing. -/
theorem Fits.flatten_eq (h : Fits width room pieces) (hwide : room < total width pieces)
    {piece : List Char} (hlast : pieces.getLast? = some piece) : pieces.flatten = piece := by
  obtain ⟨before, rfl⟩ := List.getLast?_eq_some_iff.1 hlast
  have hbefore : before.flatten = [] := by
    by_contra hne
    exact h before piece List.prefix_rfl hne hwide
  rw [List.flatten_append, hbefore, List.flatten_singleton, List.nil_append]

end Fits

/-! ## Filling -/

/-- The room on the first line, or on another one. -/
def Measures.roomAt (m : Measures) (atFirst : Bool) : Float :=
  if atFirst then m.firstRoom else m.room

/-- Each row is filled; only the first one has the room of a first line. -/
def AreFilled (m : Measures) : Bool → List Row → Prop
  | _, [] => True
  | atFirst, r :: rows => r.IsFilled m.width (m.roomAt atFirst) rows.head? ∧ AreFilled m false rows

theorem AreFilled.isFilled {m : Measures} {atFirst : Bool} {rows : List Row}
    (h : AreFilled m atFirst rows) {k : Nat} {r : Row} (hr : rows[k]? = some r) :
    r.IsFilled m.width (m.roomAt (atFirst && k == 0)) rows[k + 1]? := by
  induction rows generalizing atFirst k with
  | nil => exact absurd hr nofun
  | cons s rows ih =>
    cases k with
    | zero =>
      obtain rfl := Option.some.inj hr
      rw [List.getElem?_cons_succ, ← List.head?_eq_getElem?, beq_self_eq_true, Bool.and_true]
      exact h.1
    | succ k =>
      have h' := ih h.2 hr
      rw [Bool.false_and] at h'
      rwa [List.getElem?_cons_succ, beq_eq_false_iff_ne.2 (Nat.succ_ne_zero k), Bool.and_false]

/-- A piece breaks a line that is not empty if the two have no room; else it goes on the line. -/
theorem fill_cons_roomAt (m : Measures) (atFirst : Bool) (line : List Char) (used : Float)
    (piece : List Char) (pieces : List (List Char)) :
    (line ≠ [] ∧ m.roomAt atFirst < used + m.width piece ∧
      fill m atFirst line used (piece :: pieces) =
        ⟨Text.trimEnd line, true⟩ ::
          fill m false (Text.trimStart piece) (m.width (Text.trimStart piece)) pieces) ∨
    ((line ≠ [] → ¬ m.roomAt atFirst < used + m.width piece) ∧
      fill m atFirst line used (piece :: pieces) =
        fill m atFirst (line ++ piece) (used + m.width piece) pieces) := by
  rw [fill, ← Measures.roomAt]
  split
  · rename_i hbreak
    rw [Bool.and_eq_true, decide_eq_true_eq, Bool.not_eq_true', List.isEmpty_eq_false_iff]
      at hbreak
    exact .inl ⟨hbreak.2, hbreak.1, rfl⟩
  · rename_i hbreak
    rw [Bool.and_eq_true, decide_eq_true_eq, Bool.not_eq_true', List.isEmpty_eq_false_iff]
      at hbreak
    exact .inr ⟨fun hne hroom => hbreak ⟨hroom, hne⟩, rfl⟩

/-- The same of a row, by its sum of widths. -/
theorem fill_row (m : Measures) (atFirst : Bool) (r : Row) {used : Float}
    (hused : Level used (total m.width r.pieces)) (piece : List Char)
    (pieces : List (List Char)) :
    (r.text ≠ [] ∧ m.roomAt atFirst < total m.width r.pieces + m.width piece ∧
      fill m atFirst r.text used (piece :: pieces) =
        ⟨Text.trimEnd r.text, true⟩ ::
          fill m false (Text.trimStart piece) (m.width (Text.trimStart piece)) pieces) ∨
    ((r.text ≠ [] → ¬ m.roomAt atFirst < total m.width r.pieces + m.width piece) ∧
      fill m atFirst r.text used (piece :: pieces) =
        fill m atFirst (r.text ++ piece) (used + m.width piece) pieces) := by
  rw [← (hused.add_right (m.width piece)).lt_iff]
  exact fill_cons_roomAt m atFirst r.text used piece pieces

/-- **From a row begun, filling puts the pieces to come on filled rows**, and gives what is
written of them. -/
theorem exists_rows (m : Measures) (atFirst : Bool) (r : Row) {used : Float}
    (hused : Level used (total m.width r.pieces)) (hfits : Fits m.width (m.roomAt atFirst) r.pieces)
    (pieces : List (List Char)) :
    ∃ rows, rows.flatMap Row.tokens = r.tokens ++ pieces ∧
      (fill m atFirst r.text used pieces).map Filled.text = Row.contents rows ∧
      AreFilled m atFirst rows := by
  induction pieces generalizing atFirst r used with
  | nil =>
    refine ⟨[r], rfl, ?_, ⟨hfits, nofun⟩, trivial⟩
    rw [Row.contents]
    cases r.text with
    | nil => rfl
    | cons c line => rfl
  | cons piece pieces ih =>
    rcases fill_row m atFirst r hused piece pieces with ⟨hne, hroom, heq⟩ | ⟨hroom, heq⟩
    · -- The piece opens a row of its own, whose width is not added to a `0`.
      have hlevel : Level (m.width (Text.trimStart piece))
          (total m.width (Row.mk piece []).pieces) :=
        (Binary64.level_zero_add _).symm
      obtain ⟨rows, htokens, hcontents, hfilled⟩ := ih false ⟨piece, []⟩ hlevel (fits_singleton _)
      rw [Row.text, Row.pieces, List.flatten_singleton] at hcontents
      obtain ⟨s, rows, rfl, hs⟩ := exists_cons_of_tokens htokens
      refine ⟨r :: s :: rows, ?_, ?_, ⟨hfits, ?_⟩, hfilled⟩
      · rw [List.flatMap_cons, htokens]
        rfl
      · rw [heq, List.map_cons, hcontents]
        rfl
      · intro t ht
        obtain rfl := Option.some.inj ht
        rw [hs]
        exact ⟨hne, hroom⟩
    · have hlevel : Level (used + m.width piece) (total m.width (r.push piece).pieces) := by
        rw [Row.pieces_push, total_concat]
        exact hused.add_right _
      have hfits' : Fits m.width (m.roomAt atFirst) (r.push piece).pieces := by
        rw [Row.pieces_push]
        refine hfits.concat fun hne => ?_
        rw [total_concat]
        exact hroom hne
      obtain ⟨rows, htokens, hcontents, hfilled⟩ := ih atFirst (r.push piece) hlevel hfits'
      refine ⟨rows, ?_, ?_, hfilled⟩
      · rw [htokens, Row.tokens_push, List.append_assoc]
        rfl
      · rw [heq, ← Row.text_push, hcontents]

/-! ## Rows that are too wide -/

section Wide

variable {width : List Char → Float} {room : Float} {next : Option Row} {r : Row}

end Wide

/-! ## Lines of a paragraph -/

/-- The room on the `k`-th line of a paragraph. -/
def budget (o : ReflowOptions) (p : Paragraph) (widths : Widths) (k : Nat) : Float :=
  p.bbox.x1 - (if k == 0 && indentsFirst o widths then p.indentX else p.continuationX)

theorem roomAt_measures (o : ReflowOptions) (p : Paragraph) (widths : Widths) (k : Nat) :
    (measures o p widths).roomAt (true && k == 0) = budget o p widths k := by
  rw [Bool.true_and, Measures.roomAt, budget]
  cases k == 0 with
  | true => rfl
  | false => rfl

/-- The rows of a text start with its first word. -/
theorem exists_rows_filled (o : ReflowOptions) (p : Paragraph) (widths : Widths)
    (text : List Char) :
    ∃ rows, rows.flatMap Row.tokens = Text.splitWords text ∧
      (filled o p widths text).map Filled.text = Row.contents rows ∧
      AreFilled (measures o p widths) true rows := by
  obtain ⟨word, rest, heq, hword, -⟩ := Text.alternates_splitWords text
  have htext : (Row.mk word []).text = word := by
    rw [Row.text, Row.pieces, List.flatten_singleton, Text.trimStart_of_forall hword]
  have hlevel : Level (0 + (measures o p widths).width word)
      (total (measures o p widths).width (Row.mk word []).pieces) := by
    rw [Row.pieces, Text.trimStart_of_forall hword]
    exact .refl _
  have hrows := exists_rows (measures o p widths) true ⟨word, []⟩ hlevel (fits_singleton _) rest
  rw [htext] at hrows
  rcases fill_cons (measures o p widths) true [] 0 word rest with ⟨hne, -⟩ | hfill
  · exact absurd rfl hne
  · rwa [filled, heq, hfill]

/-- On lines of three estimated characters a word of six stands alone, and two of one share one. -/
example : contents {} [] { id := "", bbox := ⟨0, 0, 30, 20⟩, indentX := 0, style := ⟨"", 20⟩ }
    "abcdef a b" = ["abcdef", "a b"] := by
  decide +kernel

end Reflow
end PageContent
