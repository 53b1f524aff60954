/-
# Where the lines of a paragraph stand

The lines are laid one under the other from the first baseline on, each a line height below the one
in front of it.

| line | starts at |
| --- | --- |
| first, and such lines have an indent of their own | `indentX` |
| sole, and no blanks at the end of the text break it | `indentX` |
| any other | `continuationX` |

A sole line starts at its own indent.  But if the blanks at the end of the text have no room on it,
they break it, and then it is laid as a first line that others follow, though none does
(`isBroken_iff_breaksEnd`).

Each line has one item, of its text and at its place, and the record of the line is that of the item
(`lines_anchored`).  The items are numbered, so the records of a paragraph have distinct names.
-/

import PageContent.Proofs.Paragraph.Room

namespace PageContent
namespace Reflow

open Binary64 (IsZero Level)
open Text (Alternates IsGap endsBlank splitWords)

/-- The text ends with a blank, and with the blanks at its end it has no room. -/
def BreaksEnd (width : List Char → Float) (room : Float) (text : List Char) : Prop :=
  endsBlank text = true ∧ room < total width (splitWords text)

instance (width : List Char → Float) (room : Float) (text : List Char) :
    Decidable (BreaksEnd width room text) :=
  inferInstanceAs (Decidable (_ ∧ _))

/-! ## Texts that end with a blank -/

theorem endsBlank_append_gap (s : List Char) {gap : List Char} (hne : gap ≠ []) (h : IsGap gap) :
    endsBlank (s ++ gap) = true := by
  obtain ⟨c, hc⟩ := Option.ne_none_iff_exists'.1 (mt List.getLast?_eq_none_iff.1 hne)
  rw [endsBlank, List.getLast?_append_of_ne_nil s hne, hc]
  exact h c (List.mem_of_getLast? hc)

/-- Such a text has an empty word behind its last gap. -/
theorem exists_splitWords_eq_concat {text : List Char} (h : endsBlank text = true) :
    ∃ init, splitWords text = init ++ [[]] ∧ init.flatten = text := by
  obtain ⟨word, rest, heq, -⟩ := Text.alternates_splitWords text
  have hne : splitWords text ≠ [] := heq ▸ List.cons_ne_nil word rest
  obtain ⟨init, last, hlast⟩ := (List.eq_nil_or_concat' (splitWords text)).resolve_left hne
  have hgetLast : (splitWords text).getLast? = some last := by
    rw [hlast, List.getLast?_concat]
  have hword := Text.getLast_splitWords hgetLast
  have htext : text = init.flatten ++ last := by
    rw [← Text.flatten_splitWords text, hlast, List.flatten_append, List.flatten_singleton]
  obtain rfl : last = [] := by
    by_contra hlastne
    obtain ⟨c, hc⟩ := Option.ne_none_iff_exists'.1 (mt List.getLast?_eq_none_iff.1 hlastne)
    rw [htext, endsBlank, List.getLast?_append_of_ne_nil _ hlastne, hc] at h
    have hblank : Text.isBlank c = true := h
    exact absurd (hblank.symm.trans (hword c (List.mem_of_getLast? hc))) Bool.noConfusion
  exact ⟨init, hlast, by rw [htext, List.append_nil]⟩

/-- Empty pieces do not change a sum of widths. -/
theorem level_foldl_of_flatten_eq_nil {width : List Char → Float} (hzero : IsZero (width []))
    {pieces : List (List Char)} (h : pieces.flatten = []) (x : Float) :
    Level (pieces.foldl (fun used piece => used + width piece) x) x := by
  induction pieces generalizing x with
  | nil => exact .refl x
  | cons piece pieces ih =>
    rw [List.flatten_cons] at h
    obtain ⟨rfl, hrest⟩ := List.append_eq_nil_iff.1 h
    exact (ih hrest _).trans (Binary64.level_add_of_isZero x hzero)

/-! ## What ends a sole line -/

section Sole

variable {m : Measures} {l : Filled} {atFirst : Bool} {line : List Char} {used : Float}

/-- **A sole line that is broken** is broken by the blanks at the end of the text. -/
theorem fill_endsBlank_of_isBroken (hzero : IsZero (m.width [])) {atWord : Bool}
    {pieces : List (List Char)} (hpieces : Alternates atWord pieces)
    (hline : IsBreakable atWord line) (h : fill m atFirst line used pieces = [l])
    (hbroken : l.isBroken = true) :
    endsBlank (line ++ pieces.flatten) = true ∧
      m.roomAt atFirst < pieces.foldl (fun used piece => used + m.width piece) used := by
  induction pieces generalizing atWord line used with
  | nil =>
    cases line with
    | nil => exact absurd h nofun
    | cons c line =>
      obtain rfl := List.singleton_inj.1 h
      exact absurd hbroken Bool.noConfusion
  | cons piece pieces ih =>
    rcases fill_cons_roomAt m atFirst line used piece pieces with ⟨hne, hroom, heq⟩ | ⟨-, heq⟩ <;>
      rw [heq] at h
    · -- Nothing but blanks is left behind the break.
      obtain ⟨-, hnone⟩ := List.cons_eq_cons.1 h
      have hleft : Text.trimStart piece ++ pieces.flatten = [] := by
        by_contra hleft
        exact fill_ne_nil m hleft false _ hnone
      have hrest : pieces.flatten = [] := (List.append_eq_nil_iff.1 hleft).2
      constructor
      · rw [List.flatten_cons, ← trimEnd_append_lost line piece pieces.flatten, hleft,
          List.append_nil]
        exact endsBlank_append_gap _ (lost_ne_nil hpieces hline hne) (isGap_lost line piece)
      · rw [List.foldl_cons, (level_foldl_of_flatten_eq_nil hzero hrest _).lt_iff]
        exact hroom
    · have hends := ih (alternates_tail hpieces) (isBreakable_append hpieces line) h
      rwa [List.append_assoc, ← List.flatten_cons] at hends

/-- **A line that is not broken has room** for all that is behind a text on it. -/
theorem fill_not_lt_of_isBroken_eq_false {init : List (List Char)} {last : List Char}
    (h : fill m atFirst line used (init ++ [last]) = [l]) (hbroken : l.isBroken = false)
    (hne : line ++ init.flatten ≠ []) :
    ¬ m.roomAt atFirst <
      (init ++ [last]).foldl (fun used piece => used + m.width piece) used := by
  induction init generalizing line used with
  | nil =>
    rw [List.flatten_nil, List.append_nil] at hne
    rcases fill_cons_roomAt m atFirst line used last [] with ⟨-, -, heq⟩ | ⟨hroom, -⟩
    · rw [List.nil_append, heq] at h
      obtain ⟨rfl, -⟩ := List.cons_eq_cons.1 h
      exact absurd hbroken Bool.noConfusion
    · exact hroom hne
  | cons piece init ih =>
    rw [List.flatten_cons, ← List.append_assoc] at hne
    rw [List.cons_append] at h
    rcases fill_cons_roomAt m atFirst line used piece (init ++ [last]) with
      ⟨-, -, heq⟩ | ⟨-, heq⟩ <;> rw [heq] at h
    · obtain ⟨rfl, -⟩ := List.cons_eq_cons.1 h
      exact absurd hbroken Bool.noConfusion
    · exact ih h hne

end Sole

/-- **A sole line is broken exactly if the blanks at the end of the text have no room.** -/
theorem isBroken_iff_breaksEnd (o : ReflowOptions) (p : Paragraph) (widths : Widths)
    (text : List Char) (hzero : IsZero (width o p.style.size widths [])) {l : Filled}
    (h : filled o p widths text = [l]) :
    l.isBroken = true ↔ BreaksEnd (width o p.style.size widths) (budget o p widths 0) text := by
  have hroom : (measures o p widths).roomAt true = budget o p widths 0 :=
    roomAt_measures o p widths 0
  constructor
  · intro hbroken
    obtain ⟨word, rest, heq, hpieces⟩ := Text.alternates_splitWords text
    rw [← heq] at hpieces
    have hends := fill_endsBlank_of_isBroken (m := measures o p widths) hzero hpieces
      (fun _ => .inl rfl) h hbroken
    rwa [List.nil_append, Text.flatten_splitWords, hroom] at hends
  · rintro ⟨hblank, hlt⟩
    obtain ⟨init, hinit, htext⟩ := exists_splitWords_eq_concat hblank
    by_contra hbroken
    rw [Bool.not_eq_true] at hbroken
    rw [filled, hinit] at h
    refine fill_not_lt_of_isBroken_eq_false h hbroken ?_ ?_
    · rw [List.nil_append, htext]
      rintro rfl
      exact absurd hblank Bool.false_ne_true
    · rw [hroom]
      rwa [total, hinit] at hlt

/-! ## Lines at their places -/

/-- The name of the `k`-th line and of its item. -/
def lineName (p : Paragraph) (k : Nat) : String := "reflow-" ++ p.id ++ "-" ++ toString k

theorem lineName_inj {p : Paragraph} {j k : Nat} (h : lineName p j = lineName p k) : j = k :=
  Nat.repr_inj.1 ((String.append_right_inj _).1 h)

/-- The item of the `k`-th line. -/
def itemAt (o : ReflowOptions) (p : Paragraph) (k : Nat) (line : ReflowLine) : Fragment :=
  { id := lineName p k
    content := line.content
    bbox := ⟨line.x, line.y - p.style.size, line.x + o.placeholderWidth, line.y⟩
    origin := some ⟨line.x, line.y⟩
    font := p.style.font
    size := p.style.size }

theorem toLine_eq_start {line : ReflowLine} {item : Fragment} (hitems : line.items = [item])
    (hcontent : line.content = item.content) : line.toLine = Line.start item.id item := by
  unfold ReflowLine.toLine
  rw [hitems]
  unfold Line.start
  rw [hcontent]
  rfl

section Lines

variable {o : ReflowOptions} {fonts : List FontMetrics} {p : Paragraph} {text : String}

theorem length_lines : (lines o fonts p text).length =
    (filled o p (widthsFor fonts p.style.font) text.toList).length := by
  have h := congrArg List.length (map_content_place o p (widthsFor fonts p.style.font) 0 (firstY p)
    (filled o p (widthsFor fonts p.style.font) text.toList))
  rwa [List.length_map, List.length_map] at h

/-- If first lines have no indent of their own, the first line is broken unless it is sole and not
broken by the blanks at the end of the text. -/
theorem isBroken_eq_false_iff {widths : Widths} {text : List Char}
    (hfirst : indentsFirst o widths = false) {l : Filled}
    (hl : (filled o p widths text)[0]? = some l) :
    l.isBroken = false ↔ (filled o p widths text).length = 1 ∧
      ¬ BreaksEnd (width o p.style.size widths) (budget o p widths 0) text := by
  have hzero : IsZero (width o p.style.size widths []) := by
    cases widths with
    | metrics m => exact Binary64.isZero_zero
    | estimate => exact absurd hfirst Bool.noConfusion
  have hsole : filled o p widths text = [l] → (l.isBroken = false ↔
      ¬ BreaksEnd (width o p.style.size widths) (budget o p widths 0) text) := fun hfilled => by
    rw [← isBroken_iff_breaksEnd o p widths text hzero hfilled, Bool.not_eq_true]
  constructor
  · intro hbroken
    have hfilled : filled o p widths text = [l] := fill_eq_singleton _ hl hbroken
    exact ⟨by rw [hfilled]; rfl, (hsole hfilled).1 hbroken⟩
  · rintro ⟨hlength, hends⟩
    obtain ⟨l', hfilled⟩ := List.length_eq_one_iff.1 hlength
    rw [hfilled] at hl
    obtain rfl := Option.some.inj hl
    exact (hsole hfilled).2 hends

/-- **Where a line starts.** -/
theorem startX_eq {widths : Widths} {text : List Char} {k : Nat} {l : Filled}
    (hl : (filled o p widths text)[k]? = some l) :
    startX o p widths k l.isBroken =
      if k = 0 ∧ (indentsFirst o widths = true ∨ (filled o p widths text).length = 1 ∧
          ¬ BreaksEnd (width o p.style.size widths) (budget o p widths 0) text)
      then p.indentX else p.continuationX := by
  refine if_congr ?_ rfl rfl
  rw [Bool.and_eq_true, decide_eq_true_eq, Bool.or_eq_true, Bool.not_eq_true']
  refine and_congr_right ?_
  rintro rfl
  cases hfirst : indentsFirst o widths with
  | true => exact iff_of_true (.inr rfl) (.inl rfl)
  | false => rw [isBroken_eq_false_iff hfirst hl, or_comm]

/-- A line has one item, and its record is that of the item. -/
theorem items_eq_and_toLine_eq {k : Nat} {line : ReflowLine}
    (h : (lines o fonts p text)[k]? = some line) :
    line.items = [itemAt o p k line] ∧
      line.toLine = Line.start (itemAt o p k line).id (itemAt o p k line) := by
  rw [lines, getElem?_place, Nat.zero_add] at h
  obtain ⟨l, -, rfl⟩ := Option.map_eq_some_iff.1 h
  exact ⟨rfl, toLine_eq_start rfl rfl⟩

theorem nodup_id_toLine : ((lines o fonts p text).map fun line => line.toLine.id).Nodup := by
  rw [List.nodup_iff_getElem?_ne_getElem?]
  intro j k hjk hk heq
  rw [List.length_map] at hk
  have hline := fun {i : Nat} (hi : i < (lines o fonts p text).length) =>
    (items_eq_and_toLine_eq (List.getElem?_eq_getElem hi)).2
  rw [List.getElem?_map, List.getElem?_map, List.getElem?_eq_getElem hk,
    List.getElem?_eq_getElem (hjk.trans hk)] at heq
  have hid : (lines o fonts p text)[j].toLine.id = (lines o fonts p text)[k].toLine.id :=
    Option.some.inj heq
  rw [hline hk, hline (hjk.trans hk)] at hid
  exact Nat.ne_of_lt hjk (lineName_inj hid)

end Lines

/-- **Lines are anchored and numbered.**  The `k`-th line stands `k` line heights below the first
baseline.  It starts where the others do, unless it is the first one and such lines have an indent
of their own, or it is the only one and the text does not end with blanks that have no room.  It has
one item, of its text and at its place, and its record is that of the item; the records have
distinct names. -/
theorem lines_anchored (o : ReflowOptions) (fonts : List FontMetrics) (p : Paragraph)
    (text : String) :
    let widths := widthsFor fonts p.style.font
    let ls := lines o fonts p text
    (∀ k line, ls[k]? = some line →
      line.y = (· + lineHeight o p.style.size widths)^[k] (firstY p) ∧
      line.x = (if k = 0 ∧ (indentsFirst o widths = true ∨ ls.length = 1 ∧
          ¬ BreaksEnd (width o p.style.size widths) (budget o p widths 0) text.toList)
        then p.indentX else p.continuationX) ∧
      line.items = [itemAt o p k line] ∧
      line.toLine = Line.start (itemAt o p k line).id (itemAt o p k line)) ∧
    (ls.map fun line => line.toLine.id).Nodup := by
  intro widths ls
  refine ⟨fun k line hline => ?_, nodup_id_toLine⟩
  obtain ⟨hitems, hrecord⟩ := items_eq_and_toLine_eq hline
  have hplace : (lines o fonts p text)[k]? = some line := hline
  rw [lines, getElem?_place, Nat.zero_add] at hplace
  obtain ⟨l, hl, rfl⟩ := Option.map_eq_some_iff.1 hplace
  refine ⟨rfl, ?_, hitems, hrecord⟩
  rw [show ls.length = _ from length_lines]
  exact startX_eq hl

/-- A word alone starts at its indent; with a blank behind it, which has no room, it starts where
other lines do. -/
theorem lines_anchored_trailing :
    let fonts : List FontMetrics := [⟨"Body", some {}⟩]
    let p : Paragraph :=
      { id := "b", bbox := ⟨0, 0, 30, 20⟩, indentX := 20, textX := some 10, style := ⟨"Body", 10⟩ }
    (∃ line, lines {} fonts p "word" = [line] ∧ line.content = "word" ∧ line.x = 20 ∧
      line.toLine.id = "reflow-b-0") ∧
    ∃ line, lines {} fonts p "word " = [line] ∧ line.content = "word" ∧ line.x = 10 ∧
      line.toLine.id = "reflow-b-0" := by
  intro fonts p
  have hsole : ∀ text ∈ ["word", "word "], contents {} fonts p text = ["word"] := by decide +kernel
  have hends : ¬ BreaksEnd (width {} 10 (widthsFor fonts "Body"))
      (budget {} p (widthsFor fonts "Body") 0) "word".toList := by decide +kernel
  have hends' : BreaksEnd (width {} 10 (widthsFor fonts "Body"))
      (budget {} p (widthsFor fonts "Body") 0) "word ".toList := by decide +kernel
  have hline : ∀ text ∈ ["word", "word "], ∃ line, lines {} fonts p text = [line] ∧
      line.content = "word" := fun text htext =>
    List.map_eq_singleton_iff.1 (hsole text htext)
  constructor
  · obtain ⟨line, hlines, hcontent⟩ := hline "word" (by simp)
    obtain ⟨-, hx, -, hrecord⟩ := (lines_anchored {} fonts p "word").1 0 line (by rw [hlines]; rfl)
    refine ⟨line, hlines, hcontent, ?_, by rw [hrecord]; rfl⟩
    rw [hx, if_pos ⟨rfl, .inr ⟨by rw [hlines]; rfl, hends⟩⟩]
  · obtain ⟨line, hlines, hcontent⟩ := hline "word " (by simp)
    obtain ⟨-, hx, -, hrecord⟩ := (lines_anchored {} fonts p "word ").1 0 line (by rw [hlines]; rfl)
    refine ⟨line, hlines, hcontent, ?_, by rw [hrecord]; rfl⟩
    rw [hx, if_neg]
    · rfl
    · rintro ⟨-, hfirst | ⟨-, hnot⟩⟩
      · exact absurd hfirst Bool.false_ne_true
      · exact hnot hends'

end Reflow
end PageContent
