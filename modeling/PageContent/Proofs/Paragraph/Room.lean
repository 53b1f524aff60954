/-
# Lines of two words fit

A line is filled within the room between a place and the right edge, so one with two words
has a sum of widths no larger than that (`Row.IsFilled.not_lt_total`).  The line starts at the
place that its room was measured from, but for one case:

| line | widths | room measured from | starts at |
| --- | --- | --- | --- |
| first of several | estimate | `indentX` | `indentX` |
| first of several | metrics | `continuationX` | `continuationX` |
| sole | estimate | `indentX` | `indentX` |
| sole | metrics | `continuationX` | `indentX` |
| any other | either | `continuationX` | `continuationX` |

A sole line of measured widths fits all the same if its indent is not beyond the place of the
other lines: the more is taken from the right edge, the less remains
(`Binary64.sub_le_sub_left`).
-/

import PageContent.Proofs.Number.Decimals
import PageContent.Proofs.Number.Ordered
import PageContent.Proofs.Paragraph.Greedy

namespace PageContent
namespace Reflow

open Binary64 (IsZero Level)
open Text (InTurn IsSplit words splitWords)

/-! ## The sum of a line -/

section Sums

variable {width : List Char → Float}

/-- What is left of a gap at a break has no width. -/
theorem level_total_nil_cons (hzero : IsZero (width [])) (pieces : List (List Char)) :
    Level (total width ([] :: pieces)) (total width pieces) :=
  Level.foldl (.inr ⟨Binary64.isZero_add Binary64.isZero_zero hzero, Binary64.isZero_zero⟩) width
    pieces

/-- Words with a gap between them fit beside each other, whatever stands in front. -/
theorem Fits.not_lt_total {room : Float} {front pieces kept : List (List Char)}
    (h : Fits width room (front ++ pieces)) (hbegin : kept <+: pieces) (hkept : IsSplit kept)
    (htwo : 2 ≤ kept.length) : ¬ room < total width (front ++ kept) := by
  match kept, hkept with
  | word :: gap :: rest, hkept =>
    obtain ⟨-, hgap, -, hrest, -⟩ := Text.isSplit_cons_cons.1 hkept
    obtain ⟨init, last, rfl⟩ : ∃ init last, rest = init ++ [last] := by
      refine (List.eq_nil_or_concat' rest).resolve_left ?_
      rintro rfl
      exact absurd hrest.length_mod_two Nat.zero_ne_one
    have hfront : front ++ word :: gap :: (init ++ [last]) =
        (front ++ word :: gap :: init) ++ [last] := by
      simp
    rw [hfront]
    refine h _ last (hfront ▸ (List.prefix_append_right_inj front).2 hbegin) ?_
    simp [hgap]

/-- A text of two words has a gap. -/
theorem two_le_length_splitWords {text : List Char} (htwo : 2 ≤ (words text).length) :
    2 ≤ (splitWords text).length := by
  obtain ⟨word, rest, heq, hword, -⟩ := Text.alternates_splitWords text
  cases rest with
  | nil =>
    have htext : text = word := by
      rw [← Text.flatten_splitWords text, heq, List.flatten_singleton]
    have := Text.length_words_le_one (htext ▸ hword)
    omega
  | cons gap rest =>
    rw [heq]
    exact Nat.le_add_left 2 rest.length

end Sums

/-- **The pieces of what is written of a row are the first ones that stand there.** -/
theorem Row.splitWords_isPrefix {rows : List Row} {k : Nat} {r : Row}
    {text content : List Char} {pieces : List (List Char)} (hpieces : InTurn true pieces)
    (heq : r.pieces = pieces ∨ r.pieces = [] :: pieces)
    (htokens : rows.flatMap Row.tokens = splitWords text) (hr : rows[k]? = some r)
    (hcontent : (Row.contents rows)[k]? = some content) (hne : content ≠ []) :
    splitWords content <+: pieces := by
  have htext : r.text = pieces.flatten := by
    rcases heq with heq | heq <;> rw [Row.text, heq]
    rfl
  obtain ⟨r', hr', hwritten⟩ := Row.exists_of_getElem?_contents hcontent
  obtain rfl : r = r' := Option.some.inj (hr.symm.trans hr')
  have hpiecesne : pieces ≠ [] := by
    rintro rfl
    rw [List.flatten_nil] at htext
    rcases hwritten with ⟨-, rfl⟩ | ⟨-, rfl, -⟩
    · exact hne (by rw [htext]; rfl)
    · exact hne htext
  rcases hwritten with ⟨-, rfl⟩ | ⟨hlast, rfl, -⟩
  · obtain ⟨kept, hbegin, hkept, hflatten⟩ := hpieces.exists_prefix_trimEnd hpiecesne
    rw [htext, ← hflatten, Text.splitWords_flatten hkept]
    exact hbegin
  · -- The last row keeps its trailing blanks, but its last piece is a word.
    obtain ⟨word, hword, hblank⟩ := Row.exists_getLast_tokens htokens hr hlast
    have hend : pieces.getLast? = some word := by
      have h := Row.getLast_pieces hword hblank
      rcases heq with heq | heq
      · rwa [heq] at h
      · obtain ⟨piece, pieces, rfl⟩ := List.exists_cons_of_ne_nil hpiecesne
        rwa [heq, List.getLast?_cons_cons] at h
    rw [htext, Text.splitWords_flatten ⟨hpieces, hpieces.length_mod_two hend hblank⟩]

/-- **A row with two words fits**, as far as it is written. -/
theorem Row.IsFilled.not_lt_total {width : List Char → Float} {room : Float} {next : Option Row}
    {rows : List Row} {k : Nat} {r : Row} {text content : List Char}
    (h : r.IsFilled width room next) (hzero : IsZero (width []))
    (htokens : rows.flatMap Row.tokens = splitWords text) (hr : rows[k]? = some r)
    (hcontent : (Row.contents rows)[k]? = some content) (htwo : 2 ≤ (words content).length) :
    ¬ room < total width (splitWords content) := by
  obtain ⟨atWord, hturn⟩ := Row.exists_inTurn_tokens htokens hr
  obtain ⟨pieces, hpieces, heq⟩ := Row.exists_inTurn hturn
  have hne : content ≠ [] := by
    rintro rfl
    exact absurd htwo (by decide)
  have hbegin := Row.splitWords_isPrefix hpieces heq htokens hr hcontent hne
  have hlength := two_le_length_splitWords htwo
  have hsplit := Text.isSplit_splitWords content
  have hfits := h.fits
  rcases heq with heq | heq <;> rw [heq] at hfits
  · have hfits : Fits width room ([] ++ pieces) := hfits
    exact hfits.not_lt_total hbegin hsplit hlength
  · have hfits : Fits width room ([[]] ++ pieces) := hfits
    rw [← (level_total_nil_cons hzero _).lt_iff]
    exact hfits.not_lt_total hbegin hsplit hlength

/-- A line of two words has the room on its row. -/
theorem not_budget_lt_total (o : ReflowOptions) (p : Paragraph) (widths : Widths)
    (text : List Char) (hzero : IsZero (width o p.style.size widths [])) {k : Nat} {l : Filled}
    (hl : (filled o p widths text)[k]? = some l) (htwo : 2 ≤ (words l.text).length) :
    ¬ budget o p widths k < total (width o p.style.size widths) (splitWords l.text) := by
  obtain ⟨rows, htokens, hcontents, hrows⟩ := exists_rows_filled o p widths text
  have hwritten : (Row.contents rows)[k]? = some l.text := by
    rw [← hcontents, List.getElem?_map, hl]
    rfl
  obtain ⟨r, hr, -⟩ := Row.exists_of_getElem?_contents hwritten
  have hfilled := hrows.isFilled hr
  rw [roomAt_measures] at hfilled
  exact hfilled.not_lt_total hzero htokens hr hwritten htwo

/-! ## Where lines start -/

/-- A line laid at its place. -/
theorem getElem?_place (o : ReflowOptions) (p : Paragraph) (widths : Widths) (n : Nat) (y : Float)
    (ls : List Filled) (k : Nat) :
    (place o p widths n y ls)[k]? = ls[k]?.map fun l =>
      lineAt o p l.text (n + k) (startX o p widths (n + k) l.isBroken)
        ((· + lineHeight o p.style.size widths)^[k] y) := by
  induction ls generalizing n y k with
  | nil => rfl
  | cons l ls ih =>
    cases k with
    | zero => rfl
    | succ k =>
      rw [place, List.getElem?_cons_succ, List.getElem?_cons_succ, ih, Function.iterate_succ_apply,
        Nat.add_right_comm, Nat.add_assoc]

/-- A line is what was filled, laid where it starts. -/
theorem exists_of_mem_lines {o : ReflowOptions} {fonts : List FontMetrics} {p : Paragraph}
    {text : String} {line : ReflowLine} (h : line ∈ lines o fonts p text) :
    ∃ k l, (filled o p (widthsFor fonts p.style.font) text.toList)[k]? = some l ∧
      line.content.toList = l.text ∧
      line.x = startX o p (widthsFor fonts p.style.font) k l.isBroken := by
  obtain ⟨k, hk⟩ := List.getElem?_of_mem h
  rw [lines, getElem?_place, Nat.zero_add] at hk
  obtain ⟨l, hl, rfl⟩ := Option.map_eq_some_iff.1 hk
  exact ⟨k, l, hl, String.toList_ofList, rfl⟩

/-- A first line that is not broken is the only one. -/
theorem fill_eq_singleton (m : Measures) {atFirst : Bool} {line : List Char} {used : Float}
    {pieces : List (List Char)} {l : Filled}
    (h : (fill m atFirst line used pieces)[0]? = some l) (hl : l.isBroken = false) :
    fill m atFirst line used pieces = [l] := by
  induction pieces generalizing atFirst line used with
  | nil =>
    cases line with
    | nil => exact absurd h nofun
    | cons c line =>
      obtain rfl := Option.some.inj h
      rfl
  | cons piece pieces ih =>
    rcases fill_cons m atFirst line used piece pieces with ⟨-, heq⟩ | heq <;> rw [heq] at h ⊢
    · obtain rfl := Option.some.inj h
      exact absurd hl Bool.noConfusion
    · exact ih h

/-- **A line starts where its room is measured from**, but for a sole line whose indent is not its
own. -/
theorem budget_eq_or (o : ReflowOptions) (p : Paragraph) (widths : Widths) (k : Nat)
    (isBroken : Bool) :
    budget o p widths k = p.bbox.x1 - startX o p widths k isBroken ∨
      k = 0 ∧ isBroken = false ∧ indentsFirst o widths = false := by
  unfold budget startX
  cases k with
  | zero => cases isBroken <;> cases indentsFirst o widths <;> simp
  | succ k => exact .inl rfl

/-! ## Widths that are not negative -/

/-- No width of the font table is negative. -/
def WidthsNonneg (fonts : List FontMetrics) : Prop :=
  ∀ f ∈ fonts, ∀ m ∈ f.metrics, ∀ e ∈ m.widths.entries, 0 ≤ e.2

instance (fonts : List FontMetrics) : Decidable (WidthsNonneg fonts) :=
  inferInstanceAs (Decidable (∀ f ∈ fonts, ∀ m ∈ f.metrics, ∀ e ∈ m.widths.entries, 0 ≤ e.2))

theorem foldl_nonneg {α : Type} {f : α → Float} {as : List α} (h : ∀ a ∈ as, 0 ≤ f a) {x : Float}
    (hx : 0 ≤ x) : 0 ≤ as.foldl (fun sum a => sum + f a) x := by
  induction as generalizing x with
  | nil => exact hx
  | cons a as ih =>
    obtain ⟨ha, has⟩ := List.forall_mem_cons.1 h
    exact ih has (Binary64.nonneg_add hx ha)

section Widths

variable {size : Float}

theorem advance_nonneg {m : GlyphMetrics} (hm : ∀ e ∈ m.widths.entries, 0 ≤ e.2)
    {fallback : Float} (hfallback : 0 ≤ fallback) (hsize : 0 < size)
    (hfinite : size.isFinite = true) (c : Char) : 0 ≤ m.advance fallback size c := by
  have hknown : ∀ c w, m.width? c = some w → 0 ≤ w := by
    intro c w h
    obtain ⟨before, after, heq, -⟩ := List.lookup_eq_some_iff.1 (Option.filter_eq_some_iff.1 h).1
    exact hm (_, w) (heq ▸ List.mem_append_right before List.mem_cons_self)
  have hwidth : 0 ≤ ((m.width? c).or (m.width? ' ')).getD fallback := by
    cases h : m.width? c with
    | some w => exact hknown c w h
    | none =>
      cases h' : m.width? ' ' with
      | some w => exact hknown ' ' w h'
      | none => exact hfallback
  exact Binary64.nonneg_mul (Binary64.nonneg_div hwidth (by decide +kernel) (by decide +kernel))
    hsize hfinite

/-- Metrics that widths come from are those of a font in the table. -/
theorem exists_of_widthsFor {fonts : List FontMetrics} {font : String} {m : GlyphMetrics}
    (h : widthsFor fonts font = .metrics m) : ∃ f ∈ fonts, f.metrics = some m := by
  unfold widthsFor at h
  split at h
  · rename_i m' hm'
    obtain rfl := Widths.metrics.inj h
    obtain ⟨f, hf, hm'⟩ := Option.bind_eq_some_iff.1 hm'
    exact ⟨f, List.mem_of_find?_eq_some hf, hm'⟩
  · exact absurd h nofun

theorem width_nonneg {fonts : List FontMetrics} (hfonts : WidthsNonneg fonts) (hsize : 0 < size)
    (hfinite : size.isFinite = true) (font : String) (text : List Char) :
    0 ≤ width {} size (widthsFor fonts font) text := by
  cases hwidths : widthsFor fonts font with
  | metrics m =>
    obtain ⟨f, hf, hm⟩ := exists_of_widthsFor hwidths
    refine foldl_nonneg (fun c _ => ?_) (by decide +kernel)
    exact advance_nonneg (hfonts f hf m hm) (by decide +kernel) hsize hfinite c
  | estimate =>
    have hlength : 0 ≤ Float.ofNat text.length := by
      rw [Decimal.floatOfNat_eq_rounded]
      exact Binary64.zero_le_ofUnpacked_rounded (Nat.cast_nonneg _)
    exact Binary64.nonneg_mul (Binary64.nonneg_mul hlength hsize hfinite) (by decide +kernel)
      (by decide +kernel)

theorem isZero_width_nil (hfinite : size.isFinite = true) (widths : Widths) :
    IsZero (width {} size widths []) := by
  cases widths with
  | metrics m => exact Binary64.isZero_zero
  | estimate =>
    exact Binary64.isZero_mul (Binary64.isZero_mul Binary64.isZero_zero hfinite)
      (by decide +kernel)

end Widths

/-! ## Lines of two words -/

/-- **A line of two words fits between where it starts and the right edge.**  Its sum of widths,
added up as it is filled, is no larger than what the start leaves of the edge.  The exception is
the only line of a text whose widths come from metrics: it starts at its own indent, but its room
is measured from the place of the other lines, also where the indent is beyond. -/
theorem lines_fit (fonts : List FontMetrics) (p : Paragraph) (text : String)
    (hright : p.bbox.x1.isFinite = true) (hfinite : p.style.size.isFinite = true)
    (hsize : 0 < p.style.size) (hindent : p.indentX ≤ p.bbox.x1)
    (hcontinuation : p.continuationX ≤ p.bbox.x1) (hfonts : WidthsNonneg fonts) :
    let widths := widthsFor fonts p.style.font
    ∀ line ∈ lines {} fonts p text, 2 ≤ (words line.content.toList).length →
      let used := total (width {} p.style.size widths) (splitWords line.content.toList)
      used ≤ p.bbox.x1 - line.x ∨
        lines {} fonts p text = [line] ∧ (∃ m, widths = .metrics m) ∧
          line.x = p.indentX ∧ p.continuationX < p.indentX ∧
          used ≤ p.bbox.x1 - p.continuationX := by
  intro widths line hline htwo used
  obtain ⟨k, l, hl, hcontent, hx⟩ := exists_of_mem_lines hline
  have hzero := isZero_width_nil hfinite widths
  have hroom := not_budget_lt_total {} p widths text.toList hzero hl (hcontent ▸ htwo)
  rw [← hcontent] at hroom
  have hused : used.isNaN = false :=
    (Binary64.isNaN_of_le (foldl_nonneg (fun piece _ => width_nonneg hfonts hsize hfinite _ piece)
      (by decide +kernel))).2
  have hbudget : (budget {} p widths k).isNaN = false := by
    unfold budget
    split
    · exact Binary64.isNaN_sub hright (Binary64.isNaN_of_le hindent).1
    · exact Binary64.isNaN_sub hright (Binary64.isNaN_of_le hcontinuation).1
  have hle : used ≤ budget {} p widths k := Binary64.le_of_not_lt hused hbudget hroom
  rcases budget_eq_or {} p widths k l.isBroken with heq | ⟨rfl, hbroken, hfirst⟩
  · rw [heq, ← hx] at hle
    exact .inl hle
  · -- The sole line, of measured widths.
    have hindented : line.x = p.indentX := by
      rw [hx, hbroken]
      rfl
    have hmeasured : budget {} p widths 0 = p.bbox.x1 - p.continuationX := by
      rw [budget, hfirst]
      rfl
    rw [hmeasured] at hle
    by_cases hbeyond : p.continuationX < p.indentX
    · refine .inr ⟨?_, ?_, hindented, hbeyond, hle⟩
      · have hsole : filled {} p widths text.toList = [l] := fill_eq_singleton _ hl hbroken
        rw [lines, hsole] at hline ⊢
        rw [List.mem_singleton.1 hline]
        rfl
      · cases hwidths : widths with
        | metrics m => exact ⟨m, rfl⟩
        | estimate =>
          rw [hwidths] at hfirst
          exact absurd hfirst Bool.noConfusion
    · have hindent : p.indentX ≤ p.continuationX :=
        Binary64.le_of_not_lt (Binary64.isNaN_of_le hindent).1
          (Binary64.isNaN_of_le hcontinuation).1 hbeyond
      rw [hindented]
      exact .inl (Binary64.le_trans hle (Binary64.sub_le_sub_left hright hindent hcontinuation))

/-- Behind a place of 10 in a line up to 100 there is room for eighteen characters that are five
wide, and a third word goes on the next line. -/
theorem lines_fit_wrapped :
    let fonts : List FontMetrics := [⟨"Body", some {}⟩]
    let p : Paragraph :=
      { id := "", bbox := ⟨0, 0, 100, 20⟩, indentX := 20, textX := some 10, style := ⟨"Body", 10⟩ }
    p.indentX ≤ p.bbox.x1 ∧ p.continuationX ≤ p.bbox.x1 ∧ WidthsNonneg fonts ∧
      contents {} fonts p "aaaaaaaa bbbbbbbbb cc" = ["aaaaaaaa bbbbbbbbb", "cc"] ∧
      ∀ line ∈ lines {} fonts p "aaaaaaaa bbbbbbbbb cc", line.content = "aaaaaaaa bbbbbbbbb" →
        total (width {} 10 (widthsFor fonts "Body")) (splitWords line.content.toList) ≤
          100 - line.x := by
  intro fonts p
  have hindent : p.indentX ≤ p.bbox.x1 := by decide +kernel
  have hcontinuation : p.continuationX ≤ p.bbox.x1 := by decide +kernel
  have hfonts : WidthsNonneg fonts := by decide +kernel
  have hcontents : contents {} fonts p "aaaaaaaa bbbbbbbbb cc" = ["aaaaaaaa bbbbbbbbb", "cc"] := by
    decide +kernel
  refine ⟨hindent, hcontinuation, hfonts, hcontents, fun line hline heq => ?_⟩
  rcases lines_fit fonts p "aaaaaaaa bbbbbbbbb cc" (by decide +kernel) (by decide +kernel)
    (by decide +kernel) hindent hcontinuation hfonts line hline (by rw [heq]; decide +kernel) with
    h | ⟨hsole, -⟩
  · exact h
  · rw [contents, hsole] at hcontents
    have hlength : 1 = 2 := congrArg List.length hcontents
    exact absurd hlength (by decide)

/-- Two words that have room behind the place of the other lines stand beyond the right edge as
the only line, at their own indent. -/
theorem lines_overhang :
    let fonts : List FontMetrics := [⟨"Body", some {}⟩]
    let p : Paragraph :=
      { id := "", bbox := ⟨0, 0, 100, 20⟩, indentX := 20, textX := some 10, style := ⟨"Body", 10⟩ }
    p.indentX ≤ p.bbox.x1 ∧ p.continuationX ≤ p.bbox.x1 ∧ 0 < p.style.size ∧
      WidthsNonneg fonts ∧ lines {} fonts p "aaaaaaaa bbbbbbbbb" ≠ [] ∧
      ∀ line ∈ lines {} fonts p "aaaaaaaa bbbbbbbbb",
        let used := total (width {} 10 (widthsFor fonts "Body")) (splitWords line.content.toList)
        2 ≤ (words line.content.toList).length ∧ ¬ line.x + used ≤ p.bbox.x1 ∧
          ¬ used ≤ p.bbox.x1 - line.x := by
  decide +kernel

end Reflow
end PageContent
