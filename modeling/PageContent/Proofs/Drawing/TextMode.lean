/-
# Text mode shields the page

Between begin and end of text no step adds to the path, but for a `close`, and
paths are painted all the same.  Still nothing of it shows: in text mode a path
holds closes only (`isShielded_drawAll`), a path of closes has no end points, and
without end points no piece of it is kept (`paint_of_isShut`).

So the path of text mode can as well be forgotten.  `dropTextPath` forgets it, and
drawing on from a canvas or from what is left of it comes to the same
(`dropTextPath_draw`).  An operator that acts on nothing but the path changes in
text mode nothing but what is forgotten (`dropTextPath_draw_of_actsOnPath`), and
two runs that agree but for the path of text mode still agree so when one of them
leaves such operators out (`dropTextPath_drawAll_kept`).
-/

import PageContent.Proofs.Drawing.Effect
import PageContent.Proofs.Drawing.Pieces

namespace PageContent

/-! ## Paths of closes -/

namespace Path

/-- The path holds nothing but closes. -/
def IsShut (path : List Segment) : Prop := ∀ a ∈ path, a = .close

variable {path : List Segment}

theorem isShut_nil : IsShut [] := fun _ h => absurd h List.not_mem_nil

theorem IsShut.append_close (h : IsShut path) : IsShut (path ++ [.close]) := by
  intro a ha
  rcases List.mem_append.1 ha with ha | ha
  · exact h a ha
  · exact List.mem_singleton.1 ha

theorem IsShut.ends_eq_nil (h : IsShut path) : ends path = [] := by
  refine List.filterMap_eq_nil_iff.2 fun a ha => ?_
  rw [h a ha]
  rfl

/-- No piece of a path without end points is kept. -/
theorem isKept_eq_false_of_isShut (h : IsShut path) {t : Option Float} {piece : List Segment}
    (hpiece : piece ∈ subPaths path t) (o : DrawingOptions) (filled : Bool) :
    isKept o filled piece = false := by
  have hends : ends piece = [] := by
    refine List.eq_nil_iff_forall_not_mem.2 fun p hp => ?_
    have hpath := mem_ends_of_mem_subPaths hpiece hp
    rw [h.ends_eq_nil] at hpath
    exact absurd hpath List.not_mem_nil
  have hpoints : points piece = [] := congrArg (List.filter Point.isFinite) hends
  rw [isKept, hpoints]
  simp

end Path

/-- The operator builds, finishes, paints or drops the path, and does nothing else. -/
def Operator.actsOnPath : Operator → Bool
  | .step _ | .batch _ _ | .paint _ | .clip _ | .endPath => true
  | _ => false

namespace Canvas

variable (o : DrawingOptions) {c c' : Canvas}

theorem shapesOf_of_isShut {path : List Segment} (h : Path.IsShut path) (pen : Pen) (p : Paint)
    (index : UInt64) : shapesOf o pen p index path = [] := by
  unfold shapesOf
  rw [List.map_eq_nil_iff, List.filter_eq_nil_iff]
  rintro ⟨piece, n⟩ hpiece
  have hlost := Path.isKept_eq_false_of_isShut h (List.fst_mem_of_mem_zipIdx hpiece) o p.fills
  exact ne_true_of_eq_false hlost

/-- **Painting a path of closes only drops it.** -/
theorem paint_of_isShut (h : Path.IsShut c.state.path) (p : Paint) (index : UInt64) :
    paint o c p index = c.withPath [] := by
  have hclosed : Path.IsShut (if p.closes then c.state.path ++ [.close] else c.state.path) := by
    split
    · exact h.append_close
    · exact h
  unfold paint
  dsimp only
  rw [shapesOf_of_isShut o hclosed, List.append_nil, List.length_nil, Nat.add_zero]

/-! ## The path of text mode -/

/-- In text mode the path holds closes only. -/
def IsShielded (c : Canvas) : Prop := c.state.inText = true → Path.IsShut c.state.path

/-- **In text mode an operator on the path leaves a path of closes**, and nothing else. -/
theorem draw_of_actsOnPath (h : c.state.inText = true) (hshut : Path.IsShut c.state.path)
    {op : Operator} (hop : op.actsOnPath = true) (index : UInt64) :
    ∃ path, Path.IsShut path ∧ draw o c op index = c.withPath path := by
  unfold draw
  split
  · exact ⟨c.state.path, hshut, rfl⟩
  · rename_i hdraws
    rw [h, Bool.true_and] at hdraws
    cases op with
    | step s =>
      cases s with
      | close => exact ⟨c.state.path ++ [.close], hshut.append_close, rfl⟩
      | _ => exact absurd rfl hdraws
    | batch p numbers => exact absurd rfl hdraws
    | paint p => exact ⟨[], Path.isShut_nil, paint_of_isShut o hshut p index⟩
    | clip rule => exact ⟨[], Path.isShut_nil, rfl⟩
    | endPath => exact ⟨[], Path.isShut_nil, rfl⟩
    | _ => exact Bool.noConfusion hop

/-- Any other operator leaves the path alone or drops it, and makes no shape and no rectangle. -/
theorem draw_of_not_actsOnPath {op : Operator} (hop : op.actsOnPath = false) (index : UInt64) :
    ((draw o c op index).state.path = c.state.path ∨ (draw o c op index).state.path = []) ∧
      (draw o c op index).shapes = c.shapes ∧
      (draw o c op index).tally.rects = c.tally.rects := by
  unfold draw
  split
  · exact ⟨.inl rfl, rfl, rfl⟩
  · cases op with
    | restore => exact ⟨.inl (GraphicsState.path_restore c.state), rfl, rfl⟩
    | beginText => exact ⟨.inr rfl, rfl, rfl⟩
    | endText => exact ⟨.inr rfl, rfl, rfl⟩
    | step s => exact Bool.noConfusion hop
    | batch p numbers => exact Bool.noConfusion hop
    | paint p => exact Bool.noConfusion hop
    | clip rule => exact Bool.noConfusion hop
    | endPath => exact Bool.noConfusion hop
    | _ => exact ⟨.inl rfl, rfl, rfl⟩

theorem draw_beginText (c : Canvas) (index : UInt64) :
    draw o c .beginText index = c.setText true := by
  have hbegin : Operator.beginText.buildsPath = false := rfl
  rw [draw, hbegin, Bool.and_false, if_neg Bool.false_ne_true]

theorem isShielded_draw (hc : c.IsShielded) (op : Operator) (index : UInt64) :
    (draw o c op index).IsShielded := by
  intro htext
  by_cases hop : op.actsOnPath = true
  · have hsame : op.inTextAfter c.state.inText = c.state.inText := by
      cases op with
      | beginText => exact Bool.noConfusion hop
      | endText => exact Bool.noConfusion hop
      | _ => rfl
    have hinText : c.state.inText = true := by rwa [inText_draw, hsame] at htext
    obtain ⟨path, hshut, hdraw⟩ := draw_of_actsOnPath o hinText (hc hinText) hop index
    rw [hdraw]
    exact hshut
  · by_cases hinText : c.state.inText = true
    · obtain ⟨hpath | hpath, -⟩ := draw_of_not_actsOnPath o (c := c) (eq_false_of_ne_true hop) index
      · exact hpath ▸ hc hinText
      · exact hpath ▸ Path.isShut_nil
    · -- only the begin of text leads into text mode, and it drops the path
      rw [inText_draw, eq_false_of_ne_true hinText] at htext
      cases op with
      | beginText => rw [draw_beginText]; exact Path.isShut_nil
      | _ => exact Bool.noConfusion htext

theorem isShielded_drawRaw (hc : c.IsShielded) (raw : RawOperator) :
    (drawRaw o c raw).IsShielded := by
  unfold drawRaw
  split
  · exact isShielded_draw o hc _ raw.index
  · exact hc

/-- **In text mode every run has a path of closes.** -/
theorem isShielded_drawAll (hc : c.IsShielded) (raws : List RawOperator) :
    (drawAll o c raws).IsShielded := by
  induction raws generalizing c with
  | nil => exact hc
  | cons raw raws ih => exact ih (isShielded_drawRaw o hc raw)

theorem isShielded_empty : IsShielded {} := fun h => Bool.noConfusion h

/-- Nothing drawn in text mode shows as a shape or counts as a rectangle. -/
theorem drawRaw_of_inText (h : c.state.inText = true) (hc : c.IsShielded) (raw : RawOperator) :
    (drawRaw o c raw).shapes = c.shapes ∧
      (drawRaw o c raw).tally.rects = c.tally.rects := by
  unfold drawRaw
  split
  · rename_i op _
    by_cases hop : op.actsOnPath = true
    · obtain ⟨path, -, hdraw⟩ := draw_of_actsOnPath o h (hc h) hop raw.index
      rw [hdraw]
      exact ⟨rfl, rfl⟩
    · exact (draw_of_not_actsOnPath o (eq_false_of_ne_true hop) raw.index).2
  · exact ⟨rfl, rfl⟩

/-! ## Forgetting the path of text mode -/

/-- The canvas without its path if it is in text mode. -/
def dropTextPath (c : Canvas) : Canvas := if c.state.inText then c.withPath [] else c

theorem dropTextPath_of_inText (h : c.state.inText = true) : c.dropTextPath = c.withPath [] :=
  if_pos h

theorem dropTextPath_of_not_inText (h : c.state.inText = false) : c.dropTextPath = c := by
  rw [dropTextPath, h, if_neg Bool.false_ne_true]

theorem inText_dropTextPath (c : Canvas) : c.dropTextPath.state.inText = c.state.inText := by
  unfold dropTextPath
  split <;> rfl

/-- Canvases that agree but for the path of text mode agree but for the path. -/
theorem withPath_nil_of_dropTextPath_eq (h : c.dropTextPath = c'.dropTextPath) :
    c.withPath [] = c'.withPath [] := by
  have hforget : ∀ c : Canvas, c.dropTextPath.withPath [] = c.withPath [] := by
    intro c
    unfold dropTextPath
    split <;> rfl
  rw [← hforget c, h, hforget c']

/-- **In text mode an operator on the path changes nothing but what is forgotten.** -/
theorem dropTextPath_draw_of_actsOnPath (h : c.state.inText = true) (hc : c.IsShielded)
    {op : Operator} (hop : op.actsOnPath = true) (index : UInt64) :
    (draw o c op index).dropTextPath = c.dropTextPath := by
  obtain ⟨path, -, hdraw⟩ := draw_of_actsOnPath o h (hc h) hop index
  rw [hdraw, dropTextPath_of_inText h]
  exact dropTextPath_of_inText (c := c.withPath path) h

/-- Any other operator does not look at the path. -/
theorem dropTextPath_draw_withPath (h : c.state.inText = true) {op : Operator}
    (hop : op.actsOnPath = false) (path : List Segment) (index : UInt64) :
    (draw o (c.withPath path) op index).dropTextPath = (draw o c op index).dropTextPath := by
  obtain ⟨⟨pen, path', inText, saved⟩, shapes, images, tally⟩ := c
  obtain rfl : inText = true := h
  cases op with
  | restore => cases saved <;> rfl
  | step s => exact Bool.noConfusion hop
  | batch p numbers => exact Bool.noConfusion hop
  | paint p => exact Bool.noConfusion hop
  | clip rule => exact Bool.noConfusion hop
  | endPath => exact Bool.noConfusion hop
  | _ => rfl

/-- **The path of text mode makes no difference** to what is drawn next. -/
theorem dropTextPath_draw (hc : c.IsShielded) (hc' : c'.IsShielded)
    (h : c.dropTextPath = c'.dropTextPath) (op : Operator) (index : UInt64) :
    (draw o c op index).dropTextPath = (draw o c' op index).dropTextPath := by
  have htext : c.state.inText = c'.state.inText := by
    rw [← inText_dropTextPath c, h, inText_dropTextPath]
  by_cases hinText : c.state.inText = true
  · have hinText' : c'.state.inText = true := htext ▸ hinText
    by_cases hop : op.actsOnPath = true
    · rw [dropTextPath_draw_of_actsOnPath o hinText hc hop, h,
        dropTextPath_draw_of_actsOnPath o hinText' hc' hop]
    · have hforgotten : c.withPath [] = c'.withPath [] := by
        rw [← dropTextPath_of_inText hinText, h, dropTextPath_of_inText hinText']
      rw [← dropTextPath_draw_withPath o hinText (eq_false_of_ne_true hop) [], hforgotten,
        dropTextPath_draw_withPath o hinText' (eq_false_of_ne_true hop)]
  · have hsame : c = c' := by
      rwa [dropTextPath_of_not_inText (eq_false_of_ne_true hinText),
        dropTextPath_of_not_inText (htext ▸ eq_false_of_ne_true hinText)] at h
    rw [hsame]

theorem dropTextPath_drawRaw (hc : c.IsShielded) (hc' : c'.IsShielded)
    (h : c.dropTextPath = c'.dropTextPath) (raw : RawOperator) :
    (drawRaw o c raw).dropTextPath = (drawRaw o c' raw).dropTextPath := by
  unfold drawRaw
  split
  · exact dropTextPath_draw o hc hc' h _ raw.index
  · have hmalformed : ∀ c : Canvas,
        dropTextPath { c with tally := { c.tally with malformed := c.tally.malformed + 1 } } =
          { c.dropTextPath with
            tally := { c.dropTextPath.tally with
              malformed := c.dropTextPath.tally.malformed + 1 } } := by
      intro c
      unfold dropTextPath
      dsimp only
      split <;> rfl
    rw [hmalformed, hmalformed, h]

/-- A run that leaves out operators on the path, those at the places `deleted`, wherever the full
run is in text mode. -/
theorem dropTextPath_drawAll_kept {deleted : Nat → Bool} {raws : List RawOperator} {k : Nat}
    (hc : c.IsShielded) (hc' : c'.IsShielded) (h : c.dropTextPath = c'.dropTextPath)
    (hdeleted : ∀ n raw, raws[n]? = some raw → deleted (k + n) = true →
      (drawAll o c (raws.take n)).state.inText = true ∧
        ∃ op, Operator.decode raw = .ok op ∧ op.actsOnPath = true) :
    (drawAll o c raws).dropTextPath =
      (drawAll o c'
        (((raws.zipIdx k).filter fun p => !deleted p.2).map Prod.fst)).dropTextPath := by
  induction raws generalizing c c' k with
  | nil => exact h
  | cons raw raws ih =>
    have htail : ∀ n raw', raws[n]? = some raw' → deleted (k + 1 + n) = true →
        (drawAll o (drawRaw o c raw) (raws.take n)).state.inText = true ∧
          ∃ op, Operator.decode raw' = .ok op ∧ op.actsOnPath = true := by
      intro n raw' hn hd
      rw [Nat.add_right_comm, Nat.add_assoc] at hd
      exact hdeleted (n + 1) raw' hn hd
    have hraw := isShielded_drawRaw o hc raw
    show (drawAll o (drawRaw o c raw) raws).dropTextPath = _
    rw [List.zipIdx_cons, List.filter_cons]
    cases hk : deleted k with
    | true =>
      obtain ⟨htext, op, hdecode, hop⟩ := hdeleted 0 raw rfl hk
      have hsame : (drawRaw o c raw).dropTextPath = c'.dropTextPath := by
        rw [drawRaw, hdecode, ← h]
        exact dropTextPath_draw_of_actsOnPath o htext hc hop raw.index
      exact ih hraw hc' hsame htail
    | false =>
      exact ih hraw (isShielded_drawRaw o hc' raw) (dropTextPath_drawRaw o hc hc' h raw) htail

/-- **Text mode shields the page.**  After every run that ends in text mode the path holds closes
only, and no operator drawn then makes a shape or counts a rectangle.  Of a list of operators any
that act on the path may be left out where they are drawn in text mode: shapes, images and tally
stay what they are, and so does the graphics state but for the path, which is the same too outside
text mode. -/
theorem textMode_shields (raws : List RawOperator) :
    ((ofOperators o raws).state.inText = true →
      (∀ a ∈ (ofOperators o raws).state.path, a = .close) ∧
      ∀ raw, (ofOperators o (raws ++ [raw])).shapes = (ofOperators o raws).shapes ∧
        (ofOperators o (raws ++ [raw])).tally.rects = (ofOperators o raws).tally.rects) ∧
    ∀ deleted : Nat → Bool,
      (∀ n raw, raws[n]? = some raw → deleted n = true →
        (ofOperators o (raws.take n)).state.inText = true ∧
          ∃ op, Operator.decode raw = .ok op ∧ op.actsOnPath = true) →
      let full := ofOperators o raws
      let kept := ofOperators o ((raws.zipIdx.filter fun p => !deleted p.2).map Prod.fst)
      kept.shapes = full.shapes ∧ kept.images = full.images ∧ kept.tally = full.tally ∧
        { kept.state with path := [] } = { full.state with path := [] } ∧
        (full.state.inText = false → kept.state.path = full.state.path) := by
  constructor
  · intro htext
    have hshielded := isShielded_drawAll o isShielded_empty raws
    refine ⟨hshielded htext, fun raw => ?_⟩
    have hnext : ofOperators o (raws ++ [raw]) = drawRaw o (ofOperators o raws) raw :=
      drawAll_append o {} raws [raw]
    rw [hnext]
    exact drawRaw_of_inText o htext hshielded raw
  · intro deleted hdeleted full kept
    have hagree : full.dropTextPath = kept.dropTextPath :=
      dropTextPath_drawAll_kept o isShielded_empty isShielded_empty rfl
        fun n raw hn hd => hdeleted n raw hn (Nat.zero_add n ▸ hd)
    have hforgotten : kept.withPath [] = full.withPath [] :=
      withPath_nil_of_dropTextPath_eq hagree.symm
    obtain ⟨hstate, hshapes, himages, htally⟩ := Canvas.mk.inj hforgotten
    refine ⟨hshapes, himages, htally, hstate, ?_⟩
    intro htext
    have htext' : kept.state.inText = false := by
      rw [← inText_dropTextPath, ← hagree, inText_dropTextPath, htext]
    rw [dropTextPath_of_not_inText htext, dropTextPath_of_not_inText htext'] at hagree
    rw [hagree]

/-- Text mode with a line and a closing stroke in it: after the line and a close the path is a
close, and without both operators the page has the same shapes and tally. -/
theorem textMode_shields_of_closeStroke :
    (∀ a ∈ (ofOperators {} [⟨31, [], 0⟩, ⟨14, [.integer 9, .integer 9], 1⟩,
      ⟨18, [], 2⟩]).state.path, a = .close) ∧
    (ofOperators {} [⟨31, [], 0⟩, ⟨32, [], 3⟩]).shapes =
      (ofOperators {} [⟨31, [], 0⟩, ⟨14, [.integer 9, .integer 9], 1⟩, ⟨21, [], 2⟩,
        ⟨32, [], 3⟩]).shapes ∧
    (ofOperators {} [⟨31, [], 0⟩, ⟨32, [], 3⟩]).tally =
      (ofOperators {} [⟨31, [], 0⟩, ⟨14, [.integer 9, .integer 9], 1⟩, ⟨21, [], 2⟩,
        ⟨32, [], 3⟩]).tally := by
  obtain ⟨hclosed, -⟩ := textMode_shields {}
    [⟨31, [], 0⟩, ⟨14, [.integer 9, .integer 9], 1⟩, ⟨18, [], 2⟩]
  obtain ⟨-, hkept⟩ := textMode_shields {}
    [⟨31, [], 0⟩, ⟨14, [.integer 9, .integer 9], 1⟩, ⟨21, [], 2⟩, ⟨32, [], 3⟩]
  obtain ⟨hshapes, -, htally, -⟩ := hkept (fun n => n == 1 || n == 2) (by
    intro n raw hraw hn
    rcases n with _ | _ | _ | n
    · exact Bool.noConfusion hn
    · obtain rfl := Option.some.inj hraw
      exact ⟨by decide +kernel, .step (.line ⟨9, 9⟩), by decide +kernel, rfl⟩
    · obtain rfl := Option.some.inj hraw
      exact ⟨by decide +kernel, .paint .closeStroke, by decide +kernel, rfl⟩
    · exact absurd hn (by simp))
  exact ⟨(hclosed (by decide +kernel)).1, hshapes, htally⟩

end Canvas
end PageContent
