/-
# What a run paints

The thresholds of the drawing are looked at when a path is painted and nowhere
else.  So a run is told apart into the paths it paints, each with the pen, the
way of painting and the index it is painted under (`paintings`), and the shapes
that come of them (`shapes_drawAll`).

Two runs of one list of operators paint the same way as long as their viewports
place points alike.  Alike is any relation of coordinates: if it holds of the
places of every point, and of the corner of the page, it holds of all paths
(`related_paintings`).  With equality this says that thresholds do not change
what is painted, and with a scale that it changes nothing but coordinates.
-/

import PageContent.Proofs.Drawing.Batch

namespace PageContent

variable {R : Float → Float → Prop}

/-! ## Related paths -/

/-- The coordinates of the points are related. -/
def Point.Related (R : Float → Float → Prop) (p q : Point Float) : Prop := R p.x q.x ∧ R p.y q.y

/-- Segments of one kind with related points. -/
inductive Segment.Related (R : Float → Float → Prop) : Segment → Segment → Prop where
  | move {p q : Point Float} : p.Related R q → Related R (.move p) (.move q)
  | line {p q : Point Float} : p.Related R q → Related R (.line p) (.line q)
  | curve {p₁ p₂ p q₁ q₂ q : Point Float} : p₁.Related R q₁ → p₂.Related R q₂ → p.Related R q →
      Related R (.curve p₁ p₂ p) (.curve q₁ q₂ q)
  | close : Related R .close .close

/-- Paths of related segments. -/
def Path.Related (R : Float → Float → Prop) : List Segment → List Segment → Prop :=
  List.Forall₂ (Segment.Related R)

namespace Path

variable {s t : List Segment}

theorem Related.append {s' t' : List Segment} (h : Related R s t) (h' : Related R s' t') :
    Related R (s ++ s') (t ++ t') := List.rel_append h h'

/-- Related paths end so far at related points, if the corner of the page is related to itself. -/
theorem related_current (h : Related R s t) (hzero : R 0 0) :
    (current s).Related R (current t) := by
  have hfind : ∀ {s t : List Segment}, Related R s t →
      Option.Rel (Point.Related R) (s.findSome? Segment.end?) (t.findSome? Segment.end?) := by
    intro s t h
    induction h with
    | nil => exact .none
    | cons hab _ ih =>
      cases hab with
      | move hpq => exact .some hpq
      | line hpq => exact .some hpq
      | curve _ _ hpq => exact .some hpq
      | close => exact ih
  have hlast := hfind (List.forall₂_reverse_iff.2 h)
  unfold current
  generalize s.reverse.findSome? Segment.end? = a at hlast ⊢
  generalize t.reverse.findSome? Segment.end? = b at hlast ⊢
  cases hlast with
  | some hpq => exact hpq
  | none => exact ⟨hzero, hzero⟩

theorem related_segmentsOf {place place' : Point Float → Point Float}
    (hplace : ∀ p, (place p).Related R (place' p)) (hzero : R 0 0) (h : Related R s t)
    (step : PathStep) : Related R (segmentsOf place s step) (segmentsOf place' t step) := by
  cases step with
  | move p => exact .cons (.move (hplace p)) .nil
  | line p => exact .cons (.line (hplace p)) .nil
  | curve c₁ c₂ p => exact .cons (.curve (hplace c₁) (hplace c₂) (hplace p)) .nil
  | curveFromEnd c₂ p =>
    exact .cons (.curve (related_current h hzero) (hplace c₂) (hplace p)) .nil
  | curveIntoEnd c₁ p => exact .cons (.curve (hplace c₁) (hplace p) (hplace p)) .nil
  | rectangle p w h =>
    exact .cons (.move (hplace _)) (.cons (.line (hplace _)) (.cons (.line (hplace _))
      (.cons (.line (hplace _)) (.cons .close .nil))))
  | close => exact .cons .close .nil

end Path

/-! ## Runs in step -/

namespace Canvas

/-- The states are the same but for their paths, which are related. -/
structure InStep (R : Float → Float → Prop) (c c' : Canvas) : Prop where
  pen_eq : c.state.pen = c'.state.pen
  inText_eq : c.state.inText = c'.state.inText
  saved_eq : c.state.saved = c'.state.saved
  path : Path.Related R c.state.path c'.state.path

variable {o o' : DrawingOptions} {c c' : Canvas}

theorem InStep.withPath (h : InStep R c c') {s t : List Segment} (hpath : Path.Related R s t) :
    InStep R (c.withPath s) (c'.withPath t) := ⟨h.pen_eq, h.inText_eq, h.saved_eq, hpath⟩

/-- Pens changed alike. -/
theorem InStep.withPen (h : InStep R c c') (change : Pen → Pen) :
    InStep R (c.withPen (change c.state.pen)) (c'.withPen (change c'.state.pen)) :=
  ⟨congrArg change h.pen_eq, h.inText_eq, h.saved_eq, h.path⟩

/-- The viewports place every point alike, and the corner of the page is like itself. -/
structure PlaceAlike (R : Float → Float → Prop) (o o' : DrawingOptions) : Prop where
  place : ∀ pen p, (Canvas.place o pen p).Related R (Canvas.place o' pen p)
  zero : R 0 0

theorem inStep_addStep (ho : PlaceAlike R o o') (h : InStep R c c') (step : PathStep) :
    InStep R (addStep o c step) (addStep o' c' step) := by
  have hpath : Path.Related R (Path.add (place o c.state.pen) c.state.path step)
      (Path.add (place o' c'.state.pen) c'.state.path step) := by
    rw [← h.pen_eq]
    exact h.path.append (Path.related_segmentsOf (ho.place c.state.pen) ho.zero h.path step)
  rw [addStep_eq, addStep_eq]
  exact ⟨h.pen_eq, h.inText_eq, h.saved_eq, hpath⟩

theorem inStep_foldl_addStep (ho : PlaceAlike R o o') (h : InStep R c c') (steps : List PathStep) :
    InStep R (steps.foldl (addStep o) c) (steps.foldl (addStep o') c') := by
  induction steps generalizing c c' with
  | nil => exact h
  | cons step steps ih => exact ih (inStep_addStep ho h step)

theorem inStep_paint (h : InStep R c c') (p : Paint) (index : UInt64) :
    InStep R (paint o c p index) (paint o' c' p index) :=
  ⟨h.pen_eq, h.inText_eq, h.saved_eq, .nil⟩

theorem inStep_restore (h : InStep R c c') :
    InStep R (c.withState c.state.restore) (c'.withState c'.state.restore) := by
  obtain ⟨hpen, htext, hsaved, hpath⟩ := h
  obtain ⟨⟨pen, path, inText, saved⟩, shapes, images, tally⟩ := c
  obtain ⟨⟨pen', path', inText', saved'⟩, shapes', images', tally'⟩ := c'
  obtain rfl : saved = saved' := hsaved
  cases saved with
  | nil => exact ⟨hpen, htext, rfl, hpath⟩
  | cons saved rest => exact ⟨rfl, htext, rfl, hpath⟩

/-- **One operator keeps the runs in step.** -/
theorem inStep_draw (ho : PlaceAlike R o o') (h : InStep R c c') (op : Operator) (index : UInt64) :
    InStep R (draw o c op index) (draw o' c' op index) := by
  unfold draw
  rw [← h.inText_eq]
  split
  · exact h
  · cases op with
    | save => exact ⟨h.pen_eq, h.inText_eq, by
        simp only [withState, GraphicsState.save, h.pen_eq, h.saved_eq], h.path⟩
    | restore => exact inStep_restore h
    | transform m => exact h.withPen (·.transform m)
    | lineWidth w => exact h.withPen ({ · with lineWidth := w })
    | opacity change => exact h.withPen (·.setOpacity change)
    | color target components =>
      have hpen := h.withPen (·.setColor target components)
      exact ⟨hpen.pen_eq, hpen.inText_eq, hpen.saved_eq, hpen.path⟩
    | beginText => exact ⟨h.pen_eq, rfl, h.saved_eq, .nil⟩
    | endText => exact ⟨h.pen_eq, rfl, h.saved_eq, .nil⟩
    | step s => exact inStep_addStep ho h s
    | batch p numbers =>
      have hsteps := inStep_foldl_addStep ho h (Batch.steps numbers)
      cases p with
      | some p => exact inStep_paint hsteps p index
      | none => exact hsteps.withPath .nil
    | paint p => exact inStep_paint h p index
    | clip rule => exact h.withPath .nil
    | endPath => exact h.withPath .nil
    | image name => exact ⟨h.pen_eq, h.inText_eq, h.saved_eq, h.path⟩
    | unsupported code => exact h

theorem inStep_drawRaw (ho : PlaceAlike R o o') (h : InStep R c c') (raw : RawOperator) :
    InStep R (drawRaw o c raw) (drawRaw o' c' raw) := by
  unfold drawRaw
  split
  · exact inStep_draw ho h _ raw.index
  · exact ⟨h.pen_eq, h.inText_eq, h.saved_eq, h.path⟩

end Canvas

/-! ## Paintings -/

/-- A path that is painted, with what is needed to make shapes of it. -/
structure Painting where
  pen : Pen
  paint : Paint
  index : UInt64
  path : List Segment
deriving DecidableEq, Repr

namespace Painting

/-- The shapes that come of it. -/
def shapes (o : DrawingOptions) (q : Painting) : List Shape :=
  Canvas.shapesOf o q.pen q.paint q.index q.path

/-- The same but for the path, which is related. -/
structure Related (R : Float → Float → Prop) (q q' : Painting) : Prop where
  pen_eq : q.pen = q'.pen
  paint_eq : q.paint = q'.paint
  index_eq : q.index = q'.index
  path : Path.Related R q.path q'.path

end Painting

namespace Canvas

variable {o o' : DrawingOptions} {c c' : Canvas}

/-- The painting of the current path, closed first if the way of painting says so. -/
def paintingOf (c : Canvas) (p : Paint) (index : UInt64) : Painting :=
  { pen := c.state.pen
    paint := p
    index
    path := if p.closes then c.state.path ++ [.close] else c.state.path }

/-- What an operator paints. -/
def painting? (o : DrawingOptions) (c : Canvas) (op : Operator) (index : UInt64) :
    Option Painting :=
  if c.state.inText && op.buildsPath then none
  else match op with
    | .paint p => some (paintingOf c p index)
    | .batch (some p) numbers =>
      some (paintingOf ((Batch.steps numbers).foldl (addStep o) c) p index)
    | _ => none

/-- What a run paints, in its order. -/
def paintings (o : DrawingOptions) (c : Canvas) : List RawOperator → List Painting
  | [] => []
  | raw :: raws =>
    ((Operator.decode raw).toOption.bind fun op => painting? o c op raw.index).toList ++
      paintings o (drawRaw o c raw) raws

theorem shapes_paint (o : DrawingOptions) (c : Canvas) (p : Paint) (index : UInt64) :
    (paint o c p index).shapes = c.shapes ++ (paintingOf c p index).shapes o := rfl

theorem shapes_addStep (o : DrawingOptions) (c : Canvas) (step : PathStep) :
    (addStep o c step).shapes = c.shapes := by
  rw [addStep_eq]

theorem shapes_foldl_addStep (o : DrawingOptions) (c : Canvas) (steps : List PathStep) :
    (steps.foldl (addStep o) c).shapes = c.shapes := by
  induction steps generalizing c with
  | nil => rfl
  | cons step steps ih => rw [List.foldl_cons, ih, shapes_addStep]

/-- **The shapes of an operator are those of what it paints.** -/
theorem shapes_draw (o : DrawingOptions) (c : Canvas) (op : Operator) (index : UInt64) :
    (draw o c op index).shapes =
      c.shapes ++ (painting? o c op index).toList.flatMap (Painting.shapes o) := by
  unfold draw painting?
  split
  · exact (List.append_nil _).symm
  · cases op with
    | step s => exact (shapes_addStep o c s).trans (List.append_nil _).symm
    | paint p => rw [Option.toList_some, List.flatMap_singleton]; exact shapes_paint o c p index
    | batch p numbers =>
      cases p with
      | none => exact (shapes_foldl_addStep o c _).trans (List.append_nil _).symm
      | some p =>
        rw [Option.toList_some, List.flatMap_singleton,
          ← shapes_foldl_addStep o c (Batch.steps numbers)]
        exact shapes_paint o _ p index
    | _ => exact (List.append_nil _).symm

theorem shapes_drawRaw (o : DrawingOptions) (c : Canvas) (raw : RawOperator) :
    (drawRaw o c raw).shapes = c.shapes ++
      ((Operator.decode raw).toOption.bind fun op =>
        painting? o c op raw.index).toList.flatMap (Painting.shapes o) := by
  unfold drawRaw
  split
  · rename_i op heq
    rw [heq]
    exact shapes_draw o c op raw.index
  · rename_i heq
    rw [heq]
    exact (List.append_nil _).symm

/-- **The shapes of a run are those of what it paints.** -/
theorem shapes_drawAll (o : DrawingOptions) (c : Canvas) (raws : List RawOperator) :
    (drawAll o c raws).shapes = c.shapes ++ (paintings o c raws).flatMap (Painting.shapes o) := by
  induction raws generalizing c with
  | nil => exact (List.append_nil _).symm
  | cons raw raws ih =>
    rw [drawAll, List.foldl_cons, ← drawAll, ih, shapes_drawRaw, paintings, List.flatMap_append,
      List.append_assoc]

theorem shapes_ofOperators (o : DrawingOptions) (raws : List RawOperator) :
    (ofOperators o raws).shapes = (paintings o {} raws).flatMap (Painting.shapes o) :=
  shapes_drawAll o {} raws

theorem related_paintingOf (h : InStep R c c') (p : Paint) (index : UInt64) :
    (paintingOf c p index).Related R (paintingOf c' p index) := by
  refine ⟨h.pen_eq, rfl, rfl, ?_⟩
  unfold paintingOf
  dsimp only
  split
  · exact h.path.append (.cons .close .nil)
  · exact h.path

theorem related_painting? (ho : PlaceAlike R o o') (h : InStep R c c') (op : Operator)
    (index : UInt64) :
    Option.Rel (Painting.Related R) (painting? o c op index) (painting? o' c' op index) := by
  unfold painting?
  rw [← h.inText_eq]
  split
  · exact .none
  · cases op with
    | paint p => exact .some (related_paintingOf h p index)
    | batch p numbers =>
      cases p with
      | none => exact .none
      | some p =>
        exact .some (related_paintingOf (inStep_foldl_addStep ho h (Batch.steps numbers)) p index)
    | _ => exact .none

/-- **Runs in step paint the same way.** -/
theorem related_paintings (ho : PlaceAlike R o o') (h : InStep R c c') (raws : List RawOperator) :
    List.Forall₂ (Painting.Related R) (paintings o c raws) (paintings o' c' raws) := by
  induction raws generalizing c c' with
  | nil => exact .nil
  | cons raw raws ih =>
    refine List.rel_append ?_ (ih (inStep_drawRaw ho h raw))
    cases Operator.decode raw with
    | error e => exact .nil
    | ok op =>
      have hop := related_painting? ho h op raw.index
      show List.Forall₂ _ (painting? o c op raw.index).toList
        (painting? o' c' op raw.index).toList
      generalize painting? o c op raw.index = q at hop ⊢
      generalize painting? o' c' op raw.index = q' at hop ⊢
      cases hop with
      | some hq => exact .cons hq .nil
      | none => exact .nil

end Canvas
end PageContent
