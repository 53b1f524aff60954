/-
# What an operator cannot be seen in

A view of a canvas forgets a part of it.  Some operators change only what is
forgotten, and the others act on what is left as they act on the canvas itself
(`IsView`).  So the view of a run is the run of the operators that are seen, begun
at the view (`IsView.drawAll`), and any list of operators may lose those that are
not (`IsView.drawAll_filter`).

| view | keeps | does not see |
| --- | --- | --- |
| `placed` | images; of the pens the matrix and the opacities | what sets a line width or a color, text, paths |
| `withoutImages` | all but the images | images, unsupported operators |
| `plain` | shapes in one style; of the pens the matrix | what sets a style, images, unsupported operators |

A malformed operator is seen in none of them.
-/

import PageContent.Proofs.Drawing.Painting

namespace PageContent

/-- The operator decodes to one of these. -/
def RawOperator.isOf (kinds : Operator → Bool) (raw : RawOperator) : Bool :=
  (Operator.decode raw).toOption.any kinds

namespace Operator

/-- The operator has a say in what images are placed, and where. -/
def placesImages : Operator → Bool
  | .save | .restore | .transform _ | .opacity _ | .image _ => true
  | _ => false

/-- The operator is known, and it is no image. -/
def isDrawn : Operator → Bool
  | .image _ | .unsupported _ => false
  | _ => true

/-- The operator sets how a path is painted and not which. -/
def setsStyle : Operator → Bool
  | .lineWidth _ | .opacity _ | .color _ _ => true
  | _ => false

end Operator

/-! ## Views -/

namespace Canvas

/-- A view of canvases in which some operators are seen.  Those act on the view as they act on
the canvas, and all others leave it as it is. -/
structure IsView (o : DrawingOptions) (view : Canvas → Canvas) (sees : Operator → Bool) :
    Prop where
  seen : ∀ c op index, sees op = true → view (draw o c op index) = draw o (view c) op index
  unseen : ∀ c op index, sees op = false → view (draw o c op index) = view c
  malformed : ∀ c : Canvas,
    view { c with tally := { c.tally with malformed := c.tally.malformed + 1 } } = view c

namespace IsView

variable {o : DrawingOptions} {view : Canvas → Canvas} {sees : Operator → Bool}

theorem drawRaw_of_seen (h : IsView o view sees) (c : Canvas) {raw : RawOperator}
    (hraw : raw.isOf sees = true) : view (drawRaw o c raw) = drawRaw o (view c) raw := by
  unfold RawOperator.isOf at hraw
  unfold drawRaw
  cases hop : Operator.decode raw with
  | ok op =>
    rw [hop] at hraw
    exact h.seen c op raw.index hraw
  | error fault =>
    rw [hop] at hraw
    exact Bool.noConfusion hraw

theorem drawRaw_of_unseen (h : IsView o view sees) (c : Canvas) {raw : RawOperator}
    (hraw : raw.isOf sees = false) : view (drawRaw o c raw) = view c := by
  unfold RawOperator.isOf at hraw
  unfold drawRaw
  cases hop : Operator.decode raw with
  | ok op =>
    rw [hop] at hraw
    exact h.unseen c op raw.index hraw
  | error fault => exact h.malformed c

/-- **The view of a run is the run of what is seen.** -/
theorem drawAll (h : IsView o view sees) (c : Canvas) (raws : List RawOperator) :
    view (drawAll o c raws) = drawAll o (view c) (raws.filter (RawOperator.isOf sees)) := by
  induction raws generalizing c with
  | nil => rfl
  | cons raw raws ih =>
    by_cases hraw : raw.isOf sees = true
    · rw [List.filter_cons_of_pos hraw]
      calc view (Canvas.drawAll o (drawRaw o c raw) raws)
          = Canvas.drawAll o (view (drawRaw o c raw)) _ := ih (drawRaw o c raw)
        _ = Canvas.drawAll o (drawRaw o (view c) raw) _ := by rw [h.drawRaw_of_seen c hraw]
    · rw [List.filter_cons_of_neg hraw]
      calc view (Canvas.drawAll o (drawRaw o c raw) raws)
          = Canvas.drawAll o (view (drawRaw o c raw)) _ := ih (drawRaw o c raw)
        _ = Canvas.drawAll o (view c) _ := by
          rw [h.drawRaw_of_unseen c (eq_false_of_ne_true hraw)]

/-- **A list may lose operators that are not seen**, any of them. -/
theorem drawAll_filter (h : IsView o view sees) (c : Canvas) (raws : List RawOperator)
    (keep : RawOperator → Bool) (hkeep : ∀ raw, raw.isOf sees = true → keep raw = true) :
    view (Canvas.drawAll o c (raws.filter keep)) = view (Canvas.drawAll o c raws) := by
  have hseen : (raws.filter keep).filter (RawOperator.isOf sees) =
      raws.filter (RawOperator.isOf sees) := by
    rw [List.filter_filter]
    refine List.filter_congr fun raw _ => ?_
    cases hraw : raw.isOf sees with
    | true => rw [hkeep raw hraw, Bool.and_self]
    | false => rw [Bool.false_and]
  rw [h.drawAll c raws, h.drawAll c (raws.filter keep), hseen]

end IsView

end Canvas

/-! ## The view of images -/

namespace Pen

/-- The pen without line width and colors. -/
def uncolored (pen : Pen) : Pen where
  opacity := pen.opacity
  fillOpacity := pen.fillOpacity
  matrix := pen.matrix

/-- The pen with nothing but its matrix. -/
def plain (pen : Pen) : Pen where
  matrix := pen.matrix

end Pen

namespace Canvas

variable (o : DrawingOptions)

/-- The images, and of the pens what places them. -/
def placed (c : Canvas) : Canvas where
  state := { pen := c.state.pen.uncolored, saved := c.state.saved.map Pen.uncolored }
  images := c.images
  tally := { images := c.tally.images }

theorem placed_foldl_addStep (c : Canvas) (steps : List PathStep) :
    (steps.foldl (addStep o) c).placed = c.placed := by
  induction steps generalizing c with
  | nil => rfl
  | cons step steps ih =>
    have hstep : (addStep o c step).placed = c.placed := by
      rw [addStep_eq]
      rfl
    rw [List.foldl_cons, ih, hstep]

/-- An operator that builds no path is drawn in text mode as elsewhere. -/
theorem isView_placed : IsView o placed Operator.placesImages where
  malformed c := rfl
  seen c op index hop := by
    have hskips : ∀ inText, (inText && op.buildsPath) = false := by
      intro inText
      cases op with
      | step s => exact Bool.noConfusion hop
      | batch p numbers => exact Bool.noConfusion hop
      | _ => exact Bool.and_false inText
    unfold draw
    rw [hskips, hskips, if_neg Bool.false_ne_true, if_neg Bool.false_ne_true]
    cases op with
    | save => rfl
    | restore => obtain ⟨⟨pen, path, inText, _ | ⟨q, saved⟩⟩, shapes, images, tally⟩ := c <;> rfl
    | transform m => rfl
    | opacity change => rfl
    | image name => rfl
    | _ => exact Bool.noConfusion hop
  unseen c op index hop := by
    unfold draw
    split
    · rfl
    · cases op with
      | save => exact Bool.noConfusion hop
      | restore => exact Bool.noConfusion hop
      | transform m => exact Bool.noConfusion hop
      | opacity change => exact Bool.noConfusion hop
      | image name => exact Bool.noConfusion hop
      | step s => exact placed_foldl_addStep o c [s]
      | batch p numbers =>
        cases p with
        | some p => exact placed_foldl_addStep o c (Batch.steps numbers)
        | none => exact placed_foldl_addStep o c (Batch.steps numbers)
      | color target components => cases target <;> rfl
      | _ => rfl

/-! ## The view of shapes -/

/-- The canvas as if nothing but shapes were drawn on it. -/
def withoutImages (c : Canvas) : Canvas :=
  { c with images := [], tally := { c.tally with images := 0, malformed := 0 } }

theorem withoutImages_addStep (c : Canvas) (step : PathStep) :
    (addStep o c step).withoutImages = addStep o c.withoutImages step := by
  rw [addStep_eq, addStep_eq]
  rfl

theorem withoutImages_foldl_addStep (c : Canvas) (steps : List PathStep) :
    (steps.foldl (addStep o) c).withoutImages = steps.foldl (addStep o) c.withoutImages :=
  (List.foldl_hom withoutImages fun c step => (withoutImages_addStep o c step).symm).symm

theorem isView_withoutImages : IsView o withoutImages Operator.isDrawn where
  malformed c := rfl
  seen c op index hop := by
    by_cases hskips : (c.state.inText && op.buildsPath) = true
    · have hskips' : (c.withoutImages.state.inText && op.buildsPath) = true := hskips
      unfold draw
      rw [if_pos hskips, if_pos hskips']
    · have hskips' : ¬(c.withoutImages.state.inText && op.buildsPath) = true := hskips
      unfold draw
      rw [if_neg hskips, if_neg hskips']
      cases op with
      | step s => exact withoutImages_addStep o c s
      | batch p numbers =>
        dsimp only
        rw [← withoutImages_foldl_addStep]
        cases p with
        | some p => rfl
        | none => rfl
      | image name => exact Bool.noConfusion hop
      | unsupported code => exact Bool.noConfusion hop
      | _ => rfl
  unseen c op index hop := by
    unfold draw
    split
    · rfl
    · cases op with
      | image name => rfl
      | unsupported code => rfl
      | _ => exact Bool.noConfusion hop

end Canvas

/-! ## The view of outlines -/

/-- The shape as a pen with nothing but its matrix makes it. -/
def Shape.plain (s : Shape) : Shape :=
  { s with thickness := 1, strokeColor := Color.black, fillColor := Color.black, opacity := 1 }

/-- Which sub-path the shape is, and what of it is painted. -/
def Shape.outline (s : Shape) : String × List Segment × Bool × Bool :=
  (s.id, s.path, s.isFilled, s.isStroked)

namespace Canvas

variable (o : DrawingOptions)

/-- The canvas as if it were drawn in one style. -/
def plain (c : Canvas) : Canvas where
  state := { c.state with pen := c.state.pen.plain, saved := c.state.saved.map Pen.plain }
  shapes := c.shapes.map Shape.plain
  tally := { paths := c.tally.paths, rects := c.tally.rects }

/-- **Which sub-paths are kept is no matter of style.** -/
theorem shapesOf_plain (pen : Pen) (p : Paint) (index : UInt64) (path : List Segment) :
    shapesOf o pen.plain p index path = (shapesOf o pen p index path).map Shape.plain := by
  unfold shapesOf
  rw [List.map_map]
  rfl

theorem outline_plain (c : Canvas) :
    c.plain.shapes.map Shape.outline = c.shapes.map Shape.outline :=
  List.map_map

theorem plain_addStep (c : Canvas) (step : PathStep) :
    (addStep o c step).plain = addStep o c.plain step := by
  rw [addStep_eq, addStep_eq]
  rfl

theorem plain_foldl_addStep (c : Canvas) (steps : List PathStep) :
    (steps.foldl (addStep o) c).plain = steps.foldl (addStep o) c.plain :=
  (List.foldl_hom plain fun c step => (plain_addStep o c step).symm).symm

theorem plain_paint (c : Canvas) (p : Paint) (index : UInt64) :
    (paint o c p index).plain = paint o c.plain p index := by
  unfold paint
  dsimp only [plain]
  rw [shapesOf_plain, List.length_map]
  simp only [withPath, withState, List.map_append]

theorem isView_plain : IsView o plain fun op => op.isDrawn && !op.setsStyle where
  malformed c := rfl
  seen c op index hop := by
    by_cases hskips : (c.state.inText && op.buildsPath) = true
    · have hskips' : (c.plain.state.inText && op.buildsPath) = true := hskips
      unfold draw
      rw [if_pos hskips, if_pos hskips']
    · have hskips' : ¬(c.plain.state.inText && op.buildsPath) = true := hskips
      unfold draw
      rw [if_neg hskips, if_neg hskips']
      cases op with
      | restore =>
        obtain ⟨⟨pen, path, inText, _ | ⟨q, saved⟩⟩, shapes, images, tally⟩ := c <;> rfl
      | step s => exact plain_addStep o c s
      | batch p numbers =>
        dsimp only
        rw [← plain_foldl_addStep]
        cases p with
        | some p => exact plain_paint o _ p index
        | none => rfl
      | paint p => exact plain_paint o c p index
      | lineWidth w => exact Bool.noConfusion hop
      | opacity change => exact Bool.noConfusion hop
      | color target components => exact Bool.noConfusion hop
      | image name => exact Bool.noConfusion hop
      | unsupported code => exact Bool.noConfusion hop
      | _ => rfl
  unseen c op index hop := by
    unfold draw
    split
    · rfl
    · cases op with
      | lineWidth w => rfl
      | opacity change => rfl
      | color target components => cases target <;> rfl
      | image name => rfl
      | unsupported code => rfl
      | _ => exact Bool.noConfusion hop

/-! ## Runs with operators left out -/

/-- **Images, shapes and style do not meddle with each other.**  What images a run places is up to
the operators that place them; images and what is unknown or malformed leave no trace in the
shapes, the state and their counts; and whatever sets a style, the same sub-paths are painted in
the same way. -/
theorem concerns_apart (raws : List RawOperator) :
    (ofOperators o (raws.filter (RawOperator.isOf Operator.placesImages))).images =
        (ofOperators o raws).images ∧
      (let c := ofOperators o raws
        let c' := ofOperators o (raws.filter (RawOperator.isOf Operator.isDrawn))
        c'.shapes = c.shapes ∧ c'.state = c.state ∧ c'.tally.paths = c.tally.paths ∧
          c'.tally.rects = c.tally.rects ∧ c'.tally.colors = c.tally.colors) ∧
      (ofOperators o (raws.filter fun raw => !raw.isOf Operator.setsStyle)).shapes.map
          Shape.outline = (ofOperators o raws).shapes.map Shape.outline := by
  have himages := (isView_placed o).drawAll_filter {} raws _ fun _ => id
  have hshapes := (isView_withoutImages o).drawAll_filter {} raws _ fun _ => id
  have hstyle : ∀ raw : RawOperator, (raw.isOf fun op => op.isDrawn && !op.setsStyle) = true →
      (!raw.isOf Operator.setsStyle) = true := by
    intro raw hraw
    unfold RawOperator.isOf at hraw ⊢
    cases hop : Operator.decode raw with
    | error fault => rfl
    | ok op =>
      rw [hop] at hraw
      exact ((Bool.and_eq_true _ _).mp hraw).2
  have hplain := (isView_plain o).drawAll_filter {} raws _ hstyle
  refine ⟨(congrArg images himages :), ⟨(congrArg shapes hshapes :), (congrArg state hshapes :),
    (congrArg (·.tally.paths) hshapes :), (congrArg (·.tally.rects) hshapes :),
    (congrArg (·.tally.colors) hshapes :)⟩, ?_⟩
  rw [← outline_plain, ← outline_plain (ofOperators o raws)]
  exact (congrArg (·.shapes.map Shape.outline) hplain :)

/-- A save, a line width, a fill color, a move without operands, a fill, an image, a code unknown. -/
example :
    let raws : List RawOperator := [⟨10, [], 0⟩, ⟨2, [.null], 1⟩, ⟨54, [], 2⟩, ⟨13, [], 3⟩,
      ⟨22, [], 4⟩, ⟨83, [], 5⟩, ⟨99, [], 6⟩]
    (raws.filter (RawOperator.isOf Operator.placesImages)).map RawOperator.index = [0, 5] ∧
      (raws.filter (RawOperator.isOf Operator.isDrawn)).map RawOperator.index = [0, 1, 2, 4] ∧
      (raws.filter fun raw => !raw.isOf Operator.setsStyle).map RawOperator.index =
        [0, 3, 4, 5, 6] := by
  decide

end Canvas
end PageContent
