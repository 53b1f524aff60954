/-
# What is counted is what is there

The tally of a canvas is kept in five places:

| counted | when |
| --- | --- |
| paths | a sub-path is kept of a path that is painted |
| rects | a rectangle is walked, as an operator or in a batch |
| colors | a color is set |
| images | an image is placed |
| malformed | an operator cannot be decoded |

An operator adds to all of them at once (`tally_draw`), and so does a run
(`tally_drawAll`).  Shapes and images are only ever added at the end, so those of a run are
the first of those of any longer one; and each operator adds shapes of its own index
(`isEmittedBy_emitted`), if it paints.
-/

import PageContent.Proofs.Drawing.Placing
import PageContent.Proofs.Drawing.Views

namespace PageContent

namespace Operator

def setsColor : Operator → Bool
  | .color _ _ => true
  | _ => false

/-- The operator paints the path, or a batch. -/
def paintsPath : Operator → Bool
  | .paint _ | .batch (some _) _ => true
  | _ => false

/-- How many rectangles the operator walks outside text mode. -/
def rectangles : Operator → Nat
  | .step s => if s.isRectangle then 1 else 0
  | .batch _ numbers => (Batch.steps numbers).countP PathStep.isRectangle
  | _ => 0

theorem rectangles_of_buildsPath_eq_false {op : Operator} (h : op.buildsPath = false) :
    op.rectangles = 0 := by
  cases op with
  | step s =>
    cases s with
    | close => rfl
    | _ => exact Bool.noConfusion h
  | batch p numbers => exact Bool.noConfusion h
  | _ => rfl

end Operator

/-- The operator cannot be decoded. -/
def RawOperator.isMalformed (raw : RawOperator) : Bool := (Operator.decode raw).toOption.isNone

namespace Batch

theorem Item.isRectangle_step (i : Item) :
    i.step.isRectangle = decide (i.kind = .rectangle) := by
  unfold Item.step
  cases i.kind <;> rfl

/-- The rectangles of a batch are those of its items, up to where it stops. -/
theorem countP_isRectangle_steps {items : List Item} {tail : List Float} (h : Stops tail) :
    (steps (items.flatMap Item.numbers ++ tail)).countP PathStep.isRectangle =
      items.countP (·.kind = .rectangle) := by
  rw [steps_flatMap_append h, List.countP_map]
  exact List.countP_congr fun i _ => by rw [Function.comp_apply, i.isRectangle_step]

end Batch

/-- How many rectangles a list of operators walks outside text mode, begun in it or not. -/
def rectangles (inText : Bool) : List RawOperator → Nat
  | [] => 0
  | raw :: raws => match Operator.decode raw with
    | .ok op => (if inText then 0 else op.rectangles) + rectangles (op.inTextAfter inText) raws
    | .error _ => rectangles inText raws

namespace Canvas

variable (o : DrawingOptions) (c : Canvas)

/-! ## The tally -/

theorem tally_addStep (step : PathStep) :
    (addStep o c step).tally =
      { c.tally with rects := c.tally.rects + if step.isRectangle then 1 else 0 } := by
  rw [addStep_eq]

theorem tally_foldl_addStep (steps : List PathStep) :
    (steps.foldl (addStep o) c).tally =
      { c.tally with rects := c.tally.rects + steps.countP PathStep.isRectangle } := by
  induction steps generalizing c with
  | nil => rfl
  | cons step steps ih =>
    rw [List.foldl_cons, ih, tally_addStep, List.countP_cons,
      Nat.add_comm (steps.countP PathStep.isRectangle), Nat.add_assoc]

theorem tally_paint (p : Paint) (index : UInt64) :
    (paint o c p index).tally = { c.tally with
      paths := c.tally.paths + ((paintingOf c p index).shapes o).length } := rfl

/-- **What an operator adds to the tally**, to all of it at once. -/
theorem tally_draw (op : Operator) (index : UInt64) :
    (draw o c op index).tally =
      { paths := c.tally.paths +
          ((painting? o c op index).toList.flatMap (Painting.shapes o)).length
        rects := c.tally.rects + if c.state.inText then 0 else op.rectangles
        colors := c.tally.colors + if op.setsColor then 1 else 0
        images := c.tally.images + (image? o c.state.pen index op).toList.length
        malformed := c.tally.malformed } := by
  unfold draw painting?
  split
  · rename_i hskipped
    obtain ⟨htext, hbuilds⟩ := (Bool.and_eq_true _ _).mp hskipped
    rw [if_pos htext]
    cases op with
    | step s => rfl
    | batch p numbers => rfl
    | _ => exact Bool.noConfusion hbuilds
  · rename_i hdraws
    have hrects : (if c.state.inText then 0 else op.rectangles) = op.rectangles := by
      by_cases htext : c.state.inText = true
      · rw [htext, Bool.true_and, Bool.not_eq_true] at hdraws
        rw [if_pos htext, Operator.rectangles_of_buildsPath_eq_false hdraws]
      · rw [if_neg htext]
    rw [hrects]
    cases op with
    | step s => exact tally_addStep o c s
    | batch p numbers =>
      have hsteps := tally_foldl_addStep o c (Batch.steps numbers)
      cases p with
      | none => exact hsteps
      | some p =>
        rw [Option.toList_some, List.flatMap_singleton]
        rw [tally_paint, hsteps]
        rfl
    | paint p =>
      rw [Option.toList_some, List.flatMap_singleton]
      rfl
    | color target components => cases target <;> rfl
    | _ => rfl

/-- The shapes that come of an operator. -/
def emitted (raw : RawOperator) : List Shape :=
  ((Operator.decode raw).toOption.bind fun op => painting? o c op raw.index).toList.flatMap
    (Painting.shapes o)

/-- The shapes that come of each operator of a run. -/
def emissions (c : Canvas) : List RawOperator → List (List Shape)
  | [] => []
  | raw :: raws => emitted o c raw :: emissions (drawRaw o c raw) raws

theorem rectangles_cons (raw : RawOperator) (raws : List RawOperator) :
    rectangles c.state.inText (raw :: raws) =
      rectangles c.state.inText [raw] + rectangles (drawRaw o c raw).state.inText raws := by
  unfold drawRaw
  rw [rectangles, rectangles]
  cases Operator.decode raw with
  | ok op => simp only [rectangles, inText_draw, Nat.add_zero]
  | error fault => exact (Nat.zero_add _).symm

theorem tally_drawRaw (raw : RawOperator) :
    (drawRaw o c raw).tally =
      { paths := c.tally.paths + (emitted o c raw).length
        rects := c.tally.rects + rectangles c.state.inText [raw]
        colors := c.tally.colors + if raw.isOf Operator.setsColor then 1 else 0
        images := c.tally.images +
          ((Operator.decode raw).toOption.bind (image? o c.state.pen raw.index)).toList.length
        malformed := c.tally.malformed + if raw.isMalformed then 1 else 0 } := by
  unfold drawRaw emitted RawOperator.isOf RawOperator.isMalformed
  rw [rectangles]
  cases Operator.decode raw with
  | ok op => exact tally_draw o c op raw.index
  | error fault => rfl

/-- **What a run adds to the tally.** -/
theorem tally_drawAll (raws : List RawOperator) :
    (drawAll o c raws).tally =
      { paths := c.tally.paths + (emissions o c raws).flatten.length
        rects := c.tally.rects + rectangles c.state.inText raws
        colors := c.tally.colors + raws.countP (RawOperator.isOf Operator.setsColor)
        images := c.tally.images + (placings o c.pens raws).length
        malformed := c.tally.malformed + raws.countP RawOperator.isMalformed } := by
  induction raws generalizing c with
  | nil => rfl
  | cons raw raws ih =>
    show (drawAll o (drawRaw o c raw) raws).tally = _
    rw [ih, tally_drawRaw, rectangles_cons o c raw raws, emissions, placings, pens_drawRaw,
      List.flatten_cons, List.length_append, List.length_append, List.countP_cons,
      List.countP_cons]
    simp only [pens, Nat.add_assoc, Nat.add_comm, Nat.add_left_comm]

/-! ## Shapes and images -/

/-- **The shapes after any part of a run are those that came of the operators so far.** -/
theorem shapes_take (raws : List RawOperator) (n : Nat) :
    (drawAll o c (raws.take n)).shapes = c.shapes ++ ((emissions o c raws).take n).flatten := by
  induction raws generalizing c n with
  | nil => simp [emissions, drawAll]
  | cons raw raws ih =>
    cases n with
    | zero => exact (List.append_nil _).symm
    | succ n =>
      show (drawAll o (drawRaw o c raw) (raws.take n)).shapes = _
      rw [ih, shapes_drawRaw, emissions, List.take_succ_cons, List.flatten_cons,
        List.append_assoc]
      rfl

/-- The shapes that an operator emits: none but for a path that it paints, and named for its index
and for places that increase. -/
structure IsEmittedBy (raw : RawOperator) (shapes : List Shape) : Prop where
  paints : shapes ≠ [] → raw.isOf Operator.paintsPath = true
  ids : ∃ places : List Nat, places.Pairwise (· < ·) ∧ shapes.map Shape.id =
    places.map fun place => "path_" ++ toString raw.index.toNat ++ "_" ++ toString place

theorem paintsPath_of_painting? {op : Operator} {index : UInt64} {q : Painting}
    (h : painting? o c op index = some q) : op.paintsPath = true := by
  unfold painting? at h
  split at h
  · exact absurd h nofun
  · cases op with
    | paint p => rfl
    | batch p numbers =>
      cases p with
      | none => exact absurd h nofun
      | some p => rfl
    | _ => exact absurd h nofun

theorem isEmittedBy_emitted (raw : RawOperator) : IsEmittedBy raw (emitted o c raw) := by
  unfold emitted
  cases hq : (Operator.decode raw).toOption.bind fun op => painting? o c op raw.index with
  | none => exact ⟨fun h => absurd rfl h, [], .nil, rfl⟩
  | some q =>
    obtain ⟨op, hop, hq⟩ := Option.bind_eq_some_iff.1 hq
    rw [Option.toList_some, List.flatMap_singleton]
    refine ⟨fun _ => ?_, ?_⟩
    · rw [RawOperator.isOf, hop]
      exact paintsPath_of_painting? o c hq
    · rw [← index_of_painting? hq]
      exact exists_places o q

theorem forall₂_isEmittedBy_emissions (raws : List RawOperator) :
    List.Forall₂ IsEmittedBy raws (emissions o c raws) := by
  induction raws generalizing c with
  | nil => exact .nil
  | cons raw raws ih => exact .cons (isEmittedBy_emitted o c raw) (ih (drawRaw o c raw))

/-! ## The page -/

/-- **Counters and what is drawn agree in every run.**  There are as many paths counted as shapes,
and as many images as images; malformed are the operators that cannot be decoded, colors those
that set one, and rectangles those walked outside text mode, by operators of their own and by
batches up to where they stop.  A longer run keeps the shapes and images there are and adds to
them.  Each shape comes of an operator that paints, of a path or a batch, and is named for its
index and for a place that increases among the shapes of the operator.  An operator that cannot be
decoded changes nothing but the count of such. -/
theorem tally_agrees (raws : List RawOperator) :
    let c := ofOperators o raws
    (c.tally.paths = c.shapes.length ∧ c.tally.images = c.images.length ∧
      c.tally.malformed = raws.countP RawOperator.isMalformed ∧
      c.tally.colors = raws.countP (RawOperator.isOf Operator.setsColor) ∧
      c.tally.rects = rectangles false raws ∧
      ∀ paint (items : List Batch.Item) tail, Batch.Stops tail →
        (Operator.batch paint (items.flatMap Batch.Item.numbers ++ tail)).rectangles =
          items.countP (·.kind = .rectangle)) ∧
    (∀ more, c.shapes <+: (ofOperators o (raws ++ more)).shapes ∧
      c.images <+: (ofOperators o (raws ++ more)).images) ∧
    (∃ emitted : List (List Shape), List.Forall₂ IsEmittedBy raws emitted ∧
      ∀ n, (ofOperators o (raws.take n)).shapes = (emitted.take n).flatten) ∧
    ∀ raw fault, Operator.decode raw = .error fault → ofOperators o (raws ++ [raw]) =
      { c with tally := { c.tally with malformed := c.tally.malformed + 1 } } := by
  intro c
  have htally := tally_drawAll o {} raws
  have hshapes : c.shapes = (emissions o {} raws).flatten := by
    have hall := shapes_take o {} raws raws.length
    have hlength := (forall₂_isEmittedBy_emissions o {} raws).length_eq
    rwa [List.take_length, hlength, List.take_length] at hall
  have hmore : ∀ more, ofOperators o (raws ++ more) = drawAll o c more := drawAll_append o {} raws
  refine ⟨⟨?_, ?_, ?_, ?_, ?_, ?_⟩, fun more => ⟨?_, ?_⟩, ?_, fun raw fault hraw => ?_⟩
  · rw [hshapes]
    exact (congrArg Tally.paths htally).trans (Nat.zero_add _)
  · rw [images_ofOperators]
    exact (congrArg Tally.images htally).trans (Nat.zero_add _)
  · exact (congrArg Tally.malformed htally).trans (Nat.zero_add _)
  · exact (congrArg Tally.colors htally).trans (Nat.zero_add _)
  · exact (congrArg Tally.rects htally).trans (Nat.zero_add _)
  · exact fun paint items tail h => Batch.countP_isRectangle_steps h
  · rw [hmore, shapes_drawAll]
    exact List.prefix_append _ _
  · rw [hmore, images_drawAll]
    exact List.prefix_append _ _
  · exact ⟨emissions o {} raws, forall₂_isEmittedBy_emissions o {} raws, shapes_take o {} raws⟩
  · rw [hmore]
    show drawRaw o c raw = _
    rw [drawRaw, hraw]

/-- A rectangle, its fill, a line without operands, a color, a batch of a rectangle and an unknown
code to be stroked, and in text mode a rectangle. -/
def countedRun : List RawOperator :=
  [⟨19, [.integer 1, .integer 2, .integer 30, .integer 40], 0⟩, ⟨22, [], 1⟩, ⟨14, [], 2⟩,
    ⟨57, [.integer 1], 3⟩, ⟨91, [.integer 1, .array [.integer 5, .integer 1, .integer 2,
      .integer 30, .integer 40, .integer 9]], 4⟩, ⟨31, [], 5⟩,
    ⟨19, [.integer 1, .integer 2, .integer 3, .integer 4], 6⟩]

/-- Two shapes, two rectangles, a color and a malformed line, which is all there is to it. -/
theorem tally_agrees_countedRun :
    (ofOperators {} countedRun).tally =
      { paths := 2, rects := 2, colors := 1, images := 0, malformed := 1 } ∧
    (ofOperators {} countedRun).shapes.map Shape.id = ["path_1_0", "path_4_0"] ∧
    ofOperators {} (countedRun.take 3) =
      { ofOperators {} (countedRun.take 2) with
        tally := { (ofOperators {} (countedRun.take 2)).tally with malformed := 1 } } ∧
    (Operator.batch (some .stroke) [5, 1, 2, 30, 40, 9]).rectangles = 1 := by
  obtain ⟨⟨-, -, -, -, -, hbatch⟩, -, -, hmalformed⟩ := tally_agrees {} (countedRun.take 2)
  refine ⟨by decide +kernel, by decide +kernel, ?_, ?_⟩
  · exact hmalformed ⟨14, [], 2⟩ (.tooFew 2 0) (by decide +kernel)
  · have hitem : Batch.Kind.ofCode? 5 = some .rectangle := by decide +kernel
    exact hbatch (some .stroke) [⟨5, .rectangle, [1, 2, 30, 40], hitem, rfl⟩] [9]
      (.inl (by decide +kernel))

end Canvas
end PageContent
