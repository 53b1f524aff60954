/-
# What a run places

An image is placed under the pen of its moment and looks at nothing else.  The
pens of a run are a function of its operators (`pens_drawAll`), and so are its
images: `placings` walks the list with the pens alone, and it meets the images of
the canvas in their order (`images_drawAll`).

Each operator places at most one image and paints at most one path, so the indexes
under which a run paints, and those under which it places, are sublists of the
indexes of its operators (`index_paintings_sublist`, `id_placings_sublist`).  The
shapes of one painting are told apart by their places (`exists_places`).
-/

import PageContent.Proofs.Drawing.Effect
import PageContent.Proofs.Order.Interleaving

namespace PageContent
namespace Canvas

variable (o : DrawingOptions)

/-- The image of the unit square under a pen. -/
def imageOf (pen : Pen) (name : Option String) (index : UInt64) : Image where
  id := "image_" ++ toString index.toNat
  name
  bbox := Box.hull (place o pen ⟨0, 0⟩) [place o pen ⟨1, 0⟩, place o pen ⟨0, 1⟩, place o pen ⟨1, 1⟩]
  opacity := pen.opacity

/-- What an operator places. -/
def image? (pen : Pen) (index : UInt64) : Operator → Option Image
  | .image name => some (imageOf o pen name index)
  | _ => none

/-- What a run places, in its order. -/
def placings (p : Pens) : List RawOperator → List Image
  | [] => []
  | raw :: raws =>
    ((Operator.decode raw).toOption.bind (image? o p.pen raw.index)).toList ++
      placings (p.afterRaw raw) raws

variable (c : Canvas)

theorem images_addStep (step : PathStep) : (addStep o c step).images = c.images := by
  rw [addStep_eq]

theorem images_foldl_addStep (steps : List PathStep) :
    (steps.foldl (addStep o) c).images = c.images := by
  induction steps generalizing c with
  | nil => rfl
  | cons step steps ih => rw [List.foldl_cons, ih, images_addStep]

/-- **The images of an operator are a matter of the pen.** -/
theorem images_draw (op : Operator) (index : UInt64) :
    (draw o c op index).images = c.images ++ (image? o c.state.pen index op).toList := by
  unfold draw
  split
  · rename_i hskipped
    have hbuilds : op.buildsPath = true := ((Bool.and_eq_true _ _).mp hskipped).2
    cases op with
    | step s => exact (List.append_nil _).symm
    | batch p numbers => exact (List.append_nil _).symm
    | _ => exact absurd hbuilds Bool.false_ne_true
  · cases op with
    | image name => rfl
    | step s => exact (images_addStep o c s).trans (List.append_nil _).symm
    | batch p numbers =>
      cases p with
      | some p => exact (images_foldl_addStep o c _).trans (List.append_nil _).symm
      | none => exact (images_foldl_addStep o c _).trans (List.append_nil _).symm
    | _ => exact (List.append_nil _).symm

theorem images_drawRaw (raw : RawOperator) :
    (drawRaw o c raw).images = c.images ++
      ((Operator.decode raw).toOption.bind (image? o c.state.pen raw.index)).toList := by
  unfold drawRaw
  cases Operator.decode raw with
  | ok op => exact images_draw o c op raw.index
  | error e => exact (List.append_nil _).symm

/-- **The images of a run are those that its operators place.** -/
theorem images_drawAll (raws : List RawOperator) :
    (drawAll o c raws).images = c.images ++ placings o c.pens raws := by
  induction raws generalizing c with
  | nil => exact (List.append_nil _).symm
  | cons raw raws ih =>
    have hpen : c.state.pen = c.pens.pen := rfl
    rw [drawAll, List.foldl_cons, ← drawAll, ih, images_drawRaw, placings, ← pens_drawRaw o, hpen,
      List.append_assoc]

theorem images_ofOperators (raws : List RawOperator) :
    (ofOperators o raws).images = placings o (pens {}) raws :=
  images_drawAll o {} raws

/-! ## Indexes -/

variable {o c}

theorem index_of_painting? {op : Operator} {index : UInt64} {q : Painting}
    (h : painting? o c op index = some q) : q.index = index := by
  unfold painting? at h
  split at h
  · exact absurd h (Option.some_ne_none q).symm
  · cases op with
    | paint p => exact (Option.some.inj h) ▸ rfl
    | batch p numbers =>
      cases p with
      | none => exact absurd h (Option.some_ne_none q).symm
      | some p => exact (Option.some.inj h) ▸ rfl
    | _ => exact absurd h (Option.some_ne_none q).symm

theorem id_of_image? {pen : Pen} {index : UInt64} {op : Operator} {i : Image}
    (h : image? o pen index op = some i) : i.id = "image_" ++ toString index.toNat := by
  cases op with
  | image name => exact (Option.some.inj h) ▸ rfl
  | _ => exact absurd h (Option.some_ne_none i).symm

/-- A run paints at most once under the index of each operator. -/
theorem index_paintings_sublist (raws : List RawOperator) :
    ((paintings o c raws).map Painting.index).Sublist (raws.map RawOperator.index) := by
  induction raws generalizing c with
  | nil => exact .slnil
  | cons raw raws ih =>
    rw [paintings, List.map_append, List.map_cons, ← List.singleton_append]
    refine List.Sublist.append ?_ ih
    cases hq : (Operator.decode raw).toOption.bind fun op => painting? o c op raw.index with
    | none => exact List.nil_sublist _
    | some q =>
      obtain ⟨op, -, hop⟩ := Option.bind_eq_some_iff.1 hq
      rw [Option.toList_some, List.map_singleton, index_of_painting? hop]

/-- The shapes of one painting are named for its index and for places that increase. -/
theorem exists_places (o : DrawingOptions) (q : Painting) :
    ∃ places : List Nat, places.Pairwise (· < ·) ∧ (q.shapes o).map Shape.id =
      places.map fun place => "path_" ++ toString q.index.toNat ++ "_" ++ toString place := by
  refine ⟨((Path.subPaths q.path (cutLength o q.paint.fills)).zipIdx.filter
    fun p => Path.isKept o q.paint.fills p.1).map Prod.snd, ?_, ?_⟩
  · exact List.pairwise_map.2 ((pairwise_snd_zipIdx _).sublist List.filter_sublist)
  · rw [Painting.shapes, shapesOf, List.map_map, List.map_map]
    rfl

/-- A run places at most one image under the index of each operator. -/
theorem id_placings_sublist (p : Pens) (raws : List RawOperator) :
    ((placings o p raws).map Image.id).Sublist
      (raws.map fun raw => "image_" ++ toString raw.index.toNat) := by
  induction raws generalizing p with
  | nil => exact .slnil
  | cons raw raws ih =>
    rw [placings, List.map_append, List.map_cons, ← List.singleton_append]
    refine List.Sublist.append ?_ (ih (p.afterRaw raw))
    cases hi : (Operator.decode raw).toOption.bind (image? o p.pen raw.index) with
    | none => exact List.nil_sublist _
    | some i =>
      obtain ⟨op, -, hop⟩ := Option.bind_eq_some_iff.1 hi
      rw [Option.toList_some, List.map_singleton, id_of_image? hop]

end Canvas
end PageContent
