/-
# The spelling of numbers

An operand counts as a number, whatever it is: a text as the number it spells, and what is
unusable as `0`.  Operands that count as the same numbers draw the same.

| operator | operands that count as numbers |
| --- | --- |
| line width, transform, steps, colors | all |
| batch | the first, and those behind each known code of the batch |

In a batch an unusable entry is a NaN until its place on the page is looked up, so that it is
no code.  That place is the one of `0` (`settle_batchNumber`), but a sum with a NaN is lost:
a rectangle of a batch ends at `0`, and not where its other number says, if its corner or its
extent is unusable (`farEdge`).  Respelling the entries of a rectangle draws the same as far
as it leaves both ends where they are (`Batch.Respelled.rectangle`).  So respelled pages are
drawn alike (`drawAll_respelled`).
-/

import PageContent.Proofs.Drawing.Batch
import PageContent.Proofs.Number.Scaled

namespace PageContent

/-! ## Sums with a NaN -/

namespace Binary64

theorem unpacked_nan : unpacked (0 / 0) = .notANumber := rfl

theorem settle_notANumber : settle (ofUnpacked .notANumber) = 0 := by decide +kernel

theorem settle_nan_add (x : Float) : settle (0 / 0 + x) = 0 := by
  rw [add_eq, unpacked_nan]
  exact settle_notANumber

theorem settle_add_nan (x : Float) : settle (x + 0 / 0) = 0 := by
  rw [add_eq, unpacked_nan]
  cases unpacked x with
  | notANumber => exact settle_notANumber
  | infinity s => exact settle_notANumber
  | zero s => exact settle_notANumber
  | finite s m e hm => exact settle_notANumber

end Binary64

/-! ## Operands -/

namespace Operand

/-- The operand written as the number that it counts as. -/
def plain (j : Json) : Json := .number (number j)

theorem number?_plain (j : Json) : number? (plain j) = some (number j) := by
  rw [plain, number?, Option.filter_some, if_pos (isFinite_number j)]

theorem number_plain (j : Json) : number (plain j) = number j := by
  rw [number, number?_plain, Option.getD_some]

theorem length_congr {operands operands' : List Json}
    (h : operands.map number = operands'.map number) : operands.length = operands'.length := by
  rw [← List.length_map number, h, List.length_map]

theorem map_plain (operands : List Json) :
    operands.map plain = (operands.map number).map Json.number := by
  rw [List.map_map]
  rfl

end Operand

namespace Operator

open Operand (number number? plain number_plain)

variable (operands : List Json)

theorem of1_plain (build : Float → Operator) :
    of1 build (operands.map plain) = of1 build operands := by
  rcases operands with _ | ⟨_, _⟩
  · rfl
  · simp only [List.map_cons, of1, number_plain]

theorem of2_plain (build : Point Float → Operator) :
    of2 build (operands.map plain) = of2 build operands := by
  rcases operands with _ | ⟨_, _ | ⟨_, _⟩⟩
  · rfl
  · rfl
  · simp only [List.map_cons, of2, number_plain]

theorem of4_plain (build : Point Float → Point Float → Operator) :
    of4 build (operands.map plain) = of4 build operands := by
  rcases operands with _ | ⟨_, _ | ⟨_, _ | ⟨_, _ | ⟨_, _⟩⟩⟩⟩
  all_goals first | rfl | simp only [List.map_cons, of4, number_plain]

theorem of6_plain (build : Matrix Float → Operator) :
    of6 build (operands.map plain) = of6 build operands := by
  rcases operands with _ | ⟨_, _ | ⟨_, _ | ⟨_, _ | ⟨_, _ | ⟨_, _ | ⟨_, _⟩⟩⟩⟩⟩⟩
  all_goals first | rfl | simp only [List.map_cons, of6, number_plain]

/-- The codes of operators that take numbers: line width, transform, the steps but for a close,
and colors. -/
def numeric : List Nat :=
  [2, 12, 13, 14, 15, 16, 17, 19, 52, 53, 54, 55, 56, 57, 58, 59, 60, 61]

theorem color_plain (target : ColorTarget) :
    Operator.color target ((operands.map plain).map number) =
      .color target (operands.map number) := by
  rw [List.map_map]
  exact congrArg _ (List.map_congr_left fun j _ => number_plain j)

/-- Of its operands such an operator keeps the numbers. -/
theorem ofCode_plain {code : UInt32} (h : code.toNat ∈ numeric) :
    ofCode code (operands.map plain) = ofCode code operands := by
  rw [ofCode, ofCode]
  generalize code.toNat = n at h
  fin_cases h
  · exact of1_plain operands _
  · exact of6_plain operands _
  · exact of2_plain operands _
  · exact of2_plain operands _
  · exact of6_plain operands _
  · exact of4_plain operands _
  · exact of4_plain operands _
  · exact of4_plain operands _
  all_goals exact congrArg Except.ok (color_plain operands _)

/-- Operands that count as the same numbers make the same operator. -/
theorem ofCode_congr {code : UInt32} (h : code.toNat ∈ numeric) {operands operands' : List Json}
    (hnumbers : operands.map number = operands'.map number) :
    ofCode code operands = ofCode code operands' := by
  rw [← ofCode_plain operands h, ← ofCode_plain operands' h, Operand.map_plain, hnumbers,
    ← Operand.map_plain]

/-! ## How a batch is painted -/

/-- The painting that the first operand of a batch names. -/
def paintOf (j : Json) : Option Paint :=
  (number? j).bind fun code => Paint.ofBatchCode? (Binary64.toWord32 code)

/-- An operand that is no number names none, and nor does `0`. -/
theorem paintOf_eq (j : Json) : paintOf j = Paint.ofBatchCode? (Binary64.toWord32 (number j)) := by
  rw [paintOf, number]
  cases number? j with
  | none => decide +kernel
  | some code => rfl

theorem ofBatch_nested (paint : Json) (data more rest : List Json) :
    ofBatch (paint :: .array (.array data :: more) :: rest) =
      .ok (.batch (paintOf paint) (data.map batchNumber)) := rfl

/-- A batch that starts with a number is not nested. -/
theorem ofBatch_flat (paint : Json) {code : Json} (h : (number? code).isSome = true)
    (data rest : List Json) :
    ofBatch (paint :: .array (code :: data) :: rest) =
      .ok (.batch (paintOf paint) ((code :: data).map batchNumber)) := by
  cases code with
  | array inner => exact absurd h Bool.false_ne_true
  | _ => rfl

theorem ofBatch_paint {paint paint' : Json} (h : number paint = number paint')
    (data rest : List Json) :
    ofBatch (paint :: .array data :: rest) = ofBatch (paint' :: .array data :: rest) := by
  have hpaint : paintOf paint = paintOf paint' := by rw [paintOf_eq, paintOf_eq, h]
  cases data with
  | nil => rfl
  | cons code data =>
    cases code with
    | _ => exact congrArg (fun p => Except.ok (Operator.batch p _)) hpaint

end Operator

/-! ## Entries of a batch -/

namespace Batch

open Operand (number number? plain number_plain number?_plain)
open Operator (batchNumber)

/-- Where a rectangle of a batch ends: at `0` if its corner or its extent is unusable. -/
def farEdge (near extent : Json) : Float :=
  if (number? near).isSome && (number? extent).isSome then
    Binary64.settle (number near + number extent)
  else 0

/-- As a coordinate an entry is the number that it counts as. -/
theorem settle_batchNumber (j : Json) : Binary64.settle (batchNumber j) = number j := by
  rw [batchNumber, number]
  cases h : number? j with
  | none => decide +kernel
  | some x => exact Binary64.settle_of_isFinite (Operand.isFinite_of_number? h)

/-- A sum with an unusable entry is lost. -/
theorem settle_batchNumber_add (near extent : Json) :
    Binary64.settle (batchNumber near + batchNumber extent) = farEdge near extent := by
  rw [farEdge, batchNumber, batchNumber, number, number]
  cases number? near with
  | none => exact Binary64.settle_nan_add _
  | some x =>
    cases number? extent with
    | none => exact Binary64.settle_add_nan x
    | some w => rfl

/-- Writing the corner and the extent as numbers moves the end of a rectangle, unless both
are usable or the end is `0` anyway. -/
theorem farEdge_plain_iff (near extent : Json) :
    farEdge (plain near) (plain extent) = farEdge near extent ↔
      ((number? near).isSome ∧ (number? extent).isSome) ∨
        Binary64.settle (number near + number extent) = 0 := by
  rw [farEdge, farEdge, number_plain, number_plain, number?_plain, number?_plain,
    ← Bool.and_eq_true]
  cases (number? near).isSome && (number? extent).isSome <;> simp

section Segments

variable (o : DrawingOptions) (pen : Pen) (path : List Segment)

/-- A place is looked up by settled numbers. -/
theorem place_settle (x y : Float) :
    Canvas.place o pen ⟨Binary64.settle x, Binary64.settle y⟩ = Canvas.place o pen ⟨x, y⟩ := by
  rw [Canvas.place, Canvas.place, Viewport.place, Viewport.place]
  exact congrArg (fun p => o.viewport.project (pen.matrix.settled.apply p))
    (congrArg₂ Point.mk (Binary64.settle_settle x) (Binary64.settle_settle y))

theorem settle_getD (entries : List Json) (i : Nat) :
    Binary64.settle ((entries.map batchNumber).getD i 0) = (entries.map number).getD i 0 := by
  have hmap : (entries.map batchNumber).map Binary64.settle = entries.map number := by
    rw [List.map_map]
    exact List.map_congr_left fun j _ => settle_batchNumber j
  have hzero : Binary64.settle 0 = 0 := Binary64.settle_of_isFinite (by decide)
  calc
    _ = ((entries.map batchNumber).map Binary64.settle).getD i (Binary64.settle 0) :=
      (List.getD_map _ _ _).symm
    _ = (entries.map number).getD i 0 := by rw [hmap, hzero]

/-- **But for a rectangle, the entries behind a code count as their numbers.** -/
theorem segmentsOf_step {kind : Kind} (hkind : kind ≠ .rectangle) (entries : List Json) :
    Path.segmentsOf (Canvas.place o pen) path (kind.step (entries.map batchNumber)) =
      Path.segmentsOf (Canvas.place o pen) path (kind.step (entries.map number)) := by
  have hplace : ∀ i j, Canvas.place o pen
      ⟨(entries.map batchNumber).getD i 0, (entries.map batchNumber).getD j 0⟩ =
        Canvas.place o pen ⟨(entries.map number).getD i 0, (entries.map number).getD j 0⟩ := by
    intro i j
    rw [← place_settle, settle_getD, settle_getD]
  cases kind with
  | rectangle => exact absurd rfl hkind
  | close => rfl
  | _ => simp only [Kind.step, Path.segmentsOf, hplace]

/-- **A rectangle of a batch** starts at the numbers of its corner and ends at its far edges. -/
theorem segmentsOf_rectangle (x y w h : Json) :
    Path.segmentsOf (Canvas.place o pen) path
        (Kind.rectangle.step ([x, y, w, h].map batchNumber)) =
      [.move (Canvas.place o pen ⟨number x, number y⟩),
        .line (Canvas.place o pen ⟨farEdge x w, number y⟩),
        .line (Canvas.place o pen ⟨farEdge x w, farEdge y h⟩),
        .line (Canvas.place o pen ⟨number x, farEdge y h⟩), .close] := by
  simp only [← settle_batchNumber, ← settle_batchNumber_add, place_settle]
  rfl

end Segments

/-! ## Respelled batches -/

/-- Entries respelled behind known codes: as the same numbers, in a rectangle with the same
far edges too.  A batch may stand as it is from some place on. -/
inductive Respelled : List Json → List Json → Prop
  | rest (data : List Json) : Respelled data data
  | item {kind : Kind} {code code' : Json} {entries entries' data data' : List Json}
      (hcode : number? code' = number? code)
      (hkind : Kind.ofCode? (batchNumber code) = some kind) (hother : kind ≠ .rectangle)
      (hlength : entries.length = kind.arity) (hentries : entries.map number = entries'.map number)
      (hdata : Respelled data data') :
      Respelled (code :: (entries ++ data)) (code' :: (entries' ++ data'))
  | rectangle {code code' x y w h x' y' w' h' : Json} {data data' : List Json}
      (hcode : number? code' = number? code)
      (hkind : Kind.ofCode? (batchNumber code) = some .rectangle)
      (hentries : [x, y, w, h].map number = [x', y', w', h'].map number)
      (hx : farEdge x w = farEdge x' w') (hy : farEdge y h = farEdge y' h')
      (hdata : Respelled data data') :
      Respelled (code :: ([x, y, w, h] ++ data)) (code' :: ([x', y', w', h'] ++ data'))
  /-- The entries that are left are too few for the code. -/
  | cut {kind : Kind} {code code' : Json} {entries entries' : List Json}
      (hcode : number? code' = number? code)
      (hkind : Kind.ofCode? (batchNumber code) = some kind) (hlength : entries.length < kind.arity)
      (hentries : entries.map number = entries'.map number) :
      Respelled (code :: entries) (code' :: entries')

/-- A code respelled is the same code. -/
theorem ofCode?_congr {code code' : Json} (h : number? code' = number? code) {kind : Kind}
    (hkind : Kind.ofCode? (batchNumber code) = some kind) :
    Kind.ofCode? (batchNumber code') = some kind := by
  rw [batchNumber, h]
  exact hkind

/-- A known code is a number. -/
theorem isSome_of_ofCode? {code : Json} {kind : Kind}
    (h : Kind.ofCode? (batchNumber code) = some kind) : (number? code).isSome = true := by
  have hnan : Kind.ofCode? (0 / 0) = none := by decide +kernel
  rw [batchNumber] at h
  cases hcode : number? code with
  | none =>
    rw [hcode, Option.getD_none, hnan] at h
    exact absurd h nofun
  | some x => rfl

/-- A respelled batch is the same, or both start with a number. -/
theorem Respelled.eq_or_isSome {data data' : List Json} (h : Respelled data data') :
    data = data' ∨ ∃ code more code' more', data = code :: more ∧ data' = code' :: more' ∧
      (number? code).isSome = true ∧ (number? code').isSome = true := by
  have husable : ∀ {code code' : Json} {kind : Kind}, number? code' = number? code →
      Kind.ofCode? (batchNumber code) = some kind →
        (number? code).isSome = true ∧ (number? code').isSome = true := by
    intro code code' kind hcode hkind
    rw [hcode]
    exact ⟨isSome_of_ofCode? hkind, isSome_of_ofCode? hkind⟩
  cases h with
  | rest => exact .inl rfl
  | item hcode hkind => exact .inr ⟨_, _, _, _, rfl, rfl, husable hcode hkind⟩
  | rectangle hcode hkind => exact .inr ⟨_, _, _, _, rfl, rfl, husable hcode hkind⟩
  | cut hcode hkind => exact .inr ⟨_, _, _, _, rfl, rfl, husable hcode hkind⟩

/-- The step of the item at the front, then those of the rest. -/
theorem steps_cons_append {kind : Kind} {code : Json} {entries : List Json}
    (hkind : Kind.ofCode? (batchNumber code) = some kind) (hlength : entries.length = kind.arity)
    (data : List Json) :
    steps ((code :: (entries ++ data)).map batchNumber) =
      kind.step (entries.map batchNumber) :: steps (data.map batchNumber) := by
  obtain ⟨items, tail, hdata, hstops⟩ := exists_items (data.map batchNumber)
  let i : Item := ⟨batchNumber code, kind, entries.map batchNumber, hkind, by
    rw [List.length_map, hlength]⟩
  have heq : (code :: (entries ++ data)).map batchNumber =
      (i :: items).flatMap Item.numbers ++ tail := by
    rw [List.map_cons, List.map_append, hdata, List.flatMap_cons, List.append_assoc]
    rfl
  rw [heq, steps_flatMap_append hstops, hdata, steps_flatMap_append hstops]
  rfl

/-- There is none where entries are missing. -/
theorem steps_cut {kind : Kind} {code : Json} {entries : List Json}
    (hkind : Kind.ofCode? (batchNumber code) = some kind) (hlength : entries.length < kind.arity) :
    steps ((code :: entries).map batchNumber) = [] := by
  have hstops : Stops ((code :: entries).map batchNumber) :=
    .inr ⟨kind, hkind, by rwa [List.length_map]⟩
  exact @steps_flatMap_append [] _ hstops

end Batch

/-! ## Respelled operators -/

namespace RawOperator

/-- Operands respelled: as the same numbers where the operator takes numbers, and in a batch
behind known codes. -/
inductive Respelled : RawOperator → RawOperator → Prop
  | same (raw : RawOperator) : Respelled raw raw
  | numbers {code : UInt32} {operands operands' : List Json} {index : UInt64}
      (hcode : code.toNat ∈ Operator.numeric)
      (h : operands.map Operand.number = operands'.map Operand.number) :
      Respelled ⟨code, operands, index⟩ ⟨code, operands', index⟩
  | nested {paint paint' : Json} {data data' more rest : List Json} {index : UInt64}
      (hpaint : Operand.number paint = Operand.number paint') (h : Batch.Respelled data data') :
      Respelled ⟨91, paint :: .array (.array data :: more) :: rest, index⟩
        ⟨91, paint' :: .array (.array data' :: more) :: rest, index⟩
  | flat {paint paint' : Json} {data data' rest : List Json} {index : UInt64}
      (hpaint : Operand.number paint = Operand.number paint') (h : Batch.Respelled data data') :
      Respelled ⟨91, paint :: .array data :: rest, index⟩
        ⟨91, paint' :: .array data' :: rest, index⟩

end RawOperator

namespace Canvas

open Operand (number number? plain)
open Operator (batchNumber ofBatch paintOf)

variable (o : DrawingOptions)

/-- Steps that add the same segments, and count the same, are added alike. -/
theorem addStep_congr (c : Canvas) {s t : PathStep} (hcount : s.isRectangle = t.isRectangle)
    (h : Path.segmentsOf (place o c.state.pen) c.state.path s =
      Path.segmentsOf (place o c.state.pen) c.state.path t) : addStep o c s = addStep o c t := by
  unfold addStep Path.add
  rw [h, hcount]

/-- **A respelled batch adds the same steps.** -/
theorem foldl_addStep_respelled {data data' : List Json} (h : Batch.Respelled data data')
    (c : Canvas) :
    (Batch.steps (data.map batchNumber)).foldl (addStep o) c =
      (Batch.steps (data'.map batchNumber)).foldl (addStep o) c := by
  induction h generalizing c with
  | rest data => rfl
  | @item kind code code' entries entries' data data' hcode hkind hother hlength hentries _ ih =>
    have hlength' := (Operand.length_congr hentries).symm.trans hlength
    have hstep : addStep o c (kind.step (entries.map batchNumber)) =
        addStep o c (kind.step (entries'.map batchNumber)) := by
      refine addStep_congr o c (by cases kind <;> rfl) ?_
      rw [Batch.segmentsOf_step o _ _ hother, Batch.segmentsOf_step o _ _ hother, hentries]
    rw [Batch.steps_cons_append hkind hlength,
      Batch.steps_cons_append (Batch.ofCode?_congr hcode hkind) hlength',
      List.foldl_cons, List.foldl_cons, hstep, ih]
  | @rectangle code code' x y w h x' y' w' h' data data' hcode hkind hentries hx hy _ ih =>
    have hstep : addStep o c (Batch.Kind.rectangle.step ([x, y, w, h].map batchNumber)) =
        addStep o c (Batch.Kind.rectangle.step ([x', y', w', h'].map batchNumber)) := by
      obtain ⟨hx', hentries⟩ := List.cons.inj hentries
      obtain ⟨hy', -⟩ := List.cons.inj hentries
      refine addStep_congr o c rfl ?_
      rw [Batch.segmentsOf_rectangle, Batch.segmentsOf_rectangle, hx', hy', hx, hy]
    rw [Batch.steps_cons_append hkind rfl,
      Batch.steps_cons_append (Batch.ofCode?_congr hcode hkind) rfl,
      List.foldl_cons, List.foldl_cons, hstep, ih]
  | cut hcode hkind hlength hentries =>
    have hlength' := (Operand.length_congr hentries).symm.trans_lt hlength
    rw [Batch.steps_cut hkind hlength, Batch.steps_cut (Batch.ofCode?_congr hcode hkind) hlength']

/-- In text mode a batch does nothing. -/
theorem draw_batch_of_inText {c : Canvas} (h : c.state.inText = true) (paint : Option Paint)
    (numbers : List Float) (index : UInt64) : draw o c (.batch paint numbers) index = c := by
  have hbuilds : (Operator.batch paint numbers).buildsPath = true := rfl
  rw [draw, h, hbuilds, Bool.and_self, if_pos rfl]

/-- A batch respelled, with what says how to paint it, is drawn alike. -/
theorem draw_batch_respelled {paint paint' : Json} {data data' : List Json}
    (hpaint : number paint = number paint') (h : Batch.Respelled data data') (c : Canvas)
    (index : UInt64) :
    draw o c (.batch (paintOf paint) (data.map batchNumber)) index =
      draw o c (.batch (paintOf paint') (data'.map batchNumber)) index := by
  rw [Operator.paintOf_eq, Operator.paintOf_eq, hpaint]
  cases hc : c.state.inText with
  | true => rw [draw_batch_of_inText o hc, draw_batch_of_inText o hc]
  | false => rw [draw_batch_eq_foldl o hc, draw_batch_eq_foldl o hc, foldl_addStep_respelled o h]

theorem drawRaw_of_ofBatch {operands : List Json} {op : Operator} (h : ofBatch operands = .ok op)
    (index : UInt64) (c : Canvas) : drawRaw o c ⟨91, operands, index⟩ = draw o c op index := by
  have hdecode : Operator.decode ⟨91, operands, index⟩ = .ok op := h
  rw [drawRaw, hdecode]

/-- **An operator respelled is drawn alike.** -/
theorem drawRaw_respelled {raw raw' : RawOperator} (h : raw.Respelled raw') (c : Canvas) :
    drawRaw o c raw = drawRaw o c raw' := by
  cases h with
  | same => rfl
  | numbers hcode h =>
    rw [drawRaw, drawRaw, Operator.decode, Operator.decode, Operator.ofCode_congr hcode h]
  | nested hpaint h =>
    rw [drawRaw_of_ofBatch o (Operator.ofBatch_nested _ _ _ _),
      drawRaw_of_ofBatch o (Operator.ofBatch_nested _ _ _ _)]
    exact draw_batch_respelled o hpaint h c _
  | @flat paint paint' data data' rest index hpaint h =>
    rcases h.eq_or_isSome with rfl | ⟨code, more, code', more', rfl, rfl, hcode, hcode'⟩
    · have hdecode : Operator.decode ⟨91, paint :: .array data :: rest, index⟩ =
          Operator.decode ⟨91, paint' :: .array data :: rest, index⟩ :=
        Operator.ofBatch_paint hpaint data rest
      rw [drawRaw, drawRaw, hdecode]
    · rw [drawRaw_of_ofBatch o (Operator.ofBatch_flat _ hcode _ _),
        drawRaw_of_ofBatch o (Operator.ofBatch_flat _ hcode' _ _)]
      exact draw_batch_respelled o hpaint h c _

theorem drawAll_of_forall₂ {raws raws' : List RawOperator}
    (h : List.Forall₂ RawOperator.Respelled raws raws') (c : Canvas) :
    drawAll o c raws = drawAll o c raws' := by
  induction h generalizing c with
  | nil => rfl
  | @cons raw raw' raws raws' hraw _ ih =>
    rw [drawAll, drawAll, List.foldl_cons, List.foldl_cons, drawRaw_respelled o hraw]
    exact ih _

/-- **The spelling of a number does not matter, and what is unusable counts as `0`.**  Respelled
operators draw the same shapes and images, count the same and leave the same state.  To write an
operand as the number that it counts as is to respell it; a rectangle of a batch keeps its far
edge just if its corner and its extent are usable, or it ends at `0` anyway. -/
theorem drawAll_respelled (c : Canvas) :
    (∀ raws raws', List.Forall₂ RawOperator.Respelled raws raws' →
      drawAll o c raws = drawAll o c raws') ∧
    (∀ j, number? (plain j) = some (number j) ∧ number (plain j) = number j) ∧
    ∀ near extent, Batch.farEdge (plain near) (plain extent) = Batch.farEdge near extent ↔
      ((number? near).isSome ∧ (number? extent).isSome) ∨
        Binary64.settle (number near + number extent) = 0 :=
  ⟨fun _ _ h => drawAll_of_forall₂ o h c,
    fun j => ⟨Operand.number?_plain j, Operand.number_plain j⟩, Batch.farEdge_plain_iff⟩

/-- A transform of texts, a width and a batch of a rectangle and a line with an unusable entry. -/
theorem drawAll_respelled_of_texts :
    let raws : List RawOperator :=
      [⟨12, [.string "2", .null, .string "x", .bool true, .string " 1e1 ", .array []], 0⟩,
        ⟨2, [.string "1.5", .null], 1⟩,
        ⟨91, [.string "22", .array [.array [.integer 5, .string "1", .bool true, .string "30",
          .integer 40, .integer 1, .null, .string "7"]]], 2⟩]
    let raws' : List RawOperator :=
      [⟨12, [.number 2, .number 0, .number 0, .number 1, .number 10, .number 0], 0⟩,
        ⟨2, [.number 1.5, .number 0], 1⟩,
        ⟨91, [.number 22, .array [.array [.integer 5, .number 1, .number 1, .number 30,
          .number 40, .integer 1, .number 0, .number 7]]], 2⟩]
    List.Forall₂ RawOperator.Respelled raws raws' ∧ drawAll {} {} raws = drawAll {} {} raws' := by
  intro raws raws'
  have hline :
      Batch.Respelled [.integer 1, .null, .string "7"] [.integer 1, .number 0, .number 7] :=
    @Batch.Respelled.item .line _ _ [.null, .string "7"] [.number 0, .number 7] _ _ rfl
      (by decide +kernel) (by decide) rfl (by decide +kernel) (.rest [])
  have h : List.Forall₂ RawOperator.Respelled raws raws' :=
    .cons (.numbers (by decide) (by decide +kernel))
      (.cons (.numbers (by decide) (by decide +kernel))
        (.cons (.nested (by decide +kernel)
          (.rectangle rfl (by decide +kernel) (by decide +kernel) (by decide +kernel)
            (by decide +kernel) hline)) .nil))
  exact ⟨h, (drawAll_respelled {} {}).1 raws raws' h⟩

/-- Without its width a rectangle of a batch ends at `0`, not where it starts. -/
example : drawAll {} {} [⟨91, [.integer 22, .array [.array [.integer 5, .integer 100, .integer 100,
      .null, .integer 50]]], 0⟩] ≠
    drawAll {} {} [⟨91, [.integer 22, .array [.array [.integer 5, .integer 100, .integer 100,
      .integer 0, .integer 50]]], 0⟩] := by
  decide +kernel

end Canvas
end PageContent
