/-
# The numbers of a drawing

Whatever the operators are, every number of the shapes and images that they draw is
finite:

| number | finite because |
| --- | --- |
| coordinate | places on the page are (`isFinite_place`), and boxes have no others |
| thickness, opacity | the pen is, all along (`penInvariant_isFinite`) |

The pen starts with finite numbers.  An operator sets them to operands, which are
finite once they are read as numbers, and its matrix to a product, which is settled.
-/

import PageContent.Proofs.Drawing.Placing
import PageContent.Proofs.Drawing.WellFormed
import PageContent.Proofs.Number.Value
import PageContent.Proofs.Record.Finite

namespace PageContent

open Binary64 (isFinite_settle isFinite_least isFinite_greatest)

/-! ## Pens of a run -/

/-- All pens have the property, the saved ones too. -/
def Pens.All (P : Pen → Prop) (p : Pens) : Prop := P p.pen ∧ ∀ q ∈ p.saved, P q

/-- A property of pens that the operators of a page keep. -/
structure PenInvariant (P : Pen → Prop) : Prop where
  after : ∀ {pen raw op}, Operator.decode raw = .ok op → P pen → P (pen.after op)

namespace PenInvariant

open Canvas

variable {P : Pen → Prop} {o : DrawingOptions}

theorem afterRaw (h : PenInvariant P) {p : Pens} (hp : p.All P) (raw : RawOperator) :
    (p.afterRaw raw).All P := by
  obtain ⟨hpen, hsaved⟩ := hp
  unfold Pens.afterRaw
  cases hop : Operator.decode raw with
  | error e => exact ⟨hpen, hsaved⟩
  | ok op =>
    cases op with
    | save => exact ⟨hpen, List.forall_mem_cons.2 ⟨hpen, hsaved⟩⟩
    | restore =>
      obtain ⟨pen, _ | ⟨q, saved⟩⟩ := p
      · exact ⟨hpen, hsaved⟩
      · exact List.forall_mem_cons.1 hsaved
    | _ => exact ⟨h.after hop hpen, hsaved⟩

theorem pen_of_painting? {c : Canvas} {op : Operator} {index : UInt64} {q : Painting}
    (h : painting? o c op index = some q) : q.pen = c.state.pen := by
  unfold painting? at h
  split at h
  · exact absurd h (Option.some_ne_none q).symm
  · cases op with
    | paint p => exact (Option.some.inj h) ▸ rfl
    | batch p numbers =>
      cases p with
      | none => exact absurd h (Option.some_ne_none q).symm
      | some p =>
        obtain rfl := Option.some.inj h
        exact congrArg Pens.pen (pens_foldl_addStep o c (Batch.steps numbers))
    | _ => exact absurd h (Option.some_ne_none q).symm

/-- **What operators keep holds of every pen that a run paints with.** -/
theorem paintings (h : PenInvariant P) {c : Canvas} (hc : c.pens.All P) {raws : List RawOperator}
    {q : Painting} (hq : q ∈ paintings o c raws) : P q.pen := by
  induction raws generalizing c with
  | nil => exact absurd hq List.not_mem_nil
  | cons raw raws ih =>
    rcases List.mem_append.1 hq with hq | hq
    · obtain ⟨op, -, hop⟩ := Option.bind_eq_some_iff.1 (Option.mem_toList.1 hq)
      exact pen_of_painting? hop ▸ hc.1
    · have hnext := h.afterRaw hc raw
      rw [← pens_drawRaw o] at hnext
      exact ih hnext hq

/-- **What operators keep holds of every pen that a run places an image with.** -/
theorem placings (h : PenInvariant P) {p : Pens} (hp : p.All P) {raws : List RawOperator}
    {i : Image} (hi : i ∈ placings o p raws) :
    ∃ pen name index, P pen ∧ i = imageOf o pen name index := by
  induction raws generalizing p with
  | nil => exact absurd hi List.not_mem_nil
  | cons raw raws ih =>
    rcases List.mem_append.1 hi with hi | hi
    · obtain ⟨op, -, hop⟩ := Option.bind_eq_some_iff.1 (Option.mem_toList.1 hi)
      cases op with
      | image name => exact ⟨p.pen, name, raw.index, hp.1, (Option.some.inj hop).symm⟩
      | _ => exact absurd hop (Option.some_ne_none i).symm
    · exact ih (h.afterRaw hp raw) hi

end PenInvariant

/-! ## Numbers of the pen -/

instance : Finitary OpacityChange := ⟨fun c => IsFinite c.opacity ∧ IsFinite c.fillOpacity⟩

instance : Finitary Pen := ⟨fun p => IsFinite p.lineWidth ∧ IsFinite p.opacity ∧
  IsFinite p.fillOpacity ∧ IsFinite p.matrix⟩

theorem Matrix.isFinite_settled (m : Matrix Float) : IsFinite m.settled := by
  intro x hx
  simp only [Matrix.settled, Matrix.map, Matrix.toList, List.mem_cons, List.not_mem_nil,
    or_false] at hx
  rcases hx with rfl | rfl | rfl | rfl | rfl | rfl <;> exact isFinite_settle _

namespace OpacityChange

theorem isFinite_lookup? (dictionary : Json) (key : String) :
    IsFinite (lookup? dictionary key) := by
  intro x hx
  unfold lookup? at hx
  split at hx
  · obtain ⟨value, -, hvalue⟩ := Option.bind_eq_some_iff.1 hx
    exact Operand.isFinite_of_number? hvalue
  · obtain ⟨pair, -, hpair⟩ := List.exists_of_findSome?_eq_some hx
    split at hpair
    · split at hpair
      · exact Operand.isFinite_of_number? hpair
      · exact absurd hpair nofun
    · exact absurd hpair nofun
  · exact absurd hx nofun

theorem isFinite_or {a b : Option Float} (ha : IsFinite a) (hb : IsFinite b) :
    IsFinite (a.or b) := by
  cases a with
  | none => exact hb
  | some x => exact ha

/-- A dictionary sets finite opacities. -/
theorem isFinite_ofDictionary (dictionary : Json) : IsFinite (ofDictionary dictionary) := by
  have hfind := isFinite_lookup? dictionary
  have hfill := isFinite_or (hfind "ca_m") (hfind "ca")
  exact ⟨isFinite_or (isFinite_or (hfind "CA_m") (hfind "CA")) hfill, hfill⟩

end OpacityChange

namespace Operator

/-- What the operator sets of the pen is finite, its matrix aside. -/
def SetsFinite : Operator → Prop
  | .lineWidth w => IsFinite w
  | .opacity change => IsFinite change
  | _ => True

variable {operands : List Json} {op : Operator}

theorem setsFinite_of1 {build : Float → Operator} (h : of1 build operands = .ok op)
    (hbuild : ∀ x, IsFinite x → (build x).SetsFinite) : op.SetsFinite := by
  unfold of1 at h
  split at h
  · exact (Except.ok.inj h) ▸ hbuild _ (Operand.isFinite_number _)
  · exact absurd h nofun

theorem setsFinite_of2 {build : Point Float → Operator} (h : of2 build operands = .ok op)
    (hbuild : ∀ p, (build p).SetsFinite) : op.SetsFinite := by
  unfold of2 at h
  split at h
  · exact (Except.ok.inj h) ▸ hbuild _
  · exact absurd h nofun

theorem setsFinite_of4 {build : Point Float → Point Float → Operator}
    (h : of4 build operands = .ok op) (hbuild : ∀ p q, (build p q).SetsFinite) :
    op.SetsFinite := by
  unfold of4 at h
  split at h
  · exact (Except.ok.inj h) ▸ hbuild _ _
  · exact absurd h nofun

theorem setsFinite_of6 {build : Matrix Float → Operator} (h : of6 build operands = .ok op)
    (hbuild : ∀ m, (build m).SetsFinite) : op.SetsFinite := by
  unfold of6 at h
  split at h
  · exact (Except.ok.inj h) ▸ hbuild _
  · exact absurd h nofun

theorem setsFinite_ofDictionary (h : ofDictionary operands = .ok op) : op.SetsFinite := by
  unfold ofDictionary at h
  split at h
  · exact absurd h nofun
  · exact absurd h nofun
  · exact (Except.ok.inj h) ▸ OpacityChange.isFinite_ofDictionary _

theorem setsFinite_ofBatch (h : ofBatch operands = .ok op) : op.SetsFinite := by
  unfold ofBatch at h
  dsimp only at h
  split at h
  · exact (Except.ok.inj h) ▸ trivial
  · exact absurd h nofun
  · exact (Except.ok.inj h) ▸ trivial
  · exact absurd h nofun

theorem setsFinite_ofImageName (operands : List Json) : (ofImageName operands).SetsFinite := by
  unfold ofImageName
  split <;> trivial

theorem setsFinite_elim (code : UInt32) (p : Option Paint) :
    (p.elim (.unsupported code) .paint : Operator).SetsFinite := by
  cases p <;> trivial

/-- **Operators set finite numbers.** -/
theorem setsFinite_of_decode {raw : RawOperator} (h : decode raw = .ok op) : op.SetsFinite := by
  unfold decode ofCode at h
  -- Only two codes set a number of the pen, besides the one that sets its matrix.
  split at h
  case h_1 => exact setsFinite_of1 h fun _ hx => hx
  case h_2 => exact setsFinite_ofDictionary h
  case h_5 => exact setsFinite_of6 h fun _ => trivial
  case h_6 => exact setsFinite_of2 h fun _ => trivial
  case h_7 => exact setsFinite_of2 h fun _ => trivial
  case h_8 => exact setsFinite_of6 h fun _ => trivial
  case h_9 => exact setsFinite_of4 h fun _ _ => trivial
  case h_10 => exact setsFinite_of4 h fun _ _ => trivial
  case h_12 => exact setsFinite_of4 h fun _ _ => trivial
  all_goals first
    | exact setsFinite_ofBatch h
    | exact (Except.ok.inj h) ▸ setsFinite_ofImageName _
    | exact (Except.ok.inj h) ▸ setsFinite_elim _ _
    | exact (Except.ok.inj h) ▸ trivial

end Operator

/-- The pen starts with finite numbers. -/
theorem Pen.isFinite_initial : IsFinite ({} : Pen) := by
  have hone : IsFinite (1 : Float) := show (1 : Float).isFinite = true by decide
  refine ⟨hone, hone, hone, ?_⟩
  show ∀ x ∈ ([1, 0, 0, 1, 0, 0] : List Float), x.isFinite = true
  decide

/-- **The numbers of the pen stay finite.** -/
theorem penInvariant_isFinite : PenInvariant IsFinite := by
  constructor
  intro pen raw op hop ⟨hwidth, hopacity, hfill, hmatrix⟩
  have hsets := Operator.setsFinite_of_decode hop
  have hgetD : ∀ {a : Option Float} {x : Float}, IsFinite a → IsFinite x → IsFinite (a.getD x) := by
    intro a x ha hx
    cases a with
    | none => exact hx
    | some y => exact isFinite_some.1 ha
  cases op with
  | transform m => exact ⟨hwidth, hopacity, hfill, Matrix.isFinite_settled _⟩
  | lineWidth w => exact ⟨hsets, hopacity, hfill, hmatrix⟩
  | opacity change => exact ⟨hwidth, hgetD hsets.1 hopacity, hgetD hsets.2 hfill, hmatrix⟩
  | color target components => cases target <;> exact ⟨hwidth, hopacity, hfill, hmatrix⟩
  | _ => exact ⟨hwidth, hopacity, hfill, hmatrix⟩

/-! ## Numbers of paths and boxes -/

theorem Point.isFinite_iff {p : Point Float} : IsFinite p ↔ p.isFinite = true := by
  rw [Point.isFinite, Bool.and_eq_true]
  exact ⟨fun h => ⟨h p.x (by simp), h p.y (by simp)⟩,
    fun h => isFinite_cons.2 ⟨h.1, isFinite_cons.2 ⟨h.2, isFinite_nil⟩⟩⟩

theorem Segment.isFinite_iff {a : Segment} :
    IsFinite a ↔ ∀ p ∈ a.points, p.isFinite = true := by
  simp only [← Point.isFinite_iff]
  cases a with
  | curve c₁ c₂ p => simp [Segment.points, IsFinite]
  | _ => simp [Segment.points, IsFinite]

/-- The pieces of a finite path are finite. -/
theorem Path.isFinite_of_mem_subPaths {t : Option Float} {path piece : List Segment}
    (h : Path.IsFinite path) (hpiece : piece ∈ Path.subPaths path t) : Finitary.IsFinite piece := by
  intro a ha
  rcases Path.reopens_of_mem_subPaths hpiece ha with ha | ⟨b, hb, p, hend, rfl⟩
  · exact Segment.isFinite_iff.2 (h a ha)
  · exact Point.isFinite_iff.2 (h b hb p (Segment.mem_points_of_end? hend))

namespace Box

variable {b c : Box}

theorem isFinite_iff : IsFinite b ↔ b.x0.isFinite = true ∧ b.y0.isFinite = true ∧
    b.x1.isFinite = true ∧ b.y1.isFinite = true := by
  show (∀ x ∈ [b.x0, b.y0, b.x1, b.y1], x.isFinite = true) ↔ _
  simp

theorem isFinite_join (hb : IsFinite b) (hc : IsFinite c) : IsFinite (b.join c) := by
  obtain ⟨hb₁, hb₂, hb₃, hb₄⟩ := isFinite_iff.1 hb
  obtain ⟨hc₁, hc₂, hc₃, hc₄⟩ := isFinite_iff.1 hc
  exact isFinite_iff.2 ⟨isFinite_least hb₁ hc₁, isFinite_least hb₂ hc₂,
    isFinite_greatest hb₃ hc₃, isFinite_greatest hb₄ hc₄⟩

theorem isFinite_ofPoint {p : Point Float} (h : p.isFinite = true) : IsFinite (ofPoint p) := by
  rw [Point.isFinite, Bool.and_eq_true] at h
  exact isFinite_iff.2 ⟨h.1, h.2, h.1, h.2⟩

/-- The box around finite points is finite. -/
theorem isFinite_hull {p : Point Float} {ps : List (Point Float)} (hp : p.isFinite = true)
    (hps : ∀ q ∈ ps, q.isFinite = true) : IsFinite (hull p ps) := by
  unfold hull
  have hb := isFinite_ofPoint hp
  generalize ofPoint p = b at hb
  induction ps generalizing b with
  | nil => exact hb
  | cons q ps ih =>
    obtain ⟨hq, hps⟩ := List.forall_mem_cons.1 hps
    exact ih hps _ (isFinite_join hb (isFinite_ofPoint hq))

end Box

/-! ## Shapes and images -/

namespace Canvas

variable (o : DrawingOptions) (raws : List RawOperator)

theorem all_isFinite_pens : (pens {}).All IsFinite :=
  ⟨Pen.isFinite_initial, fun _ h => absurd h List.not_mem_nil⟩

/-- **Every number of every shape is finite.** -/
theorem isFinite_shapes : IsFinite (ofOperators o raws).shapes := by
  rw [shapes_ofOperators]
  intro s hs
  obtain ⟨q, hq, hs⟩ := List.mem_flatMap.1 hs
  obtain ⟨⟨piece, n⟩, hmem, rfl⟩ := List.mem_map.1 hs
  have hpiece := List.fst_mem_of_mem_zipIdx (List.mem_filter.1 hmem).1
  have hpath : Path.IsFinite q.path :=
    (pathInvariant_isFinite o).paintings (pathInvariant_isFinite o).nil hq
  obtain ⟨hwidth, hopacity, -⟩ : IsFinite q.pen :=
    penInvariant_isFinite.paintings all_isFinite_pens hq
  exact ⟨Path.isFinite_of_mem_subPaths hpath hpiece, hwidth, hopacity⟩

/-- **Every number of every image is finite.** -/
theorem isFinite_images : IsFinite (ofOperators o raws).images := by
  rw [images_ofOperators]
  intro i hi
  obtain ⟨pen, name, index, ⟨-, hopacity, -⟩, rfl⟩ :=
    penInvariant_isFinite.placings all_isFinite_pens hi
  refine ⟨Box.isFinite_hull (isFinite_place o pen _) ?_, hopacity⟩
  simp [isFinite_place]

end Canvas
end PageContent
