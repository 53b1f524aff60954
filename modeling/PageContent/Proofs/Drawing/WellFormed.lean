/-
# Every shape is well formed

A shape is a piece of a path that was painted, and it was kept.  What is known of
it comes from these two sides:

| field of `Shape.IsWellFormed` | comes from |
| --- | --- |
| `isMove_tail`, `isChain_near` | where paths are cut (`Pieces`) |
| `minSegments_le`, `two_le_ends`, `bounds_isSome` | what is kept at all |
| `not_beam`, `not_needle` | what is kept unfilled |
| `isPainted` | every way of painting fills or strokes |

Of a filled path all pieces are kept that have the segments and two finite end
points.  The points of a path are places on the page, and those are finite
(`isFinite_place`), so in a run that means two end points.
-/

import PageContent.Proofs.Drawing.Effect
import PageContent.Proofs.Drawing.Pieces

namespace PageContent

/-! ## Finite paths -/

/-- All points of the path are finite. -/
def Path.IsFinite (path : List Segment) : Prop :=
  ∀ a ∈ path, ∀ p ∈ a.points, p.isFinite = true

/-- **Every place on the page is finite.** -/
theorem Canvas.isFinite_place (o : DrawingOptions) (pen : Pen) (p : Point Float) :
    (place o pen p).isFinite = true := by
  unfold place Viewport.place Viewport.project Point.isFinite
  rw [Bool.and_eq_true]
  exact ⟨Binary64.isFinite_settle _, Binary64.isFinite_settle _⟩

namespace Path

variable {path : List Segment}

theorem IsFinite.append {path' : List Segment} (h : IsFinite path) (h' : IsFinite path') :
    IsFinite (path ++ path') := by
  intro a ha
  rcases List.mem_append.1 ha with ha | ha
  · exact h a ha
  · exact h' a ha

theorem IsFinite.ends (h : IsFinite path) : ∀ p ∈ Path.ends path, p.isFinite = true := by
  intro p hp
  obtain ⟨a, ha, hend⟩ := List.mem_filterMap.1 hp
  exact h a ha p (Segment.mem_points_of_end? hend)

/-- A finite path ends at a finite point. -/
theorem IsFinite.current (h : IsFinite path) : (current path).isFinite = true := by
  unfold Path.current
  cases hfind : path.reverse.findSome? Segment.end? with
  | none => decide
  | some p =>
    obtain ⟨a, ha, hend⟩ := List.exists_of_findSome?_eq_some hfind
    exact h a (List.mem_reverse.1 ha) p (Segment.mem_points_of_end? hend)

theorem isFinite_segmentsOf {place : Point Float → Point Float}
    (hplace : ∀ p, (place p).isFinite = true) (h : IsFinite path) (step : PathStep) :
    IsFinite (segmentsOf place path step) := by
  cases step with
  | curveFromEnd c₂ p =>
    have hcurrent := h.current
    simp [IsFinite, segmentsOf, Segment.points, hplace, hcurrent]
  | _ => simp [IsFinite, segmentsOf, Segment.points, hplace]

end Path

/-- **The points of a path stay finite.** -/
theorem Canvas.pathInvariant_isFinite (o : DrawingOptions) : PathInvariant o Path.IsFinite := by
  constructor
  · intro a ha
    exact absurd ha List.not_mem_nil
  · intro pen path step h
    exact h.append (Path.isFinite_segmentsOf (Canvas.isFinite_place o pen) h step)

/-! ## What is kept -/

namespace Path

variable {o : DrawingOptions} {filled : Bool} {path : List Segment}

theorem isKept_iff : isKept o filled path = true ↔ o.minSegments ≤ path.length ∧
    2 ≤ (points path).length ∧
      (filled = true ∨ isBeam o path = false ∧ isNeedle o path = false) := by
  simp [isKept, and_assoc]

theorem length_points_le : (points path).length ≤ (ends path).length :=
  List.length_filter_le Point.isFinite _

theorem bounds_isSome_of_points (h : 0 < (points path).length) : (bounds path).isSome = true := by
  unfold bounds Box.around
  rw [← points]
  cases hpoints : points path with
  | nil => rw [hpoints] at h; exact absurd h (Nat.lt_irrefl 0)
  | cons p ps => rfl

/-- Two segments that are no beam end near each other. -/
theorem not_lt_of_isBeam_eq_false {a b : Segment} {p q : Point Float}
    (h : isBeam o [a, b] = false) (hpoints : 2 ≤ (points [a, b]).length) (hp : a.end? = some p)
    (hq : b.end? = some q) : ¬ o.beam < p.distance q := by
  have hends : [a, b].filterMap Segment.end? = [p, q] := by simp [hp, hq]
  have hfinite : points [a, b] = [p, q] := by
    rw [points, hends] at hpoints ⊢
    exact List.filter_sublist.eq_of_length_le hpoints
  unfold isBeam at h
  rw [hfinite] at h
  exact of_decide_eq_false h

/-- Few segments that are no needle lie in a small box. -/
theorem not_lt_of_isNeedle_eq_false {box : Box} (h : isNeedle o path = false)
    (hlength : path.length < o.needleMaxSegments) (hbox : bounds path = some box) :
    ¬ o.needle < box.width ∧ ¬ o.needle < box.height := by
  unfold isNeedle at h
  rw [hbox] at h
  simpa [hlength] using h

end Path

/-! ## Shapes -/

/-- What holds of every shape of a page. -/
structure Shape.IsWellFormed (o : DrawingOptions) (s : Shape) : Prop where
  minSegments_le : o.minSegments ≤ s.path.length
  two_le_ends : 2 ≤ (Path.ends s.path).length
  bounds_isSome : s.bounds.isSome = true
  isMove_tail : ∀ a ∈ s.path.tail, a.isMove = false
  isPainted : s.isFilled = true ∨ s.isStroked = true
  isChain_near : s.isFilled = false ∨ o.splitsFilledJumps = true →
    s.path.IsChain (Segment.IsNear o.jump)
  not_beam : s.isFilled = false → ∀ a b p q, s.path = [a, b] → a.end? = some p →
    b.end? = some q → ¬ o.beam < p.distance q
  not_needle : s.isFilled = false → s.path.length < o.needleMaxSegments →
    ∀ box, s.bounds = some box → ¬ o.needle < box.width ∧ ¬ o.needle < box.height

namespace Canvas

variable {o : DrawingOptions}

/-- Unfilled paths are cut at jumps, and filled ones if the options say so. -/
theorem cutLength_eq_some {filled : Bool} (h : filled = false ∨ o.splitsFilledJumps = true) :
    cutLength o filled = some o.jump := by
  unfold cutLength
  rcases h with h | h <;> simp [h]

/-- **A piece that is kept makes a well-formed shape.** -/
theorem isWellFormed_shapeOf {pen : Pen} {p : Paint} {index : UInt64} {n : Nat}
    {path piece : List Segment} (hpiece : piece ∈ Path.subPaths path (cutLength o p.fills))
    (hkept : Path.isKept o p.fills piece = true) :
    (shapeOf pen p index n piece).IsWellFormed o := by
  obtain ⟨hlength, hpoints, hstray⟩ := Path.isKept_iff.1 hkept
  have hunfilled : p.fills = false →
      Path.isBeam o piece = false ∧ Path.isNeedle o piece = false := by
    intro hfills
    rw [hfills] at hstray
    exact hstray.resolve_left Bool.false_ne_true
  constructor
  · exact hlength
  · exact hpoints.trans Path.length_points_le
  · exact Path.bounds_isSome_of_points (Nat.lt_of_lt_of_le Nat.zero_lt_two hpoints)
  · exact Path.isMove_of_mem_tail_of_mem_subPaths hpiece
  · exact (Bool.or_eq_true _ _).mp p.fills_or_strokes
  · intro hcut
    have hthreshold : cutLength o p.fills = some o.jump := cutLength_eq_some hcut
    rw [hthreshold] at hpiece
    exact Path.isChain_of_mem_subPaths hpiece
  · intro hfills a b q r hpair
    obtain rfl : piece = [a, b] := hpair
    exact Path.not_lt_of_isBeam_eq_false (hunfilled hfills).1 hpoints
  · intro hfills hshort box hbox
    exact Path.not_lt_of_isNeedle_eq_false (hunfilled hfills).2 hshort hbox

/-- The shape of a piece that is kept is among those of its path. -/
theorem shapeOf_mem_shapesOf {pen : Pen} {p : Paint} {index : UInt64} {n : Nat}
    {path piece : List Segment}
    (hpiece : (Path.subPaths path (cutLength o p.fills))[n]? = some piece)
    (hkept : Path.isKept o p.fills piece = true) :
    shapeOf pen p index n piece ∈ shapesOf o pen p index path := by
  refine List.mem_map.2 ⟨(piece, n), List.mem_filter.2 ⟨?_, hkept⟩, rfl⟩
  exact List.mem_zipIdx_iff_getElem?.2 hpiece

/-- **Every shape of a page is well formed**, and no piece of a filled path is missing: if it has
the fewest segments and two end points, the page has its shape. -/
theorem shapes_areWellFormed (o : DrawingOptions) (raws : List RawOperator) :
    (∀ s ∈ (ofOperators o raws).shapes, s.IsWellFormed o) ∧
    ∀ q ∈ paintings o {} raws, q.paint.fills = true →
      ∀ n piece, (Path.subPaths q.path (cutLength o true))[n]? = some piece →
        o.minSegments ≤ piece.length → 2 ≤ (Path.ends piece).length →
          shapeOf q.pen q.paint q.index n piece ∈ (ofOperators o raws).shapes := by
  have hshapes : (ofOperators o raws).shapes = (paintings o {} raws).flatMap (Painting.shapes o) :=
    shapes_drawAll o {} raws
  rw [hshapes]
  constructor
  · intro s hs
    obtain ⟨q, -, hs⟩ := List.mem_flatMap.1 hs
    obtain ⟨⟨piece, n⟩, hmem, rfl⟩ := List.mem_map.1 hs
    obtain ⟨hpiece, hkept⟩ := List.mem_filter.1 hmem
    exact isWellFormed_shapeOf (List.fst_mem_of_mem_zipIdx hpiece) hkept
  · intro q hq hfills n piece hpiece hlength hends
    rw [← hfills] at hpiece
    have hfinite : Path.IsFinite q.path :=
      (pathInvariant_isFinite o).paintings (pathInvariant_isFinite o).nil hq
    have hpoints : Path.points piece = Path.ends piece := by
      refine List.filter_eq_self.2 fun p hp => ?_
      exact hfinite.ends p (Path.mem_ends_of_mem_subPaths (List.mem_of_getElem? hpiece) hp)
    have hkept : Path.isKept o q.paint.fills piece = true :=
      Path.isKept_iff.2 ⟨hlength, hpoints ▸ hends, .inl hfills⟩
    exact List.mem_flatMap.2 ⟨q, hq, shapeOf_mem_shapesOf hpiece hkept⟩

/-- A filled line longer than a jump, a beam and a needle is kept whole. -/
theorem shapes_areWellFormed_of_long_line :
    ∃ s ∈ (ofOperators (.ofHeight 100)
        [⟨13, [.integer 0, .integer 0], 0⟩, ⟨14, [.integer 90, .integer 0], 1⟩,
          ⟨22, [], 2⟩]).shapes,
      s.path = [.move ⟨0, 100⟩, .line ⟨90, 100⟩] ∧ s.IsWellFormed (.ofHeight 100) := by
  obtain ⟨hwell, hkept⟩ := shapes_areWellFormed (.ofHeight 100)
    [⟨13, [.integer 0, .integer 0], 0⟩, ⟨14, [.integer 90, .integer 0], 1⟩, ⟨22, [], 2⟩]
  have hmem := hkept ⟨{}, .fill, 2, [.move ⟨0, 100⟩, .line ⟨90, 100⟩]⟩ (by decide +kernel) rfl 0
    [.move ⟨0, 100⟩, .line ⟨90, 100⟩] (by decide +kernel) (by decide) (by decide)
  exact ⟨_, hmem, rfl, hwell _ hmem⟩

end Canvas
end PageContent
