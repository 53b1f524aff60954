/-
# Envelopes

The envelope of some boxes is the least box around them, edge by edge:

| edge | is |
| --- | --- |
| left, top | the least of those edges |
| right, bottom | the greatest of those edges |

No box is asked to be one: it may have no extent, its edges may be in the wrong order, and where
one is a NaN it stands aside for the others.  The order of the boxes makes no difference but for the
sign of a zero (`IsEnvelope.level`).

The bounds of a path are the envelope of its finite end points (`bounds_eq_envelope`), so all of
this holds of them too, and neither a control point nor a `close` counts.
-/

import PageContent.Drawing.Canvas
import PageContent.Proofs.Number.Extreme

namespace PageContent

open Binary64 (IsDirection IsExtreme IsHighest IsLowest Level isDirection_ge isDirection_le
  isHighest_greatest isLowest_least)

namespace Box

/-- The least box around some boxes. -/
structure IsEnvelope (boxes : List Box) (b : Box) : Prop where
  x0 : IsLowest (boxes.map Box.x0) b.x0
  y0 : IsLowest (boxes.map Box.y0) b.y0
  x1 : IsHighest (boxes.map Box.x1) b.x1
  y1 : IsHighest (boxes.map Box.y1) b.y1

/-- Boxes with level edges. -/
structure IsLevel (b c : Box) : Prop where
  x0 : Level b.x0 c.x0
  y0 : Level b.y0 c.y0
  x1 : Level b.x1 c.x1
  y1 : Level b.y1 c.y1

/-- An edge of boxes that are joined comes from that edge of the boxes alone. -/
theorem isExtreme_edge {r : Float → Float → Prop} (hr : IsDirection r)
    {op : Float → Float → Float} (hop : ∀ x y, IsExtreme r [x, y] (op x y)) {edge : Box → Float}
    (hjoin : ∀ b c, edge (join b c) = op (edge b) (edge c)) (b : Box) (boxes : List Box) :
    IsExtreme r ((b :: boxes).map edge) (edge (boxes.foldl join b)) := by
  have hfold : edge (boxes.foldl join b) = (boxes.map edge).foldl op (edge b) := by
    rw [List.foldl_map]
    exact (List.foldl_hom edge fun b c => (hjoin b c).symm).symm
  rw [hfold, List.map_cons]
  exact Binary64.isExtreme_foldl hr hop (edge b) (boxes.map edge)

/-- **Joining boxes makes the least box around them.** -/
theorem isEnvelope_foldl (b : Box) (boxes : List Box) :
    IsEnvelope (b :: boxes) (boxes.foldl join b) where
  x0 := isExtreme_edge isDirection_le isLowest_least (fun _ _ => rfl) b boxes
  y0 := isExtreme_edge isDirection_le isLowest_least (fun _ _ => rfl) b boxes
  x1 := isExtreme_edge isDirection_ge isHighest_greatest (fun _ _ => rfl) b boxes
  y1 := isExtreme_edge isDirection_ge isHighest_greatest (fun _ _ => rfl) b boxes

theorem envelope_eq_none_iff {boxes : List Box} : envelope boxes = none ↔ boxes = [] := by
  cases boxes with
  | nil => exact iff_of_true rfl rfl
  | cons b boxes => exact iff_of_false nofun (List.cons_ne_nil b boxes)

theorem isEnvelope_of_envelope {boxes : List Box} {b : Box} (h : envelope boxes = some b) :
    b.IsEnvelope boxes := by
  cases boxes with
  | nil => exact absurd h nofun
  | cons c boxes =>
    obtain rfl := Option.some.inj h
    exact isEnvelope_foldl c boxes

/-- **Envelopes of the same boxes are level.** -/
theorem IsEnvelope.level {boxes boxes' : List Box} {b b' : Box} (h : IsEnvelope boxes b)
    (h' : IsEnvelope boxes' b') (hperm : boxes.Perm boxes') : b.IsLevel b' where
  x0 := h.x0.level isDirection_le h'.x0 fun _ => (hperm.map Box.x0).mem_iff
  y0 := h.y0.level isDirection_le h'.y0 fun _ => (hperm.map Box.y0).mem_iff
  x1 := h.x1.level isDirection_ge h'.x1 fun _ => (hperm.map Box.x1).mem_iff
  y1 := h.y1.level isDirection_ge h'.y1 fun _ => (hperm.map Box.y1).mem_iff

/-- The envelope does not depend on the order of the boxes. -/
theorem envelope_perm {boxes boxes' : List Box} (hperm : boxes.Perm boxes') :
    Option.Rel IsLevel (envelope boxes) (envelope boxes') := by
  cases h : envelope boxes with
  | none =>
    obtain rfl := envelope_eq_none_iff.1 h
    obtain rfl := hperm.nil_eq
    exact .none
  | some b =>
    cases h' : envelope boxes' with
    | none =>
      obtain rfl := envelope_eq_none_iff.1 h'
      obtain rfl := hperm.eq_nil
      exact absurd h nofun
    | some b' => exact .some ((isEnvelope_of_envelope h).level (isEnvelope_of_envelope h') hperm)

end Box

/-- The bounds of a path are the envelope of its finite end points. -/
theorem Path.bounds_eq_envelope (path : List Segment) :
    bounds path = Box.envelope ((points path).map Box.ofPoint) := by
  unfold bounds Box.around
  rw [← points]
  cases points path with
  | nil => rfl
  | cons p ps =>
    rw [List.map_cons, Box.envelope, List.foldl_map]
    rfl

namespace Box

/-- **Envelopes are least boxes and do not depend on the order.**  Boxes have an envelope unless
there are none; each of its edges is that edge of one of them, no number is beyond it, and it is a
NaN only if all are.  Boxes in another order have a level one.  The same holds of the bounds of a
path and its finite end points: whatever else the path has, its bounds are the least box around
these. -/
theorem envelope_least (boxes : List Box) (path : List Segment) :
    ((envelope boxes = none ↔ boxes = []) ∧
      (∀ b, envelope boxes = some b → b.IsEnvelope boxes) ∧
      ∀ boxes', boxes.Perm boxes' → Option.Rel IsLevel (envelope boxes) (envelope boxes')) ∧
    (Path.bounds path = none ↔ Path.points path = []) ∧
      (∀ b, Path.bounds path = some b → b.IsEnvelope ((Path.points path).map ofPoint)) ∧
      ∀ path', (Path.points path).Perm (Path.points path') →
        Option.Rel IsLevel (Path.bounds path) (Path.bounds path') := by
  refine ⟨⟨envelope_eq_none_iff, fun _ => isEnvelope_of_envelope, fun _ => envelope_perm⟩, ?_⟩
  rw [Path.bounds_eq_envelope]
  refine ⟨envelope_eq_none_iff.trans List.map_eq_nil_iff, fun _ => isEnvelope_of_envelope, ?_⟩
  intro path' hperm
  rw [Path.bounds_eq_envelope]
  exact envelope_perm (hperm.map ofPoint)

/-- A NaN stands aside, edges in the wrong order stay so, and of a path only the two finite end
points count. -/
theorem envelope_least_besideNaN :
    let boxes : List Box := [⟨0 / 0, 5, 10, 15⟩, ⟨20, 2, 0 / 0, 12⟩]
    let path : List Segment := [.close, .move ⟨0, 10⟩, .curve ⟨-50, 0⟩ ⟨50, 90⟩ ⟨5, 2⟩,
      .line ⟨0 / 0, 99⟩]
    (envelope boxes = some ⟨20, 2, 10, 15⟩ ∧ IsEnvelope boxes ⟨20, 2, 10, 15⟩ ∧
      Option.Rel IsLevel (envelope boxes) (envelope boxes.reverse)) ∧
    Path.bounds path = some ⟨0, 2, 5, 10⟩ ∧
      IsEnvelope [ofPoint ⟨0, 10⟩, ofPoint ⟨5, 2⟩] ⟨0, 2, 5, 10⟩ ∧
      Option.Rel IsLevel (Path.bounds path) (Path.bounds path.reverse) := by
  intro boxes path
  have henvelope : envelope boxes = some ⟨20, 2, 10, 15⟩ := by decide +kernel
  have hbounds : Path.bounds path = some ⟨0, 2, 5, 10⟩ := by decide +kernel
  obtain ⟨⟨-, hleast, horder⟩, -, hleast', horder'⟩ := envelope_least boxes path
  refine ⟨⟨henvelope, hleast _ henvelope, horder _ boxes.reverse_perm.symm⟩, hbounds, ?_, ?_⟩
  · have hpoints : Path.points path = [⟨0, 10⟩, ⟨5, 2⟩] := by decide +kernel
    rw [hpoints] at hleast'
    exact hleast' _ hbounds
  · refine horder' _ ?_
    rw [Path.points, Path.points, List.filterMap_reverse, List.filter_reverse]
    exact (List.reverse_perm _).symm

end Box
end PageContent
