/-
# Drawing at another scale

The distances that decide what is cut and dropped are measured on the shown page,
while the thresholds are fractions of a height in user units, which the scale of
the page does not reach.  At a scale `2 ^ k` all distances are `2 ^ k` times
what they are at scale 1, and the thresholds are what they were.  So the shapes are
those of scale 1 with thresholds divided by the scale, only `2 ^ k` times as large
(`shapes_atScale`).  They are the shapes of scale 1 enlarged just if dividing the
thresholds makes no difference there.

The proof compares two runs.  Their paths are related coordinate by coordinate,
as settled values of one number before and after scaling (`IsScaledPair`); when a
path is painted that relation turns into multiplication by the scale
(`map_scale_of_related`), and then cuts, boxes and distances scale along
(`subPaths_map_scale`, `isKept_map_scale`).
-/

import PageContent.Proofs.Drawing.Painting
import PageContent.Proofs.Drawing.Pieces
import PageContent.Proofs.Geometry.Scaled

namespace PageContent

open Binary64 (IsNormal IsTwoPow Scaled)

variable {k : Int} {s : Float}

/-! ## Scaling paths -/

namespace Segment

/-- The segment with all points times `s`. -/
def scale (s : Float) : Segment → Segment
  | .move p => .move (p.scale s)
  | .line p => .line (p.scale s)
  | .curve c₁ c₂ p => .curve (c₁.scale s) (c₂.scale s) (p.scale s)
  | .close => .close

theorem end?_scale (a : Segment) : (a.scale s).end? = a.end?.map (Point.scale s) := by
  cases a <;> rfl

theorem isMove_scale (a : Segment) : (a.scale s).isMove = a.isMove := by cases a <;> rfl

/-- Segments whose points fit are told apart by their multiples. -/
theorem eq_of_scale_eq (hs : IsTwoPow k s) {a b : Segment} (ha : ∀ p ∈ a.points, p.Fits s)
    (hb : ∀ p ∈ b.points, p.Fits s) (h : a.scale s = b.scale s) : a = b := by
  cases a with
  | move p =>
    cases b with
    | move q =>
      have hpq := (ha p (by simp [points])).eq_of_scale_eq hs (hb q (by simp [points]))
        (Segment.move.inj h)
      rw [hpq]
    | _ => exact absurd h (by simp [scale])
  | line p =>
    cases b with
    | line q =>
      have hpq := (ha p (by simp [points])).eq_of_scale_eq hs (hb q (by simp [points]))
        (Segment.line.inj h)
      rw [hpq]
    | _ => exact absurd h (by simp [scale])
  | curve c₁ c₂ p =>
    cases b with
    | curve d₁ d₂ q =>
      obtain ⟨h₁, h₂, h₃⟩ := Segment.curve.inj h
      rw [(ha c₁ (by simp [points])).eq_of_scale_eq hs (hb d₁ (by simp [points])) h₁,
        (ha c₂ (by simp [points])).eq_of_scale_eq hs (hb d₂ (by simp [points])) h₂,
        (ha p (by simp [points])).eq_of_scale_eq hs (hb q (by simp [points])) h₃]
    | _ => exact absurd h (by simp [scale])
  | close =>
    cases b with
    | close => rfl
    | _ => exact absurd h (by simp [scale])

end Segment

namespace Path

/-- All points of the path can be scaled, and distances taken between its end points. -/
structure Fits (s : Float) (path : List Segment) : Prop where
  points : ∀ a ∈ path, ∀ p ∈ a.points, p.Fits s
  apart : ∀ p ∈ ends path, ∀ q ∈ ends path, p.Apart s q

theorem fits_iff (path : List Segment) :
    Fits s path ↔ (∀ a ∈ path, ∀ p ∈ a.points, p.Fits s) ∧
      ∀ p ∈ ends path, ∀ q ∈ ends path, p.Apart s q := by
  constructor
  · rintro ⟨hpoints, hapart⟩
    exact ⟨hpoints, hapart⟩
  · rintro ⟨hpoints, hapart⟩
    exact ⟨hpoints, hapart⟩

instance (path : List Segment) : Decidable (Fits s path) := decidable_of_iff _ (fits_iff path).symm

theorem Fits.ends {path : List Segment} (h : Fits s path) : ∀ p ∈ Path.ends path, p.Fits s := by
  intro p hp
  obtain ⟨a, ha, hend⟩ := List.mem_filterMap.1 hp
  exact h.points a ha p (Segment.mem_points_of_end? hend)

theorem ends_map_scale (path : List Segment) :
    ends (path.map (Segment.scale s)) = (ends path).map (Point.scale s) := by
  rw [ends, ends, List.filterMap_map, List.map_filterMap]
  exact List.filterMap_congr fun a _ => Segment.end?_scale a

/-! ## Cuts -/

/-- What fits a path fits its pieces. -/
theorem Fits.of_reopens {path piece : List Segment} (h : Fits s path)
    (hpiece : ∀ a ∈ piece, Reopens path a) : Fits s piece := by
  have hends : ∀ p ∈ Path.ends piece, p ∈ Path.ends path :=
    fun p hp => mem_ends_of_reopens hpiece hp
  constructor
  · intro a ha p hp
    rcases hpiece a ha with ha | ⟨b, hb, q, hq, rfl⟩
    · exact h.points a ha p hp
    · obtain rfl := List.mem_singleton.1 hp
      exact h.points b hb p (Segment.mem_points_of_end? hq)
  · intro p hp q hq
    exact h.apart p (hends p hp) q (hends q hq)

theorem splitByLoop_map {r r' : Segment → Segment → Bool} {f : Segment → Segment}
    {path : List Segment} {a : Segment} (g : List Segment) (gs : List (List Segment))
    (h : ∀ x ∈ a :: path, ∀ y ∈ a :: path, r' (f x) (f y) = r x y) :
    List.splitBy.loop r' (path.map f) (f a) (g.map f) (gs.map (List.map f)) =
      (List.splitBy.loop r path a g gs).map (List.map f) := by
  induction path generalizing a g gs with
  | nil => simp [List.splitBy.loop]
  | cons b path ih =>
    have hab := h a List.mem_cons_self b (List.mem_cons_of_mem a List.mem_cons_self)
    have htail : ∀ x ∈ b :: path, ∀ y ∈ b :: path, r' (f x) (f y) = r x y :=
      fun x hx y hy => h x (List.mem_cons_of_mem a hx) y (List.mem_cons_of_mem a hy)
    rw [List.map_cons, List.splitBy.loop, List.splitBy.loop, hab]
    cases r a b with
    | true => exact ih (a :: g) gs htail
    | false =>
      have hclosed := ih [] ((a :: g).reverse :: gs) htail
      rwa [List.map_nil, List.map_cons, List.map_reverse, List.map_cons] at hclosed

/-- Cutting does not see a map that the cutting relation does not see. -/
theorem splitBy_map {r r' : Segment → Segment → Bool} {f : Segment → Segment}
    {path : List Segment} (h : ∀ a ∈ path, ∀ b ∈ path, r' (f a) (f b) = r a b) :
    (path.map f).splitBy r' = (path.splitBy r).map (List.map f) := by
  cases path with
  | nil => rfl
  | cons a path => exact splitByLoop_map [] [] h

theorem splitAtMoves_map_scale (path : List Segment) :
    splitAtMoves (path.map (Segment.scale s)) =
      (splitAtMoves path).map (List.map (Segment.scale s)) :=
  splitBy_map fun _ _ b _ => congrArg (! ·) (Segment.isMove_scale b)

/-- **A jump is one at either scale** if the threshold scales along. -/
theorem jumps_scale (hs : IsTwoPow k s) {path : List Segment} (h : Fits s path) {t t' : Float}
    (ht : Scaled k t t') {a b : Segment} (ha : a ∈ path) (hb : b ∈ path) :
    (a.scale s).jumps t' (b.scale s) = a.jumps t b := by
  unfold Segment.jumps
  rw [Segment.end?_scale, Segment.end?_scale]
  cases hp : a.end? with
  | none => rfl
  | some p =>
    cases hq : b.end? with
    | none => rfl
    | some q =>
      have hp' : p ∈ Path.ends path := List.mem_filterMap.2 ⟨a, ha, hp⟩
      have hq' : q ∈ Path.ends path := List.mem_filterMap.2 ⟨b, hb, hq⟩
      exact decide_eq_decide.2
        (ht.lt_iff (Point.scaled_distance hs (h.ends p hp') (h.ends q hq') (h.apart p hp' q hq')))

theorem reopen_map_scale (piece : List Segment) :
    reopen (piece.map (Segment.scale s)) = (reopen piece).map (Segment.scale s) := by
  cases piece with
  | nil => rfl
  | cons a piece => cases a <;> rfl

theorem splitAtJumps_map_scale (hs : IsTwoPow k s) {path : List Segment} (h : Fits s path)
    {t t' : Float} (ht : Scaled k t t') :
    splitAtJumps t' (path.map (Segment.scale s)) =
      (splitAtJumps t path).map (List.map (Segment.scale s)) := by
  have hcut : (path.map (Segment.scale s)).splitBy (fun a b => !a.jumps t' b) =
      (path.splitBy fun a b => !a.jumps t b).map (List.map (Segment.scale s)) :=
    splitBy_map fun a ha b hb => congrArg (! ·) (jumps_scale hs h ht ha hb)
  unfold splitAtJumps
  rw [hcut]
  cases path.splitBy fun a b => !a.jumps t b with
  | nil => rfl
  | cons piece rest =>
    simp only [List.map_cons, List.map_map]
    congr 2
    exact funext fun piece => reopen_map_scale piece

/-- Thresholds at two scales, or none at both. -/
def ScaledThreshold (k : Int) : Option Float → Option Float → Prop
  | some t, some t' => Scaled k t t'
  | none, none => True
  | _, _ => False

/-- **Cutting scales along with the threshold.** -/
theorem subPaths_map_scale (hs : IsTwoPow k s) {path : List Segment} (h : Fits s path)
    {t t' : Option Float} (ht : ScaledThreshold k t t') :
    subPaths (path.map (Segment.scale s)) t' =
      (subPaths path t).map (List.map (Segment.scale s)) := by
  cases t with
  | none =>
    cases t' with
    | none => exact splitAtMoves_map_scale path
    | some t' => exact ht.elim
  | some t =>
    cases t' with
    | none => exact ht.elim
    | some t' =>
      show (splitAtMoves (path.map (Segment.scale s))).flatMap (splitAtJumps t') =
        ((splitAtMoves path).flatMap (splitAtJumps t)).map (List.map (Segment.scale s))
      rw [splitAtMoves_map_scale, List.flatMap_map, List.map_flatMap]
      refine List.flatMap_congr fun group hgroup => ?_
      exact splitAtJumps_map_scale hs
        (h.of_reopens fun a ha => .inl (mem_of_mem_splitAtMoves hgroup ha)) ht

/-! ## Strays -/

theorem points_eq_ends (hs : IsTwoPow k s) {path : List Segment} (h : Fits s path) :
    points path = ends path ∧
      points (path.map (Segment.scale s)) = (ends path).map (Point.scale s) := by
  constructor
  · exact List.filter_eq_self.2 fun p hp => (h.ends p hp).isFinite
  · rw [points, ← ends, ends_map_scale, List.filter_eq_self]
    intro q hq
    obtain ⟨p, hp, rfl⟩ := List.mem_map.1 hq
    exact (h.ends p hp).isFinite_scale hs

/-- Thresholds of the second options are `2 ^ k` times those of the first; the rest is the same. -/
structure ScaledOptions (k : Int) (o o' : DrawingOptions) : Prop where
  jump : Scaled k o.jump o'.jump
  beam : Scaled k o.beam o'.beam
  needle : Scaled k o.needle o'.needle
  minSegments_eq : o.minSegments = o'.minSegments
  needleMaxSegments_eq : o.needleMaxSegments = o'.needleMaxSegments
  splitsFilledJumps_eq : o.splitsFilledJumps = o'.splitsFilledJumps

variable {o o' : DrawingOptions}

theorem isBeam_map_scale (hs : IsTwoPow k s) (ho : ScaledOptions k o o') {path : List Segment}
    (h : Fits s path) : isBeam o' (path.map (Segment.scale s)) = isBeam o path := by
  obtain ⟨hpoints, hpoints'⟩ := points_eq_ends hs h
  rcases path with _ | ⟨a, _ | ⟨b, _ | ⟨c, path⟩⟩⟩
  · rfl
  · rfl
  · unfold isBeam
    rw [hpoints, hpoints']
    have hends := h.ends
    have hapart := h.apart
    generalize Path.ends [a, b] = ps at hends hapart
    rcases ps with _ | ⟨p, _ | ⟨q, ps⟩⟩
    · rfl
    · rfl
    · have hp : p ∈ p :: q :: ps := List.mem_cons_self
      have hq : q ∈ p :: q :: ps := List.mem_cons_of_mem p List.mem_cons_self
      exact decide_eq_decide.2
        (ho.beam.lt_iff (Point.scaled_distance hs (hends p hp) (hends q hq) (hapart p hp q hq)))
  · rfl

theorem isNeedle_map_scale (hs : IsTwoPow k s) (ho : ScaledOptions k o o') {path : List Segment}
    (h : Fits s path) : isNeedle o' (path.map (Segment.scale s)) = isNeedle o path := by
  unfold isNeedle bounds
  rw [← ends, ends_map_scale, ← ends, List.length_map, ho.needleMaxSegments_eq]
  rcases Box.scaled_around hs h.ends h.apart with ⟨hnone, hnone'⟩ | ⟨b, b', hb, hb', hw, hh⟩
  · rw [hnone, hnone']
  · rw [hb, hb']
    dsimp only
    rw [decide_eq_decide.2 (ho.needle.lt_iff hw), decide_eq_decide.2 (ho.needle.lt_iff hh)]

/-- **A stray is one at either scale** if the thresholds scale along. -/
theorem isKept_map_scale (hs : IsTwoPow k s) (ho : ScaledOptions k o o') (filled : Bool)
    {path : List Segment} (h : Fits s path) :
    isKept o' filled (path.map (Segment.scale s)) = isKept o filled path := by
  obtain ⟨hpoints, hpoints'⟩ := points_eq_ends hs h
  rw [isKept, isKept, isBeam_map_scale hs ho h, isNeedle_map_scale hs ho h, List.length_map,
    hpoints, hpoints', List.length_map, ho.minSegments_eq]

end Path

/-! ## Shapes -/

/-- Lists whose elements a function tells apart are told apart by their images. -/
theorem eq_of_map_eq {α β : Type} {f : α → β} {l m : List α}
    (hf : ∀ a ∈ l, ∀ b ∈ m, f a = f b → a = b) (h : l.map f = m.map f) : l = m := by
  induction l generalizing m with
  | nil => exact (List.map_eq_nil_iff.1 h.symm).symm
  | cons a l ih =>
    cases m with
    | nil => exact absurd h (List.cons_ne_nil _ _)
    | cons b m =>
      obtain ⟨hab, hlm⟩ := List.cons_eq_cons.1 h
      rw [hf a List.mem_cons_self b List.mem_cons_self hab,
        ih (fun x hx y hy => hf x (List.mem_cons_of_mem a hx) y (List.mem_cons_of_mem b hy)) hlm]

namespace Shape

/-- The shape with all points times `s`. -/
def scale (s : Float) (x : Shape) : Shape := { x with path := x.path.map (Segment.scale s) }

/-- Shapes whose points fit are told apart by their multiples. -/
theorem eq_of_scale_eq (hs : IsTwoPow k s) {x y : Shape} (hx : Path.Fits s x.path)
    (hy : Path.Fits s y.path) (h : x.scale s = y.scale s) : x = y := by
  have hpath : x.path = y.path :=
    eq_of_map_eq (fun a ha b hb => Segment.eq_of_scale_eq hs (hx.points a ha) (hy.points b hb))
      (congrArg Shape.path h)
  obtain ⟨id, path, thickness, stroke, fill, opacity, filled, stroked⟩ := x
  obtain ⟨id', path', thickness', stroke', fill', opacity', filled', stroked'⟩ := y
  obtain rfl : path = path' := hpath
  simp only [scale, Shape.mk.injEq, true_and] at h ⊢
  exact h

end Shape

namespace Canvas

variable {o o' : DrawingOptions}

theorem scaledThreshold_cutLength (ho : Path.ScaledOptions k o o') (filled : Bool) :
    Path.ScaledThreshold k (cutLength o filled) (cutLength o' filled) := by
  unfold cutLength
  rw [← ho.splitsFilledJumps_eq]
  split
  · trivial
  · exact ho.jump

/-- **The shapes of a scaled path are the scaled shapes** if the thresholds scale along. -/
theorem shapesOf_map_scale (hs : IsTwoPow k s) (ho : Path.ScaledOptions k o o') (pen : Pen)
    (p : Paint) (index : UInt64) {path : List Segment} (h : Path.Fits s path) :
    shapesOf o' pen p index (path.map (Segment.scale s)) =
      (shapesOf o pen p index path).map (Shape.scale s) := by
  unfold shapesOf
  rw [Path.subPaths_map_scale hs h (scaledThreshold_cutLength ho p.fills), List.zipIdx_map,
    List.filter_map, List.map_map, List.map_map]
  have hkept : ∀ q ∈ (Path.subPaths path (cutLength o p.fills)).zipIdx,
      Path.isKept o' p.fills (q.1.map (Segment.scale s)) = Path.isKept o p.fills q.1 := by
    intro q hq
    have hpiece : q.1 ∈ Path.subPaths path (cutLength o p.fills) := List.fst_mem_of_mem_zipIdx hq
    exact Path.isKept_map_scale hs ho p.fills
      (h.of_reopens fun a ha => Path.reopens_of_mem_subPaths hpiece ha)
  rw [List.filter_congr (q := fun q => Path.isKept o p.fills q.1) hkept]
  rfl

/-- The shapes of a path that fits fit. -/
theorem fits_of_mem_shapesOf {pen : Pen} {p : Paint} {index : UInt64} {path : List Segment}
    (h : Path.Fits s path) {x : Shape} (hx : x ∈ shapesOf o pen p index path) :
    Path.Fits s x.path := by
  obtain ⟨q, hq, rfl⟩ := List.mem_map.1 hx
  have hpiece : q.1 ∈ Path.subPaths path (cutLength o p.fills) :=
    List.fst_mem_of_mem_zipIdx (List.mem_filter.1 hq).1
  exact h.of_reopens fun a ha => Path.reopens_of_mem_subPaths hpiece ha

end Canvas

/-! ## Two runs -/

/-- A settled number, and what settles from it times `s`. -/
def IsScaledPair (s c c' : Float) : Prop :=
  ∃ t : Float, c = Binary64.settle t ∧ c' = Binary64.settle (t * s)

theorem zero_mul_of_isTwoPow (hs : IsTwoPow k s) : (0 : Float) * s = 0 :=
  (hs.scaled_mul (.inl ⟨.positive, rfl⟩)).right_unique rfl

theorem isScaledPair_zero (hs : IsTwoPow k s) : IsScaledPair s 0 0 := by
  refine ⟨0, by decide +kernel, ?_⟩
  rw [zero_mul_of_isTwoPow hs]
  decide +kernel

/-- A coordinate that fits is followed by its multiple. -/
theorem IsScaledPair.eq_mul (hs : IsTwoPow k s) {c c' : Float} (h : IsScaledPair s c c')
    (hc : Fits s c) : c' = c * s := by
  obtain ⟨t, rfl, rfl⟩ := h
  by_cases hfinite : t.isFinite = true
  · rw [Binary64.settle_of_isFinite hfinite] at hc ⊢
    exact Binary64.settle_of_isFinite ((hc.scaled hs).isFinite_eq.trans hfinite)
  · have hfinite' := hs.isFinite_mul (eq_false_of_ne_true hfinite)
    rw [Binary64.settle, Binary64.settle, hfinite', if_neg Bool.false_ne_true, if_neg hfinite,
      zero_mul_of_isTwoPow hs]

theorem Point.Related.eq_scale (hs : IsTwoPow k s) {p q : Point Float}
    (h : p.Related (IsScaledPair s) q) (hp : p.Fits s) : q = p.scale s := by
  obtain ⟨x, y⟩ := q
  rw [Point.scale, ← h.1.eq_mul hs hp.1, ← h.2.eq_mul hs hp.2]

/-- **What was related is scaled** once it fits. -/
theorem Path.map_scale_of_related (hs : IsTwoPow k s) {path path' : List Segment}
    (h : Related (IsScaledPair s) path path') (hfits : ∀ a ∈ path, ∀ p ∈ a.points, p.Fits s) :
    path' = path.map (Segment.scale s) := by
  induction h with
  | nil => rfl
  | @cons a b path path' hab _ ih =>
    obtain ⟨ha, hpath⟩ := List.forall_mem_cons.1 hfits
    have hsegment : b = a.scale s := by
      cases hab with
      | move h => rw [Segment.scale, h.eq_scale hs (ha _ (by simp [Segment.points]))]
      | line h => rw [Segment.scale, h.eq_scale hs (ha _ (by simp [Segment.points]))]
      | curve h₁ h₂ h =>
        rw [Segment.scale, h₁.eq_scale hs (ha _ (by simp [Segment.points])),
          h₂.eq_scale hs (ha _ (by simp [Segment.points])),
          h.eq_scale hs (ha _ (by simp [Segment.points]))]
      | close => rfl
    rw [List.map_cons, ← hsegment, ← ih hpath]

namespace Canvas

variable {o o' : DrawingOptions}

theorem inStep_empty {R : Float → Float → Prop} : InStep R {} {} := ⟨rfl, rfl, rfl, .nil⟩

theorem shapes_map_scale (hs : IsTwoPow k s) (ho : Path.ScaledOptions k o o') {q q' : Painting}
    (h : q.Related (IsScaledPair s) q') (hfits : Path.Fits s q.path) :
    q'.shapes o' = (q.shapes o).map (Shape.scale s) := by
  obtain ⟨pen, p, index, path⟩ := q
  obtain ⟨pen', p', index', path'⟩ := q'
  obtain ⟨rfl, rfl, rfl, hpath⟩ := h
  obtain rfl := Path.map_scale_of_related hs hpath hfits.points
  exact shapesOf_map_scale hs ho pen p index hfits

/-- **Two runs whose viewports and thresholds are scaled alike make scaled shapes.** -/
theorem shapes_ofOperators_map_scale (hs : IsTwoPow k s) (ho : Path.ScaledOptions k o o')
    (hplace : PlaceAlike (IsScaledPair s) o o') (raws : List RawOperator)
    (hfits : ∀ q ∈ paintings o {} raws, Path.Fits s q.path) :
    (ofOperators o' raws).shapes = (ofOperators o raws).shapes.map (Shape.scale s) := by
  have hrelated := related_paintings hplace inStep_empty raws
  rw [ofOperators, ofOperators, shapes_drawAll, shapes_drawAll]
  show (paintings o' {} raws).flatMap _ = ((paintings o {} raws).flatMap _).map _
  revert hfits hrelated
  generalize paintings o {} raws = qs
  generalize paintings o' {} raws = qs'
  intro hfits hrelated
  induction hrelated with
  | nil => rfl
  | cons hq _ ih =>
    obtain ⟨hqfits, hqsfits⟩ := List.forall_mem_cons.1 hfits
    rw [List.flatMap_cons, List.flatMap_cons, List.map_append, shapes_map_scale hs ho hq hqfits,
      ih hqsfits]

theorem eq_of_related_eq {q q' : Painting} (h : q.Related Eq q') : q = q' := by
  have hpoint : ∀ {p p' : Point Float}, p.Related Eq p' → p = p' := by
    rintro ⟨x, y⟩ ⟨x', y'⟩ ⟨hx, hy⟩
    exact Point.mk.injEq .. ▸ ⟨hx, hy⟩
  have hpath : ∀ {path path' : List Segment}, Path.Related Eq path path' → path = path' := by
    intro path path' h
    induction h with
    | nil => rfl
    | cons hab _ ih =>
      rw [ih]
      cases hab with
      | move h => rw [hpoint h]
      | line h => rw [hpoint h]
      | curve h₁ h₂ h => rw [hpoint h₁, hpoint h₂, hpoint h]
      | close => rfl
  obtain ⟨pen, p, index, path⟩ := q
  obtain ⟨pen', p', index', path'⟩ := q'
  obtain ⟨rfl, rfl, rfl, h⟩ := h
  obtain rfl := hpath h
  rfl

/-- Thresholds do not change what is painted. -/
theorem paintings_eq_of_viewport_eq (h : o.viewport = o'.viewport) (raws : List RawOperator) :
    paintings o {} raws = paintings o' {} raws := by
  have hplace : PlaceAlike Eq o o' := by
    constructor
    · intro pen p
      rw [place, place, h]
      exact ⟨rfl, rfl⟩
    · rfl
  have hrelated := related_paintings hplace inStep_empty raws
  have heq := hrelated.imp fun _ _ => eq_of_related_eq
  rwa [List.forall₂_eq_eq_eq] at heq

end Canvas

/-! ## The scale of the page -/

namespace DrawingOptions

/-- The options with another scale of the page. -/
def atScale (o : DrawingOptions) (s : Float) : DrawingOptions :=
  { o with viewport := { o.viewport with scaleX := s, scaleY := s } }

/-- The options with all thresholds divided by `s`. -/
def finer (o : DrawingOptions) (s : Float) : DrawingOptions :=
  { o with
    jumpRatio := o.jumpRatio / s
    beamRatio := o.beamRatio / s
    needleRatio := o.needleRatio / s }

/-- The thresholds can be divided by `s`. -/
def Divides (o : DrawingOptions) (s : Float) : Prop :=
  ∀ r ∈ [o.jumpRatio, o.beamRatio, o.needleRatio],
    (IsNormal r ∧ IsNormal (r / s)) ∧
      IsNormal (o.viewport.height * (r / s)) ∧ IsNormal (o.viewport.height * r)

instance (o : DrawingOptions) (s : Float) : Decidable (o.Divides s) :=
  inferInstanceAs (Decidable (∀ _ ∈ _, _))

/-- Divided by the scale, the thresholds of a page are what they would be at scale 1. -/
theorem Divides.scaledOptions (hs : IsTwoPow k s) {o : DrawingOptions} (h : o.Divides s) :
    Path.ScaledOptions k ((o.finer s).atScale 1) (o.atScale s) := by
  have hthreshold : ∀ r ∈ [o.jumpRatio, o.beamRatio, o.needleRatio],
      Scaled k (o.viewport.height * (r / s)) (o.viewport.height * r) := by
    intro r hr
    obtain ⟨⟨hnormal, hnormal'⟩, hproduct, hproduct'⟩ := h r hr
    have hscaled := (Scaled.refl o.viewport.height).mul (hs.scaled_div hnormal hnormal') hproduct
      hproduct'
    rwa [Int.zero_add] at hscaled
  exact ⟨hthreshold _ (by simp), hthreshold _ (by simp), hthreshold _ (by simp), rfl, rfl, rfl⟩

theorem placeAlike_atScale (hs : IsTwoPow k s) (o : DrawingOptions) :
    Canvas.PlaceAlike (IsScaledPair s) ((o.finer s).atScale 1) (o.atScale s) := by
  have hone : ∀ t : Float, Binary64.settle (t * 1) = Binary64.settle t := by
    intro t
    rw [Binary64.mul_one]
  constructor
  · intro pen p
    obtain ⟨q, hq⟩ : ∃ q, pen.matrix.settled.apply ⟨settle p.x, settle p.y⟩ = q := ⟨_, rfl⟩
    unfold Canvas.place Viewport.place
    rw [hq]
    constructor
    · exact ⟨q.x, hone q.x, rfl⟩
    · exact ⟨o.viewport.height - q.y, hone _, rfl⟩
  · exact isScaledPair_zero hs

end DrawingOptions

namespace Canvas

/-- **Where the scale of the page matters.**  At a scale `s = 2 ^ k` the shapes are `s` times
those of scale 1 with all thresholds divided by `s`.  So they are `s` times those of scale 1 just
if dividing the thresholds by `s` changes no shape there. -/
theorem shapes_atScale (hs : IsTwoPow k s) (o : DrawingOptions) (raws : List RawOperator)
    (ho : o.Divides s) (hfits : ∀ q ∈ paintings (o.atScale 1) {} raws, Path.Fits s q.path) :
    (ofOperators (o.atScale s) raws).shapes =
        (ofOperators ((o.finer s).atScale 1) raws).shapes.map (Shape.scale s) ∧
      ((ofOperators (o.atScale s) raws).shapes =
          (ofOperators (o.atScale 1) raws).shapes.map (Shape.scale s) ↔
        (ofOperators ((o.finer s).atScale 1) raws).shapes =
          (ofOperators (o.atScale 1) raws).shapes) := by
  have hpaintings : paintings ((o.finer s).atScale 1) {} raws = paintings (o.atScale 1) {} raws :=
    paintings_eq_of_viewport_eq
      (show ((o.finer s).atScale 1).viewport = (o.atScale 1).viewport from rfl) raws
  have hscaled := shapes_ofOperators_map_scale hs (ho.scaledOptions hs)
    (DrawingOptions.placeAlike_atScale hs o) raws (hpaintings ▸ hfits)
  have hshapes : ∀ {o' : DrawingOptions}, paintings o' {} raws = paintings (o.atScale 1) {} raws →
      ∀ x ∈ (ofOperators o' raws).shapes, Path.Fits s x.path := by
    intro o' heq x hx
    rw [ofOperators, shapes_drawAll, heq] at hx
    obtain ⟨q, hq, hx⟩ := List.mem_flatMap.1 hx
    exact fits_of_mem_shapesOf (hfits q hq) hx
  refine ⟨hscaled, ?_, ?_⟩
  · intro h
    rw [hscaled] at h
    exact eq_of_map_eq
      (fun x hx y hy => Shape.eq_of_scale_eq hs (hshapes hpaintings x hx) (hshapes rfl y hy)) h
  · intro h
    rw [hscaled, h]

/-- A line of 30 units on a page of height 100, whose jumps are longer than 40: at scale 2 it is 60
long and cut, so the shapes are those of thresholds divided by 2, not those of scale 1. -/
theorem shapes_atScale_two :
    (ofOperators ((DrawingOptions.ofHeight 100).atScale 2)
        [⟨13, [.integer 0, .integer 0], 0⟩, ⟨14, [.integer 30, .integer 0], 1⟩,
          ⟨20, [], 2⟩]).shapes =
      (ofOperators (((DrawingOptions.ofHeight 100).finer 2).atScale 1)
        [⟨13, [.integer 0, .integer 0], 0⟩, ⟨14, [.integer 30, .integer 0], 1⟩,
          ⟨20, [], 2⟩]).shapes.map (Shape.scale 2) ∧
    (ofOperators ((DrawingOptions.ofHeight 100).atScale 2)
        [⟨13, [.integer 0, .integer 0], 0⟩, ⟨14, [.integer 30, .integer 0], 1⟩,
          ⟨20, [], 2⟩]).shapes ≠
      (ofOperators ((DrawingOptions.ofHeight 100).atScale 1)
        [⟨13, [.integer 0, .integer 0], 0⟩, ⟨14, [.integer 30, .integer 0], 1⟩,
          ⟨20, [], 2⟩]).shapes.map (Shape.scale 2) := by
  obtain ⟨hshapes, hiff⟩ := shapes_atScale Binary64.isTwoPow_two (.ofHeight 100)
    [⟨13, [.integer 0, .integer 0], 0⟩, ⟨14, [.integer 30, .integer 0], 1⟩, ⟨20, [], 2⟩]
    (by decide +kernel) (by decide +kernel)
  refine ⟨hshapes, ?_⟩
  intro h
  exact absurd (hiff.1 h) (by decide +kernel)

end Canvas
end PageContent
