/-
# Scaled points and boxes

Points times a power of two lie in boxes times that power, and their distances
are that power apart, as long as the arithmetic between them neither overflows
nor underflows.  `Fits` and `Point.Apart` say that of a coordinate and of two
points; a coordinate fits if it is a zero or normal on both pages, and two
coordinates are apart if they are level or their difference and its square are
normal on both pages.
-/

import PageContent.Geometry.Box
import PageContent.Proofs.Number.Scaled

namespace PageContent

open Binary64 (IsNormal IsSafe IsTwoPow Scaled unpacked)

variable {k : Int} {s : Float}

/-! ## Coordinates -/

/-- A coordinate that can be scaled by `s` exactly. -/
def Fits (s c : Float) : Prop := (c == 0) = true ∨ IsNormal c ∧ IsNormal (c * s)

instance (s c : Float) : Decidable (Fits s c) := inferInstanceAs (Decidable (_ ∨ _))

namespace Fits

variable {c d : Float}

theorem isSafe (h : Fits s c) : IsSafe c (c * s) := by
  rcases h with h | h
  · rcases Binary64.eq_or_zero_of_beq h with rfl | ⟨t, -, ht, -⟩
    · exact .inl ⟨.positive, rfl⟩
    · exact .inl ⟨t, ht⟩
  · exact .inr h

theorem scaled (hs : IsTwoPow k s) (h : Fits s c) : Scaled k c (c * s) := hs.scaled_mul h.isSafe

theorem isFinite (h : Fits s c) : c.isFinite = true := by
  rcases h.isSafe with ⟨t, ht⟩ | ⟨h, -⟩
  · rw [Binary64.isFinite_eq, ht]
    rfl
  · exact h.1

/-- Coordinates that fit are told apart by their multiples. -/
theorem eq_of_mul_eq (hs : IsTwoPow k s) (hc : Fits s c) (hd : Fits s d) (h : c * s = d * s) :
    c = d := (hc.scaled hs).left_unique (h ▸ hd.scaled hs)

end Fits

/-- Two coordinates are level, or their difference and its square are normal on both pages. -/
def DifferenceFits (s c d : Float) : Prop :=
  (c == d) = true ∨
    (IsNormal (c - d) ∧ IsNormal (c * s - d * s)) ∧
      IsNormal ((c - d) * (c - d)) ∧ IsNormal ((c * s - d * s) * (c * s - d * s))

instance (s c d : Float) : Decidable (DifferenceFits s c d) := inferInstanceAs (Decidable (_ ∨ _))

namespace DifferenceFits

variable {c d : Float}

theorem scaled (hs : IsTwoPow k s) (hc : Fits s c) (hd : Fits s d) (h : DifferenceFits s c d) :
    Scaled k (c - d) (c * s - d * s) :=
  (hc.scaled hs).sub (hd.scaled hs) (h.imp_right And.left)

theorem scaled_square (hs : IsTwoPow k s) (hc : Fits s c) (hd : Fits s d)
    (h : DifferenceFits s c d) :
    Scaled (2 * k) ((c - d) * (c - d)) ((c * s - d * s) * (c * s - d * s)) ∧
      IsSafe ((c - d) * (c - d)) ((c * s - d * s) * (c * s - d * s)) :=
  (h.scaled hs hc hd).square
    (h.imp (fun hlevel => Scaled.unpacked_sub_of_beq hlevel hc.isFinite) And.right)

end DifferenceFits

/-! ## Points -/

namespace Point

variable {p q : Point Float}

/-- The point with both coordinates times `s`. -/
def scale (s : Float) (p : Point Float) : Point Float := ⟨p.x * s, p.y * s⟩

/-- Both coordinates fit. -/
def Fits (s : Float) (p : Point Float) : Prop := PageContent.Fits s p.x ∧ PageContent.Fits s p.y

instance (s : Float) (p : Point Float) : Decidable (p.Fits s) :=
  inferInstanceAs (Decidable (_ ∧ _))

/-- What the distance of two points is the root of. -/
def squares (p q : Point Float) : Float :=
  (p.x - q.x) * (p.x - q.x) + (p.y - q.y) * (p.y - q.y)

theorem distance_eq (p q : Point Float) : p.distance q = (p.squares q).sqrt := rfl

/-- Two points whose distance can be taken on both pages. -/
def Apart (s : Float) (p q : Point Float) : Prop :=
  (DifferenceFits s p.x q.x ∧ DifferenceFits s p.y q.y) ∧
    (((p.x == q.x) = true ∨ (p.y == q.y) = true) ∨
      IsNormal (p.squares q) ∧ IsNormal ((p.scale s).squares (q.scale s)))

instance (s : Float) (p q : Point Float) : Decidable (p.Apart s q) :=
  inferInstanceAs (Decidable (_ ∧ _))

theorem Fits.isFinite (h : p.Fits s) : p.isFinite = true :=
  (Bool.and_eq_true _ _).mpr ⟨h.1.isFinite, h.2.isFinite⟩

theorem Fits.isFinite_scale (hs : IsTwoPow k s) (h : p.Fits s) : (p.scale s).isFinite = true :=
  (Bool.and_eq_true _ _).mpr
    ⟨(h.1.scaled hs).isFinite_eq.trans h.1.isFinite, (h.2.scaled hs).isFinite_eq.trans h.2.isFinite⟩

/-- Points that fit are told apart by their multiples. -/
theorem Fits.eq_of_scale_eq (hs : IsTwoPow k s) (hp : p.Fits s) (hq : q.Fits s)
    (h : p.scale s = q.scale s) : p = q := by
  obtain ⟨x, y⟩ := p
  obtain ⟨x', y'⟩ := q
  obtain ⟨hx, hy⟩ := Point.mk.inj h
  have hx' : x = x' := hp.1.eq_of_mul_eq hs hq.1 hx
  have hy' : y = y' := hp.2.eq_of_mul_eq hs hq.2 hy
  rw [hx', hy']

/-- **Distances scale with the page.** -/
theorem scaled_distance (hs : IsTwoPow k s) (hp : p.Fits s) (hq : q.Fits s) (h : p.Apart s q) :
    Scaled k (p.distance q) ((p.scale s).distance (q.scale s)) := by
  obtain ⟨⟨hx, hy⟩, hsum⟩ := h
  obtain ⟨hxsquare, hxsafe⟩ := hx.scaled_square hs hp.1 hq.1
  obtain ⟨hysquare, hysafe⟩ := hy.scaled_square hs hp.2 hq.2
  have hlevel : ∀ {c d : Float}, (c == d) = true → c.isFinite = true →
      ∃ t, unpacked ((c - d) * (c - d)) = .zero t := by
    intro c d h hc
    obtain ⟨t, ht⟩ := Scaled.unpacked_sub_of_beq h hc
    exact ⟨_, Scaled.unpacked_mul_zero ht⟩
  have hcases := hsum.imp_left fun h =>
    h.imp (fun h => hlevel h hp.1.isFinite) fun h => hlevel h hp.2.isFinite
  rw [distance_eq, distance_eq]
  exact (hxsquare.add hysquare hcases).sqrt (hxsquare.isSafe_add hysquare hxsafe hysafe hcases)

end Point

/-! ## Boxes -/

namespace Box

/-- Every edge of the second box is `2 ^ k` times that of the first one. -/
structure Scaled (k : Int) (b b' : Box) : Prop where
  x0 : Binary64.Scaled k b.x0 b'.x0
  y0 : Binary64.Scaled k b.y0 b'.y0
  x1 : Binary64.Scaled k b.x1 b'.x1
  y1 : Binary64.Scaled k b.y1 b'.y1

theorem scaled_ofPoint (hs : IsTwoPow k s) {p : Point Float} (hp : p.Fits s) :
    Scaled k (ofPoint p) (ofPoint (p.scale s)) :=
  ⟨hp.1.scaled hs, hp.2.scaled hs, hp.1.scaled hs, hp.2.scaled hs⟩

theorem Scaled.join {b b' c c' : Box} (hb : Scaled k b b') (hc : Scaled k c c') :
    Scaled k (b.join c) (b'.join c') :=
  ⟨hb.x0.least hc.x0, hb.y0.least hc.y0, hb.x1.greatest hc.x1, hb.y1.greatest hc.y1⟩

/-- The hull of scaled points is the scaled hull. -/
theorem scaled_hull (hs : IsTwoPow k s) {p : Point Float} {ps : List (Point Float)}
    (hp : p.Fits s) (hps : ∀ q ∈ ps, q.Fits s) :
    Scaled k (hull p ps) (hull (p.scale s) (ps.map (Point.scale s))) := by
  have hfold : ∀ {b b' : Box}, Scaled k b b' →
      Scaled k (ps.foldl (fun b q => b.join (ofPoint q)) b)
        ((ps.map (Point.scale s)).foldl (fun b q => b.join (ofPoint q)) b') := by
    induction ps with
    | nil => exact fun h => h
    | cons q ps ih =>
      intro b b' h
      obtain ⟨hq, hps⟩ := List.forall_mem_cons.1 hps
      exact ih hps (h.join (scaled_ofPoint hs hq))
  exact hfold (scaled_ofPoint hs hp)

/-- Every edge goes through a point of the list. -/
structure SpannedBy (b : Box) (ps : List (Point Float)) : Prop where
  x0 : ∃ p ∈ ps, b.x0 = p.x
  y0 : ∃ p ∈ ps, b.y0 = p.y
  x1 : ∃ p ∈ ps, b.x1 = p.x
  y1 : ∃ p ∈ ps, b.y1 = p.y

theorem SpannedBy.join_ofPoint {b : Box} {ps : List (Point Float)} {p : Point Float}
    (h : SpannedBy b ps) (hp : p ∈ ps) : SpannedBy (b.join (ofPoint p)) ps := by
  have hedge : ∀ {f : Point Float → Float} {z a : Float}, z = a ∨ z = f p →
      (∃ q ∈ ps, a = f q) → ∃ q ∈ ps, z = f q := by
    rintro f z a (rfl | rfl) ha
    · exact ha
    · exact ⟨p, hp, rfl⟩
  exact ⟨hedge (Binary64.least_eq_or _ _) h.x0, hedge (Binary64.least_eq_or _ _) h.y0,
    hedge (Binary64.greatest_eq_or _ _) h.x1, hedge (Binary64.greatest_eq_or _ _) h.y1⟩

/-- The edges of a hull go through its points. -/
theorem spannedBy_hull (p : Point Float) (ps : List (Point Float)) :
    SpannedBy (hull p ps) (p :: ps) := by
  have hfold : ∀ {all : List (Point Float)} {qs : List (Point Float)} {b : Box},
      SpannedBy b all → (∀ q ∈ qs, q ∈ all) →
        SpannedBy (qs.foldl (fun b q => b.join (ofPoint q)) b) all := by
    intro all qs
    induction qs with
    | nil => exact fun h _ => h
    | cons q qs ih =>
      intro b h hqs
      obtain ⟨hq, hqs⟩ := List.forall_mem_cons.1 hqs
      exact ih (h.join_ofPoint hq) hqs
  have hp : p ∈ p :: ps := List.mem_cons_self
  exact hfold ⟨⟨p, hp, rfl⟩, ⟨p, hp, rfl⟩, ⟨p, hp, rfl⟩, ⟨p, hp, rfl⟩⟩
    fun q hq => List.mem_cons_of_mem p hq

/-- **The box around scaled points is the scaled box**, and its extents scale too. -/
theorem scaled_around (hs : IsTwoPow k s) {ps : List (Point Float)} (hps : ∀ p ∈ ps, p.Fits s)
    (happart : ∀ p ∈ ps, ∀ q ∈ ps, p.Apart s q) :
    (around ps = none ∧ around (ps.map (Point.scale s)) = none) ∨
      ∃ b b', around ps = some b ∧ around (ps.map (Point.scale s)) = some b' ∧
        Binary64.Scaled k b.width b'.width ∧ Binary64.Scaled k b.height b'.height := by
  have hfilter : ps.filter Point.isFinite = ps :=
    List.filter_eq_self.2 fun p hp => (hps p hp).isFinite
  have hfilter' : (ps.map (Point.scale s)).filter Point.isFinite = ps.map (Point.scale s) := by
    rw [List.filter_eq_self]
    intro q hq
    obtain ⟨p, hp, rfl⟩ := List.mem_map.1 hq
    exact (hps p hp).isFinite_scale hs
  unfold around
  rw [hfilter, hfilter']
  cases ps with
  | nil => exact .inl ⟨rfl, rfl⟩
  | cons p ps =>
    obtain ⟨hp, hrest⟩ := List.forall_mem_cons.1 hps
    have hscaled := scaled_hull hs hp hrest
    obtain ⟨⟨p₀, hp₀, hx0⟩, ⟨q₀, hq₀, hy0⟩, ⟨p₁, hp₁, hx1⟩, ⟨q₁, hq₁, hy1⟩⟩ := spannedBy_hull p ps
    refine .inr ⟨_, _, rfl, rfl, ?_, ?_⟩
    · have hfits := (happart p₁ hp₁ p₀ hp₀).1.1
      have hx1' := hscaled.x1.right_unique (hx1 ▸ (hps p₁ hp₁).1.scaled hs)
      have hx0' := hscaled.x0.right_unique (hx0 ▸ (hps p₀ hp₀).1.scaled hs)
      rw [width, width, hx1', hx0', hx1, hx0]
      exact hfits.scaled hs (hps p₁ hp₁).1 (hps p₀ hp₀).1
    · have hfits := (happart q₁ hq₁ q₀ hq₀).1.2
      have hy1' := hscaled.y1.right_unique (hy1 ▸ (hps q₁ hq₁).2.scaled hs)
      have hy0' := hscaled.y0.right_unique (hy0 ▸ (hps q₀ hq₀).2.scaled hs)
      rw [height, height, hy1', hy0', hy1, hy0]
      exact hfits.scaled hs (hps q₁ hq₁).2 (hps q₀ hq₀).2

end Box
end PageContent
