/-
# Matrices over exact numbers

Over exact numbers, which need no stand-in, the formulas of composing and applying matrices are
those of affine maps: composing is associative, the identity is neutral, and a composed matrix maps
a point by the first of the two and its image by the second (`apply_compose`).

Transforms that come one after another are each composed in front of what is there.  So the last
of them is the first to map a point (`apply_stacked`).
-/

import PageContent.Geometry.Matrix
import Mathlib

namespace PageContent

/-- Every exact number is of use. -/
instance : Settle ℚ := ⟨id⟩

namespace Matrix

/-- The matrix of transforms that came one after another, the oldest first. -/
def stacked {α : Type} [Add α] [Mul α] [Settle α] [OfNat α 0] [OfNat α 1]
    (transforms : List (Matrix α)) : Matrix α :=
  transforms.foldl (fun matrix m => m.compose matrix) .identity

variable (l m n : Matrix ℚ)

theorem compose_eq :
    m.compose n =
      { a := m.a * n.a + m.b * n.c
        b := m.a * n.b + m.b * n.d
        c := m.c * n.a + m.d * n.c
        d := m.c * n.b + m.d * n.d
        e := m.e * n.a + m.f * n.c + n.e
        f := m.e * n.b + m.f * n.d + n.f } := rfl

theorem compose_assoc : (l.compose m).compose n = l.compose (m.compose n) := by
  simp only [compose_eq, mk.injEq]
  refine ⟨?_, ?_, ?_, ?_, ?_, ?_⟩ <;> ring

theorem identity_compose : identity.compose m = m := by
  simp only [compose_eq, identity]
  ring_nf

theorem compose_identity : m.compose identity = m := by
  simp only [compose_eq, identity]
  ring_nf

/-- **A composed matrix maps by the one and then by the other.** -/
theorem apply_compose (p : Point ℚ) : (m.compose n).apply p = n.apply (m.apply p) := by
  simp only [compose_eq, apply, Point.mk.injEq]
  constructor <;> ring

theorem apply_identity (p : Point ℚ) : (identity : Matrix ℚ).apply p = p := by
  simp only [apply, identity]
  ring_nf

/-- **The last transform maps first.** -/
theorem apply_stacked (transforms : List (Matrix ℚ)) (p : Point ℚ) :
    (stacked transforms).apply p = transforms.foldr apply p := by
  have hfold : ∀ matrix : Matrix ℚ,
      (transforms.foldl (fun matrix m => m.compose matrix) matrix).apply p =
        matrix.apply (transforms.foldr apply p) := by
    induction transforms with
    | nil => exact fun _ => rfl
    | cons m transforms ih =>
      intro matrix
      rw [List.foldl_cons, ih, apply_compose, List.foldr_cons]
  exact (hfold identity).trans (apply_identity _)

end Matrix

/-- On the page the mapped point is flipped against the height and scaled along each axis. -/
theorem Viewport.place_eq (v : Viewport ℚ) (m : Matrix ℚ) (p : Point ℚ) :
    v.place m p = ⟨(m.apply p).x * v.scaleX, (v.height - (m.apply p).y) * v.scaleY⟩ := rfl

end PageContent
