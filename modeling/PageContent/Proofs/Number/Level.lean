/-
# Doubles that comparisons do not tell apart

The two zeros are different doubles, but no comparison sees that, and a sum sees it only if
it is a zero itself.  Two doubles are level if they are the same or both a zero.  Adding
the same to both leaves them level (`Level.add_right`), and so does leaving out a `0` that
a sum starts with (`level_zero_add`).
-/

import PageContent.Proofs.Number.Scaled

namespace PageContent
namespace Binary64

open Float.Model (UnpackedFloat)

/-- The reading of the double is one of the two zeros. -/
def IsZero (x : Float) : Prop := ∃ s, unpacked x = .zero s

/-- The doubles are the same, or both a zero. -/
def Level (x y : Float) : Prop := x = y ∨ IsZero x ∧ IsZero y

theorem isZero_zero : IsZero 0 := ⟨.positive, rfl⟩

variable {x y : Float}

theorem add_of_isZero (hx : IsZero x) (hy : ¬ IsZero y) : x + y = y := by
  obtain ⟨s, hx⟩ := hx
  exact (Scaled.add_of_unpacked_zero hx fun t ht => hy ⟨t, ht⟩).1

theorem isZero_add (hx : IsZero x) (hy : IsZero y) : IsZero (x + y) := by
  obtain ⟨s, hx⟩ := hx
  obtain ⟨t, hy⟩ := hy
  exact Scaled.unpacked_add_zero hx hy

theorem isZero_mul (hx : IsZero x) (hy : y.isFinite = true) : IsZero (x * y) := by
  obtain ⟨s, hx⟩ := hx
  rw [isFinite_eq] at hy
  rw [IsZero, mul_eq, hx]
  generalize unpacked y = v at hy
  cases v with
  | zero t => exact ⟨s * t, unpacked_ofUnpacked (u := .zero (s * t)) trivial trivial⟩
  | finite t n f hn => exact ⟨s * t, unpacked_ofUnpacked (u := .zero (s * t)) trivial trivial⟩
  | _ => exact absurd hy Bool.false_ne_true

/-- A `0` in front of a sum makes no difference but for the sign of a zero. -/
theorem level_zero_add (x : Float) : Level (0 + x) x := by
  by_cases hx : IsZero x
  · exact .inr ⟨isZero_add isZero_zero hx, hx⟩
  · exact .inl (add_of_isZero isZero_zero hx)

/-- Nor does a zero behind it. -/
theorem level_add_of_isZero (x : Float) (hy : IsZero y) : Level (x + y) x := by
  by_cases hx : IsZero x
  · exact .inr ⟨isZero_add hx hy, hx⟩
  · obtain ⟨s, hs⟩ := hy
    exact .inl (Scaled.add_of_unpacked_zero hs fun t ht => hx ⟨t, ht⟩).2

namespace Level

theorem refl (x : Float) : Level x x := .inl rfl

theorem symm (h : Level x y) : Level y x := h.imp Eq.symm And.symm

protected theorem trans {z : Float} (h : Level x y) (h' : Level y z) : Level x z := by
  rcases h with rfl | ⟨hx, hy⟩
  · exact h'
  · rcases h' with rfl | ⟨-, hz⟩
    · exact .inr ⟨hx, hy⟩
    · exact .inr ⟨hx, hz⟩

theorem add_right (h : Level x y) (z : Float) : Level (x + z) (y + z) := by
  rcases h with rfl | ⟨hx, hy⟩
  · exact refl _
  · by_cases hz : IsZero z
    · exact .inr ⟨isZero_add hx hz, isZero_add hy hz⟩
    · rw [add_of_isZero hx hz, add_of_isZero hy hz]
      exact refl z

/-- So does adding up the same from both on. -/
theorem foldl {α : Type} (h : Level x y) (f : α → Float) (as : List α) :
    Level (as.foldl (fun sum a => sum + f a) x) (as.foldl (fun sum a => sum + f a) y) := by
  induction as generalizing x y with
  | nil => exact h
  | cons a as ih => exact ih (h.add_right (f a))

/-- **Comparisons do not tell level doubles apart.** -/
theorem lt_iff (h : Level x y) (z : Float) : z < x ↔ z < y := by
  rcases h with rfl | ⟨⟨s, hs⟩, ⟨t, ht⟩⟩
  · exact Iff.rfl
  · rw [Binary64.lt_iff, Binary64.lt_iff, hs, ht]
    cases unpacked z with
    | notANumber => exact Iff.rfl
    | infinity r => cases r <;> exact Iff.rfl
    | zero r => cases r <;> exact Iff.rfl
    | finite r m e hm => cases r <;> exact Iff.rfl

end Level
end Binary64
end PageContent
