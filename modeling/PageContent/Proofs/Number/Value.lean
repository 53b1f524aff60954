/-
# Doubles as rational numbers

A finite double stands for the rational number `± mantissa · 2 ^ exponent`; an infinity or
a NaN counts as `0`.  Since rounded mantissas have 53 bits unless the exponent is the
least one, comparing exponents first and mantissas next is comparing the numbers
(`compare_eq`), so finite doubles are ordered as what they stand for (`lt_iff_value`).
-/

import PageContent.Proofs.Number.Scaled

namespace PageContent
namespace Binary64

open Float.Model (UnpackedFloat)
open Float.Model.UnpackedFloat (Sign)

/-- A finite reading is a zero, or it has a mantissa and an exponent. -/
theorem zero_or_finite {u : UnpackedFloat} (h : u.isFinite = true) :
    (∃ s, u = .zero s) ∨ ∃ s m e hm, u = .finite s m e hm := by
  cases u with
  | zero s => exact .inl ⟨s, rfl⟩
  | finite s m e hm => exact .inr ⟨s, m, e, hm, rfl⟩
  | infinity s => exact absurd h Bool.false_ne_true
  | notANumber => exact absurd h Bool.false_ne_true

/-- The number that a reading stands for; an infinity or a NaN counts as `0`. -/
def valueOf : UnpackedFloat → ℚ
  | .finite s m e _ => s.apply m * 2 ^ e
  | _ => 0

/-- The number that a double stands for; an infinity or a NaN counts as `0`. -/
def value (x : Float) : ℚ := valueOf (unpacked x)

theorem two_zpow_pos (e : Int) : (0 : ℚ) < 2 ^ e := zpow_pos (by norm_num) e

/-- A higher exponent outweighs any mantissa of 53 bits. -/
theorem mul_two_zpow_lt {m n : Nat} {e f : Int} (h : e < f) (hm : m < 2 ^ 53) (hn : 2 ^ 52 ≤ n) :
    (m : ℚ) * 2 ^ e < n * 2 ^ f := by
  have hm' : (m : ℚ) < 2 ^ 53 := by exact_mod_cast hm
  have hn' : (2 : ℚ) ^ 52 ≤ n := by exact_mod_cast hn
  calc (m : ℚ) * 2 ^ e < 2 ^ 53 * 2 ^ e := mul_lt_mul_of_pos_right hm' (two_zpow_pos e)
    _ = 2 ^ 52 * 2 ^ (e + 1) := by rw [zpow_add_one₀ (by norm_num)]; ring
    _ ≤ 2 ^ 52 * 2 ^ f := by
      have := zpow_le_zpow_right₀ (show (1 : ℚ) ≤ 2 by norm_num) (show e + 1 ≤ f by omega)
      exact mul_le_mul_of_nonneg_left this (by norm_num)
    _ ≤ n * 2 ^ f := mul_le_mul_of_nonneg_right hn' (two_zpow_pos f).le

theorem compare_then_eq {s t : Sign} {m n : Nat} {e f : Int} {hm : 0 < m} {hn : 0 < n}
    (hu : IsRounded (.finite s m e hm)) (hv : IsRounded (.finite t n f hn)) :
    (compare e f).then (compare m n) = compare ((m : ℚ) * 2 ^ e) (n * 2 ^ f) := by
  obtain ⟨he, hm', hlo⟩ := hu
  obtain ⟨hf, hn', hlo'⟩ := hv
  rcases lt_trichotomy e f with h | rfl | h
  · rw [compare_lt_iff_lt.2 h, compare_lt_iff_lt.2 (mul_two_zpow_lt h hm' (by omega))]
    rfl
  · rw [compare_eq_iff_eq.2 rfl]
    show compare m n = _
    rcases lt_trichotomy m n with h | rfl | h
    · rw [compare_lt_iff_lt.2 h, compare_lt_iff_lt.2]
      exact mul_lt_mul_of_pos_right (by exact_mod_cast h) (two_zpow_pos e)
    · rw [compare_eq_iff_eq.2 rfl, compare_eq_iff_eq.2 rfl]
    · rw [compare_gt_iff_gt.2 h, compare_gt_iff_gt.2]
      exact mul_lt_mul_of_pos_right (by exact_mod_cast h) (two_zpow_pos e)
  · rw [compare_gt_iff_gt.2 h, compare_gt_iff_gt.2 (mul_two_zpow_lt h hn' (by omega))]
    rfl

theorem compare_neg_neg (a b : ℚ) : compare (-a) (-b) = (compare a b).swap := by
  rcases lt_trichotomy a b with h | rfl | h
  · rw [compare_lt_iff_lt.2 h, compare_gt_iff_gt.2 (neg_lt_neg h)]
    rfl
  · rw [compare_eq_iff_eq.2 rfl, compare_eq_iff_eq.2 rfl]
    rfl
  · rw [compare_gt_iff_gt.2 h, compare_lt_iff_lt.2 (neg_lt_neg h)]
    rfl

theorem valueOf_positive {m : Nat} {e : Int} {hm : 0 < m} :
    valueOf (.finite .positive m e hm) = m * 2 ^ e := rfl

theorem valueOf_negative {m : Nat} {e : Int} {hm : 0 < m} :
    valueOf (.finite .negative m e hm) = -(m * 2 ^ e) := by
  simp [valueOf, Sign.apply]

theorem magnitude_pos {m : Nat} (hm : 0 < m) (e : Int) : (0 : ℚ) < m * 2 ^ e :=
  mul_pos (by exact_mod_cast hm) (two_zpow_pos e)

/-- **Finite readings are ordered as the numbers they stand for.** -/
theorem compare_eq {u v : UnpackedFloat} (hu : IsRounded u) (hv : IsRounded v)
    (hu' : u.isFinite = true) (hv' : v.isFinite = true) :
    u.compare v = some (compare (valueOf u) (valueOf v)) := by
  obtain ⟨s, rfl⟩ | ⟨s, m, e, hm, rfl⟩ := zero_or_finite hu'
  · obtain ⟨t, rfl⟩ | ⟨t, n, f, hn, rfl⟩ := zero_or_finite hv'
    · exact congrArg some (compare_eq_iff_eq.2 rfl).symm
    · have hpos := magnitude_pos hn f
      cases t with
      | positive => exact congrArg some (compare_lt_iff_lt.2 hpos).symm
      | negative =>
        rw [valueOf_negative]
        exact congrArg some (compare_gt_iff_gt.2 (neg_lt_zero.2 hpos)).symm
  · have hpos := magnitude_pos hm e
    obtain ⟨t, rfl⟩ | ⟨t, n, f, hn, rfl⟩ := zero_or_finite hv'
    · cases s with
      | positive => exact congrArg some (compare_gt_iff_gt.2 hpos).symm
      | negative =>
        rw [valueOf_negative]
        exact congrArg some (compare_lt_iff_lt.2 (neg_lt_zero.2 hpos)).symm
    · have hpos' := magnitude_pos hn f
      cases s with
      | positive =>
        cases t with
        | positive => exact congrArg some (compare_then_eq hu hv)
        | negative =>
          rw [valueOf_negative, valueOf_positive]
          exact congrArg some (compare_gt_iff_gt.2 (by linarith)).symm
      | negative =>
        cases t with
        | positive =>
          rw [valueOf_negative, valueOf_positive]
          exact congrArg some (compare_lt_iff_lt.2 (by linarith)).symm
        | negative =>
          rw [valueOf_negative, valueOf_negative, compare_neg_neg, ← compare_then_eq hu hv]
          rfl

variable {x y : Float}

theorem lt_iff_value (hx : x.isFinite = true) (hy : y.isFinite = true) :
    x < y ↔ value x < value y := by
  rw [lt_iff, compare_eq (rounded_unpacked x).1 (rounded_unpacked y).1 hx hy, Option.some.injEq,
    compare_lt_iff_lt]
  rfl

theorem beq_self_of_isFinite (h : x.isFinite = true) : (x == x) = true := by
  have hx := (rounded_unpacked x).1
  rw [beq_iff, compare_eq hx hx h h, compare_eq_iff_eq.2 rfl]

theorem isNaN_of_isFinite (h : x.isFinite = true) : x.isNaN = false := by
  rw [isFinite_eq] at h
  rw [isNaN_eq]
  generalize unpacked x = u at *
  cases u with
  | notANumber => exact absurd h Bool.false_ne_true
  | _ => rfl

theorem isFinite_least (hx : x.isFinite = true) (hy : y.isFinite = true) :
    (least x y).isFinite = true := by
  rcases least_eq_or x y with h | h <;> rwa [h]

theorem isFinite_greatest (hx : x.isFinite = true) (hy : y.isFinite = true) :
    (greatest x y).isFinite = true := by
  rcases greatest_eq_or x y with h | h <;> rwa [h]

theorem value_least (hx : x.isFinite = true) (hy : y.isFinite = true) :
    value (least x y) = min (value x) (value y) := by
  rw [least, isNaN_of_isFinite hy, Bool.false_or]
  by_cases h : x < y
  · rw [if_pos (decide_eq_true h), min_eq_left ((lt_iff_value hx hy).1 h).le]
  · rw [if_neg (mt of_decide_eq_true h), min_eq_right (not_lt.1 (mt (lt_iff_value hx hy).2 h))]

theorem value_greatest (hx : x.isFinite = true) (hy : y.isFinite = true) :
    value (greatest x y) = max (value x) (value y) := by
  rw [greatest, isNaN_of_isFinite hy, Bool.false_or]
  by_cases h : y < x
  · rw [if_pos (decide_eq_true h), max_eq_left ((lt_iff_value hy hx).1 h).le]
  · rw [if_neg (mt of_decide_eq_true h), max_eq_right (not_lt.1 (mt (lt_iff_value hy hx).2 h))]

/-! ## Signs -/

theorem unpacked_abs (x : Float) : unpacked x.abs = (unpacked x).abs := by
  have hx := rounded_unpacked x
  rw [abs_eq]
  generalize unpacked x = u at hx
  cases u with
  | finite s m e hm => exact unpacked_ofUnpacked (u := .finite .positive m e hm) hx.1 hx.2
  | _ => exact unpacked_ofUnpacked trivial trivial

theorem neg_eq (x : Float) : -x = ofUnpacked (unpacked x).neg := rfl

theorem unpacked_neg (x : Float) : unpacked (-x) = (unpacked x).neg := by
  have hx := rounded_unpacked x
  rw [neg_eq]
  generalize unpacked x = u at hx
  cases u with
  | finite s m e hm => exact unpacked_ofUnpacked (u := .finite _ m e hm) hx.1 hx.2
  | _ => exact unpacked_ofUnpacked trivial trivial

theorem isFinite_neg (x : Float) : (-x).isFinite = x.isFinite := by
  rw [isFinite_eq, isFinite_eq x, unpacked_neg]
  cases unpacked x <;> rfl

/-- A double is its magnitude under its sign. -/
theorem signed_abs {x : Float} (h : x.isFinite = true) :
    (if (parts x).negative then -x.abs else x.abs) = x := by
  obtain ⟨s, hu⟩ | ⟨s, m, e, hm, hu⟩ := zero_or_finite (u := unpacked x) h
  · rcases eq_of_unpacked_zero hu with rfl | rfl <;> decide +kernel
  · have hback := ofUnpacked_unpacked x
    rw [hu] at hback
    rw [parts_of_unpacked hu, neg_eq, unpacked_abs, abs_eq, hu]
    cases s with
    | negative => exact hback
    | positive => exact hback

end Binary64
end PageContent
