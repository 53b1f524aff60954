/-
# Results that stay in range

A result is an infinity just if the number nearest to the exact one is beyond the largest finite
double.  That double absorbs a one (`nearest_largest_add_one`), so a difference of which one side
is at most one in magnitude is always finite (`isFinite_sub`).  A product is finite only if its
factors are (`isFinite_of_isFinite_mul`).
-/

import PageContent.Proofs.Number.HalfUnits

namespace PageContent
namespace Binary64

open Float.Model (UnpackedFloat)
open Float.Model.UnpackedFloat (Sign)

/-! ## Sides of zero -/

theorem nearest_nonneg {q : ℚ} (h : 0 ≤ q) : 0 ≤ nearest q :=
  nearest_zero.symm.trans_le (nearest_mono h)

theorem nearest_nonpos {q : ℚ} (h : q ≤ 0) : nearest q ≤ 0 :=
  (nearest_mono h).trans_eq nearest_zero

theorem value_zero : value 0 = 0 := rfl

theorem value_one : value 1 = 1 := isTwoPow_one.value_eq.trans (zpow_zero 2)

theorem value_settle (x : Float) : value (settle x) = value x := by
  by_cases h : x.isFinite = true
  · rw [settle_of_isFinite h]
  · rw [settle, if_neg h, value_zero, value]
    rw [isFinite_eq] at h
    cases hx : unpacked x with
    | infinity s => rfl
    | notANumber => rfl
    | zero s => exact absurd (by rw [hx]; rfl) h
    | finite s m e hm => exact absurd (by rw [hx]; rfl) h

/-! ## The end of the range -/

/-- The number of the largest finite double. -/
def largest : ℚ := (2 ^ 53 - 1) * 2 ^ (971 : ℤ)

theorem largest_lt : largest < 2 ^ (1024 : ℤ) := by
  have hpow : (2 : ℚ) ^ (1024 : ℤ) = 2 ^ 53 * 2 ^ (971 : ℤ) := by
    rw [← zpow_natCast, ← zpow_add₀ (by norm_num)]
    rfl
  rw [hpow, largest]
  exact mul_lt_mul_of_pos_right (sub_one_lt _) (two_zpow_pos 971)

theorem one_le_largest : 1 ≤ largest := by
  have hpow : (1 : ℚ) ≤ 2 ^ (971 : ℤ) := one_le_zpow₀ (by norm_num) (by decide)
  exact hpow.trans (le_mul_of_one_le_left (two_zpow_pos _).le (by norm_num))

/-- **A reading whose number is below `2 ^ 1024` in magnitude is in range.** -/
theorem inRange_of_abs_valueOf_lt {u : UnpackedFloat} (hu : IsRounded u)
    (h : |valueOf u| < 2 ^ (1024 : ℤ)) : InRange u := by
  cases u with
  | finite s m e hm =>
    by_contra hrange
    have he : 971 < e := Int.not_le.1 hrange
    have hm' : (2 : ℚ) ^ 52 ≤ m := by exact_mod_cast hu.2.2.resolve_left (by omega)
    rw [abs_valueOf_finite] at h
    refine absurd h (not_lt.2 ?_)
    calc (2 : ℚ) ^ (1024 : ℤ) = 2 ^ 52 * 2 ^ (972 : ℤ) := by
          rw [← zpow_natCast, ← zpow_add₀ (by norm_num)]
          rfl
      _ ≤ 2 ^ 52 * 2 ^ e := by
          have := zpow_le_zpow_right₀ (show (1 : ℚ) ≤ 2 by norm_num) (show 972 ≤ e by omega)
          exact mul_le_mul_of_nonneg_left this (by norm_num)
      _ ≤ m * 2 ^ e := mul_le_mul_of_nonneg_right hm' (two_zpow_pos e).le
  | _ => trivial

theorem isFinite_ofUnpacked {u : UnpackedFloat} (hu : IsRounded u) (hu' : u.isFinite = true)
    (h : |valueOf u| < 2 ^ (1024 : ℤ)) : (ofUnpacked u).isFinite = true := by
  rw [isFinite_eq, unpacked_ofUnpacked hu (inRange_of_abs_valueOf_lt hu h), hu']

theorem abs_value_le_largest (x : Float) : |value x| ≤ largest := by
  have hlargest : 0 ≤ largest := zero_le_one.trans one_le_largest
  obtain ⟨hu, hrange⟩ := rounded_unpacked x
  rw [value]
  cases hunpacked : unpacked x with
  | finite s m e hm =>
    rw [hunpacked] at hu hrange
    have hm' : (m : ℚ) ≤ 2 ^ 53 - 1 := by
      have := hu.2.1
      have : ((m + 1 : ℕ) : ℚ) ≤ (2 ^ 53 : ℕ) := by exact_mod_cast this
      push_cast at this
      linarith
    have he : (2 : ℚ) ^ e ≤ 2 ^ (971 : ℤ) := zpow_le_zpow_right₀ (by norm_num) hrange
    rw [abs_valueOf_finite]
    exact mul_le_mul hm' he (two_zpow_pos e).le (by norm_num)
  | _ => exact abs_zero.trans_le hlargest

/-- The largest double absorbs a one. -/
theorem nearest_largest_add_one : nearest (largest + 1) = largest := by
  obtain ⟨n, hn⟩ : ∃ n : ℕ, n = 2 ^ 53 - 1 := ⟨_, rfl⟩
  have hcast : (n : ℚ) = 2 ^ 53 - 1 := by
    rw [hn]
    norm_num
  have hsmall : 0 ≤ (2 : ℚ) ^ (-971 : ℤ) ∧ (2 : ℚ) ^ (-971 : ℤ) < 1 / 2 := by
    refine ⟨(two_zpow_pos _).le, ?_⟩
    calc (2 : ℚ) ^ (-971 : ℤ) ≤ 2 ^ (-2 : ℤ) := zpow_le_zpow_right₀ (by norm_num) (by decide)
      _ < 1 / 2 := by norm_num
  obtain ⟨r, hr⟩ : ∃ r : ℚ, r = 2 ^ (-971 : ℤ) := ⟨_, rfl⟩
  rw [← hr] at hsmall
  have hsplit : largest + 1 = (n + r) * 2 ^ (971 : ℤ) := by
    rw [add_mul, hr, ← zpow_add₀ (by norm_num), neg_add_cancel, zpow_zero, hcast, largest]
  have hplace : place (largest + 1) = 971 := by
    rw [place, hsplit, log_mul_two_zpow (m := n) (by omega) (by linarith) (by linarith), hn]
    rfl
  have hfloor : ⌊(n : ℚ) + r⌋₊ = n := (Nat.floor_eq_iff (add_nonneg n.cast_nonneg hsmall.1)).2
    ⟨by linarith, by linarith⟩
  have hfract : Int.fract ((n : ℚ) + r) = r := by
    rw [Int.fract_natCast_add]
    exact Int.fract_eq_self.2 ⟨hsmall.1, by linarith⟩
  have hnonneg : 0 ≤ largest + 1 := add_nonneg (zero_le_one.trans one_le_largest) zero_le_one
  rw [nearest_of_nonneg hnonneg, magnitude, hplace, hsplit,
    mul_div_cancel_right₀ _ (two_zpow_pos 971).ne', nearestEven, hfract,
    compare_lt_iff_lt.2 (by linarith), hfloor, hcast, largest]

theorem abs_nearest_lt {q : ℚ} (h : |q| ≤ largest + 1) : |nearest q| < 2 ^ (1024 : ℤ) := by
  obtain ⟨hlo, hhi⟩ := abs_le.1 h
  have hlo' := nearest_mono hlo
  have hhi' := nearest_mono hhi
  rw [nearest_neg, nearest_largest_add_one] at hlo'
  rw [nearest_largest_add_one] at hhi'
  exact (abs_le.2 ⟨hlo', hhi'⟩).trans_lt largest_lt

/-! ## Results -/

variable {x y : Float}

/-- **A sum with a number of at most one is finite.** -/
theorem isFinite_add (hx : x.isFinite = true) (hy : y.isFinite = true)
    (h : |value x| ≤ 1 ∨ |value y| ≤ 1) : (x + y).isFinite = true := by
  have hu := (rounded_unpacked x).1
  have hv := (rounded_unpacked y).1
  have hbound : |value x + value y| ≤ largest + 1 := by
    have hx' := abs_value_le_largest x
    have hy' := abs_value_le_largest y
    refine (abs_add_le _ _).trans ?_
    rcases h with h | h <;> linarith
  obtain ⟨s, hs⟩ := exists_add_eq_rounded hu hv hx hy
  rw [add_eq]
  refine isFinite_ofUnpacked (isRounded_add hu hv) (hs ▸ isFinite_rounded s _) ?_
  rw [valueOf_add hu hv hx hy]
  exact abs_nearest_lt hbound

/-- **A difference with a number of at most one is finite.** -/
theorem isFinite_sub (hx : x.isFinite = true) (hy : y.isFinite = true)
    (h : |value x| ≤ 1 ∨ |value y| ≤ 1) : (x - y).isFinite = true := by
  have hadd := isFinite_add hx ((isFinite_neg y).trans hy)
    (by rwa [value_neg, abs_neg])
  rwa [add_eq, unpacked_neg, ← sub_eq_add_opposite, ← sub_eq] at hadd

theorem isFinite_of_isFinite_ofUnpacked {u : UnpackedFloat} (h : (ofUnpacked u).isFinite = true) :
    u.isFinite = true := by
  cases u with
  | zero s => rfl
  | finite s m e hm => rfl
  | infinity s =>
    rwa [isFinite_eq, unpacked_ofUnpacked (u := .infinity s) trivial trivial] at h
  | notANumber =>
    rwa [isFinite_eq, unpacked_ofUnpacked (u := .notANumber) trivial trivial] at h

/-- **A finite product has finite factors.** -/
theorem isFinite_of_isFinite_mul (h : (x * y).isFinite = true) :
    x.isFinite = true ∧ y.isFinite = true := by
  have h := isFinite_of_isFinite_ofUnpacked (mul_eq x y ▸ h)
  rw [isFinite_eq, isFinite_eq]
  generalize unpacked x = u at h
  generalize unpacked y = v at h
  cases u <;> cases v <;> first | exact ⟨rfl, rfl⟩ | exact absurd h Bool.false_ne_true

end Binary64
end PageContent
