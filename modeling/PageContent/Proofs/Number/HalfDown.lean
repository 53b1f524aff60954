/-
# Rounding with halves going down

The whole number nearest to `x`, of two the lower one, is computed as `⌈x - 1/2⌉`.  The difference
is rounded, but past no natural number: with bits behind the point it is exact
(`nearest_sub_half`), and without any it is a half away from the next whole number.  So what is
computed is above a natural number just if `x` is above it by more than a half
(`ceilInt_sub_half_le_iff`).
-/

import PageContent.Proofs.Number.InRange

namespace PageContent
namespace Binary64

theorem value_half : value 0.5 = 1 / 2 := by
  rw [isTwoPow_half.value_eq]
  norm_num

theorem ceilInt_eq {x : Float} (h : x.isFinite = true) : ceilInt x = ⌈value x⌉ := by
  rw [ceilInt, floorInt_eq ((isFinite_neg x).trans h), value_neg, Int.floor_neg, neg_neg]

/-- A natural number and a half have 53 bits. -/
theorem nearest_add_half {n : ℕ} (hn : n < 2 ^ 52) : nearest (n + 1 / 2) = n + 1 / 2 := by
  have hhalf : nearest ((2 * n + 1 : ℤ) / 2) = (2 * n + 1 : ℤ) / 2 :=
    nearest_half (abs_le.2 ⟨by omega, by omega⟩)
  push_cast at hhalf
  rwa [add_div, mul_div_cancel_left₀ _ two_ne_zero] at hhalf

/-- With bits behind the point a difference with a half has no more bits than the number. -/
theorem nearest_sub_half {m e : ℤ} (hm : |m| < 2 ^ 53) (he : -1074 ≤ e) (hneg : e < 0)
    (hlo : (1 : ℚ) / 2 < m * 2 ^ e) : nearest (m * 2 ^ e - 1 / 2) = m * 2 ^ e - 1 / 2 := by
  obtain ⟨k, rfl⟩ : ∃ k : ℕ, e = -(k + 1 : ℤ) := ⟨(-e - 1).toNat, by omega⟩
  have hpow : (2 : ℚ) ^ k * 2 ^ (-(k + 1 : ℤ)) = 1 / 2 := by
    rw [← zpow_natCast, ← zpow_add₀ (by norm_num)]
    norm_num
  have hdiff : (m : ℚ) * 2 ^ (-(k + 1 : ℤ)) - 1 / 2 = (m - 2 ^ k : ℤ) * 2 ^ (-(k + 1 : ℤ)) := by
    rw [← hpow]
    push_cast
    ring
  have hpos : 0 < m - 2 ^ k := by
    rw [← sub_pos, hdiff] at hlo
    exact_mod_cast (pos_iff_pos_of_mul_pos hlo).2 (two_zpow_pos _)
  have hbits : |m - 2 ^ k| ≤ 2 ^ 53 := by
    have := (abs_lt.1 hm).2
    have : (0 : ℤ) < 2 ^ k := by positivity
    rw [abs_of_pos hpos]
    omega
  rw [hdiff, nearest_dyadic hbits he]

/-- A double less a half is rounded past no natural number. -/
theorem nearest_sub_half_le_iff {m e : ℤ} (hm : |m| < 2 ^ 53) (he : -1074 ≤ e) {n : ℕ}
    (hn : n < 2 ^ 52) : nearest (m * 2 ^ e - 1 / 2) ≤ n ↔ (m : ℚ) * 2 ^ e ≤ n + 1 / 2 := by
  have hwhole : nearest n = n := nearest_intCast (n := n) (by rw [Nat.abs_cast]; omega)
  have hnat : (0 : ℚ) ≤ n := Nat.cast_nonneg n
  constructor
  · contrapose!
    intro hlt
    rcases le_or_gt 0 e with hpos | hneg
    · obtain ⟨k, rfl⟩ := Int.eq_ofNat_of_zero_le hpos
      rw [zpow_natCast] at hlt ⊢
      have hint : (n : ℤ) < m * 2 ^ k := by
        have : (n : ℚ) < m * 2 ^ k := by linarith
        exact_mod_cast this
      have hnext : (n : ℚ) + 1 ≤ m * 2 ^ k := by exact_mod_cast hint
      calc (n : ℚ) < n + 1 / 2 := by linarith
        _ = nearest (n + 1 / 2) := (nearest_add_half hn).symm
        _ ≤ nearest (m * 2 ^ k - 1 / 2) := nearest_mono (by linarith)
    · rw [nearest_sub_half hm he hneg (by linarith)]
      linarith
  · intro hle
    rw [← hwhole]
    exact nearest_mono (by linarith)

/-- **What is rounded with halves down is above a natural number just if it is so by more than a
half.** -/
theorem ceilInt_sub_half_le_iff {x : Float} (h : x.isFinite = true) {n : ℕ} (hn : n < 2 ^ 52) :
    ceilInt (x - 0.5) ≤ n ↔ value x ≤ n + 1 / 2 := by
  have hfinite : (x - 0.5).isFinite = true :=
    isFinite_sub h (by decide) (.inr (by rw [value_half]; norm_num))
  obtain ⟨m, e, hm, he, hvalue⟩ := exists_value_eq h
  rw [ceilInt_eq hfinite, Int.ceil_le, value_sub h (by decide) hfinite, value_half, hvalue]
  exact_mod_cast nearest_sub_half_le_iff hm he hn

end Binary64
end PageContent
