/-
# Rounding to half units

The half unit nearest to `y` is computed as `⌊2 y + 1/2⌋ / 2`.  Of the operations only the sum,
and the difference of the result and `y`, are rounded:

| | exact | rounded |
| --- | --- | --- |
| the sum | below the next whole number | below it (`nearest_add_half_lt`), but for `2 y` just below `1/2` |
| the difference | a quarter at most | a quarter at most |

In the one exception the result is a half, and the difference, more than a quarter by less than
any double tells, is rounded to a quarter (`nearest_half_sub_le`).  So what is computed never
lies further from `y` than a quarter (`abs_halfUnit_sub_le`).
-/

import PageContent.Proofs.Number.Operations

namespace PageContent
namespace Binary64

/-! ## The sum -/

section Sum

variable {m e n : ℤ}

/-- Half a whole number has 53 bits. -/
theorem nearest_half (h : |n| ≤ 2 ^ 53) : nearest ((n : ℚ) / 2) = n / 2 := by
  have := nearest_dyadic (e := -1) h (by decide)
  rwa [zpow_neg_one, ← div_eq_mul_inv] at this

/-- What is strictly between whole numbers has bits behind the point. -/
theorem exponent_neg_of_between (hlo : (n : ℚ) < m * 2 ^ e) (hhi : (m : ℚ) * 2 ^ e < n + 1) :
    e < 0 := by
  by_contra hnonneg
  obtain ⟨k, rfl⟩ := Int.eq_ofNat_of_zero_le (not_lt.1 hnonneg)
  rw [zpow_natCast] at hlo hhi
  have hlo : n < m * 2 ^ k := by exact_mod_cast hlo
  have hhi : m * 2 ^ k < n + 1 := by exact_mod_cast hhi
  omega

/-- A power of two is above no positive whole number without being the next one at least. -/
theorem add_one_le_two_zpow (hm : m < 2 ^ 53) (hn : 0 < n) (hlo : (n : ℚ) < m * 2 ^ e) :
    (n : ℚ) + 1 ≤ 2 ^ 53 * 2 ^ e := by
  have hpow : (2 : ℚ) ^ (53 + e) = 2 ^ 53 * 2 ^ e := by
    rw [zpow_add₀ (by norm_num)]
    norm_num
  have hbelow : (n : ℚ) < 2 ^ (53 + e) := by
    rw [hpow]
    exact hlo.trans (mul_lt_mul_of_pos_right (by exact_mod_cast hm) (two_zpow_pos e))
  have hone : (1 : ℚ) ≤ n := by exact_mod_cast hn
  have hexponent : 0 < 53 + e :=
    (one_lt_zpow_iff_right₀ (by norm_num)).1 (hone.trans_lt hbelow)
  obtain ⟨k, hk⟩ := Int.eq_ofNat_of_zero_le hexponent.le
  rw [← hpow]
  rw [hk, zpow_natCast] at hbelow ⊢
  have hbelow : n < 2 ^ k := by exact_mod_cast hbelow
  exact_mod_cast hbelow

/-- **A sum with a half is rounded up to the next whole number from near zero only**: elsewhere
it has no more bits than the number. -/
theorem nearest_add_half_lt (hm : |m| < 2 ^ 53) (he : -1074 ≤ e) (hn : n ≠ 0)
    (hbound : |n| ≤ 2 ^ 52 - 1) (hlt : (m : ℚ) * 2 ^ e + 1 / 2 < n + 1) :
    nearest (m * 2 ^ e + 1 / 2) < n + 1 := by
  obtain ⟨hm, hm'⟩ := abs_lt.1 hm
  rcases le_or_gt ((m : ℚ) * 2 ^ e) n with hle | hgt
  · have hbound' : |2 * n + 1| ≤ 2 ^ 53 := by
      rw [abs_le] at hbound ⊢
      omega
    calc nearest (m * 2 ^ e + 1 / 2) ≤ nearest (((2 * n + 1 : ℤ) : ℚ) / 2) := by
          refine nearest_mono ?_
          push_cast
          linarith
      _ = ((2 * n + 1 : ℤ) : ℚ) / 2 := nearest_half hbound'
      _ < n + 1 := by
        push_cast
        linarith
  · have hneg : e < 0 := exponent_neg_of_between hgt (by linarith)
    obtain ⟨k, hk⟩ : ∃ k : ℕ, -1 = (k : ℤ) + e := ⟨(-1 - e).toNat, by omega⟩
    have hsum : (m : ℚ) * 2 ^ e + 1 / 2 = (m + 2 ^ k : ℤ) * 2 ^ e := by
      push_cast
      rw [add_mul, ← zpow_natCast, ← zpow_add₀ (by norm_num), ← hk, zpow_neg_one, one_div]
    rw [hsum] at hlt ⊢
    have hpos : (0 : ℤ) < 2 ^ k := by positivity
    have hsize : m + 2 ^ k ≤ 2 ^ 53 := by
      rcases lt_or_gt_of_ne hn with hlow | hhigh
      · have hle : (n : ℚ) + 1 ≤ 0 := by exact_mod_cast hlow
        have hsign := neg_of_mul_neg_left (hlt.trans_le hle) (two_zpow_pos e).le
        have hsign : m + 2 ^ k < 0 := by exact_mod_cast hsign
        omega
      · have hnext := add_one_le_two_zpow hm' hhigh hgt
        have hsize := lt_of_mul_lt_mul_right (hlt.trans_le hnext) (two_zpow_pos e).le
        have hsize : m + 2 ^ k < 2 ^ 53 := by exact_mod_cast hsize
        exact hsize.le
    rwa [nearest_dyadic (abs_le.2 ⟨by omega, hsize⟩) he]

end Sum

/-! ## The difference -/

/-- The number of 53 bits before a quarter. -/
theorem quarter_sub_le {m e : ℤ} (hm : m < 2 ^ 53)
    (h : (1 : ℚ) / 4 - 2 ^ (-54 : ℤ) < m * 2 ^ e) : (1 : ℚ) / 4 - 2 ^ (-55 : ℤ) ≤ m * 2 ^ e := by
  have hexponent : -55 ≤ e := by
    by_contra hlow
    have hsmall : (m : ℚ) * 2 ^ e ≤ 2 ^ 53 * 2 ^ (-56 : ℤ) := by
      have hm : (m : ℚ) ≤ 2 ^ 53 := by exact_mod_cast hm.le
      have hpow : (2 : ℚ) ^ e ≤ 2 ^ (-56 : ℤ) := zpow_le_zpow_right₀ (by norm_num) (by omega)
      exact (mul_le_mul_of_nonneg_right hm (two_zpow_pos e).le).trans
        (mul_le_mul_of_nonneg_left hpow (by norm_num))
    norm_num at h hsmall
    linarith
  obtain ⟨k, hk⟩ : ∃ k : ℕ, e = (k : ℤ) + -55 := ⟨(e + 55).toNat, by omega⟩
  have hvalue : (m : ℚ) * 2 ^ e = (m * 2 ^ k : ℤ) * 2 ^ (-55 : ℤ) := by
    rw [hk, zpow_add₀ (by norm_num), zpow_natCast]
    push_cast
    ring
  rw [hvalue] at h ⊢
  generalize m * 2 ^ k = n at *
  have h : (2 : ℚ) ^ 53 - 2 < n := by
    norm_num at h ⊢
    linarith
  have h : 2 ^ 53 - 2 < n := by exact_mod_cast h
  have h : ((2 ^ 53 - 1 : ℤ) : ℚ) ≤ n := by exact_mod_cast (show 2 ^ 53 - 1 ≤ n by omega)
  push_cast at h
  norm_num at h ⊢
  linarith

/-- What exceeds a quarter by half a unit of its last place is rounded to the quarter. -/
theorem nearest_quarter_add : nearest (1 / 4 + 2 ^ (-55 : ℤ)) = 1 / 4 := by
  have hq : (1 : ℚ) / 4 + 2 ^ (-55 : ℤ) = (2 ^ 52 + 1 / 2) * 2 ^ (-54 : ℤ) := by norm_num
  have hplace : place ((2 ^ 52 + 1 / 2) * 2 ^ (-54 : ℤ)) = -54 := by
    have hlog := log_mul_two_zpow (m := 2 ^ 52) (q := 2 ^ 52 + 1 / 2) (by norm_num)
      (by norm_num) (by norm_num) (-54)
    rw [place, hlog, Nat.log2_two_pow]
    rfl
  have heven : nearestEven (2 ^ 52 + 1 / 2) = 2 ^ 52 := by
    have hfloor : ⌊(2 ^ 52 + 1 / 2 : ℚ)⌋ = 2 ^ 52 := by
      rw [Int.floor_eq_iff]
      norm_num
    have hfloor' : ⌊(2 ^ 52 + 1 / 2 : ℚ)⌋₊ = 2 ^ 52 := by
      rw [Nat.floor_eq_iff (by norm_num)]
      norm_num
    have hfract : 2 * Int.fract (2 ^ 52 + 1 / 2 : ℚ) = 1 := by
      rw [Int.fract, hfloor]
      norm_num
    rw [nearestEven, hfract, hfloor', compare_eq_iff_eq.2 rfl]
    rfl
  rw [hq, nearest_of_nonneg (by positivity), magnitude, hplace,
    mul_div_cancel_right₀ _ (two_zpow_pos _).ne', heven]
  norm_num

/-- **Where the sum is rounded up to one, the difference is rounded down to a quarter.** -/
theorem nearest_half_sub_le {m e : ℤ} (hm : m < 2 ^ 53)
    (h : 1 ≤ nearest (2 * (m * 2 ^ e) + 1 / 2)) : nearest (1 / 2 - m * 2 ^ e) ≤ 1 / 4 := by
  have hgt : (1 : ℚ) / 4 - 2 ^ (-54 : ℤ) < m * 2 ^ e := by
    by_contra hle
    have hbelow : nearest (2 * (m * 2 ^ e) + 1 / 2) ≤ nearest ((2 ^ 53 - 1 : ℤ) * 2 ^ (-53 : ℤ)) := by
      refine nearest_mono ?_
      norm_num at hle ⊢
      linarith
    rw [nearest_dyadic (by norm_num) (by norm_num)] at hbelow
    norm_num at hbelow
    linarith
  have hge := quarter_sub_le hm hgt
  calc nearest (1 / 2 - m * 2 ^ e) ≤ nearest (1 / 4 + 2 ^ (-55 : ℤ)) := by
        refine nearest_mono ?_
        linarith
    _ = 1 / 4 := nearest_quarter_add

/-! ## The half unit -/

theorem abs_nearest_le {q : ℚ} (h : |q| ≤ 1 / 4) : |nearest q| ≤ 1 / 4 := by
  have hquarter : nearest (1 / 4) = 1 / 4 := by
    have := nearest_dyadic (m := 1) (e := -2) (by decide) (by decide)
    norm_num at this ⊢
    exact this
  obtain ⟨hlo, hhi⟩ := abs_le.1 h
  refine abs_le.2 ⟨?_, hquarter ▸ nearest_mono hhi⟩
  calc -(1 / 4) = nearest (-(1 / 4)) := by rw [nearest_neg, hquarter]
    _ ≤ nearest q := nearest_mono hlo

theorem abs_floor_le {q : ℚ} (h : |q| ≤ 2 ^ 50) : |⌊2 * q + 1 / 2⌋| ≤ 2 ^ 52 - 1 := by
  obtain ⟨hlo, hhi⟩ := abs_le.1 h
  refine abs_le.2 ⟨Int.le_floor.2 ?_, Int.floor_le_iff.2 ?_⟩ <;> push_cast <;> linarith

/-- **A number and the half unit nearest to it are at most a quarter apart**, as far as rounding
tells. -/
theorem abs_nearest_floor_sub_le {m e : ℤ} (hm : |m| < 2 ^ 53) (he : -1074 ≤ e)
    (hbound : |(m : ℚ) * 2 ^ e| ≤ 2 ^ 50) :
    |nearest ((⌊nearest (2 * (m * 2 ^ e) + 1 / 2)⌋ : ℚ) / 2 - m * 2 ^ e)| ≤ 1 / 4 := by
  have hdouble : (m : ℚ) * 2 ^ (e + 1) = 2 * (m * 2 ^ e) := by
    rw [zpow_add_one₀ (by norm_num)]
    ring
  have hdifference := nearest_half_sub_le (e := e) (abs_lt.1 hm).2
  have hsum := fun n => nearest_add_half_lt (e := e + 1) (n := n) hm (by omega)
  rw [hdouble] at hsum
  generalize (m : ℚ) * 2 ^ e = q at *
  have hsize := abs_floor_le hbound
  obtain ⟨hlo, hhi⟩ := Int.floor_eq_iff.1 (rfl : ⌊2 * q + 1 / 2⌋ = _)
  generalize ⌊2 * q + 1 / 2⌋ = n at *
  have hexact : nearest n = n := nearest_intCast (hsize.trans (by norm_num))
  have hge : (n : ℚ) ≤ nearest (2 * q + 1 / 2) := hexact ▸ nearest_mono hlo
  rcases lt_or_ge (nearest (2 * q + 1 / 2)) (n + 1) with hlt | hcarry
  · rw [Int.floor_eq_iff.2 ⟨hge, hlt⟩]
    exact abs_nearest_le (abs_le.2 ⟨by linarith, by linarith⟩)
  · -- the sum was rounded up, so it lies between a half and one
    obtain rfl : n = 0 := by
      by_contra hne
      exact absurd hcarry (not_le.2 (hsum n hne hsize hhi))
    rw [Int.cast_zero, zero_add] at hhi hcarry
    have hone : nearest (2 * q + 1 / 2) ≤ 1 :=
      calc nearest (2 * q + 1 / 2) ≤ nearest 1 := nearest_mono hhi.le
        _ = 1 := by exact_mod_cast nearest_intCast (n := 1) (by decide)
    have hfloor : ⌊nearest (2 * q + 1 / 2)⌋ = 1 :=
      Int.floor_eq_iff.2 ⟨by exact_mod_cast hcarry, by push_cast; linarith⟩
    have hnonneg : nearest 0 ≤ nearest (1 / 2 - q) := nearest_mono (by linarith)
    rw [nearest_zero] at hnonneg
    rw [hfloor, Int.cast_one, abs_of_nonneg hnonneg]
    exact hdifference hcarry

/-! ## Doubles -/

theorem IsTwoPow.value_eq {k : ℤ} {s : Float} (h : IsTwoPow k s) : value s = 2 ^ k := by
  obtain ⟨n, hn, hs⟩ := h
  rw [value, hs, valueOf_positive, Nat.cast_pow, Nat.cast_ofNat, ← zpow_natCast,
    ← zpow_add₀ (by norm_num), add_sub_cancel]

theorem isFinite_of_abs_le {y z : Float} (hz : z.isFinite = true) (h : y.abs ≤ z) :
    y.isFinite = true := by
  rcases isFinite_or_bot hz h with hfinite | hbot
  · rwa [isFinite_abs] at hfinite
  · rw [unpacked_abs] at hbot
    cases hu : unpacked y <;> rw [hu] at hbot <;> exact absurd hbot nofun

section

variable {x y : Float}

theorem isTwoPow_half : IsTwoPow (-1) 0.5 := ⟨52, Nat.two_pow_pos 52, rfl⟩

theorem isWithin_two : IsWithin 1 2 :=
  ⟨by decide, by rw [isTwoPow_two.value_eq]; norm_num⟩

theorem value_mul_two (h : IsWithin 50 y) : value (y * 2) = 2 * value y := by
  obtain ⟨m, e, hm, he, hvalue⟩ := exists_value_eq h.isFinite
  have hdouble : 2 * value y = m * 2 ^ (e + 1) := by
    rw [hvalue, zpow_add_one₀ (by norm_num)]
    ring
  rw [value_mul h.isFinite isWithin_two.isFinite (h.mul isWithin_two).isFinite,
    isTwoPow_two.value_eq, zpow_one, mul_comm, hdouble, nearest_dyadic hm.le (by omega)]

/-- A whole number is told exactly, if the sum with a half is in range. -/
theorem value_halfUp (h : IsWithin 51 x) :
    IsWithin 53 (halfUp x) ∧ value (halfUp x) = ⌊nearest (value x + 1 / 2)⌋ := by
  have hhalf : IsWithin 51 0.5 := ⟨by decide, by rw [isTwoPow_half.value_eq]; norm_num⟩
  have hsum : IsWithin 52 (x + 0.5) := h.add hhalf
  have hvalue : value (x + 0.5) = nearest (value x + 1 / 2) := by
    rw [value_add h.isFinite hhalf.isFinite hsum.isFinite, isTwoPow_half.value_eq]
    norm_num
  have hfloor : |⌊value (x + 0.5)⌋| ≤ 2 ^ 53 := by
    obtain ⟨hlo, hhi⟩ := abs_le.1 hsum.abs_value_le
    refine abs_le.2 ⟨Int.le_floor.2 ?_, Int.floor_le_iff.2 ?_⟩ <;> push_cast <;> linarith
  have hwhole := value_floor hsum.isFinite hfloor
  refine ⟨⟨isFinite_floor hsum.isFinite hfloor, ?_⟩, by rw [halfUp, hwhole, hvalue]⟩
  rw [halfUp, hwhole]
  exact_mod_cast hfloor

/-- **A double of at most `2 ^ 50` is a quarter from its half unit at most.** -/
theorem abs_halfUnit_sub_le (h : y.abs ≤ 1125899906842624) :
    (halfUp (y * 2) / 2 - y).abs ≤ 0.25 := by
  have hlimit : IsTwoPow 50 1125899906842624 := ⟨52, Nat.two_pow_pos 52, rfl⟩
  have hquarter : IsTwoPow (-2) 0.25 := ⟨52, Nat.two_pow_pos 52, rfl⟩
  have hfinite : y.isFinite = true := isFinite_of_abs_le (by decide) h
  rw [le_iff_value ((isFinite_abs y).trans hfinite) (by decide), value_abs, hlimit.value_eq] at h
  have hy : IsWithin 50 y := ⟨hfinite, h⟩
  obtain ⟨hwhole, hvalue⟩ := value_halfUp (hy.mul isWithin_two)
  rw [value_mul_two hy] at hvalue
  have hunit : IsWithin 53 (halfUp (y * 2) / 2) :=
    hwhole.div isWithin_two.isFinite (by rw [isTwoPow_two.value_eq]; norm_num)
  have hunit' : value (halfUp (y * 2) / 2) = (⌊nearest (2 * value y + 1 / 2)⌋ : ℚ) / 2 := by
    have hbound : |⌊nearest (2 * value y + 1 / 2)⌋| ≤ 2 ^ 53 := by
      have hbound := hwhole.abs_value_le
      rw [hvalue] at hbound
      exact_mod_cast hbound
    rw [value_div hwhole.isFinite isWithin_two.isFinite
      (by rw [isTwoPow_two.value_eq]; norm_num) hunit.isFinite, hvalue, isTwoPow_two.value_eq,
      zpow_one, nearest_half hbound]
  have hdiff : IsWithin 54 (halfUp (y * 2) / 2 - y) := hunit.sub (hy.mono (by decide))
  obtain ⟨m, e, hm, he, heq⟩ := exists_value_eq hfinite
  have hle := abs_nearest_floor_sub_le hm he
  rw [← heq, ← hunit'] at hle
  rw [le_iff_value ((isFinite_abs _).trans hdiff.isFinite) (by decide), value_abs,
    value_sub hunit.isFinite hfinite hdiff.isFinite, hquarter.value_eq]
  refine (hle (by exact_mod_cast h)).trans ?_
  norm_num

end

end Binary64
end PageContent
