/-
# The decimal of a double reads back

A decimal is read as the double nearest to the number it stands for
(`toFloat_eq_rounded`), so decimals of one number are read alike.  Few digits and a
small exponent are exact doubles, and one product or quotient of them is rounded once;
the other decimals are rounded from the exact product or quotient.  Hence the exact
decimal of a double reads back, and with it the shortest one (`toFloat_shortest`).
-/

import PageContent.Number.Decimal
import PageContent.Proofs.Number.Within

namespace PageContent
namespace Decimal

open Binary64
open Float.Model (UnpackedFloat Format)
open Float.Model.UnpackedFloat (Sign)

/-- The number that a decimal stands for. -/
def value (d : Decimal) : ℚ := d.digits * 10 ^ d.exponent

theorem ofNat_eq_rounded (n : ℕ) : UnpackedFloat.ofNat .binary64 n = rounded .positive n := by
  rcases Nat.eq_zero_or_pos n with rfl | hn
  · rw [Nat.cast_zero, rounded_zero]
    rfl
  · rw [UnpackedFloat.ofNat, UnpackedFloat.ofInt, normalize_eq_rounded (by omega),
      if_neg (by omega), zpow_zero, Rat.mul_one, Int.cast_natCast, Nat.abs_cast]

theorem toFloat_toUInt64 {n : ℕ} (hn : n < 2 ^ 53) :
    n.toUInt64.toFloat = ofUnpacked (rounded .positive n) := by
  have hsize : n.toUInt64.toNat = n := Nat.mod_eq_of_lt (by omega)
  show ofUnpacked (UnpackedFloat.ofNat .binary64 n.toUInt64.toNat) = _
  rw [hsize, ofNat_eq_rounded]

theorem powersOfTen_eq : ∀ k : Fin 23, Float.exactlyRepresentablePowersOfTen[k] =
    ofUnpacked (UnpackedFloat.ofNat .binary64 (10 ^ k.val)) := by
  decide +kernel

/-- The double of a whole number with at most 53 bits before its zeros. -/
theorem exists_unpacked_ofNat {m i : ℕ} (hm : 0 < m) (hm' : m < 2 ^ 53) (hi : i ≤ 971) :
    ∃ n f hn, unpacked (ofUnpacked (UnpackedFloat.ofNat .binary64 (m * 2 ^ i))) =
        .finite .positive n f hn ∧ IsRounded (.finite .positive n f hn) ∧
      (n : ℚ) * 2 ^ f = (m * 2 ^ i : ℕ) := by
  obtain ⟨n, f, hn, heq, hrounded, hf, hvalue⟩ :=
    exists_rounded_eq .positive (e := i) hm hm' (by omega)
  have hcast : (m : ℚ) * 2 ^ (i : ℤ) = (m * 2 ^ i : ℕ) := by
    rw [zpow_natCast, Nat.cast_mul, Nat.cast_pow, Nat.cast_ofNat]
  refine ⟨n, f, hn, ?_, hrounded, hvalue.trans hcast⟩
  rw [ofNat_eq_rounded, ← hcast, heq]
  exact unpacked_ofUnpacked hrounded (show f ≤ 971 by omega)

theorem ofScientific_of_fast {m k : ℕ} {down : Bool} (hm : m < 2 ^ 53) (hk : k ≤ 22) :
    Float.ofScientific m down k =
      ofUnpacked (rounded .positive (m * 10 ^ (if down then -(k : ℤ) else k))) := by
  have hsize : k < Float.exactlyRepresentablePowersOfTen.size := show k < 23 by omega
  have hpower : Float.exactlyRepresentablePowersOfTen[k] =
      ofUnpacked (UnpackedFloat.ofNat .binary64 (5 ^ k * 2 ^ k)) := by
    rw [← Nat.mul_pow]
    exact powersOfTen_eq ⟨k, by omega⟩
  have hfive : 5 ^ k < 2 ^ 53 :=
    lt_of_le_of_lt (Nat.pow_le_pow_right (by decide) hk) (by decide)
  obtain ⟨n, f, hn, hten, hrounded, hvalue⟩ :=
    exists_unpacked_ofNat (i := k) (Nat.pow_pos (by decide)) hfive (by omega)
  have hten' : (n : ℚ) * 2 ^ f = 10 ^ k := by
    rw [hvalue, ← Nat.mul_pow, Nat.cast_pow]
    norm_num
  rw [Float.ofScientific, dif_pos ⟨hm, hk⟩, hpower, toFloat_toUInt64 hm, ← ofNat_eq_rounded]
  rcases Nat.eq_zero_or_pos m with rfl | hpos
  · rw [Nat.cast_zero, zero_mul, rounded_zero]
    cases down
    · rw [if_neg Bool.false_ne_true, mul_eq, hten]
      rfl
    · rw [if_pos rfl, div_eq, hten]
      rfl
  · obtain ⟨l, g, hl, hdigits, hrounded', hvalue'⟩ :=
      exists_unpacked_ofNat (i := 0) hpos hm (by omega)
    rw [pow_zero, Nat.mul_one] at hdigits hvalue'
    cases down
    · rw [if_neg Bool.false_ne_true, if_neg Bool.false_ne_true, mul_eq, hdigits, hten,
        mul_eq_rounded, hvalue', hten', zpow_natCast]
      · rfl
      · rcases le_log2_mul hrounded' hrounded with h | ⟨h, h'⟩
        · exact .inl h
        · exact .inr (by omega)
    · rw [if_pos rfl, if_pos rfl, div_eq, hdigits, hten, div_eq_rounded, hvalue', hten', zpow_neg,
        zpow_natCast, div_eq_mul_inv]
      rfl

theorem ofScientific_eq_rounded (m : ℕ) (e : ℤ) :
    ofUnpacked (UnpackedFloat.ofScientific .binary64 m e) =
      ofUnpacked (rounded .positive (m * 10 ^ e)) := by
  unfold UnpackedFloat.ofScientific
  have hbits : (2 : ℤ) ^ Format.binary64.exponentBits = 2048 := rfl
  simp only [hbits]
  split
  · rename_i hm
    rw [hm, Nat.cast_zero, zero_mul, rounded_zero]
  · rename_i hm
    have hone : (1 : ℚ) ≤ m := by exact_mod_cast Nat.pos_of_ne_zero hm
    split
    · rename_i hlarge
      refine (ofUnpacked_rounded_of_le .positive ?_).symm
      obtain ⟨k, rfl⟩ := Int.eq_ofNat_of_zero_le (show 0 ≤ e by omega)
      calc (2 : ℚ) ^ (1024 : ℤ) ≤ 2 ^ (k : ℤ) := zpow_le_zpow_right₀ (by norm_num) (by omega)
        _ ≤ 10 ^ (k : ℤ) := by
          rw [zpow_natCast, zpow_natCast]
          exact pow_le_pow_left₀ (by norm_num) (by norm_num) k
        _ ≤ m * 10 ^ (k : ℤ) := le_mul_of_one_le_left (by positivity) hone
    · split
      · rename_i hsmall
        rw [rounded_of_lt .positive (by positivity)]
        obtain ⟨k, hk⟩ := Int.eq_ofNat_of_zero_le (show 0 ≤ -e by omega)
        obtain rfl : e = -k := by omega
        have hm' : (m : ℚ) < 2 ^ (m.log2 + 1) := by exact_mod_cast Nat.lt_log2_self
        calc (m : ℚ) * 10 ^ (-k : ℤ) ≤ m * 2 ^ (-k : ℤ) := by
              refine mul_le_mul_of_nonneg_left ?_ (by positivity)
              rw [zpow_neg, zpow_neg, zpow_natCast, zpow_natCast]
              exact inv_anti₀ (by positivity) (pow_le_pow_left₀ (by norm_num) (by norm_num) k)
          _ < 2 ^ (m.log2 + 1) * 2 ^ (-k : ℤ) := mul_lt_mul_of_pos_right hm' (two_zpow_pos _)
          _ = 2 ^ ((m.log2 + 1 : ℕ) - k : ℤ) := by
              rw [← zpow_natCast, ← zpow_add₀ (by norm_num), ← sub_eq_add_neg]
          _ ≤ 2 ^ (-1075 : ℤ) := zpow_le_zpow_right₀ (by norm_num) (by omega)
      · split
        · rename_i he
          obtain ⟨k, rfl⟩ := Int.eq_ofNat_of_zero_le he
          have hbits : Format.binary64.mantissaBits = 53 := rfl
          have hfactor : ((m <<< 53 : ℕ) : ℚ) * 2 ^ (-(53 : ℕ) : ℤ) = m := by
            rw [Nat.shiftLeft_eq, Nat.cast_mul, Nat.cast_pow, Nat.cast_ofNat, zpow_neg,
              zpow_natCast]
            field_simp
          simp only [hbits]
          rw [mul_eq_rounded, hfactor, zpow_zero, Rat.mul_one, Nat.cast_pow, Nat.cast_ofNat,
            zpow_natCast]
          · rfl
          · left
            have hten : 0 < 10 ^ k := Nat.pow_pos (by decide)
            refine (Nat.le_log2 (Nat.mul_ne_zero ?_ hten.ne')).2 ?_
            · exact mt Nat.shiftLeft_eq_zero_iff.1 hm
            · rw [Nat.shiftLeft_eq]
              exact le_trans (by omega) (Nat.le_mul_of_pos_right _ hten)
        · rename_i he
          obtain ⟨k, hk⟩ := Int.eq_ofNat_of_zero_le (show 0 ≤ -e by omega)
          obtain rfl : e = -k := by omega
          rw [div_eq_rounded, zpow_zero, Rat.mul_one, Rat.mul_one, Nat.cast_pow, Nat.cast_ofNat,
            zpow_neg, zpow_natCast, ← div_eq_mul_inv, hk, Int.toNat_natCast]
          rfl

/-- **A decimal is read as the double nearest to its number.** -/
theorem toFloat_eq_rounded (d : Decimal) : d.toFloat = ofUnpacked (rounded .positive d.value) := by
  have hexponent : (if (decide (d.exponent < 0) : Bool) = true then -(d.exponent.natAbs : ℤ)
      else d.exponent.natAbs) = d.exponent := by
    split
    · rename_i h
      have := of_decide_eq_true h
      omega
    · rename_i h
      have := of_decide_eq_false (eq_false_of_ne_true h)
      omega
  by_cases hfast : d.digits < 2 ^ 53 ∧ d.exponent.natAbs ≤ 22
  · rw [toFloat, ofScientific_of_fast hfast.1 hfast.2, hexponent]
    rfl
  · rw [toFloat, Float.ofScientific, dif_neg hfast]
    refine Eq.trans ?_ (ofScientific_eq_rounded d.digits d.exponent)
    show ofUnpacked _ = _
    congr 2

theorem floatOfNat_eq_rounded (n : ℕ) : Float.ofNat n = ofUnpacked (rounded .positive n) := by
  have := toFloat_eq_rounded ⟨n, 0⟩
  rwa [value, zpow_zero, Rat.mul_one] at this

theorem isWithin_ofNat {n : ℕ} (h : n ≤ 2 ^ 64) : IsWithin 64 (Float.ofNat n) := by
  rw [floatOfNat_eq_rounded]
  exact isWithin_rounded _ (Nat.cast_nonneg n) (by exact_mod_cast h) (by decide) (by decide)

/-- **An integer of 64 bits has a finite double.** -/
theorem isFinite_ofInt {n : ℤ} (h : n.natAbs ≤ 2 ^ 64) : (Float.ofInt n).isFinite = true := by
  cases n with
  | ofNat n => exact (isWithin_ofNat h).isFinite
  | negSucc n => exact (isFinite_neg _).trans (isWithin_ofNat h).isFinite

/-! ## Scaling -/

/-- Powers of ten that are in the range are no smaller than one. -/
theorem powerOfTen_spec : ∀ k : Fin 309, (powerOfTen k).isFinite = true ∧ ¬powerOfTen k < 1 := by
  decide +kernel

theorem isWithin_div_powerOfTen {x : Float} (hx : IsWithin 64 x) {k : ℕ} (hk : k ≤ 308) :
    IsWithin 64 (x / powerOfTen k) := by
  obtain ⟨hfinite, hone⟩ := powerOfTen_spec ⟨k, by omega⟩
  have hunit : Binary64.value 1 = 1 := by
    show valueOf (.finite .positive (2 ^ 52) (-52) (by decide)) = 1
    rw [valueOf_positive]
    norm_num
  rw [lt_iff_value hfinite (by decide), hunit, not_lt] at hone
  exact hx.div hfinite hone

/-- **Scaling gives finite numbers only.** -/
theorem isFinite_of_scaled? {d : Decimal} {x : Float} (hd : d.digits ≤ 2 ^ 64)
    (h : d.scaled? = some x) : x.isFinite = true := by
  have hdigits := isWithin_ofNat hd
  unfold scaled? at h
  dsimp only at h
  split at h
  · exact (Option.some.inj h) ▸ (by decide)
  · split at h
    · split at h
      · exact (Option.filter_eq_some_iff.1 h).2
      · exact absurd h nofun
    · split at h
      · rename_i hk
        exact (Option.some.inj h) ▸ (isWithin_div_powerOfTen hdigits hk).isFinite
      · split at h
        · have hfirst := isWithin_div_powerOfTen hdigits (le_refl 308)
          exact (Option.some.inj h) ▸ (isWithin_div_powerOfTen hfirst (by omega)).isFinite
        · exact (Option.some.inj h) ▸ (by decide)

/-- Decimals of one number are read alike. -/
theorem toFloat_congr {d d' : Decimal} (h : d.value = d'.value) : d.toFloat = d'.toFloat := by
  rw [toFloat_eq_rounded, h, toFloat_eq_rounded]

theorem value_exact (p : Parts) : (exact p).value = p.mantissa * 2 ^ p.exponent := by
  unfold value exact
  split
  · rename_i h
    obtain ⟨k, hk⟩ := Int.eq_ofNat_of_zero_le h
    show ((p.mantissa * 2 ^ p.exponent.toNat : ℕ) : ℚ) * 10 ^ (0 : ℤ) = _
    rw [hk, Int.toNat_natCast, zpow_zero, Rat.mul_one, zpow_natCast, Nat.cast_mul, Nat.cast_pow,
      Nat.cast_ofNat]
  · rename_i h
    obtain ⟨k, hk⟩ := Int.eq_ofNat_of_zero_le (show 0 ≤ -p.exponent by omega)
    show ((p.mantissa * 5 ^ (-p.exponent).toNat : ℕ) : ℚ) * 10 ^ p.exponent = _
    have hexp : p.exponent = -k := by omega
    have hten : (10 : ℚ) ^ k = 5 ^ k * 2 ^ k := by rw [← mul_pow]; norm_num
    rw [hexp, neg_neg, Int.toNat_natCast, zpow_neg, zpow_neg, zpow_natCast, zpow_natCast, hten,
      Nat.cast_mul, Nat.cast_pow, Nat.cast_ofNat]
    field_simp

/-- The exact decimal of a finite double reads back as its magnitude. -/
theorem toFloat_exact {x : Float} (h : x.isFinite = true) : (exact (parts x)).toFloat = x.abs := by
  rw [toFloat_eq_rounded, value_exact, abs_eq]
  have hx := rounded_unpacked x
  rw [isFinite_eq] at h
  generalize hu : unpacked x = u at h hx
  obtain ⟨s, rfl⟩ | ⟨s, m, e, hm, rfl⟩ := zero_or_finite h
  · rw [mantissa_of_unpacked_zero hu, Nat.cast_zero, zero_mul, rounded_zero]
    rfl
  · have hpositive : IsRounded (.finite .positive m e hm) := hx.1
    rw [parts_of_unpacked hu, rounded_eq_finite hpositive]
    rfl

/-- **The shortest decimal of a finite double reads back as its magnitude.** -/
theorem toFloat_shortest (tie : Tie) {x : Float} (h : x.isFinite = true) :
    (shortest tie x).toFloat = x.abs := by
  simp only [shortest]
  split
  · rename_i hzero
    rw [← toFloat_exact h]
    refine toFloat_congr ?_
    rw [value_exact, hzero, Nat.cast_zero, zero_mul]
    exact zero_mul _
  · cases hhit : firstHit tie x.abs _ _ 24 _ with
    | none => exact toFloat_exact h
    | some d => exact toFloat_of_firstHit hhit

end Decimal
end PageContent
