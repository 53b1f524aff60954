/-
# Operations on what doubles stand for

`nearest q` is the number of the reading nearest to `q`, of either sign.  A result that is finite
stands for the nearest number to the exact one:

| operation | stands for |
| --- | --- |
| `x + y`, `x - y`, `x * y`, `x / y` | the number nearest to sum, difference, product, quotient |
| `-x`, `|x|` | the negated number, its magnitude |
| the double of an integer | the integer, up to `2 ^ 53` in magnitude |
| `⌊x⌋` | the greatest integer not above |

Numbers of 53 bits are rounded to themselves (`nearest_dyadic`) and rounding keeps the order
(`nearest_mono`), so what lies between two such numbers is rounded to something between them.
-/

import PageContent.Proofs.Number.Decimals
import PageContent.Proofs.Number.Ordered

namespace PageContent
namespace Binary64

open Float.Model (UnpackedFloat)
open Float.Model.UnpackedFloat (Sign)

/-! ## The nearest number -/

/-- The number of the reading nearest to a number. -/
def nearest (q : ℚ) : ℚ := if q < 0 then -magnitude (-q) else magnitude q

theorem magnitude_zero : magnitude 0 = 0 := by
  rw [magnitude, zero_div, nearestEven_of_lt_half le_rfl (by norm_num), Nat.cast_zero, zero_mul]

theorem nearest_of_nonneg {q : ℚ} (h : 0 ≤ q) : nearest q = magnitude q := if_neg (not_lt.2 h)

theorem nearest_of_nonpos {q : ℚ} (h : q ≤ 0) : nearest q = -magnitude (-q) := by
  rcases h.eq_or_lt with rfl | hneg
  · rw [nearest_of_nonneg le_rfl, neg_zero, magnitude_zero, neg_zero]
  · exact if_pos hneg

theorem nearest_neg (q : ℚ) : nearest (-q) = -nearest q := by
  rcases le_total 0 q with h | h
  · rw [nearest_of_nonneg h, nearest_of_nonpos (neg_nonpos.2 h), neg_neg]
  · rw [nearest_of_nonpos h, nearest_of_nonneg (neg_nonneg.2 h), neg_neg]

/-- **Rounding keeps the order**, across zero too. -/
theorem nearest_mono {p q : ℚ} (h : p ≤ q) : nearest p ≤ nearest q := by
  rcases le_total 0 p with hp | hp
  · rw [nearest_of_nonneg hp, nearest_of_nonneg (hp.trans h)]
    exact magnitude_mono hp h
  · rw [nearest_of_nonpos hp]
    rcases le_total 0 q with hq | hq
    · rw [nearest_of_nonneg hq]
      exact (neg_nonpos.2 (magnitude_nonneg _)).trans (magnitude_nonneg q)
    · rw [nearest_of_nonpos hq]
      exact neg_le_neg (magnitude_mono (neg_nonneg.2 hq) (neg_le_neg h))

theorem magnitude_dyadic {m : ℕ} {e : ℤ} (hm : m ≤ 2 ^ 53) (he : -1074 ≤ e) :
    magnitude (m * 2 ^ e) = m * 2 ^ e := by
  have hbits : ∀ {m : ℕ} {e : ℤ}, 0 < m → m < 2 ^ 53 → -1074 ≤ e →
      magnitude (m * 2 ^ e) = m * 2 ^ e := by
    intro m e hm hm' he
    obtain ⟨n, f, hn, heq, -, -, hvalue⟩ := exists_rounded_eq .positive hm hm' he
    rw [← valueOf_rounded, heq]
    exact hvalue
  rcases hm.eq_or_lt with rfl | hlt
  · -- the next power of two is written with one bit less and the next exponent
    have hcarry : ((2 ^ 53 : ℕ) : ℚ) * 2 ^ e = (2 ^ 52 : ℕ) * 2 ^ (e + 1) := by
      rw [zpow_add_one₀ (by norm_num)]
      push_cast
      ring
    rw [hcarry]
    exact hbits (by norm_num) (by norm_num) (by omega)
  · rcases Nat.eq_zero_or_pos m with rfl | hpos
    · rw [Nat.cast_zero, zero_mul, magnitude_zero]
    · exact hbits hpos hlt he

/-- **Numbers of 53 bits are rounded to themselves.** -/
theorem nearest_dyadic {m e : ℤ} (hm : |m| ≤ 2 ^ 53) (he : -1074 ≤ e) :
    nearest (m * 2 ^ e) = m * 2 ^ e := by
  have hnat : ∀ n : ℕ, n ≤ 2 ^ 53 → nearest ((n : ℤ) * 2 ^ e) = (n : ℤ) * 2 ^ e := by
    intro n hn
    rw [Int.cast_natCast, nearest_of_nonneg (mul_nonneg (Nat.cast_nonneg n) (two_zpow_pos e).le),
      magnitude_dyadic hn he]
  obtain ⟨n, rfl | rfl⟩ := Int.eq_nat_or_neg m
  · rw [Nat.abs_cast] at hm
    exact hnat n (by exact_mod_cast hm)
  · rw [abs_neg, Nat.abs_cast] at hm
    rw [Int.cast_neg, neg_mul, nearest_neg, hnat n (by exact_mod_cast hm)]

theorem nearest_intCast {n : ℤ} (h : |n| ≤ 2 ^ 53) : nearest n = n := by
  have := nearest_dyadic (e := 0) h (by decide)
  rwa [zpow_zero, Rat.mul_one] at this

/-- A finite double stands for a number of less than 53 bits. -/
theorem exists_value_eq {x : Float} (h : x.isFinite = true) :
    ∃ m e : ℤ, |m| < 2 ^ 53 ∧ -1074 ≤ e ∧ value x = m * 2 ^ e := by
  have hx := (rounded_unpacked x).1
  obtain ⟨s, hu⟩ | ⟨s, m, e, hm, hu⟩ := zero_or_finite (u := unpacked x) h
  · exact ⟨0, 0, by decide, by decide, by rw [value, hu, Int.cast_zero, zero_mul]; rfl⟩
  · rw [hu] at hx
    obtain ⟨he, hm', -⟩ := hx
    refine ⟨s.apply m, e, ?_, he, by rw [value, hu]; rfl⟩
    cases s with
    | positive => exact (Nat.abs_cast m).trans_lt (by exact_mod_cast hm')
    | negative => exact ((abs_neg _).trans (Nat.abs_cast m)).trans_lt (by exact_mod_cast hm')

/-! ## Results before they are packed -/

/-- A magnitude under a sign. -/
def signed : Sign → ℚ → ℚ
  | .positive, q => q
  | .negative, q => -q

theorem signed_mul (s t : Sign) (p q : ℚ) :
    signed (s * t) (p * q) = signed s p * signed t q := by
  cases s <;> cases t
  · exact (neg_mul_neg p q).symm
  · exact (neg_mul p q).symm
  · exact (mul_neg p q).symm
  · rfl

theorem signed_div (s t : Sign) (p q : ℚ) :
    signed (s / t) (p / q) = signed s p / signed t q := by
  cases s <;> cases t
  · exact (neg_div_neg_eq p q).symm
  · exact (neg_div q p).symm
  · exact (div_neg p).symm
  · rfl

theorem signed_sign (q : ℚ) : signed (if q < 0 then .negative else .positive) |q| = q := by
  split
  · rename_i h
    rw [signed, abs_of_neg h, neg_neg]
  · rename_i h
    exact abs_of_nonneg (not_lt.1 h)

theorem valueOf_finite (s : Sign) (m : ℕ) (e : ℤ) (hm : 0 < m) :
    valueOf (.finite s m e hm) = signed s (m * 2 ^ e) := by
  cases s with
  | negative => exact valueOf_negative
  | positive => exact valueOf_positive

theorem valueOf_neg (u : UnpackedFloat) : valueOf u.neg = -valueOf u := by
  cases u with
  | finite s m e hm => cases s <;> simp [UnpackedFloat.neg, valueOf, Sign.apply]
  | _ => rfl

/-- A magnitude is rounded as its sign has it. -/
theorem valueOf_rounded_signed (s : Sign) {q : ℚ} (hq : 0 ≤ q) :
    valueOf (rounded s q) = nearest (signed s q) := by
  cases s with
  | positive => rw [valueOf_rounded, signed, nearest_of_nonneg hq]
  | negative =>
    have hneg : rounded .negative q = (rounded .positive q).neg := by
      unfold rounded carried
      split
      · rfl
      · split <;> rfl
    rw [hneg, valueOf_neg, valueOf_rounded, signed, nearest_neg, nearest_of_nonneg hq]

theorem nearest_zero : nearest 0 = 0 := (nearest_of_nonneg le_rfl).trans magnitude_zero

section Readings

variable {u v : UnpackedFloat}

theorem nearest_valueOf (hu : IsRounded u) (hu' : u.isFinite = true) :
    nearest (valueOf u) = valueOf u := by
  obtain ⟨s, rfl⟩ | ⟨s, m, e, hm, rfl⟩ := zero_or_finite hu'
  · exact nearest_zero
  · rw [valueOf_finite, ← valueOf_rounded_signed s (magnitude_pos hm e).le, rounded_eq_finite hu,
      valueOf_finite]

theorem valueOf_normalize (m e : ℤ) (t : Sign) :
    valueOf (UnpackedFloat.normalize .binary64 m e t) = nearest (m * 2 ^ e) := by
  rcases eq_or_ne m 0 with rfl | hm
  · rw [normalize_eq, if_pos rfl, Int.cast_zero, zero_mul, nearest_zero]
    rfl
  · have hsign : m < 0 ↔ (m : ℚ) * 2 ^ e < 0 := by
      rw [← Int.cast_lt_zero (R := ℚ)]
      exact (mul_neg_iff.trans (by simp [(two_zpow_pos e).le, two_zpow_pos e])).symm
    rw [normalize_eq_rounded hm, valueOf_rounded_signed _ (abs_nonneg _)]
    simp only [hsign, signed_sign]

theorem valueOf_add (hu : IsRounded u) (hv : IsRounded v) (hu' : u.isFinite = true)
    (hv' : v.isFinite = true) :
    valueOf (UnpackedFloat.add .binary64 u v) = nearest (valueOf u + valueOf v) := by
  obtain ⟨s, rfl⟩ | ⟨s, m, e, hm, rfl⟩ := zero_or_finite hu'
  · rw [show valueOf (.zero s) = 0 from rfl, zero_add, nearest_valueOf hv hv']
    obtain ⟨t, rfl⟩ | ⟨t, n, f, hn, rfl⟩ := zero_or_finite hv'
    · cases s <;> cases t <;> rfl
    · rfl
  · obtain ⟨t, rfl⟩ | ⟨t, n, f, hn, rfl⟩ := zero_or_finite hv'
    · rw [show valueOf (.zero t) = 0 from rfl, add_zero, nearest_valueOf hu hu']
      rfl
    · have h := apply_decreaseExponent s m (min_le_left e f)
      have h' := apply_decreaseExponent t n (min_le_right e f)
      rw [valueOf, valueOf, ← h, ← h', ← add_mul, ← Int.cast_add]
      exact valueOf_normalize _ _ .positive

theorem valueOf_sub (hu : IsRounded u) (hv : IsRounded v) (hu' : u.isFinite = true)
    (hv' : v.isFinite = true) :
    valueOf (UnpackedFloat.sub .binary64 u v) = nearest (valueOf u - valueOf v) := by
  have hneg : IsRounded v.neg ∧ v.neg.isFinite = true := by
    cases v with
    | finite s m e hm => exact ⟨hv, rfl⟩
    | _ => exact ⟨trivial, hv'⟩
  rw [sub_eq_add_opposite, valueOf_add hu hneg.1 hu' hneg.2, valueOf_neg, sub_eq_add_neg]

theorem valueOf_mul (hu : IsRounded u) (hv : IsRounded v) (hu' : u.isFinite = true)
    (hv' : v.isFinite = true) :
    valueOf (UnpackedFloat.mul .binary64 u v) = nearest (valueOf u * valueOf v) := by
  obtain ⟨s, rfl⟩ | ⟨s, m, e, hm, rfl⟩ := zero_or_finite hu'
  · rw [show valueOf (.zero s) = 0 from rfl, zero_mul, nearest_zero]
    obtain ⟨t, rfl⟩ | ⟨t, n, f, hn, rfl⟩ := zero_or_finite hv' <;> rfl
  · obtain ⟨t, rfl⟩ | ⟨t, n, f, hn, rfl⟩ := zero_or_finite hv'
    · rw [show valueOf (.zero t) = 0 from rfl, mul_zero, nearest_zero]
      rfl
    · have hbits : 52 ≤ (m * n).log2 ∨ e + f ≤ -1074 := by
        rcases le_log2_mul hu hv with h | ⟨h, h'⟩
        · exact .inl h
        · exact .inr (by omega)
      rw [mul_eq_rounded hbits, valueOf_finite, valueOf_finite, ← signed_mul,
        valueOf_rounded_signed _ (mul_pos (magnitude_pos hm e) (magnitude_pos hn f)).le]

theorem valueOf_div (hu' : u.isFinite = true) (hv' : v.isFinite = true) (hv : valueOf v ≠ 0) :
    valueOf (UnpackedFloat.div .binary64 u v) = nearest (valueOf u / valueOf v) := by
  obtain ⟨t, rfl⟩ | ⟨t, n, f, hn, rfl⟩ := zero_or_finite hv'
  · exact absurd rfl hv
  · obtain ⟨s, rfl⟩ | ⟨s, m, e, hm, rfl⟩ := zero_or_finite hu'
    · rw [show valueOf (.zero s) = 0 from rfl, zero_div, nearest_zero]
      rfl
    · rw [div_eq_rounded, valueOf_finite, valueOf_finite, ← signed_div,
        valueOf_rounded_signed _ (div_pos (magnitude_pos hm e) (magnitude_pos hn f)).le]

end Readings

/-! ## Results in range -/

section Results

variable {x y : Float}

/-- A result that packing leaves finite is packed as it is. -/
theorem value_ofUnpacked {u : UnpackedFloat} (hu : IsRounded u)
    (h : (ofUnpacked u).isFinite = true) : value (ofUnpacked u) = valueOf u := by
  rw [value, unpacked_ofUnpacked hu (inRange_of_isFinite h)]

theorem value_add (hx : x.isFinite = true) (hy : y.isFinite = true)
    (h : (x + y).isFinite = true) : value (x + y) = nearest (value x + value y) := by
  have hu := (rounded_unpacked x).1
  have hv := (rounded_unpacked y).1
  rw [add_eq] at h ⊢
  exact (value_ofUnpacked (isRounded_add hu hv) h).trans (valueOf_add hu hv hx hy)

theorem value_sub (hx : x.isFinite = true) (hy : y.isFinite = true)
    (h : (x - y).isFinite = true) : value (x - y) = nearest (value x - value y) := by
  have hu := (rounded_unpacked x).1
  have hv := (rounded_unpacked y).1
  rw [sub_eq] at h ⊢
  exact (value_ofUnpacked (isRounded_sub hu hv) h).trans (valueOf_sub hu hv hx hy)

theorem value_mul (hx : x.isFinite = true) (hy : y.isFinite = true)
    (h : (x * y).isFinite = true) : value (x * y) = nearest (value x * value y) := by
  have hu := (rounded_unpacked x).1
  have hv := (rounded_unpacked y).1
  rw [mul_eq] at h ⊢
  exact (value_ofUnpacked (isRounded_mul hu hv) h).trans (valueOf_mul hu hv hx hy)

theorem value_div (hx : x.isFinite = true) (hy : y.isFinite = true) (hne : value y ≠ 0)
    (h : (x / y).isFinite = true) : value (x / y) = nearest (value x / value y) := by
  obtain ⟨s, hs⟩ := exists_div_eq_rounded (u := unpacked x) (v := unpacked y) hx hy hne
  have hrounded := isRounded_rounded s (abs_nonneg (valueOf (unpacked x) / valueOf (unpacked y)))
  rw [div_eq] at h ⊢
  rw [← hs] at hrounded
  exact (value_ofUnpacked hrounded h).trans (valueOf_div hx hy hne)

theorem value_neg (x : Float) : value (-x) = -value x := by
  rw [value, unpacked_neg, valueOf_neg, value]

theorem value_abs (x : Float) : value x.abs = |value x| := by
  rw [value, unpacked_abs, value]
  cases unpacked x with
  | finite s m e hm =>
    rw [abs_valueOf_finite]
    exact valueOf_positive
  | _ => exact abs_zero.symm

theorem isFinite_abs (x : Float) : x.abs.isFinite = x.isFinite := by
  rw [isFinite_eq, unpacked_abs, isFinite_eq]
  cases unpacked x <;> rfl

/-! ## Whole numbers -/

theorem value_ofNat {n : ℕ} (h : n ≤ 2 ^ 53) : value (Float.ofNat n) = n := by
  have hfinite := (Decimal.isWithin_ofNat (n := n) (h.trans (by norm_num))).isFinite
  rw [Decimal.floatOfNat_eq_rounded] at hfinite ⊢
  have hmagnitude := magnitude_dyadic (e := 0) h (by decide)
  rw [zpow_zero, Rat.mul_one] at hmagnitude
  rw [value_ofUnpacked (isRounded_rounded _ (Nat.cast_nonneg n)) hfinite, valueOf_rounded,
    hmagnitude]

theorem value_ofInt {n : ℤ} (h : |n| ≤ 2 ^ 53) : value (Float.ofInt n) = n := by
  cases n with
  | ofNat n => exact value_ofNat (by exact_mod_cast (Nat.abs_cast n).symm.trans_le h)
  | negSucc n =>
    rw [Int.negSucc_eq, abs_neg] at h
    have hnat : n + 1 ≤ 2 ^ 53 := by exact_mod_cast (le_abs_self _).trans h
    refine (value_neg _).trans ?_
    rw [value_ofNat hnat, Int.cast_negSucc]

theorem floorInt_eq (h : x.isFinite = true) : floorInt x = ⌊value x⌋ := by
  obtain ⟨s, hu⟩ | ⟨s, m, e, hm, hu⟩ := zero_or_finite (u := unpacked x) h
  · have hvalue : value x = 0 := by
      rw [value, hu]
      rfl
    unfold floorInt
    rw [hvalue, Int.floor_zero]
    simp [mantissa_of_unpacked_zero hu]
  · have hvalue : value x = (s.apply m : ℤ) * 2 ^ e := by
      rw [value, hu]
      rfl
    have hsigned : (if isNegative s then -(m : ℤ) else m) = s.apply m := by
      cases s <;> rfl
    unfold floorInt
    rw [parts_of_unpacked hu, hvalue]
    simp only [hsigned]
    split
    · rename_i he
      obtain ⟨k, rfl⟩ := Int.eq_ofNat_of_zero_le he
      rw [zpow_natCast, Int.toNat_natCast]
      exact_mod_cast (Int.floor_intCast (R := ℚ) (s.apply m * 2 ^ k)).symm
    · rename_i he
      obtain ⟨k, rfl⟩ : ∃ k : ℕ, e = -k := ⟨(-e).toNat, by omega⟩
      rw [neg_neg, Int.toNat_natCast, zpow_neg, zpow_natCast, ← div_eq_mul_inv]
      exact_mod_cast (Rat.floor_intCast_div_natCast (s.apply m) (2 ^ k)).symm

theorem isFinite_floor (h : x.isFinite = true) (hfloor : |⌊value x⌋| ≤ 2 ^ 53) :
    (floor x).isFinite = true := by
  rw [floor, if_pos h, floorInt_eq h]
  exact Decimal.isFinite_ofInt (by rw [Int.abs_eq_natAbs] at hfloor; omega)

theorem value_floor (h : x.isFinite = true) (hfloor : |⌊value x⌋| ≤ 2 ^ 53) :
    value (floor x) = ⌊value x⌋ := by
  rw [floor, if_pos h, floorInt_eq h, value_ofInt hfloor]

end Results

end Binary64
end PageContent
