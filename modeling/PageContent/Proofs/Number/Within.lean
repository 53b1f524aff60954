/-
# Doubles within a power of two

An operation on doubles gives the nearest double to its exact result, and that is
finite as long as the exact result stays below the end of the range.  How far an
expression may reach is counted in powers of two: they are doubles themselves, so
rounding carries no number past one (`isWithin_rounded`).

| expression | is within | if `x` and `y` are within |
| --- | --- | --- |
| `x * y` | `2 ^ (j + k)` | `2 ^ j` and `2 ^ k` |
| `x + y`, `x - y` | `2 ^ (k + 1)` | `2 ^ k` |
| `x / y` | `2 ^ k` | `2 ^ k`, and `1 ≤ y` |
| `√x` | `2 ^ (k + 1)` | `2 ^ (2 k)`, and `√x` is finite |

No bound may be beyond `2 ^ 1022`.
-/

import PageContent.Proofs.Number.Nearest

namespace PageContent
namespace Binary64

open Float.Model (UnpackedFloat)
open Float.Model.UnpackedFloat (Sign sqrtCore roundWithAccuracy)

/-- The double is finite, and its number is at most `2 ^ k` in magnitude. -/
structure IsWithin (k : ℤ) (x : Float) : Prop where
  isFinite : x.isFinite = true
  abs_value_le : |value x| ≤ 2 ^ k

variable {x y : Float} {j k : ℤ}

theorem IsWithin.mono (h : IsWithin j x) (hle : j ≤ k) : IsWithin k x :=
  ⟨h.isFinite, h.abs_value_le.trans (zpow_le_zpow_right₀ (by norm_num) hle)⟩

/-! ## Rounding -/

theorem nearestEven_le {q : ℚ} {n : ℕ} (hq : 0 ≤ q) (h : q ≤ n) : nearestEven q ≤ n := by
  rcases h.eq_or_lt with rfl | hlt
  · exact (nearestEven_natCast n).le
  · have hfloor : ⌊q⌋₊ < n := (Nat.floor_lt hq).2 hlt
    unfold nearestEven
    split <;> omega

theorem log_le_place (q : ℚ) : Int.log 2 q ≤ place q + 52 := by
  unfold place
  omega

/-- The nearest mantissa has at most 53 bits, or is the next power of two. -/
theorem nearestEven_place_le {q : ℚ} (hq : 0 < q) : nearestEven (q / 2 ^ place q) ≤ 2 ^ 53 := by
  refine nearestEven_le (div_nonneg hq.le (two_zpow_pos _).le) ?_
  have hlog : Int.log 2 q < place q + 53 := by
    have := log_le_place q
    omega
  have hlt : q < 2 ^ (place q + 53) := (Int.lt_zpow_iff_log_lt (by norm_num) hq).2 hlog
  rw [div_le_iff₀ (two_zpow_pos _), Nat.cast_pow, Nat.cast_ofNat, ← zpow_natCast, mul_comm,
    ← zpow_add₀ (by norm_num)]
  exact hlt.le

/-- It has no fewer beyond the least exponent. -/
theorem le_nearestEven_place {q : ℚ} (hq : 0 < q) (h : place q = Int.log 2 q - 52) :
    2 ^ 52 ≤ nearestEven (q / 2 ^ place q) := by
  refine le_trans (Nat.le_floor ?_) (floor_le_nearestEven _)
  rw [le_div_iff₀ (two_zpow_pos _), Nat.cast_pow, Nat.cast_ofNat, ← zpow_natCast,
    ← zpow_add₀ (by norm_num), h]
  refine le_trans (zpow_le_zpow_right₀ (by norm_num) (le_of_eq ?_))
    (Int.zpow_log_le_self (b := 2) (by norm_num) hq)
  exact add_sub_cancel _ _

theorem isRounded_rounded (s : Sign) {q : ℚ} (hq : 0 ≤ q) : IsRounded (rounded s q) := by
  rcases hq.eq_or_lt with rfl | hpos
  · rw [rounded_zero]
    trivial
  refine isRounded_carried (nearestEven_place_le hpos) (le_max_right _ _) ?_
  rcases le_total (Int.log 2 q - 52) (-1074) with hlow | hhigh
  · exact .inl (max_eq_right hlow)
  · exact .inr (le_nearestEven_place hpos (max_eq_left hhigh))

theorem abs_valueOf_finite (s : Sign) (m : ℕ) (e : ℤ) (hm : 0 < m) :
    |valueOf (.finite s m e hm)| = m * 2 ^ e := by
  rw [valueOf, abs_mul, abs_of_pos (two_zpow_pos e)]
  cases s <;> simp [Sign.apply]

theorem abs_valueOf_carried (s : Sign) (r : ℕ) (e : ℤ) :
    |valueOf (carried s r e)| = r * 2 ^ e := by
  unfold carried
  split
  · rename_i h
    rw [h, Nat.cast_zero, zero_mul]
    exact abs_zero
  · split
    · rename_i h
      rw [abs_valueOf_finite, h, zpow_add_one₀ (by norm_num)]
      push_cast
      ring
    · exact abs_valueOf_finite s r e _

theorem isWithin_carried {s : Sign} {r : ℕ} {e : ℤ} (h : IsRounded (carried s r e))
    (he : e ≤ 970) (hle : (r : ℚ) * 2 ^ e ≤ 2 ^ k) : IsWithin k (ofUnpacked (carried s r e)) := by
  have hrange : InRange (carried s r e) := by
    unfold carried
    split
    · trivial
    · split
      · exact show e + 1 ≤ 971 by omega
      · exact show e ≤ 971 by omega
  have hunpacked := unpacked_ofUnpacked h hrange
  constructor
  · rw [isFinite_eq, hunpacked, carried]
    split
    · rfl
    · split <;> rfl
  · rwa [value, hunpacked, abs_valueOf_carried]

theorem isWithin_zero (s : Sign) : IsWithin k (ofUnpacked (.zero s)) := by
  have hzero := isWithin_carried (s := s) (r := 0) (e := 0) (k := k) trivial (by decide)
  rw [Nat.cast_zero, zero_mul] at hzero
  exact hzero (two_zpow_pos k).le

/-- **Rounding carries no number past a power of two.** -/
theorem isWithin_rounded (s : Sign) {q : ℚ} (hq : 0 ≤ q) (h : q ≤ 2 ^ k) (hlo : -1074 ≤ k)
    (hhi : k ≤ 1022) : IsWithin k (ofUnpacked (rounded s q)) := by
  rcases hq.eq_or_lt with rfl | hpos
  · rw [rounded_zero]
    exact isWithin_zero s
  have hpow : (2 : ℚ) ^ Int.log 2 q ≤ 2 ^ k := (Int.zpow_log_le_self (by norm_num) hpos).trans h
  have hlog : Int.log 2 q ≤ k := (zpow_le_zpow_iff_right₀ (by norm_num)).1 hpow
  have hplace : place q ≤ k ∧ place q ≤ 970 := by
    unfold place
    omega
  obtain ⟨i, hi⟩ : ∃ i : ℕ, k = i + place q := ⟨(k - place q).toNat, by omega⟩
  have hle : nearestEven (q / 2 ^ place q) ≤ 2 ^ i := by
    refine nearestEven_le (div_nonneg hq (two_zpow_pos _).le) ?_
    rwa [div_le_iff₀ (two_zpow_pos _), Nat.cast_pow, Nat.cast_ofNat, ← zpow_natCast,
      ← zpow_add₀ (by norm_num), ← hi]
  refine isWithin_carried (isRounded_rounded s hq) hplace.2 ?_
  rw [hi, zpow_add₀ (by norm_num), zpow_natCast]
  refine mul_le_mul_of_nonneg_right ?_ (two_zpow_pos _).le
  exact_mod_cast hle

/-! ## Operations -/

theorem exists_mul_eq_rounded {u v : UnpackedFloat} (hu : IsRounded u) (hv : IsRounded v)
    (hu' : u.isFinite = true) (hv' : v.isFinite = true) :
    ∃ s, UnpackedFloat.mul .binary64 u v = rounded s |valueOf u * valueOf v| := by
  obtain ⟨s, rfl⟩ | ⟨s, m, e, hm, rfl⟩ := zero_or_finite hu'
  · obtain ⟨t, rfl⟩ | ⟨t, n, f, hn, rfl⟩ := zero_or_finite hv'
    · exact ⟨s * t, by simp [valueOf, rounded_zero, UnpackedFloat.mul]⟩
    · exact ⟨s * t, by simp [valueOf, rounded_zero, UnpackedFloat.mul]⟩
  · obtain ⟨t, rfl⟩ | ⟨t, n, f, hn, rfl⟩ := zero_or_finite hv'
    · exact ⟨s * t, by simp [valueOf, rounded_zero, UnpackedFloat.mul]⟩
    · refine ⟨s * t, (mul_eq_rounded ?_).trans ?_⟩
      · rcases le_log2_mul hu hv with h | ⟨h, h'⟩
        · exact .inl h
        · exact .inr (by omega)
      · rw [abs_mul, abs_valueOf_finite, abs_valueOf_finite]

/-- A difference is the sum with the negated number. -/
theorem sub_eq_add_opposite (u v : UnpackedFloat) :
    UnpackedFloat.sub .binary64 u v = .add .binary64 u v.neg := by
  cases u with
  | finite s m e hm =>
    cases v with
    | finite t n f hn =>
      cases t <;> simp [UnpackedFloat.sub, UnpackedFloat.add, UnpackedFloat.neg, Sign.apply,
        Int.sub_eq_add_neg]
    | _ => rfl
  | _ => cases v <;> rfl

theorem exists_normalize_eq_rounded (m e : ℤ) (t : Sign) :
    ∃ s, UnpackedFloat.normalize .binary64 m e t = rounded s |(m : ℚ) * 2 ^ e| := by
  rcases eq_or_ne m 0 with rfl | hm
  · refine ⟨t, ?_⟩
    rw [normalize_eq, if_pos rfl, Int.cast_zero, zero_mul, abs_zero, rounded_zero]
  · exact ⟨_, normalize_eq_rounded hm⟩

theorem exists_add_eq_rounded {u v : UnpackedFloat} (hu : IsRounded u) (hv : IsRounded v)
    (hu' : u.isFinite = true) (hv' : v.isFinite = true) :
    ∃ s, UnpackedFloat.add .binary64 u v = rounded s |valueOf u + valueOf v| := by
  obtain ⟨s, rfl⟩ | ⟨s, m, e, hm, rfl⟩ := zero_or_finite hu'
  · obtain ⟨t, rfl⟩ | ⟨t, n, f, hn, rfl⟩ := zero_or_finite hv'
    · rw [show valueOf (.zero s) = 0 from rfl, show valueOf (.zero t) = 0 from rfl, add_zero,
        abs_zero]
      simp only [rounded_zero]
      cases s <;> cases t <;> exact ⟨_, rfl⟩
    · refine ⟨t, ?_⟩
      rw [show valueOf (.zero s) = 0 from rfl, zero_add, abs_valueOf_finite, rounded_eq_finite hv]
      rfl
  · obtain ⟨t, rfl⟩ | ⟨t, n, f, hn, rfl⟩ := zero_or_finite hv'
    · refine ⟨s, ?_⟩
      rw [show valueOf (.zero t) = 0 from rfl, add_zero, abs_valueOf_finite, rounded_eq_finite hu]
      rfl
    · have h := apply_decreaseExponent s m (min_le_left e f)
      have h' := apply_decreaseExponent t n (min_le_right e f)
      rw [valueOf, valueOf, ← h, ← h', ← add_mul, ← Int.cast_add]
      exact exists_normalize_eq_rounded _ _ .positive

theorem exists_div_eq_rounded {u v : UnpackedFloat} (hu' : u.isFinite = true)
    (hv' : v.isFinite = true) (hv : valueOf v ≠ 0) :
    ∃ s, UnpackedFloat.div .binary64 u v = rounded s |valueOf u / valueOf v| := by
  obtain ⟨t, rfl⟩ | ⟨t, n, f, hn, rfl⟩ := zero_or_finite hv'
  · exact absurd rfl hv
  · obtain ⟨s, rfl⟩ | ⟨s, m, e, hm, rfl⟩ := zero_or_finite hu'
    · exact ⟨s / t, by simp [valueOf, rounded_zero, UnpackedFloat.div]⟩
    · refine ⟨s / t, div_eq_rounded.trans ?_⟩
      rw [abs_div, abs_valueOf_finite, abs_valueOf_finite]

namespace IsWithin

theorem mul (hx : IsWithin j x) (hy : IsWithin k y) (hlo : -1074 ≤ j + k := by decide)
    (hhi : j + k ≤ 1022 := by decide) : IsWithin (j + k) (x * y) := by
  obtain ⟨s, hs⟩ := exists_mul_eq_rounded (rounded_unpacked x).1 (rounded_unpacked y).1
    hx.isFinite hy.isFinite
  rw [mul_eq, hs]
  refine isWithin_rounded s (abs_nonneg _) ?_ hlo hhi
  rw [abs_mul, zpow_add₀ (by norm_num)]
  exact mul_le_mul hx.abs_value_le hy.abs_value_le (abs_nonneg _) (two_zpow_pos j).le

theorem add (hx : IsWithin k x) (hy : IsWithin k y) (hlo : -1074 ≤ k + 1 := by decide)
    (hhi : k + 1 ≤ 1022 := by decide) : IsWithin (k + 1) (x + y) := by
  obtain ⟨s, hs⟩ := exists_add_eq_rounded (rounded_unpacked x).1 (rounded_unpacked y).1
    hx.isFinite hy.isFinite
  rw [add_eq, hs]
  refine isWithin_rounded s (abs_nonneg _) ?_ hlo hhi
  rw [zpow_add_one₀ (by norm_num), mul_two]
  exact (abs_add_le _ _).trans (add_le_add hx.abs_value_le hy.abs_value_le)

theorem neg (hx : IsWithin k x) : IsWithin k (-x) := by
  refine ⟨(isFinite_neg x).trans hx.isFinite, ?_⟩
  have hvalue : |valueOf (unpacked x).neg| = |valueOf (unpacked x)| := by
    cases unpacked x with
    | finite s m e hm => rw [UnpackedFloat.neg, abs_valueOf_finite, abs_valueOf_finite]
    | _ => rfl
  rw [value, unpacked_neg, hvalue]
  exact hx.abs_value_le

theorem sub (hx : IsWithin k x) (hy : IsWithin k y) (hlo : -1074 ≤ k + 1 := by decide)
    (hhi : k + 1 ≤ 1022 := by decide) : IsWithin (k + 1) (x - y) := by
  have hadd := hx.add hy.neg hlo hhi
  rwa [add_eq, unpacked_neg, ← sub_eq_add_opposite, ← sub_eq] at hadd

/-- Dividing by one or more does not enlarge. -/
theorem div (hx : IsWithin k x) (hy : y.isFinite = true) (hone : 1 ≤ value y)
    (hlo : -1074 ≤ k := by decide) (hhi : k ≤ 1022 := by decide) : IsWithin k (x / y) := by
  have hpos : 0 < value y := lt_of_lt_of_le one_pos hone
  obtain ⟨s, hs⟩ := exists_div_eq_rounded (u := unpacked x) (v := unpacked y) hx.isFinite hy
    hpos.ne'
  rw [div_eq, hs]
  refine isWithin_rounded s (abs_nonneg _) ?_ hlo hhi
  rw [abs_div]
  refine le_trans (div_le_self (abs_nonneg _) ?_) hx.abs_value_le
  exact hone.trans (le_abs_self _)

end IsWithin

/-! ## Roots -/

theorem log2_sqrt {n : ℕ} (hn : n ≠ 0) : n.sqrt.log2 = n.log2 / 2 := by
  have hlo : 2 ^ (n.log2 / 2) ≤ n.sqrt := by
    rw [Nat.le_sqrt, ← pow_add]
    exact (Nat.pow_le_pow_right (by decide) (by omega)).trans (Nat.log2_self_le hn)
  have hhi : n.sqrt < 2 ^ (n.log2 / 2 + 1) := by
    rw [Nat.sqrt_lt, ← pow_add]
    exact Nat.lt_log2_self.trans_le (Nat.pow_le_pow_right (by decide) (by omega))
  have hne : n.sqrt ≠ 0 := fun h => by
    rw [h] at hlo
    exact absurd hlo (by simp)
  exact (Nat.log2_eq_iff hne).2 ⟨hlo, hhi⟩

/-- The root of a number has half its exponent. -/
theorem exists_sqrt_eq_carried {m : ℕ} {e : ℤ} (hm : 0 < m) (he : -1074 ≤ e) :
    ∃ r ≤ 2 ^ 53, UnpackedFloat.sqrt .binary64 (.finite .positive m e hm) =
        carried .positive r ((m.log2 + e) / 2 - 52) ∧
      IsRounded (carried .positive r ((m.log2 + e) / 2 - 52)) := by
  obtain ⟨T, hT⟩ : ∃ T, T = min (e / 2) (max ((m.log2 + 1 + e + 1) / 2 - 53) (-1074)) := ⟨_, rfl⟩
  obtain ⟨i, hi⟩ : ∃ i, i = (e - 2 * T).toNat := ⟨_, rfl⟩
  have hcore : sqrtCore .binary64 m e = ((m <<< i).sqrt, T, rootAccuracy (m <<< i)) := by
    rw [hi, hT]
    rfl
  have hlog : (m <<< i).sqrt.log2 = (m.log2 + i) / 2 := by
    rw [log2_sqrt (mt Nat.shiftLeft_eq_zero_iff.1 hm.ne'), log2_shiftLeft hm.ne']
  have ht : (m.log2 + e) / 2 - 52 = max (((m <<< i).sqrt.log2 : ℤ) + 1 + T - 53) (-1074) := by
    rw [hlog]
    push_cast
    omega
  obtain ⟨hle, heq⟩ :=
    roundWithAccuracy_eq_carried .positive (rootAccuracy (m <<< i)) ht (by omega)
  have hsqrt : UnpackedFloat.sqrt .binary64 (.finite .positive m e hm) =
      roundWithAccuracy .binary64 .positive (m <<< i).sqrt T (rootAccuracy (m <<< i)) := by
    rw [UnpackedFloat.sqrt]
    simp only [hcore]
  refine ⟨_, hle, hsqrt.trans heq, ?_⟩
  rw [← heq]
  exact isRounded_roundWithAccuracy _ _ (by omega)

theorem IsWithin.sqrt (hx : IsWithin (2 * k) x) (hroot : x.sqrt.isFinite = true)
    (hhi : k ≤ 1020 := by decide) : IsWithin (k + 1) x.sqrt := by
  have hrounded := (rounded_unpacked x).1
  obtain ⟨hfinite, hvalue⟩ := hx
  rw [isFinite_eq] at hfinite
  rw [value] at hvalue
  rw [sqrt_eq] at hroot ⊢
  generalize unpacked x = u at *
  obtain ⟨s, rfl⟩ | ⟨s, m, e, hm, rfl⟩ := zero_or_finite hfinite
  · exact isWithin_zero s
  · cases s with
    | negative =>
      have hnan : unpacked (ofUnpacked .notANumber) = .notANumber :=
        unpacked_ofUnpacked trivial trivial
      rw [isFinite_eq, show UnpackedFloat.sqrt .binary64 (.finite .negative m e hm) =
        .notANumber from rfl, hnan] at hroot
      exact absurd hroot Bool.false_ne_true
    | positive =>
      obtain ⟨r, hr, hsqrt, hrounded'⟩ := exists_sqrt_eq_carried hm hrounded.1
      have hpow : (2 : ℚ) ^ (m.log2 + e) ≤ 2 ^ (2 * k) := by
        refine le_trans ?_ hvalue
        rw [abs_valueOf_finite, zpow_add₀ (by norm_num), zpow_natCast]
        refine mul_le_mul_of_nonneg_right ?_ (two_zpow_pos e).le
        exact_mod_cast Nat.log2_self_le hm.ne'
      have hlog : m.log2 + e ≤ 2 * k := (zpow_le_zpow_iff_right₀ (by norm_num)).1 hpow
      rw [hsqrt]
      refine isWithin_carried hrounded' (by omega) ?_
      have hr' : (r : ℚ) ≤ 2 ^ (53 : ℤ) := by exact_mod_cast hr
      refine (mul_le_mul_of_nonneg_right hr' (two_zpow_pos _).le).trans ?_
      rw [← zpow_add₀ (by norm_num)]
      exact zpow_le_zpow_right₀ (by norm_num) (by omega)

end Binary64
end PageContent
