/-
# Rounding to the nearest double

`rounded s q` is the reading nearest to the positive number `q`: the number is
measured in units of `2 ^ place q`, of which it has 53 bits or, at the least
exponent, fewer, and the half-way cases go to the even mantissa.  The results of
arithmetic are rounded so (`mul_eq_rounded`, `div_eq_rounded`, `normalize_eq_rounded`),
and how mantissa and exponent share the number does not matter
(`roundWithAccuracy_eq_rounded`).

The argument for that is about the two bits that rounding keeps of what it shifts
out.  A mantissa with a round and a sticky bit `Extends` to a number if the first tells
the half and the second whether there is more; shifting by one place halves the
number, and rounding needs no more of it than the two bits.

| number | nearest reading |
| --- | --- |
| at most 53 bits | the number itself (`exists_rounded_eq`) |
| `2 ^ 1024` and more | an infinity, once it is packed (`ofUnpacked_rounded_of_le`) |
| less than `2 ^ (-1075)` | a zero (`rounded_of_lt`) |
| `2 ^ (-1074)` and more | no zero (`nearestEven_ne_zero`) |

The last line is gradual underflow: a difference of doubles is positive if and only
if it should be (`sub_pos_iff`).
-/

import PageContent.Proofs.Number.Value

namespace PageContent
namespace Binary64

open Float.Model (UnpackedFloat Format)
open Float.Model.UnpackedFloat (Sign Accuracy ExtendedMantissa roundWithAccuracy
  accuracyOfFraction divCore decreaseExponent)

/-- The nearest natural number, of two equally near ones the even one. -/
def nearestEven (q : ℚ) : ℕ :=
  match compare (2 * Int.fract q) 1 with
  | .lt => ⌊q⌋₊
  | .eq => ⌊q⌋₊ + ⌊q⌋₊ % 2
  | .gt => ⌊q⌋₊ + 1

/-- A mantissa with a round and a sticky bit that stand for what `q` is beyond it. -/
def Extends (em : ExtendedMantissa) (q : ℚ) : Prop :=
  ∃ r : ℚ, 0 ≤ r ∧ r < 1 ∧ (em.stickyBit = true ↔ 0 < r) ∧
    q = em.mantissa + ((em.roundBit.toNat : ℚ) + r) / 2

theorem Extends.bounds {em : ExtendedMantissa} {q : ℚ} (h : Extends em q) :
    (em.mantissa : ℚ) ≤ q ∧ q < em.mantissa + 1 := by
  obtain ⟨r, hr, hr', -, rfl⟩ := h
  cases em.roundBit <;> simp <;> constructor <;> linarith

theorem Extends.floor_eq {em : ExtendedMantissa} {q : ℚ} (h : Extends em q) :
    ⌊q⌋₊ = em.mantissa := by
  obtain ⟨hle, hlt⟩ := h.bounds
  exact (Nat.floor_eq_iff (le_trans (Nat.cast_nonneg _) hle)).2 ⟨hle, hlt⟩

/-- Rounding what a number leaves of its bits is rounding the number. -/
theorem Extends.roundedMantissa_eq {em : ExtendedMantissa} {q : ℚ} (h : Extends em q) :
    em.roundedMantissa = nearestEven q := by
  have hfloor := h.floor_eq
  obtain ⟨hle, hlt⟩ := h.bounds
  have hfloor' : ⌊q⌋ = (em.mantissa : ℤ) :=
    Int.floor_eq_iff.2 ⟨by exact_mod_cast hle, by exact_mod_cast hlt⟩
  have hfract : Int.fract q = q - em.mantissa := by rw [Int.fract, hfloor']; rfl
  obtain ⟨r, hr, hr', hsticky, hq⟩ := h
  have hdouble : 2 * Int.fract q = em.roundBit.toNat + r := by
    rw [hfract, hq]
    ring
  rw [nearestEven, hdouble, hfloor]
  obtain ⟨m, b, s⟩ := em
  cases b with
  | false =>
    rw [compare_lt_iff_lt.2 (by simpa using hr')]
    cases s <;> rfl
  | true =>
    cases s with
    | false =>
      have hzero : r = 0 := le_antisymm (not_lt.1 (mt hsticky.2 Bool.false_ne_true)) hr
      rw [compare_eq_iff_eq.2 (by simp [hzero])]
      rfl
    | true =>
      have hpos : 0 < r := hsticky.1 rfl
      rw [compare_gt_iff_gt.2 (by simpa using hpos)]
      rfl

/-- A shift by one place is a half. -/
theorem Extends.shiftRightOne {em : ExtendedMantissa} {q : ℚ} (h : Extends em q) :
    Extends em.shiftRightOne (q / 2) := by
  obtain ⟨r, hr, hr', hsticky, rfl⟩ := h
  obtain ⟨m, b, s⟩ := em
  have hm : (m : ℚ) = 2 * (m / 2 : ℕ) + (m % 2 : ℕ) := by
    exact_mod_cast (Nat.div_add_mod m 2).symm
  have hbit : ((m % 2 != 0).toNat : ℚ) = (m % 2 : ℕ) := by
    rcases Nat.mod_two_eq_zero_or_one m with h | h <;> rw [h] <;> rfl
  refine ⟨((b.toNat : ℚ) + r) / 2, ?_, ?_, ?_, ?_⟩
  · positivity
  · cases b <;> simp <;> linarith
  · cases b with
    | false => simpa [ExtendedMantissa.shiftRightOne] using hsticky
    | true =>
      simp only [ExtendedMantissa.shiftRightOne, Bool.true_or, true_iff, Bool.toNat_true]
      positivity
  · simp only [ExtendedMantissa.shiftRightOne]
    rw [hm, hbit]
    ring

theorem Extends.shiftRight {em : ExtendedMantissa} {q : ℚ} (h : Extends em q) (n : ℕ) :
    Extends (em >>> n) (q / 2 ^ n) := by
  induction n with
  | zero =>
    rw [pow_zero, div_one]
    exact h
  | succ n ih =>
    rw [shiftRight_succ, pow_succ, ← div_div]
    exact ih.shiftRightOne

theorem extends_exact (m : ℕ) : Extends (.ofMantissaAndAccuracy m .exact) m :=
  ⟨0, le_rfl, one_pos, by simp [ExtendedMantissa.ofMantissaAndAccuracy],
    by simp [ExtendedMantissa.ofMantissaAndAccuracy]⟩

/-- What is left over in a division goes into the two bits. -/
theorem extends_accuracyOfFraction (m n : ℕ) {d : ℕ} (h : n < d) :
    Extends (.ofMantissaAndAccuracy m (accuracyOfFraction n d)) (m + n / d) := by
  have hd : (0 : ℚ) < d := by exact_mod_cast Nat.zero_lt_of_lt h
  have hn : (n : ℚ) < d := by exact_mod_cast h
  unfold accuracyOfFraction
  split
  · rename_i hzero
    subst hzero
    simpa using extends_exact m
  · rename_i hzero
    have hpos : (0 : ℚ) < n := by exact_mod_cast Nat.pos_of_ne_zero hzero
    rcases lt_trichotomy (2 * n) d with hlt | heq | hgt
    · have hlt' : 2 * (n : ℚ) < d := by exact_mod_cast hlt
      rw [compare_lt_iff_lt.2 hlt]
      refine ⟨2 * n / d, by positivity, (div_lt_one hd).2 hlt', ?_, ?_⟩
      · exact ⟨fun _ => by positivity, fun _ => rfl⟩
      · simp [ExtendedMantissa.ofMantissaAndAccuracy]
        ring
    · have heq' : 2 * (n : ℚ) = d := by exact_mod_cast heq
      rw [compare_eq_iff_eq.2 heq]
      refine ⟨0, le_rfl, one_pos, by simp [ExtendedMantissa.ofMantissaAndAccuracy], ?_⟩
      simp [ExtendedMantissa.ofMantissaAndAccuracy, ← heq']
      field_simp
    · have hgt' : (d : ℚ) < 2 * n := by exact_mod_cast hgt
      rw [compare_gt_iff_gt.2 hgt]
      refine ⟨2 * n / d - 1, ?_, ?_, ?_, ?_⟩
      · rw [sub_nonneg, le_div_iff₀ hd]; linarith
      · rw [sub_lt_iff_lt_add, div_lt_iff₀ hd]; linarith
      · refine ⟨fun _ => ?_, fun _ => rfl⟩
        rw [sub_pos, lt_div_iff₀ hd]; linarith
      · simp [ExtendedMantissa.ofMantissaAndAccuracy]
        ring

/-- The exponent at which a number has 53 bits, or the least one. -/
def place (q : ℚ) : ℤ := max (Int.log 2 q - 52) (-1074)

/-- The reading that is nearest to a number, if exponents have no upper end. -/
def rounded (s : Sign) (q : ℚ) : UnpackedFloat :=
  carried s (nearestEven (q / 2 ^ place q)) (place q)

theorem log_mul_two_zpow {m : ℕ} {q : ℚ} (hm : m ≠ 0) (hle : (m : ℚ) ≤ q) (hlt : q < m + 1)
    (e : ℤ) :     Int.log 2 (q * 2 ^ e) = m.log2 + e := by
  have hmpos : (0 : ℚ) < m := by exact_mod_cast Nat.pos_of_ne_zero hm
  have hpos : 0 < q * 2 ^ e := mul_pos (lt_of_lt_of_le hmpos hle) (two_zpow_pos e)
  have hlo : (2 : ℚ) ^ m.log2 ≤ m := by exact_mod_cast Nat.log2_self_le hm
  have hhi : (m : ℚ) + 1 ≤ 2 ^ (m.log2 + 1) := by exact_mod_cast Nat.lt_log2_self
  refine le_antisymm ?_ ?_
  · refine Int.lt_add_one_iff.1 ((Int.lt_zpow_iff_log_lt (by norm_num) hpos).1 ?_)
    rw [add_right_comm, zpow_add₀ (by norm_num)]
    refine mul_lt_mul_of_pos_right (lt_of_lt_of_le hlt ?_) (two_zpow_pos e)
    exact_mod_cast hhi
  · refine (Int.zpow_le_iff_le_log (by norm_num) hpos).1 ?_
    rw [zpow_add₀ (by norm_num)]
    refine mul_le_mul_of_nonneg_right (le_trans ?_ hle) (two_zpow_pos e).le
    exact_mod_cast hlo

theorem nearestEven_of_lt_half {q : ℚ} (h : 0 ≤ q) (h' : 2 * q < 1) : nearestEven q = 0 := by
  have hfloor : ⌊q⌋₊ = 0 := Nat.floor_eq_zero.2 (by linarith)
  have hfract : Int.fract q = q := Int.fract_eq_self.2 ⟨h, by linarith⟩
  rw [nearestEven, hfract, compare_lt_iff_lt.2 h', hfloor]

theorem carried_zero (s : Sign) (e : ℤ) : carried s 0 e = .zero s := rfl

/-- **Rounding looks at the number alone**, not at how mantissa and exponent share it. -/
theorem roundWithAccuracy_eq_rounded (s : Sign) {m : ℕ} {e : ℤ} {acc : Accuracy} {q : ℚ}
    (h : Extends (.ofMantissaAndAccuracy m acc) q)
    (he : e ≤ max (m.log2 + 1 + e - 53) (-1074)) :
    roundWithAccuracy .binary64 s m e acc = rounded s (q * 2 ^ e) := by
  obtain ⟨t, ht⟩ : ∃ t, t = max ((m.log2 : ℤ) + 1 + e - 53) (-1074) := ⟨_, rfl⟩
  have hmant : (ExtendedMantissa.ofMantissaAndAccuracy m acc).mantissa = m := by
    unfold ExtendedMantissa.ofMantissaAndAccuracy
    split <;> rfl
  obtain ⟨hle, hlt⟩ := h.bounds
  rw [hmant] at hle hlt
  have hlead : leading m acc (t - e).toNat = nearestEven (q * 2 ^ e / 2 ^ t) := by
    have hpow : (2 : ℚ) ^ t = 2 ^ e * 2 ^ (t - e).toNat := by
      rw [← zpow_natCast, ← zpow_add₀ (by norm_num)]
      congr 1
      omega
    rw [hpow, mul_comm ((2 : ℚ) ^ e), mul_div_mul_right _ _ (two_zpow_pos e).ne']
    exact (h.shiftRight (t - e).toNat).roundedMantissa_eq
  rw [(roundWithAccuracy_eq_carried s acc ht (by omega)).2, hlead, rounded]
  rcases Nat.eq_zero_or_pos m with rfl | hm
  · rw [Nat.cast_zero] at hle
    rw [Nat.log2_zero] at ht he
    rw [Nat.cast_zero, zero_add] at hlt
    rcases hle.eq_or_lt with rfl | hpos
    · rw [zero_mul, zero_div, zero_div, nearestEven_of_lt_half le_rfl (by norm_num), carried_zero,
        carried_zero]
    · have hlog : Int.log 2 (q * 2 ^ e) < e := by
        rw [← Int.lt_zpow_iff_log_lt (by norm_num) (mul_pos hpos (two_zpow_pos e))]
        exact mul_lt_of_lt_one_left (two_zpow_pos e) hlt
      have hplace : place (q * 2 ^ e) = t := by
        unfold place
        omega
      rw [hplace]
  · have hplace : place (q * 2 ^ e) = t := by
      rw [place, log_mul_two_zpow hm.ne' hle hlt]
      omega
    rw [hplace]

/-- Zeros appended to a mantissa leave the number if the exponent makes up for them. -/
theorem shiftLeft_mul_two_zpow (m : ℕ) (e : ℤ) (i : ℕ) :
    ((m <<< i : ℕ) : ℚ) * 2 ^ (e - i) = m * 2 ^ e := by
  rw [Nat.shiftLeft_eq, Nat.cast_mul, Nat.cast_pow, mul_assoc, Nat.cast_ofNat, ← zpow_natCast,
    ← zpow_add₀ (by norm_num), add_sub_cancel]

theorem round_eq_rounded (s : Sign) {m : ℕ} {e : ℤ} (hm : m ≠ 0) :
    UnpackedFloat.round .binary64 s m e = rounded s (m * 2 ^ e) := by
  obtain ⟨t, ht⟩ : ∃ t, t = max ((m.log2 : ℤ) + 1 + e - 53) (-1074) := ⟨_, rfl⟩
  rw [round_eq s ht, ← shiftLeft_mul_two_zpow m e (e - t).toNat]
  refine roundWithAccuracy_eq_rounded s (extends_exact _) ?_
  rw [log2_shiftLeft hm]
  omega

theorem normalize_eq_rounded {m e : ℤ} {t : Sign} (hm : m ≠ 0) :
    UnpackedFloat.normalize .binary64 m e t =
      rounded (if m < 0 then .negative else .positive) |(m : ℚ) * 2 ^ e| := by
  rw [normalize_eq, if_neg hm, round_eq_rounded _ (by omega), abs_mul, abs_of_pos (two_zpow_pos e),
    Nat.cast_natAbs, Int.cast_abs]

theorem mul_eq_rounded {s t : Sign} {m n : ℕ} {e f : ℤ} {hm : 0 < m} {hn : 0 < n}
    (h : 52 ≤ (m * n).log2 ∨ e + f ≤ -1074) :
    UnpackedFloat.mul .binary64 (.finite s m e hm) (.finite t n f hn) =
      rounded (s * t) ((m * 2 ^ e) * (n * 2 ^ f)) := by
  have hvalue : (m : ℚ) * 2 ^ e * (n * 2 ^ f) = (m * n : ℕ) * 2 ^ (e + f) := by
    rw [Nat.cast_mul, zpow_add₀ (by norm_num)]
    ring
  rw [hvalue]
  exact roundWithAccuracy_eq_rounded _ (extends_exact _) (by omega)

/-- A quotient is taken with at least 53 bits, or at the least exponent. -/
theorem le_log2_divCore {m n i : ℕ} (hm : 0 < m) (hn : 0 < n) (h : n.log2 + 53 ≤ m.log2 + i) :
    52 ≤ (m <<< i / n).log2 := by
  have hle : n * 2 ^ 52 ≤ m <<< i := by
    calc n * 2 ^ 52 ≤ 2 ^ (n.log2 + 1) * 2 ^ 52 := Nat.mul_le_mul_right _ Nat.lt_log2_self.le
      _ = 2 ^ (n.log2 + 53) := by rw [← pow_add]
      _ ≤ 2 ^ (m.log2 + i) := Nat.pow_le_pow_right (by decide) h
      _ = 2 ^ m.log2 * 2 ^ i := pow_add ..
      _ ≤ m * 2 ^ i := Nat.mul_le_mul_right _ (Nat.log2_self_le hm.ne')
      _ = m <<< i := (Nat.shiftLeft_eq ..).symm
  have hbits : 2 ^ 52 ≤ m <<< i / n := (Nat.le_div_iff_mul_le hn).2 (by rwa [mul_comm])
  exact (Nat.le_log2 (by omega)).2 hbits

theorem div_eq_rounded {s t : Sign} {m n : ℕ} {e f : ℤ} {hm : 0 < m} {hn : 0 < n} :
    UnpackedFloat.div .binary64 (.finite s m e hm) (.finite t n f hn) =
      rounded (s / t) ((m * 2 ^ e) / (n * 2 ^ f)) := by
  obtain ⟨T, hT⟩ : ∃ T, T =
      min (e - f) (max ((m.log2 : ℤ) + 1 + e - (n.log2 + 1 + f) - 53) (-1074)) := ⟨_, rfl⟩
  obtain ⟨i, hi⟩ : ∃ i, i = (e - f - T).toNat := ⟨_, rfl⟩
  have hcore : divCore .binary64 m e n f =
      (m <<< i / n, T, accuracyOfFraction (m <<< i % n) n) := by
    rw [hi, hT]
    rfl
  have hn' : (n : ℚ) ≠ 0 := by exact_mod_cast hn.ne'
  have hquot : ((m <<< i / n : ℕ) : ℚ) + (m <<< i % n : ℕ) / n = m * 2 ^ i / n := by
    rw [eq_div_iff hn', add_mul, div_mul_cancel₀ _ hn']
    have h := Nat.div_add_mod (m <<< i) n
    rw [mul_comm, Nat.shiftLeft_eq] at h
    rw [Nat.shiftLeft_eq]
    exact_mod_cast h
  have hvalue : (m : ℚ) * 2 ^ e / (n * 2 ^ f) = m * 2 ^ i / n * 2 ^ T := by
    have hpow : (2 : ℚ) ^ e = 2 ^ f * (2 ^ i * 2 ^ T) := by
      rw [← zpow_natCast, ← zpow_add₀ (by norm_num), ← zpow_add₀ (by norm_num)]
      congr 1
      omega
    rw [hpow, div_eq_iff (mul_ne_zero hn' (two_zpow_pos f).ne')]
    field_simp
  rw [UnpackedFloat.div]
  simp only [hcore]
  rw [hvalue, ← hquot]
  refine roundWithAccuracy_eq_rounded _ (extends_accuracyOfFraction _ _ (Nat.mod_lt _ hn)) ?_
  rcases le_or_gt T (-1074) with hlow | hlow
  · omega
  · have := le_log2_divCore (i := i) hm hn (by omega)
    omega

theorem nearestEven_natCast (n : ℕ) : nearestEven n = n := by
  rw [nearestEven, Int.fract_natCast, mul_zero, compare_lt_iff_lt.2 one_pos, Nat.floor_natCast]

theorem rounded_zero (s : Sign) : rounded s 0 = .zero s := by
  rw [rounded, zero_div, nearestEven_of_lt_half le_rfl (by norm_num), carried_zero]

/-- A rounded reading is the nearest one to its number. -/
theorem rounded_eq_finite {s : Sign} {m : ℕ} {e : ℤ} {hm : 0 < m}
    (h : IsRounded (.finite s m e hm)) : rounded s (m * 2 ^ e) = .finite s m e hm := by
  have hself : roundWithAccuracy .binary64 s (m <<< 0) (e - (0 : ℕ)) .exact = .finite s m e hm :=
    roundWithAccuracy_shiftLeft h
  rw [Nat.shiftLeft_zero, Nat.cast_zero, Int.sub_zero] at hself
  obtain ⟨he, hm', hlo⟩ := h
  have htarget := eq_target (n := 0) hm hm' he hlo
  rw [Nat.shiftLeft_zero, Nat.cast_zero, Int.sub_zero] at htarget
  rw [← hself, roundWithAccuracy_eq_rounded s (extends_exact m) (by omega)]

/-- A number of at most 53 bits is its own nearest reading. -/
theorem exists_rounded_eq (s : Sign) {m : ℕ} {e : ℤ} (hm : 0 < m) (hm' : m < 2 ^ 53)
    (he : -1074 ≤ e) :
    ∃ n f hn, rounded s (m * 2 ^ e) = .finite s n f hn ∧ IsRounded (.finite s n f hn) ∧
      f ≤ e ∧ (n : ℚ) * 2 ^ f = m * 2 ^ e := by
  have hlog := (Nat.log2_lt hm.ne').2 hm'
  obtain ⟨i, hi⟩ : ∃ i : ℕ, e - i = max (m.log2 + e - 52) (-1074) :=
    ⟨(e - max (m.log2 + e - 52) (-1074)).toNat, by omega⟩
  have hvalue := shiftLeft_mul_two_zpow m e i
  have hne : m <<< i ≠ 0 := mt Nat.shiftLeft_eq_zero_iff.1 hm.ne'
  have hbits : (m <<< i).log2 = m.log2 + i := log2_shiftLeft hm.ne' i
  have hrounded : IsRounded (.finite s (m <<< i) (e - i) (Nat.pos_of_ne_zero hne)) := by
    refine ⟨by omega, (Nat.log2_lt hne).1 (by omega), ?_⟩
    rcases le_total ((m.log2 : ℤ) + e - 52) (-1074) with h | h
    · exact .inl (by omega)
    · exact .inr ((Nat.le_log2 hne).1 (by omega))
  refine ⟨m <<< i, e - i, Nat.pos_of_ne_zero hne, ?_, hrounded, by omega, hvalue⟩
  rw [← hvalue, rounded_eq_finite hrounded]

/-! ## The ends of the range -/

theorem floor_le_nearestEven (q : ℚ) : ⌊q⌋₊ ≤ nearestEven q := by
  unfold nearestEven
  split <;> omega

/-- A number from the least positive double up has no zero as its nearest reading. -/
theorem nearestEven_ne_zero {q : ℚ} (h : (2 : ℚ) ^ (-1074 : ℤ) ≤ q) :
    nearestEven (q / 2 ^ place q) ≠ 0 := by
  have hpos : 0 < q := lt_of_lt_of_le (two_zpow_pos _) h
  have hlog : -1074 ≤ Int.log 2 q := (Int.zpow_le_iff_le_log (by norm_num) hpos).1 h
  have hone : 1 ≤ q / 2 ^ place q := by
    rw [le_div_iff₀ (two_zpow_pos _), one_mul]
    refine le_trans ?_ (Int.zpow_log_le_self (b := 2) (by norm_num) hpos)
    refine zpow_le_zpow_right₀ (by norm_num) ?_
    unfold place
    omega
  have := floor_le_nearestEven (q / 2 ^ place q)
  have := (Nat.one_le_floor_iff _).2 hone
  omega

/-- A number from `2 ^ 1024` up has an infinity as its nearest double. -/
theorem ofUnpacked_rounded_of_le {q : ℚ} (s : Sign) (h : (2 : ℚ) ^ (1024 : ℤ) ≤ q) :
    ofUnpacked (rounded s q) = ofUnpacked (.infinity s) := by
  have hpos : 0 < q := lt_of_lt_of_le (two_zpow_pos 1024) h
  have hlog : 1024 ≤ Int.log 2 q := (Int.zpow_le_iff_le_log (by norm_num) hpos).1 h
  have hplace : 972 ≤ place q := by
    unfold place
    omega
  have hne : nearestEven (q / 2 ^ place q) ≠ 0 :=
    nearestEven_ne_zero (le_trans (zpow_le_zpow_right₀ (by norm_num) (by decide)) h)
  refine unpacked_inj ?_
  rw [unpacked_ofUnpacked (u := .infinity s) trivial trivial, rounded, carried, dif_neg hne]
  split <;> exact unpacked_ofUnpacked_of_overflow (by omega)

/-- A number below `2 ^ (-1075)` has a zero as its nearest double. -/
theorem rounded_of_lt {q : ℚ} (s : Sign) (h : 0 ≤ q) (h' : q < 2 ^ (-1075 : ℤ)) :
    rounded s q = .zero s := by
  rcases h.eq_or_lt with rfl | hpos
  · exact rounded_zero s
  · have hlog : Int.log 2 q < -1075 := (Int.lt_zpow_iff_log_lt (by norm_num) hpos).1 h'
    have hplace : place q = -1074 := by
      unfold place
      omega
    have hhalf : 2 * (q / 2 ^ (-1074 : ℤ)) < 1 := by
      rw [← mul_div_assoc, div_lt_one (two_zpow_pos _)]
      calc 2 * q < 2 * 2 ^ (-1075 : ℤ) := by linarith
        _ = 2 ^ (-1074 : ℤ) := (zpow_one_add₀ two_ne_zero (-1075)).symm
    rw [rounded, hplace, nearestEven_of_lt_half (div_nonneg h (two_zpow_pos _).le) hhalf,
      carried_zero]

/-! ## Signs of differences -/

/-- A result is positive if it was before it was packed. -/
theorem zero_lt_ofUnpacked {u : UnpackedFloat} (hu : IsRounded u) :
    0 < ofUnpacked u ↔ UnpackedFloat.compare (.zero .positive) u = some .lt := by
  have hzero : unpacked 0 = .zero .positive := rfl
  rw [lt_iff, hzero]
  cases u with
  | finite s m e hm =>
    rcases le_or_gt e 971 with h | h
    · rw [unpacked_ofUnpacked hu h]
    · rw [unpacked_ofUnpacked_of_overflow h]
      cases s <;> rfl
  | _ => rw [unpacked_ofUnpacked hu trivial]

theorem compare_zero_carried {s : Sign} {r : ℕ} {e : ℤ} (hr : s = .positive → r ≠ 0) :
    UnpackedFloat.compare (.zero .positive) (carried s r e) = some .lt ↔ s = .positive := by
  unfold carried
  cases s with
  | negative =>
    have hsign : Sign.negative ≠ .positive := nofun
    split
    · exact iff_of_false nofun hsign
    · split <;> exact iff_of_false nofun hsign
  | positive =>
    rw [dif_neg (hr rfl)]
    split <;> exact iff_of_true rfl rfl

theorem compare_zero_normalize {m e : ℤ} {t : Sign} (he : -1074 ≤ e) :
    UnpackedFloat.compare (.zero .positive) (UnpackedFloat.normalize .binary64 m e t) = some .lt ↔
      0 < m := by
  rcases eq_or_ne m 0 with rfl | hm
  · rw [normalize_eq, if_pos rfl]
    exact iff_of_false nofun (lt_irrefl 0)
  · rw [normalize_eq_rounded hm, rounded, compare_zero_carried]
    · split <;> simp <;> omega
    · intro _
      refine nearestEven_ne_zero ?_
      rw [abs_mul, abs_of_pos (two_zpow_pos e)]
      have hone : (1 : ℚ) ≤ |(m : ℚ)| := by exact_mod_cast Int.one_le_abs hm
      calc (2 : ℚ) ^ (-1074 : ℤ) ≤ 2 ^ e := zpow_le_zpow_right₀ (by norm_num) he
        _ ≤ |(m : ℚ)| * 2 ^ e := le_mul_of_one_le_left (two_zpow_pos e).le hone

theorem apply_decreaseExponent (s : Sign) (m : ℕ) {e t : ℤ} (ht : t ≤ e) :
    ((s.apply ((decreaseExponent m e t).1 : ℕ) : ℤ) : ℚ) * 2 ^ t = (s.apply m : ℤ) * 2 ^ e := by
  have hshift : ((m <<< (e - t).toNat : ℕ) : ℚ) * 2 ^ t = m * 2 ^ e := by
    obtain ⟨i, rfl⟩ : ∃ i : ℕ, t = e - i := ⟨(e - t).toNat, by omega⟩
    rw [Int.sub_sub_self, Int.toNat_natCast, shiftLeft_mul_two_zpow]
  cases s with
  | positive => exact hshift
  | negative =>
    simp only [Sign.apply, Int.cast_neg, neg_mul]
    exact congrArg Neg.neg hshift

/-- Gradual underflow: a difference is positive if and only if it should be. -/
theorem compare_zero_sub {u v : UnpackedFloat} (hu : IsRounded u) (hv : IsRounded v)
    (hu' : u.isFinite = true) (hv' : v.isFinite = true) :
    UnpackedFloat.compare (.zero .positive) (.sub .binary64 u v) = some .lt ↔
      valueOf v < valueOf u := by
  obtain ⟨s, rfl⟩ | ⟨s, m, e, hm, rfl⟩ := zero_or_finite hu'
  · obtain ⟨t, rfl⟩ | ⟨t, n, f, hn, rfl⟩ := zero_or_finite hv'
    · exact iff_of_false (by cases s <;> cases t <;> nofun) (lt_irrefl 0)
    · have hpos := magnitude_pos hn f
      cases t with
      | positive => exact iff_of_false nofun (not_lt.2 hpos.le)
      | negative =>
        rw [valueOf_negative]
        exact iff_of_true rfl (neg_lt_zero.2 hpos)
  · have hpos := magnitude_pos hm e
    obtain ⟨t, rfl⟩ | ⟨t, n, f, hn, rfl⟩ := zero_or_finite hv'
    · cases s with
      | positive => exact iff_of_true rfl hpos
      | negative =>
        rw [valueOf_negative]
        exact iff_of_false nofun (not_lt.2 (neg_nonpos.2 hpos.le))
    · have hmin : -1074 ≤ min e f := le_min hu.1 hv.1
      have h := apply_decreaseExponent s m (min_le_left e f)
      have h' := apply_decreaseExponent t n (min_le_right e f)
      rw [UnpackedFloat.sub, compare_zero_normalize hmin, valueOf, valueOf, ← h, ← h',
        mul_lt_mul_iff_of_pos_right (two_zpow_pos _), Int.cast_lt, Int.sub_pos]

theorem sub_pos_iff {x y : Float} (hx : x.isFinite = true) (hy : y.isFinite = true) :
    0 < x - y ↔ y < x := by
  have hx' := (rounded_unpacked x).1
  have hy' := (rounded_unpacked y).1
  rw [sub_eq, zero_lt_ofUnpacked (isRounded_sub hx' hy'), compare_zero_sub hx' hy' hx hy,
    lt_iff_value hy hx]
  rfl

end Binary64
end PageContent
