/-
# The order of all doubles

To sort by doubles each of them needs a place.  The bits of a positive number grow with it, since
they hold the exponent above the mantissa:

| double | position |
| --- | --- |
| `m · 2 ^ e` | `(e + 1074) · 2 ^ 52 + m` |
| `+∞` | `2047 · 2 ^ 52` |
| `0` | `0` |
| one with a minus sign | `-1` less the position without it |

So `orderKey` puts numbers in the order of their size and `-0` in front of `0`, and its ends are
left for the NaNs (`orderKey_le_iff`).
-/

import PageContent.Proofs.Number.Extreme
import PageContent.Proofs.Number.Operations

namespace PageContent
namespace Binary64

open Float.Model (UnpackedFloat Format)
open Float.Model.UnpackedFloat (Sign unpackSign unpackExponent unpackMantissa)

/-! ## Positions -/

/-- A position under a sign. -/
def under (s : Sign) (n : ℤ) : ℤ := if isNegative s then -1 - n else n

@[simp] theorem under_positive (n : ℤ) : under .positive n = n := rfl

@[simp] theorem under_negative (n : ℤ) : under .negative n = -1 - n := rfl

/-- Signed positions are in the order of the signed numbers, if the magnitudes of both are in one
order. -/
theorem under_lt_under {s t : Sign} {p q : ℚ} {k l : ℤ} (hp : 0 ≤ p) (hq : 0 ≤ q) (hk : 0 ≤ k)
    (hl : 0 ≤ l) (hlt : p < q → k < l) (hgt : q < p → l < k) (h : signed s p < signed t q) :
    under s k < under t l := by
  cases s with
  | positive =>
    cases t with
    | positive => exact hlt h
    | negative => exact absurd h ((neg_nonpos.2 hq).trans hp).not_gt
  | negative =>
    cases t with
    | positive =>
      rw [under_negative, under_positive]
      omega
    | negative =>
      have hthen := hgt (neg_lt_neg_iff.1 h)
      rw [under_negative, under_negative]
      omega

/-- The position of a reading among all that are no NaN. -/
def position : UnpackedFloat → ℤ
  | .finite s m e _ => under s ((e + 1074) * 2 ^ 52 + m)
  | .infinity s => under s (2047 * 2 ^ 52)
  | .zero s => under s 0
  | .notANumber => 0

/-- The exponent field above the fraction. -/
theorem position_ofFields {s : Sign} {field : BitVec 11} {fraction : BitVec 52}
    (h : (ofFields s field fraction).isNaN = false) :
    position (ofFields s field fraction) = under s (field.toNat * 2 ^ 52 + fraction.toNat) := by
  unfold ofFields at h ⊢
  split
  · rename_i hfield
    rw [if_pos hfield] at h
    split
    · rename_i hfraction
      rw [position, hfield, hfraction]
      rfl
    · rename_i hfraction
      rw [if_neg hfraction] at h
      exact absurd h Bool.noConfusion
  · split
    · rename_i hfield
      split
      · rename_i hfraction
        rw [position, hfield, hfraction]
        rfl
      · rw [position, hfield]
        congr 1
    · rw [position]
      congr 1
      push_cast
      ring

/-- **The key of a number is the position of its reading.** -/
theorem orderKey_eq_position (origin : NaNOrigin) {x : Float} (h : x.isNaN = false) :
    orderKey origin x = position (unpacked x) := by
  obtain ⟨b, hb⟩ : ∃ b : BitVec Format.binary64.numBits, x.toModel.toBits.toBitVec = b := ⟨_, rfl⟩
  have hunpacked : unpacked x = ofFields (Sign.ofBitVec (unpackSign b)) (unpackExponent b)
      (unpackMantissa b) := by
    rw [← unpack_eq_ofFields, ← hb]
    rfl
  have hbits : x.toBits.toNat = b.toNat := by
    rw [← hb]
    rfl
  have hsign : ∀ s : BitVec 1, isNegative (Sign.ofBitVec s) = decide (s.toNat = 1) := by decide
  have hlt : b.toNat < 2 ^ 64 := b.isLt
  have hnan := h
  rw [isNaN_eq, hunpacked] at hnan
  rw [hunpacked, position_ofFields hnan, under, hsign, toNat_unpackSign, toNat_unpackExponent,
    toNat_unpackMantissa]
  unfold orderKey
  rw [hbits, h]
  simp only [Bool.false_eq_true, if_false, decide_eq_true_eq]
  split <;> split <;> omega

section Positions

variable {s t : Sign} {m n : ℕ} {e f : ℤ} {hm : 0 < m} {hn : 0 < n} {u v : UnpackedFloat}

/-- A larger magnitude has its exponent and mantissa further on. -/
theorem lt_of_magnitude_lt (hu : IsRounded (.finite s m e hm)) (hv : IsRounded (.finite t n f hn))
    (h : (m : ℚ) * 2 ^ e < n * 2 ^ f) :
    (e + 1074) * 2 ^ 52 + m < (f + 1074) * 2 ^ 52 + n := by
  have hthen := compare_then_eq hu hv
  rw [compare_lt_iff_lt.2 h, Ordering.then_eq_lt, compare_lt_iff_lt, compare_lt_iff_lt,
    compare_eq_iff_eq] at hthen
  obtain ⟨he, hm', -⟩ := hu
  obtain ⟨-, -, hlo⟩ := hv
  omega

/-- The positions of numbers are between those of the infinities. -/
theorem magnitude_bounds (hu : IsRounded (.finite s m e hm)) (hrange : InRange (.finite s m e hm)) :
    0 < (e + 1074) * 2 ^ 52 + m ∧ (e + 1074) * 2 ^ 52 + m < 2047 * 2 ^ 52 := by
  obtain ⟨he, hm', -⟩ := hu
  have hrange : e ≤ 971 := hrange
  omega

theorem position_bounds (hu : IsRounded u ∧ InRange u) (h : u.isFinite = true) :
    -1 - 2047 * 2 ^ 52 < position u ∧ position u < 2047 * 2 ^ 52 := by
  obtain ⟨s, rfl⟩ | ⟨s, m, e, hm, rfl⟩ := zero_or_finite h
  · cases s <;> decide
  · have hbounds := magnitude_bounds hu.1 hu.2
    rw [position]
    cases s with
    | positive =>
      rw [under_positive]
      omega
    | negative =>
      rw [under_negative]
      omega

/-- **Positions of numbers are in the order of the numbers.** -/
theorem position_lt_of_valueOf_lt (hu : IsRounded u ∧ InRange u) (hv : IsRounded v ∧ InRange v)
    (hu' : u.isFinite = true) (hv' : v.isFinite = true) (h : valueOf u < valueOf v) :
    position u < position v := by
  -- a zero has magnitude and position `0` under its sign
  have hzero (s : Sign) : valueOf (.zero s) = signed s 0 := by cases s <;> rfl
  obtain ⟨s, rfl⟩ | ⟨s, m, e, hm, rfl⟩ := zero_or_finite hu'
  · obtain ⟨t, rfl⟩ | ⟨t, n, f, hn, rfl⟩ := zero_or_finite hv'
    · exact absurd h (lt_irrefl 0)
    · have hpos := magnitude_pos hn f
      have hbounds := magnitude_bounds hv.1 hv.2
      rw [valueOf_finite, hzero] at h
      exact under_lt_under le_rfl hpos.le le_rfl hbounds.1.le (fun _ => hbounds.1)
        (fun hlt => absurd hlt hpos.not_gt) h
  · have hpos := magnitude_pos hm e
    have hbounds := magnitude_bounds hu.1 hu.2
    obtain ⟨t, rfl⟩ | ⟨t, n, f, hn, rfl⟩ := zero_or_finite hv'
    · rw [valueOf_finite, hzero] at h
      exact under_lt_under hpos.le le_rfl hbounds.1.le le_rfl (fun hlt => absurd hlt hpos.not_gt)
        (fun _ => hbounds.1) h
    · have hpos' := magnitude_pos hn f
      have hbounds' := magnitude_bounds hv.1 hv.2
      rw [valueOf_finite, valueOf_finite] at h
      exact under_lt_under hpos.le hpos'.le hbounds.1.le hbounds'.1.le
        (lt_of_magnitude_lt hu.1 hv.1) (lt_of_magnitude_lt hv.1 hu.1) h

end Positions

/-! ## The order -/

variable {x y : Float}

/-- The reading of a number or an infinity has its position between two ends. -/
theorem position_unpacked_bounds (h : x.isNaN = false) :
    -1 - 2047 * 2 ^ 52 ≤ position (unpacked x) ∧ position (unpacked x) ≤ 2047 * 2 ^ 52 := by
  rcases isFinite_or_infinity h with hx | ⟨s, hs⟩
  · obtain ⟨hlo, hhi⟩ := position_bounds (rounded_unpacked x) hx
    exact ⟨hlo.le, hhi.le⟩
  · rw [hs]
    cases s <;> decide

/-- **Keys are in the order of the doubles.** -/
theorem orderKey_lt_of_lt (h : x < y) (o p : NaNOrigin) : orderKey o x < orderKey p y := by
  obtain ⟨hx, hy⟩ := isNaN_of_lt h
  have hrank := (lt_iff_rank hx hy).1 h
  rw [orderKey_eq_position o hx, orderKey_eq_position p hy]
  rcases isFinite_or_infinity hx with hx' | ⟨s, hs⟩
  · have hbounds := position_bounds (rounded_unpacked x) hx'
    rcases isFinite_or_infinity hy with hy' | ⟨t, ht⟩
    · have hvalue : value x < value y := (lt_iff_value hx' hy').1 h
      exact position_lt_of_valueOf_lt (rounded_unpacked x) (rounded_unpacked y) hx' hy' hvalue
    · rw [ht] at hrank ⊢
      cases t with
      | positive => exact hbounds.2
      | negative => exact absurd hrank not_lt_bot
  · rw [hs] at hrank ⊢
    cases s with
    | positive => exact absurd hrank (rank_le_top _).not_gt
    | negative =>
      rcases isFinite_or_infinity hy with hy' | ⟨t, ht⟩
      · exact (position_bounds (rounded_unpacked y) hy').1
      · rw [ht] at hrank ⊢
        cases t with
        | positive => decide
        | negative => exact absurd hrank (lt_irrefl _)

/-- `x` stands before `y` or level with it in the order of all doubles: numbers by their size, `-0`
in front of `0`, and a NaN at the end that its origin says. -/
def Precedes (o : NaNOrigin) (x : Float) (p : NaNOrigin) (y : Float) : Prop :=
  if x.isNaN = true then o = .computed ∨ (y.isNaN = true ∧ p = .given)
  else if y.isNaN = true then p = .given
  else x ≤ y ∧ ¬ (x = 0 ∧ y = -0.0)

/-- Keys of numbers are in order just if these are, and `0` is not in front of `-0`. -/
theorem orderKey_le_iff_of_number (hx : x.isNaN = false) (hy : y.isNaN = false) (o p : NaNOrigin) :
    orderKey o x ≤ orderKey p y ↔ x ≤ y ∧ ¬ (x = 0 ∧ y = -0.0) := by
  constructor
  · intro h
    refine ⟨Binary64.le_of_not_lt hx hy fun hlt => ?_, ?_⟩
    · exact absurd (orderKey_lt_of_lt hlt p o) h.not_gt
    · rintro ⟨rfl, rfl⟩
      rw [orderKey_eq_position o hx, orderKey_eq_position p hy] at h
      exact absurd h (show ¬ (0 : ℤ) ≤ -1 by decide)
  · rintro ⟨hle, hzeros⟩
    by_cases hlt : x < y
    · exact (orderKey_lt_of_lt hlt o p).le
    rw [orderKey_eq_position o hx, orderKey_eq_position p hy]
    rcases Level.of_le hle (Binary64.le_of_not_lt hy hx hlt) with rfl | ⟨⟨s, hs⟩, ⟨t, ht⟩⟩
    · exact le_rfl
    · rw [hs, ht]
      cases s with
      | negative => cases t <;> decide
      | positive =>
        cases t with
        | positive => exact le_rfl
        | negative => exact absurd ⟨unpacked_inj (hs.trans rfl), unpacked_inj (ht.trans rfl)⟩ hzeros

/-- **`orderKey` is the order of all doubles.** -/
theorem orderKey_le_iff (o p : NaNOrigin) (x y : Float) :
    orderKey o x ≤ orderKey p y ↔ Precedes o x p y := by
  have hnan : ∀ {z : Float} (q : NaNOrigin), z.isNaN = true →
      orderKey q z = if q = .computed then -2 ^ 63 else 2 ^ 63 := by
    intro z q hz
    unfold orderKey
    simp only [hz, if_true]
    cases q <;> rfl
  have hnumber : ∀ {z : Float} (q : NaNOrigin), z.isNaN = false →
      -2 ^ 63 < orderKey q z ∧ orderKey q z < 2 ^ 63 := by
    intro z q hz
    rw [orderKey_eq_position q hz]
    have hbounds := position_unpacked_bounds hz
    omega
  unfold Precedes
  cases hx : x.isNaN with
  | true =>
    rw [if_pos rfl, hnan o hx]
    cases hy : y.isNaN with
    | true =>
      rw [hnan p hy]
      cases o <;> cases p <;> decide
    | false =>
      have hbounds := hnumber p hy
      cases o with
      | computed => exact iff_of_true hbounds.1.le (.inl rfl)
      | given => exact iff_of_false hbounds.2.not_ge (by simp)
  | false =>
    rw [if_neg Bool.false_ne_true]
    cases hy : y.isNaN with
    | true =>
      rw [if_pos rfl, hnan p hy]
      have hbounds := hnumber o hx
      cases p with
      | computed => exact iff_of_false hbounds.1.not_ge (by decide)
      | given => exact iff_of_true hbounds.2.le rfl
    | false =>
      rw [if_neg Bool.false_ne_true]
      exact orderKey_le_iff_of_number hx hy o p

end Binary64
end PageContent
