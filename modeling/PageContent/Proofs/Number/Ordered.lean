/-
# Doubles in order

A double that is no NaN has a rank among the rational numbers and two ends for the
infinities, and comparisons are about ranks (`le_iff_rank`), so `≤` is transitive and, but
for a NaN, total.

| operation | order |
| --- | --- |
| sum, product, quotient | not negative if the operands are not (`nonneg_add`, …) |
| rounding | keeps the order of positive numbers (`magnitude_mono`) |
| packing | keeps it too: what overflows is the largest of all (`rank_ofUnpacked_mono`) |
| difference | the more is taken from a double, the less remains (`sub_le_sub_left`) |
-/

import PageContent.Proofs.Number.Within

namespace PageContent
namespace Binary64

open Float.Model (UnpackedFloat)
open Float.Model.UnpackedFloat (Sign)

/-! ## Ranks -/

/-- Where a reading stands among the numbers and the infinities; a NaN counts as `0`. -/
def rank : UnpackedFloat → WithBot (WithTop ℚ)
  | .infinity .negative => ⊥
  | .infinity .positive => ((⊤ : WithTop ℚ) : WithBot (WithTop ℚ))
  | u => ((valueOf u : WithTop ℚ) : WithBot (WithTop ℚ))

theorem rank_of_isFinite {u : UnpackedFloat} (h : u.isFinite = true) :
    rank u = ((valueOf u : WithTop ℚ) : WithBot (WithTop ℚ)) := by
  cases u with
  | infinity s => exact absurd h Bool.false_ne_true
  | _ => rfl

theorem compare_coe_coe (a b : ℚ) :
    compare ((a : WithTop ℚ) : WithBot (WithTop ℚ)) ((b : WithTop ℚ) : WithBot (WithTop ℚ)) =
      compare a b := by
  rcases lt_trichotomy a b with h | rfl | h
  · rw [compare_lt_iff_lt.2 h, compare_lt_iff_lt.2 (by exact_mod_cast h)]
  · rw [compare_eq_iff_eq.2 rfl, compare_eq_iff_eq.2 rfl]
  · rw [compare_gt_iff_gt.2 h, compare_gt_iff_gt.2 (by exact_mod_cast h)]

theorem bot_lt_rank {u : UnpackedFloat} (h : u ≠ .infinity .negative) : ⊥ < rank u := by
  cases u with
  | infinity s =>
    cases s with
    | negative => exact absurd rfl h
    | positive => exact WithBot.bot_lt_coe _
  | _ => exact WithBot.bot_lt_coe _

theorem rank_lt_top {u : UnpackedFloat} (h : u ≠ .infinity .positive) :
    rank u < rank (.infinity .positive) := by
  cases u with
  | infinity s =>
    cases s with
    | negative => exact WithBot.bot_lt_coe _
    | positive => exact absurd rfl h
  | _ => exact WithBot.coe_lt_coe.2 (WithTop.coe_lt_top _)

/-- **Readings are compared as their ranks.** -/
theorem compare_eq_rank {u v : UnpackedFloat} (hu : IsRounded u) (hv : IsRounded v)
    (hu' : u.isNaN = false) (hv' : v.isNaN = false) :
    u.compare v = some (compare (rank u) (rank v)) := by
  have hfinite : u.isFinite = true → v.isFinite = true →
      u.compare v = some (compare (rank u) (rank v)) := fun hu' hv' => by
    rw [compare_eq hu hv hu' hv', rank_of_isFinite hu', rank_of_isFinite hv', compare_coe_coe]
  cases u with
  | notANumber => exact absurd hu' Bool.noConfusion
  | infinity s =>
    by_cases heq : v = .infinity s
    · rw [heq, compare_eq_iff_eq.2 rfl]
      cases s <;> rfl
    · cases s with
      | negative =>
        rw [show rank (.infinity .negative) = ⊥ from rfl, compare_lt_iff_lt.2 (bot_lt_rank heq)]
        cases v with
        | notANumber => exact absurd hv' Bool.noConfusion
        | infinity t => cases t with
          | negative => exact absurd rfl heq
          | positive => rfl
        | _ => rfl
      | positive =>
        rw [compare_gt_iff_gt.2 (rank_lt_top heq)]
        cases v with
        | notANumber => exact absurd hv' Bool.noConfusion
        | infinity t => cases t with
          | negative => rfl
          | positive => exact absurd rfl heq
        | _ => rfl
  | zero s =>
    cases v with
    | notANumber => exact absurd hv' Bool.noConfusion
    | infinity t => cases t <;> rfl
    | _ => exact hfinite rfl rfl
  | finite s m e hm =>
    cases v with
    | notANumber => exact absurd hv' Bool.noConfusion
    | infinity t => cases s <;> cases t <;> rfl
    | _ => exact hfinite rfl rfl

section Comparing

variable {x y z : Float}

theorem le_iff (x y : Float) :
    x ≤ y ↔ ((unpacked x).compare (unpacked y)).any (·.isLE) = true := by
  show decide (((unpacked x).compare (unpacked y)).any (·.isLE) = true) = true ↔ _
  rw [decide_eq_true_iff]

/-- A NaN is not compared with anything. -/
theorem isNaN_of_le (h : x ≤ y) : x.isNaN = false ∧ y.isNaN = false := by
  rw [le_iff] at h
  rw [isNaN_eq, isNaN_eq]
  generalize unpacked x = u at *
  generalize unpacked y = v at *
  cases u with
  | notANumber => exact absurd h Bool.false_ne_true
  | _ =>
    cases v with
    | notANumber => exact absurd h Bool.false_ne_true
    | _ => exact ⟨rfl, rfl⟩

theorem le_iff_rank (hx : x.isNaN = false) (hy : y.isNaN = false) :
    x ≤ y ↔ rank (unpacked x) ≤ rank (unpacked y) := by
  rw [le_iff, compare_eq_rank (rounded_unpacked x).1 (rounded_unpacked y).1 hx hy, Option.any_some,
    Ordering.isLE_iff_ne_gt]
  exact compare_le_iff_le

theorem lt_iff_rank (hx : x.isNaN = false) (hy : y.isNaN = false) :
    x < y ↔ rank (unpacked x) < rank (unpacked y) := by
  rw [lt_iff, compare_eq_rank (rounded_unpacked x).1 (rounded_unpacked y).1 hx hy,
    Option.some.injEq, compare_lt_iff_lt]

/-- But for a NaN, the order is total. -/
protected theorem le_of_not_lt (hx : x.isNaN = false) (hy : y.isNaN = false) (h : ¬ y < x) : x ≤ y := by
  rw [le_iff_rank hx hy, ← not_lt, ← lt_iff_rank hy hx]
  exact h

protected theorem le_trans (hxy : x ≤ y) (hyz : y ≤ z) : x ≤ z := by
  obtain ⟨hx, hy⟩ := isNaN_of_le hxy
  obtain ⟨-, hz⟩ := isNaN_of_le hyz
  rw [le_iff_rank hx hy] at hxy
  rw [le_iff_rank hy hz] at hyz
  exact (le_iff_rank hx hz).2 (hxy.trans hyz)

theorem isNaN_of_lt (h : x < y) : x.isNaN = false ∧ y.isNaN = false := by
  refine isNaN_of_le ((le_iff x y).2 ?_)
  rw [(lt_iff x y).1 h]
  rfl

protected theorem lt_of_le_of_lt (hxy : x ≤ y) (hyz : y < z) : x < z := by
  obtain ⟨hx, hy⟩ := isNaN_of_le hxy
  obtain ⟨-, hz⟩ := isNaN_of_lt hyz
  rw [le_iff_rank hx hy] at hxy
  rw [lt_iff_rank hy hz] at hyz
  exact (lt_iff_rank hx hz).2 (hxy.trans_lt hyz)

end Comparing

/-! ## What is not negative -/

/-- A zero, or a positive number or infinity. -/
def IsNonneg : UnpackedFloat → Prop
  | .zero _ => True
  | .finite s _ _ _ => s = .positive
  | .infinity s => s = .positive
  | .notANumber => False

theorem nonneg_iff (x : Float) : 0 ≤ x ↔ IsNonneg (unpacked x) := by
  have hzero : unpacked 0 = .zero .positive := rfl
  rw [le_iff, hzero]
  generalize unpacked x = u
  cases u with
  | notANumber => exact iff_of_false Bool.false_ne_true id
  | zero s => exact iff_of_true rfl trivial
  | infinity s =>
    cases s with
    | positive => exact iff_of_true rfl rfl
    | negative => exact iff_of_false Bool.false_ne_true nofun
  | finite s m e hm =>
    cases s with
    | positive => exact iff_of_true rfl rfl
    | negative => exact iff_of_false Bool.false_ne_true nofun

/-- Packing makes nothing negative. -/
theorem IsNonneg.ofUnpacked {u : UnpackedFloat} (h : IsNonneg u) (hu : IsRounded u) :
    0 ≤ ofUnpacked u := by
  rw [nonneg_iff]
  by_cases hrange : InRange u
  · rwa [unpacked_ofUnpacked hu hrange]
  · cases u with
    | finite s m e hm =>
      obtain rfl : s = .positive := h
      rw [unpacked_ofUnpacked_of_overflow (Int.not_le.1 hrange)]
      rfl
    | _ => exact absurd trivial hrange

theorem isNonneg_rounded (q : ℚ) : IsNonneg (rounded .positive q) := by
  rw [rounded, carried]
  split
  · trivial
  · split <;> rfl

theorem zero_le_ofUnpacked_rounded {q : ℚ} (hq : 0 ≤ q) : 0 ≤ ofUnpacked (rounded .positive q) :=
  (isNonneg_rounded q).ofUnpacked (isRounded_rounded _ hq)

theorem isNonneg_normalize {m e : ℤ} {t : Sign} (h : 0 ≤ m) :
    IsNonneg (UnpackedFloat.normalize .binary64 m e t) := by
  rcases eq_or_ne m 0 with rfl | hm
  · rw [normalize_eq, if_pos rfl]
    trivial
  · rw [normalize_eq_rounded hm, if_neg (not_lt.2 h)]
    exact isNonneg_rounded _

section Nonneg

variable {x y : Float}

theorem exists_unpacked_of_pos (hy : 0 < y) (hfinite : y.isFinite = true) :
    ∃ n f hn, unpacked y = .finite .positive n f hn := by
  rw [isFinite_eq] at hfinite
  have hzero : unpacked 0 = .zero .positive := rfl
  rw [lt_iff, hzero] at hy
  obtain ⟨s, hs⟩ | ⟨s, n, f, hn, hs⟩ := zero_or_finite hfinite
  · rw [hs] at hy
    exact absurd hy nofun
  · cases s with
    | positive => exact ⟨n, f, hn, hs⟩
    | negative =>
      rw [hs] at hy
      exact absurd hy nofun

theorem nonneg_add (hx : 0 ≤ x) (hy : 0 ≤ y) : 0 ≤ x + y := by
  have hu := (rounded_unpacked x).1
  have hv := (rounded_unpacked y).1
  rw [nonneg_iff] at hx hy
  rw [add_eq]
  refine IsNonneg.ofUnpacked ?_ (isRounded_add hu hv)
  generalize unpacked x = u at *
  generalize unpacked y = v at *
  cases u with
  | notANumber => exact hx.elim
  | infinity s =>
    obtain rfl : s = .positive := hx
    cases v with
    | notANumber => exact hy.elim
    | infinity t =>
      obtain rfl : t = .positive := hy
      rfl
    | _ => rfl
  | zero s =>
    cases v with
    | zero t => cases s <;> cases t <;> trivial
    | _ => exact hy
  | finite s m e hm =>
    obtain rfl : s = .positive := hx
    cases v with
    | finite t n f hn =>
      obtain rfl : t = .positive := hy
      exact isNonneg_normalize (Int.add_nonneg (Int.natCast_nonneg _) (Int.natCast_nonneg _))
    | zero t => exact rfl
    | infinity t => exact hy
    | notANumber => exact hy.elim

theorem nonneg_mul (hx : 0 ≤ x) (hy : 0 < y) (hfinite : y.isFinite = true) : 0 ≤ x * y := by
  obtain ⟨n, f, hn, hv'⟩ := exists_unpacked_of_pos hy hfinite
  have hu := (rounded_unpacked x).1
  have hv := (rounded_unpacked y).1
  rw [nonneg_iff] at hx
  rw [mul_eq]
  refine IsNonneg.ofUnpacked ?_ (isRounded_mul hu hv)
  rw [hv'] at hv ⊢
  generalize unpacked x = u at *
  cases u with
  | notANumber => exact hx.elim
  | zero s => trivial
  | infinity s =>
    obtain rfl : s = .positive := hx
    rfl
  | finite s m e hm =>
    obtain rfl : s = .positive := hx
    rw [mul_eq_rounded]
    · exact isNonneg_rounded _
    · rcases le_log2_mul hu hv with h | ⟨h, h'⟩
      · exact .inl h
      · exact .inr (by omega)

theorem nonneg_div (hx : 0 ≤ x) (hy : 0 < y) (hfinite : y.isFinite = true) : 0 ≤ x / y := by
  obtain ⟨n, f, hn, hv⟩ := exists_unpacked_of_pos hy hfinite
  rw [nonneg_iff] at hx
  rw [div_eq, hv]
  generalize unpacked x = u at *
  cases u with
  | notANumber => exact hx.elim
  | zero s => exact IsNonneg.ofUnpacked (u := .zero _) trivial trivial
  | infinity s =>
    obtain rfl : s = .positive := hx
    exact IsNonneg.ofUnpacked (u := .infinity .positive) rfl trivial
  | finite s m e hm =>
    obtain rfl : s = .positive := hx
    rw [div_eq_rounded]
    exact zero_le_ofUnpacked_rounded (by positivity)

end Nonneg

/-! ## Rounding -/

theorem nearestEven_mono {p q : ℚ} (hp : 0 ≤ p) (h : p ≤ q) : nearestEven p ≤ nearestEven q := by
  rcases (Nat.floor_mono h).eq_or_lt with heq | hlt
  · have hfract : Int.fract p ≤ Int.fract q := by
      rw [Int.fract, Int.fract, ← natCast_floor_eq_intCast_floor hp,
        ← natCast_floor_eq_intCast_floor (hp.trans h), heq]
      exact sub_le_sub_right h _
    unfold nearestEven
    rw [heq]
    rcases lt_trichotomy (2 * Int.fract p) 1 with h | h | h
    · rw [compare_lt_iff_lt.2 h]
      exact floor_le_nearestEven q
    · rcases (show 1 ≤ 2 * Int.fract q by linarith).eq_or_lt with h' | h'
      · rw [compare_eq_iff_eq.2 h, compare_eq_iff_eq.2 h'.symm]
      · rw [compare_eq_iff_eq.2 h, compare_gt_iff_gt.2 h']
        show ⌊q⌋₊ + ⌊q⌋₊ % 2 ≤ ⌊q⌋₊ + 1
        omega
    · rw [compare_gt_iff_gt.2 h, compare_gt_iff_gt.2 (show 1 < 2 * Int.fract q by linarith)]
  · refine (nearestEven_le hp ?_).trans (floor_le_nearestEven q)
    have hfloor : ((⌊p⌋₊ + 1 : ℕ) : ℚ) ≤ ⌊q⌋₊ := by exact_mod_cast hlt
    push_cast at hfloor
    exact (Nat.lt_floor_add_one p).le.trans hfloor

/-- The number of the nearest reading. -/
def magnitude (q : ℚ) : ℚ := nearestEven (q / 2 ^ place q) * 2 ^ place q

theorem magnitude_nonneg (q : ℚ) : 0 ≤ magnitude q :=
  mul_nonneg (Nat.cast_nonneg _) (two_zpow_pos _).le

theorem valueOf_rounded (q : ℚ) : valueOf (rounded .positive q) = magnitude q := by
  rw [magnitude, ← abs_valueOf_carried .positive, ← rounded, abs_of_nonneg]
  rw [rounded, carried]
  split
  · rfl
  · split <;> exact (magnitude_pos (Nat.pos_of_ne_zero (by omega)) _).le

/-- **Rounding keeps the order.**  Either the numbers are measured in the same unit, or the lower
one in a smaller unit, and a power of two is between what they are rounded to. -/
theorem magnitude_mono {p q : ℚ} (hp : 0 ≤ p) (h : p ≤ q) : magnitude p ≤ magnitude q := by
  rcases hp.eq_or_lt with rfl | hpos
  · rw [magnitude, zero_div, nearestEven_of_lt_half le_rfl (by norm_num), Nat.cast_zero, zero_mul]
    exact magnitude_nonneg q
  have hpos' : 0 < q := hpos.trans_le h
  have hlog : Int.log 2 p ≤ Int.log 2 q := Int.log_mono_right hpos h
  have hplace : place p ≤ place q := by
    unfold place
    omega
  rcases hplace.eq_or_lt with heq | hlt
  · rw [magnitude, magnitude, heq]
    refine mul_le_mul_of_nonneg_right ?_ (two_zpow_pos _).le
    exact_mod_cast nearestEven_mono (div_nonneg hp (two_zpow_pos _).le)
      (div_le_div_of_nonneg_right h (two_zpow_pos _).le)
  · have hhigh : place q = Int.log 2 q - 52 := by
      unfold place at *
      omega
    have hle : ((nearestEven (p / 2 ^ place p) : ℕ) : ℚ) ≤ 2 ^ 53 := by
      exact_mod_cast nearestEven_place_le hpos
    have hge : (2 : ℚ) ^ 52 ≤ (nearestEven (q / 2 ^ place q) : ℕ) := by
      exact_mod_cast le_nearestEven_place hpos' hhigh
    calc magnitude p ≤ 2 ^ 53 * 2 ^ place p := mul_le_mul_of_nonneg_right hle (two_zpow_pos _).le
      _ = 2 ^ 52 * 2 ^ (place p + 1) := by
        rw [zpow_add_one₀ (by norm_num)]
        ring
      _ ≤ 2 ^ 52 * 2 ^ place q := by
        refine mul_le_mul_of_nonneg_left ?_ (by norm_num)
        exact zpow_le_zpow_right₀ (by norm_num) hlt
      _ ≤ magnitude q := mul_le_mul_of_nonneg_right hge (two_zpow_pos _).le

theorem rank_le_top (u : UnpackedFloat) : rank u ≤ rank (.infinity .positive) := by
  by_cases h : u = .infinity .positive
  · rw [h]
  · exact (rank_lt_top h).le

/-- What overflows is beyond the numbers in range. -/
theorem valueOf_lt_of_inRange {u : UnpackedFloat} (hu : IsRounded u) (hrange : InRange u)
    {s : Sign} {m : ℕ} {e : ℤ} {hm : 0 < m} (h : IsRounded (.finite s m e hm)) (he : 971 < e) :
    valueOf u < m * 2 ^ e := by
  have hpos := magnitude_pos hm e
  cases u with
  | finite t n f hn =>
    have hrange : f ≤ 971 := hrange
    cases t with
    | positive => exact mul_two_zpow_lt (by omega) hu.2.1 (h.2.2.resolve_left (by omega))
    | negative =>
      rw [valueOf_negative]
      exact (neg_lt_zero.2 (magnitude_pos hn f)).trans hpos
  | _ => exact hpos

/-- **Packing keeps the order**: what overflows is the largest of all. -/
theorem rank_ofUnpacked_mono {u v : UnpackedFloat} (hu : IsRounded u) (hv : IsRounded v)
    (hu' : u.isFinite = true) (hv' : v.isFinite = true) (hnonneg : 0 ≤ valueOf u)
    (h : valueOf u ≤ valueOf v) :
    rank (unpacked (ofUnpacked u)) ≤ rank (unpacked (ofUnpacked v)) := by
  by_cases hvrange : InRange v
  · by_cases hurange : InRange u
    · rw [unpacked_ofUnpacked hu hurange, unpacked_ofUnpacked hv hvrange, rank_of_isFinite hu',
        rank_of_isFinite hv']
      exact_mod_cast h
    · obtain ⟨s, rfl⟩ | ⟨s, m, e, hm, rfl⟩ := zero_or_finite hu'
      · exact absurd trivial hurange
      have hlt := valueOf_lt_of_inRange hv hvrange hu (Int.not_le.1 hurange)
      cases s with
      | positive => exact absurd h (not_le.2 hlt)
      | negative =>
        rw [valueOf_negative] at hnonneg
        exact absurd hnonneg (not_le.2 (neg_lt_zero.2 (magnitude_pos hm e)))
  · obtain ⟨t, rfl⟩ | ⟨t, n, f, hn, rfl⟩ := zero_or_finite hv'
    · exact absurd trivial hvrange
    cases t with
    | positive =>
      rw [unpacked_ofUnpacked_of_overflow (s := .positive) (Int.not_le.1 hvrange)]
      exact rank_le_top _
    | negative =>
      rw [valueOf_negative] at h
      exact absurd (hnonneg.trans h) (not_le.2 (neg_lt_zero.2 (magnitude_pos hn f)))

/-! ## Differences -/

theorem isFinite_rounded (s : Sign) (q : ℚ) : (rounded s q).isFinite = true := by
  rw [rounded, carried]
  split
  · rfl
  · split <;> rfl

theorem isNaN_ofUnpacked {u : UnpackedFloat} (hu : IsRounded u) (h : u.isNaN = false) :
    (ofUnpacked u).isNaN = false := by
  rw [isNaN_eq]
  by_cases hrange : InRange u
  · rwa [unpacked_ofUnpacked hu hrange]
  · cases u with
    | finite s m e hm =>
      rw [unpacked_ofUnpacked_of_overflow (Int.not_le.1 hrange)]
      rfl
    | _ => exact absurd trivial hrange

section Differences

variable {x y z : Float}

theorem isFinite_or_infinity (hx : x.isNaN = false) :
    x.isFinite = true ∨ ∃ s, unpacked x = .infinity s := by
  rw [isNaN_eq] at hx
  rw [isFinite_eq]
  generalize unpacked x = u at *
  cases u with
  | notANumber => exact absurd hx Bool.noConfusion
  | infinity s => exact .inr ⟨s, rfl⟩
  | _ => exact .inl rfl

theorem le_iff_value (hx : x.isFinite = true) (hy : y.isFinite = true) :
    x ≤ y ↔ value x ≤ value y := by
  rw [le_iff_rank (isNaN_of_isFinite hx) (isNaN_of_isFinite hy),
    rank_of_isFinite (u := unpacked x) hx, rank_of_isFinite (u := unpacked y) hy]
  exact WithBot.coe_le_coe.trans WithTop.coe_le_coe

theorem exists_sub_eq_rounded (hz : z.isFinite = true) (hy : y.isFinite = true) :
    ∃ s, z - y = ofUnpacked (rounded s |value z - value y|) := by
  have hneg : valueOf (unpacked y).neg = -valueOf (unpacked y) := by
    cases unpacked y with
    | finite s m e hm => cases s <;> simp [UnpackedFloat.neg, valueOf, Sign.apply]
    | _ => rfl
  obtain ⟨s, hs⟩ := exists_add_eq_rounded (rounded_unpacked z).1 (rounded_unpacked (-y)).1 hz
    ((isFinite_neg y).trans hy)
  rw [unpacked_neg, ← sub_eq_add_opposite, hneg, ← sub_eq_add_neg] at hs
  exact ⟨s, congrArg ofUnpacked hs⟩

/-- What is taken from a double in range leaves a number, or an infinity. -/
theorem isNaN_sub (hz : z.isFinite = true) (hy : y.isNaN = false) : (z - y).isNaN = false := by
  rcases isFinite_or_infinity hy with hfinite | ⟨s, hs⟩
  · obtain ⟨s, hs⟩ := exists_sub_eq_rounded hz hfinite
    rw [hs]
    refine isNaN_ofUnpacked (isRounded_rounded s (abs_nonneg _)) ?_
    have h := isFinite_rounded s |value z - value y|
    generalize rounded s |value z - value y| = u at *
    cases u with
    | notANumber => exact absurd h Bool.false_ne_true
    | _ => rfl
  · rw [sub_eq, hs]
    rw [isFinite_eq] at hz
    obtain ⟨t, ht⟩ | ⟨t, m, e, hm, ht⟩ := zero_or_finite hz <;> rw [ht] <;>
      exact isNaN_ofUnpacked (u := .infinity (-s)) trivial rfl

/-- The rank of a difference is that of the nearest positive reading. -/
theorem rank_sub (hz : z.isFinite = true) (hy : y.isFinite = true) (h : value y ≤ value z) :
    rank (unpacked (z - y)) =
      rank (unpacked (ofUnpacked (rounded .positive (value z - value y)))) := by
  obtain ⟨s, hs⟩ := exists_sub_eq_rounded hz hy
  have hnonneg := sub_nonneg.2 h
  rw [abs_of_nonneg hnonneg] at hs
  rcases h.eq_or_lt with heq | hlt
  · rw [hs, heq, sub_self, rounded_zero, rounded_zero,
      unpacked_ofUnpacked (u := .zero s) trivial trivial,
      unpacked_ofUnpacked (u := .zero .positive) trivial trivial]
    rfl
  · have hpos : 0 < z - y := (sub_pos_iff hz hy).2 ((lt_iff_value hy hz).2 hlt)
    cases s with
    | positive => rw [hs]
    | negative =>
      rw [hs, zero_lt_ofUnpacked (isRounded_rounded _ hnonneg), rounded] at hpos
      have hsign : Sign.negative ≠ .positive := Sign.noConfusion
      exact absurd ((compare_zero_carried fun h => absurd h hsign).1 hpos) hsign

/-- What is no larger than a double in range is in range, or the infinity below all. -/
theorem isFinite_or_bot (hz : z.isFinite = true) (h : y ≤ z) :
    y.isFinite = true ∨ unpacked y = .infinity .negative := by
  obtain ⟨hy, -⟩ := isNaN_of_le h
  rcases isFinite_or_infinity hy with hfinite | ⟨s, hs⟩
  · exact .inl hfinite
  · cases s with
    | negative => exact .inr hs
    | positive =>
      rw [le_iff_rank hy (isNaN_of_isFinite hz), hs] at h
      refine absurd h (not_le.2 (rank_lt_top fun hinfinity => ?_))
      rw [isFinite_eq, hinfinity] at hz
      exact Bool.false_ne_true hz

theorem unpacked_sub_bot (hz : z.isFinite = true) (hx : unpacked x = .infinity .negative) :
    unpacked (z - x) = .infinity .positive := by
  rw [isFinite_eq] at hz
  rw [sub_eq, hx]
  obtain ⟨t, ht⟩ | ⟨t, m, e, hm, ht⟩ := zero_or_finite hz <;> rw [ht] <;>
    exact unpacked_ofUnpacked (u := .infinity .positive) trivial trivial

/-- **The more is taken away, the less remains.** -/
protected theorem sub_le_sub_left (hz : z.isFinite = true) (hxy : x ≤ y) (hyz : y ≤ z) : z - y ≤ z - x := by
  obtain ⟨hx, hy⟩ := isNaN_of_le hxy
  rw [le_iff_rank (isNaN_sub hz hy) (isNaN_sub hz hx)]
  rcases isFinite_or_bot hz (Binary64.le_trans hxy hyz) with hfinite | hbot
  · rcases isFinite_or_bot hz hyz with hfinite' | hbot
    · rw [le_iff_value hfinite hfinite'] at hxy
      rw [le_iff_value hfinite' hz] at hyz
      rw [rank_sub hz hfinite' hyz, rank_sub hz hfinite (hxy.trans hyz)]
      have hnonneg : 0 ≤ value z - value y := sub_nonneg.2 hyz
      have hle : value z - value y ≤ value z - value x := by linarith
      refine rank_ofUnpacked_mono (isRounded_rounded _ hnonneg)
        (isRounded_rounded _ (hnonneg.trans hle)) (isFinite_rounded _ _) (isFinite_rounded _ _) ?_ ?_
      · rw [valueOf_rounded]
        exact magnitude_nonneg _
      · rw [valueOf_rounded, valueOf_rounded]
        exact magnitude_mono hnonneg hle
    · rw [le_iff_rank hx hy, hbot, rank_of_isFinite (u := unpacked x) hfinite] at hxy
      exact absurd hxy (not_le.2 (WithBot.bot_lt_coe _))
  · rw [unpacked_sub_bot hz hbot]
    exact rank_le_top _

end Differences

end Binary64
end PageContent
