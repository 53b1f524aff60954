/-
# Doubles times a power of two

`Scaled k x y` says that `y` is `x · 2 ^ k` exactly: the same sign and mantissa
under another exponent, or the same infinity, NaN or zero.  The order of doubles
does not see a common power of two (`Scaled.lt_iff`), and arithmetic passes it
on as long as nothing overflows or underflows:

| operation | operands | result | exact if |
| --- | --- | --- | --- |
| `x - y` | both `2 ^ k` | `2 ^ k` | level, or normal before and after |
| `x + y` | both `2 ^ k` | `2 ^ k` | one is a zero, or normal before and after |
| `x * y` | `2 ^ j` and `2 ^ k` | `2 ^ (j + k)` | normal before and after |
| `√x` | `2 ^ (2 k)` | `2 ^ k` | zero, or normal before and after |

A double is normal if it is finite and beyond the least one of 53 bits.
-/

import PageContent.Proofs.Number.Rounding

namespace PageContent
namespace Binary64

open Float.Model (UnpackedFloat Format)
open Float.Model.UnpackedFloat (Sign)

theorem add_eq (x y : Float) :
    x + y = ofUnpacked (.add .binary64 (unpacked x) (unpacked y)) := rfl

theorem sub_eq (x y : Float) :
    x - y = ofUnpacked (.sub .binary64 (unpacked x) (unpacked y)) := rfl

theorem mul_eq (x y : Float) :
    x * y = ofUnpacked (.mul .binary64 (unpacked x) (unpacked y)) := rfl

theorem div_eq (x y : Float) :
    x / y = ofUnpacked (.div .binary64 (unpacked x) (unpacked y)) := rfl

theorem sqrt_eq (x : Float) : x.sqrt = ofUnpacked (.sqrt .binary64 (unpacked x)) := rfl

theorem abs_eq (x : Float) : x.abs = ofUnpacked (unpacked x).abs := rfl

/-! ## Normal doubles -/

/-- The least positive double with all 53 bits. -/
def leastNormal : Float := Float.ofBits 0x0010000000000000

theorem unpacked_leastNormal :
    unpacked leastNormal = .finite .positive (2 ^ 52) (-1074) (by decide) := rfl

/-- A finite double beyond the least one that has all 53 bits: it neither came of an overflow
nor of an underflow. -/
def IsNormal (x : Float) : Prop := x.isFinite = true ∧ leastNormal < x.abs

instance (x : Float) : Decidable (IsNormal x) :=
  inferInstanceAs (Decidable (x.isFinite = true ∧ leastNormal < x.abs))

theorem IsNormal.isFull {x : Float} (h : IsNormal x) : IsFull (unpacked x) := by
  obtain ⟨hfinite, hlt⟩ := h
  rw [lt_iff, abs_eq, unpacked_leastNormal] at hlt
  rw [isFinite_eq] at hfinite
  obtain ⟨hrounded, hrange⟩ := rounded_unpacked x
  generalize unpacked x = u at *
  cases u with
  | notANumber => exact absurd hfinite Bool.false_ne_true
  | infinity s => exact absurd hfinite Bool.false_ne_true
  | zero s => exact absurd hlt (by cases s <;> decide)
  | finite s m e hm =>
    have habs : unpacked (ofUnpacked (UnpackedFloat.finite s m e hm).abs) =
        .finite .positive m e hm := unpacked_ofUnpacked hrounded hrange
    rw [habs] at hlt
    simp only [UnpackedFloat.compare, Option.some.injEq] at hlt
    rw [Ordering.then_eq_lt, Int.compare_eq_lt, Int.compare_eq_eq, Nat.compare_eq_lt] at hlt
    exact hlt.imp id And.right

/-- A result that is normal was full before it was packed. -/
theorem IsNormal.isFull_raw {u : UnpackedFloat} (hu : IsRounded u)
    (h : IsNormal (ofUnpacked u)) : IsFull u := by
  have hfull := h.isFull
  rwa [unpacked_ofUnpacked hu (inRange_of_isFinite h.1)] at hfull

/-- A result before and after scaling that neither overflowed nor underflowed: a zero, or normal
both times. -/
def IsSafe (x x' : Float) : Prop := (∃ s, unpacked x = .zero s) ∨ IsNormal x ∧ IsNormal x'

/-! ## Scaled doubles -/

/-- The second double is the first times `2 ^ k`. -/
def Scaled (k : Int) (x y : Float) : Prop := unpacked y = shift k (unpacked x)

theorem compare_shift (k : Int) (u v : UnpackedFloat) :
    (shift k u).compare (shift k v) = u.compare v := by
  have hcompare : ∀ a b : Int, compare (a + k) (b + k) = compare a b := by
    intro a b
    simp only [Int.compare_eq_ite_lt]
    split_ifs <;> first | rfl | omega
  cases u with
  | finite s m e hm =>
    cases v with
    | finite t n f hn =>
      cases s <;> cases t <;> simp only [shift, UnpackedFloat.compare, hcompare]
    | infinity t => cases s <;> cases t <;> rfl
    | _ => cases s <;> rfl
  | infinity s =>
    cases v with
    | finite t n f hn => cases s <;> cases t <;> rfl
    | _ => rfl
  | _ =>
    cases v with
    | finite t n f hn => cases t <;> rfl
    | _ => rfl

theorem shift_inj {k : Int} {u v : UnpackedFloat} (h : shift k u = shift k v) : u = v := by
  cases u with
  | finite s m e hm =>
    cases v with
    | finite t n f hn =>
      obtain ⟨rfl, rfl, he⟩ := UnpackedFloat.finite.inj h
      obtain rfl : e = f := by omega
      rfl
    | _ => exact absurd h (by simp [shift])
  | _ => cases v <;> first | exact h | exact absurd h (by simp [shift])

theorem shift_shift (j k : Int) (u : UnpackedFloat) : shift k (shift j u) = shift (j + k) u := by
  cases u with
  | finite s m e hm => rw [shift_finite, shift_finite, shift_finite, Int.add_assoc]
  | _ => rfl

theorem shift_eq_self (u : UnpackedFloat) : shift 0 u = u := by
  cases u with
  | finite s m e hm => rw [shift_finite, Int.add_zero]
  | _ => rfl

namespace Scaled

variable {j k : Int} {x x' y y' : Float}

theorem refl (x : Float) : Scaled 0 x x := (shift_eq_self _).symm

/-- **Order does not see a common power of two.** -/
theorem lt_iff (hx : Scaled k x x') (hy : Scaled k y y') : x' < y' ↔ x < y := by
  rw [Binary64.lt_iff, Binary64.lt_iff, hx, hy, compare_shift]

/-- A double has one multiple. -/
theorem right_unique (hx : Scaled k x x') (hy : Scaled k x y') : x' = y' :=
  unpacked_inj (hx.trans hy.symm)

/-- A double is the multiple of one only. -/
theorem left_unique (hx : Scaled k x x') (hy : Scaled k y x') : x = y :=
  unpacked_inj (shift_inj (hx.symm.trans hy))

theorem isNaN_eq (hx : Scaled k x x') : x'.isNaN = x.isNaN := by
  rw [Binary64.isNaN_eq, Binary64.isNaN_eq, hx]
  cases unpacked x <;> rfl

theorem isFinite_eq (hx : Scaled k x x') : x'.isFinite = x.isFinite := by
  rw [Binary64.isFinite_eq, Binary64.isFinite_eq, hx]
  cases unpacked x <;> rfl

theorem of_raw {u v : UnpackedFloat} (hu : IsRounded u ∧ InRange u) (hv : IsRounded v ∧ InRange v)
    (h : v = shift k u) : Scaled k (ofUnpacked u) (ofUnpacked v) := by
  rw [Scaled, unpacked_ofUnpacked hu.1 hu.2, unpacked_ofUnpacked hv.1 hv.2, h]

theorem isRounded_shift (hx : Scaled k x x') :
    IsRounded (shift k (unpacked x)) ∧ InRange (shift k (unpacked x)) := by
  have h := rounded_unpacked x'
  rwa [hx] at h

/-- Differences scale along. -/
theorem sub (hx : Scaled k x x') (hy : Scaled k y y')
    (h : (x == y) = true ∨ IsNormal (x - y) ∧ IsNormal (x' - y')) :
    Scaled k (x - y) (x' - y') := by
  have hraw := isRounded_sub (rounded_unpacked x).1 (rounded_unpacked y).1
  have hraw' := isRounded_sub hx.isRounded_shift.1 hy.isRounded_shift.1
  rw [sub_eq x', hx, hy] at h ⊢
  rw [sub_eq] at h ⊢
  rcases h with h | ⟨h, h'⟩
  · rw [beq_iff] at h
    have hrange : ∀ {u v : UnpackedFloat}, u.compare v = some .eq →
        InRange (.sub .binary64 u v) := by
      intro u v huv
      rcases sub_of_compare_eq huv with ⟨s, hs⟩ | hs <;> rw [hs] <;> trivial
    have heq := (compare_shift k (unpacked x) (unpacked y)).trans h
    exact of_raw ⟨hraw, hrange h⟩ ⟨hraw', hrange heq⟩ (sub_shift k (.inl h))
  · exact of_raw ⟨hraw, inRange_of_isFinite h.1⟩ ⟨hraw', inRange_of_isFinite h'.1⟩
      (sub_shift k (.inr ⟨IsNormal.isFull_raw hraw h, IsNormal.isFull_raw hraw' h'⟩))

/-- The difference of level finite doubles is a zero. -/
theorem unpacked_sub_of_beq (h : (x == y) = true) (hfinite : x.isFinite = true) :
    ∃ s, unpacked (x - y) = .zero s := by
  rw [sub_eq]
  rw [Binary64.isFinite_eq] at hfinite
  rcases sub_of_compare_eq ((beq_iff x y).1 h) with ⟨s, hs⟩ | hnan
  · exact ⟨s, by rw [hs, unpacked_ofUnpacked (by trivial) (by trivial)]⟩
  · rcases eq_or_zero_of_beq h with rfl | ⟨s, t, hx, hy⟩
    · generalize unpacked x = u at *
      cases u with
      | finite s m e hm =>
        simp only [UnpackedFloat.sub, normalize_eq, Int.sub_self, if_true] at hnan
        exact absurd hnan (by simp)
      | zero s => cases s <;> exact UnpackedFloat.noConfusion hnan
      | _ => exact absurd hfinite Bool.false_ne_true
    · rw [hx, hy] at hnan
      cases s <;> cases t <;> exact UnpackedFloat.noConfusion hnan

/-- Products scale by both powers. -/
theorem mul (hx : Scaled j x x') (hy : Scaled k y y') (h : IsNormal (x * y))
    (h' : IsNormal (x' * y')) : Scaled (j + k) (x * y) (x' * y') := by
  have hraw := isRounded_mul (rounded_unpacked x).1 (rounded_unpacked y).1
  have hraw' := isRounded_mul hx.isRounded_shift.1 hy.isRounded_shift.1
  rw [mul_eq] at h h' ⊢
  rw [mul_eq x', hx, hy] at *
  exact of_raw ⟨hraw, inRange_of_isFinite h.1⟩ ⟨hraw', inRange_of_isFinite h'.1⟩
    (mul_shift (rounded_unpacked x).1 (rounded_unpacked y).1 hx.isRounded_shift.1
      hy.isRounded_shift.1 (IsNormal.isFull_raw hraw h) (IsNormal.isFull_raw hraw' h'))

/-- Sums scale along. -/
theorem add (hx : Scaled k x x') (hy : Scaled k y y')
    (h : ((∃ s, unpacked x = .zero s) ∨ ∃ s, unpacked y = .zero s) ∨
      IsNormal (x + y) ∧ IsNormal (x' + y')) : Scaled k (x + y) (x' + y') := by
  have hraw := isRounded_add (rounded_unpacked x).1 (rounded_unpacked y).1
  have hraw' := isRounded_add hx.isRounded_shift.1 hy.isRounded_shift.1
  have hx' := hx.isRounded_shift.2
  have hy' := hy.isRounded_shift.2
  rw [add_eq x', hx, hy] at h ⊢
  rw [add_eq] at h ⊢
  rcases h with h | ⟨h, h'⟩
  · have hrange : ∀ {u v : UnpackedFloat}, (∃ s, u = .zero s) ∨ (∃ s, v = .zero s) →
        InRange u → InRange v → InRange (.add .binary64 u v) := by
      rintro u v (⟨s, rfl⟩ | ⟨s, rfl⟩) hu hv
      · cases v with
        | zero t => cases s <;> cases t <;> trivial
        | _ => exact hv
      · cases u with
        | zero t => cases s <;> cases t <;> trivial
        | _ => exact hu
    have hzero : (∃ s, shift k (unpacked x) = .zero s) ∨ ∃ s, shift k (unpacked y) = .zero s :=
      h.imp (fun ⟨s, hs⟩ => ⟨s, by rw [hs, shift_zero]⟩) fun ⟨s, hs⟩ => ⟨s, by rw [hs, shift_zero]⟩
    exact of_raw ⟨hraw, hrange h (rounded_unpacked x).2 (rounded_unpacked y).2⟩
      ⟨hraw', hrange hzero hx' hy'⟩ (add_shift k (.inr h))
  · exact of_raw ⟨hraw, inRange_of_isFinite h.1⟩ ⟨hraw', inRange_of_isFinite h'.1⟩
      (add_shift k (.inl ⟨IsNormal.isFull_raw hraw h, IsNormal.isFull_raw hraw' h'⟩))

/-- Roots scale by half the power. -/
theorem sqrt (hx : Scaled (2 * k) x x') (h : IsSafe x x') : Scaled k x.sqrt x'.sqrt := by
  have hrounded := rounded_unpacked x
  have hrounded' := hx.isRounded_shift
  rw [sqrt_eq, sqrt_eq, hx]
  rcases h with ⟨s, hs⟩ | ⟨h, h'⟩
  · rw [hs]
    exact of_raw ⟨trivial, trivial⟩ ⟨trivial, trivial⟩ rfl
  · have hfull := h.isFull
    have hfull' := h'.isFull
    rw [hx] at hfull'
    generalize unpacked x = u at *
    cases u with
    | finite s m e hm =>
      cases s with
      | negative => exact of_raw ⟨trivial, trivial⟩ ⟨trivial, trivial⟩ rfl
      | positive =>
        have hm'' := le_mantissa hrounded.1 hfull
        obtain ⟨⟨he, hm', -⟩, hhi⟩ := hrounded
        obtain ⟨⟨he', -, -⟩, hhi'⟩ := hrounded'
        exact of_raw (isRounded_sqrt hm'' hm' he hhi) (isRounded_sqrt hm'' hm' he' hhi')
          (sqrt_shift hm'' hm' he he')
    | _ => exact hfull.elim

/-- A zero scales to a zero. -/
theorem unpacked_zero (hx : Scaled k x x') {s : Sign} (h : unpacked x = .zero s) :
    unpacked x' = .zero s := by
  rw [hx, h, shift_zero]

theorem unpacked_mul_zero {s : Sign} (h : unpacked x = .zero s) :
    unpacked (x * x) = .zero .positive := by
  rw [mul_eq, h]
  cases s <;> rfl

/-- Squares scale by twice the power. -/
theorem square (hx : Scaled k x x')
    (h : (∃ s, unpacked x = .zero s) ∨ IsNormal (x * x) ∧ IsNormal (x' * x')) :
    Scaled (2 * k) (x * x) (x' * x') ∧ IsSafe (x * x) (x' * x') := by
  rcases h with ⟨s, hs⟩ | ⟨h, h'⟩
  · have hzero := unpacked_mul_zero hs
    refine ⟨?_, .inl ⟨_, hzero⟩⟩
    rw [Scaled, hzero, unpacked_mul_zero (hx.unpacked_zero hs), shift_zero]
  · rw [Int.two_mul]
    exact ⟨hx.mul hx h h', .inr ⟨h, h'⟩⟩

theorem add_of_unpacked_zero {s : Sign} (hx : unpacked x = .zero s)
    (hy : ∀ t, unpacked y ≠ .zero t) : x + y = y ∧ y + x = y := by
  have hrounded := rounded_unpacked y
  constructor <;> refine unpacked_inj ?_ <;> rw [add_eq, hx]
  · have hsum : UnpackedFloat.add .binary64 (.zero s) (unpacked y) = unpacked y := by
      generalize unpacked y = v at hy
      cases v with
      | zero t => exact absurd rfl (hy t)
      | _ => rfl
    rw [hsum, unpacked_ofUnpacked hrounded.1 hrounded.2]
  · have hsum : UnpackedFloat.add .binary64 (unpacked y) (.zero s) = unpacked y := by
      generalize unpacked y = v at hy
      cases v with
      | zero t => exact absurd rfl (hy t)
      | _ => rfl
    rw [hsum, unpacked_ofUnpacked hrounded.1 hrounded.2]

theorem unpacked_add_zero {s t : Sign} (hx : unpacked x = .zero s) (hy : unpacked y = .zero t) :
    ∃ r, unpacked (x + y) = .zero r := by
  rw [add_eq, hx, hy]
  cases s <;> cases t <;> exact ⟨_, rfl⟩

/-- A normal double is no zero. -/
theorem ne_zero_of_isNormal (h : IsNormal x) (t : Sign) : unpacked x ≠ .zero t := by
  intro hzero
  have hfull := h.isFull
  rw [hzero] at hfull
  exact hfull

/-- Sums of what is safe are safe if one is a zero, or the sum is normal. -/
theorem isSafe_add (hx : Scaled k x x') (hy : Scaled k y y') (hxsafe : IsSafe x x')
    (hysafe : IsSafe y y')
    (h : ((∃ s, unpacked x = .zero s) ∨ ∃ s, unpacked y = .zero s) ∨
      IsNormal (x + y) ∧ IsNormal (x' + y')) : IsSafe (x + y) (x' + y') := by
  rcases h with h | h
  · rcases hxsafe with ⟨s, hs⟩ | ⟨hxr, hxr'⟩
    · rcases hysafe with ⟨t, ht⟩ | ⟨hyr, hyr'⟩
      · exact .inl (unpacked_add_zero hs ht)
      · rw [(add_of_unpacked_zero hs (ne_zero_of_isNormal hyr)).1,
          (add_of_unpacked_zero (hx.unpacked_zero hs) (ne_zero_of_isNormal hyr')).1]
        exact .inr ⟨hyr, hyr'⟩
    · obtain ⟨t, ht⟩ : ∃ t, unpacked y = .zero t :=
        h.resolve_left fun ⟨s, hs⟩ => ne_zero_of_isNormal hxr s hs
      rw [(add_of_unpacked_zero ht (ne_zero_of_isNormal hxr)).2,
        (add_of_unpacked_zero (hy.unpacked_zero ht) (ne_zero_of_isNormal hxr')).2]
      exact .inr ⟨hxr, hxr'⟩
  · exact .inr h

/-- The smaller of two doubles scales along. -/
theorem least (hx : Scaled k x x') (hy : Scaled k y y') :
    Scaled k (Binary64.least x y) (Binary64.least x' y') := by
  unfold Binary64.least
  rw [hy.isNaN_eq, show decide (x' < y') = decide (x < y) from decide_eq_decide.2 (hx.lt_iff hy)]
  split
  · exact hx
  · exact hy

/-- So does the larger one. -/
theorem greatest (hx : Scaled k x x') (hy : Scaled k y y') :
    Scaled k (Binary64.greatest x y) (Binary64.greatest x' y') := by
  unfold Binary64.greatest
  rw [hy.isNaN_eq, show decide (y' < x') = decide (y < x) from decide_eq_decide.2 (hy.lt_iff hx)]
  split
  · exact hx
  · exact hy

end Scaled

/-! ## Powers of two -/

/-- The double is `2 ^ k`. -/
def IsTwoPow (k : Int) (s : Float) : Prop :=
  ∃ (n : Nat) (h : 0 < 2 ^ n), unpacked s = .finite .positive (2 ^ n) (k - n) h

theorem isTwoPow_one : IsTwoPow 0 1 := ⟨52, Nat.two_pow_pos 52, rfl⟩

theorem isTwoPow_two : IsTwoPow 1 2 := ⟨52, Nat.two_pow_pos 52, rfl⟩

theorem carried_eq_finite {s : Sign} {m : Nat} {e : Int} (hm : 0 < m) (hm' : m < 2 ^ 53) :
    carried s m e = .finite s m e hm := by
  rw [carried, dif_neg (by omega), if_neg (by omega)]

/-- The exponent at which a mantissa already stands, whatever zeros were appended to it. -/
theorem eq_target {m n : Nat} {e : Int} (hm : 0 < m) (hm' : m < 2 ^ 53) (he : -1074 ≤ e)
    (hlo : e = -1074 ∨ 2 ^ 52 ≤ m) : e = max ((m <<< n).log2 + 1 + (e - n) - 53) (-1074) := by
  have hhi := (Nat.log2_lt (by omega)).2 hm'
  rw [log2_shiftLeft (by omega)]
  rcases hlo with rfl | hlo
  · omega
  · have hlog := (Nat.le_log2 (by omega)).2 hlo
    omega

/-- Zeros appended to a rounded mantissa are rounded away again. -/
theorem roundWithAccuracy_shiftLeft {s : Sign} {m n : Nat} {e : Int} {hm : 0 < m}
    (h : IsRounded (.finite s m e hm)) :
    Float.Model.UnpackedFloat.roundWithAccuracy .binary64 s (m <<< n) (e - n) .exact =
      .finite s m e hm := by
  obtain ⟨he, hm', hlo⟩ := h
  have hn : (e - (e - n)).toNat = n := by omega
  obtain ⟨-, heq⟩ := roundWithAccuracy_eq_carried s .exact (eq_target hm hm' he hlo) (by omega)
  rw [heq, hn, Nat.shiftLeft_eq, leading_mul_two_pow, carried_eq_finite hm hm']

/-- Multiplying by a power of two moves the exponent if the mantissa keeps its room. -/
theorem mul_two_pow {u : UnpackedFloat} {k : Int} {n : Nat} (h : 0 < 2 ^ n)
    (hu : IsRounded (shift k u)) :
    UnpackedFloat.mul .binary64 u (.finite .positive (2 ^ n) (k - n) h) = shift k u := by
  cases u with
  | finite s m e hm =>
    have hsign : s * .positive = s := by cases s <;> rfl
    have hexp : e + (k - n) = e + k - n := by omega
    rw [UnpackedFloat.mul, hsign, hexp, ← Nat.shiftLeft_eq]
    exact roundWithAccuracy_shiftLeft hu
  | infinity s => cases s <;> rfl
  | zero s => cases s <;> rfl
  | notANumber => rfl

theorem totalExponent_sub_two_pow (m n : Nat) (e k : Int) :
    Float.Model.totalExponent m e - Float.Model.totalExponent (2 ^ n) (k - n) =
      m.log2 + e - k := by
  rw [totalExponent_eq, totalExponent_eq, Nat.log2_two_pow]
  omega

/-- A quotient by a power of two has at most one zero more than its mantissa. -/
theorem divCore_two_pow {m n : Nat} {e k : Int} (hm : 0 < m) (hm' : m < 2 ^ 53)
    (he : -1074 ≤ e - k) (hlo : e - k = -1074 ∨ 2 ^ 52 ≤ m) :
    ∃ i : Nat, Float.Model.UnpackedFloat.divCore .binary64 m e (2 ^ n) (k - n) =
      (m <<< i, e - k - i, .exact) := by
  have hhi := (Nat.log2_lt (by omega)).2 hm'
  obtain ⟨i, hi⟩ : ∃ i : Nat,
      min (e - (k - n)) (max (m.log2 + e - k - 53) (-1074)) = e - k - i := by
    refine ⟨(e - k - max (m.log2 + e - k - 53) (-1074)).toNat, ?_⟩
    rcases hlo with hlo | hlo
    · omega
    · have hlog := (Nat.le_log2 (by omega)).2 hlo
      omega
  have hshift : (e - (k - n) - (e - k - i)).toNat = i + n := by omega
  have hmul : m <<< (i + n) = m <<< i * 2 ^ n := by rw [Nat.shiftLeft_add, Nat.shiftLeft_eq _ n]
  refine ⟨i, ?_⟩
  simp only [Float.Model.UnpackedFloat.divCore, totalExponent_sub_two_pow, targetExponent_eq, hi,
    hshift, hmul, Nat.mul_div_cancel _ (Nat.two_pow_pos n), Nat.mul_mod_left]
  rfl

/-- So does dividing, downwards. -/
theorem div_two_pow {u : UnpackedFloat} {k : Int} {n : Nat} (h : 0 < 2 ^ n) (hu : IsRounded u)
    (hu' : IsRounded (shift (-k) u)) :
    UnpackedFloat.div .binary64 u (.finite .positive (2 ^ n) (k - n) h) = shift (-k) u := by
  cases u with
  | finite s m e hm =>
    have hsign : s / .positive = s := by cases s <;> rfl
    obtain ⟨-, hm', -⟩ := hu
    obtain ⟨he, -, hlo⟩ := id hu'
    obtain ⟨i, hi⟩ := divCore_two_pow (n := n) hm hm' (e := e) (k := k) (by omega) (by omega)
    rw [UnpackedFloat.div, hsign]
    simp only [hi]
    exact roundWithAccuracy_shiftLeft hu'
  | infinity s => cases s <;> rfl
  | zero s => cases s <;> rfl
  | notANumber => rfl

/-- A quotient by a power of two has about as many bits as its mantissa, less what is taken off. -/
theorem log2_shiftLeft_div_lt {m n j : Nat} (hm : m < 2 ^ 53) (hne : m <<< j / 2 ^ n ≠ 0) :
    (m <<< j / 2 ^ n).log2 + n < 53 + j := by
  have hle : 2 ^ ((m <<< j / 2 ^ n).log2 + n) ≤ m <<< j := by
    rw [Nat.pow_add]
    exact Nat.le_trans (Nat.mul_le_mul_right _ (Nat.log2_self_le hne)) (Nat.div_mul_le_self _ _)
  have hlt : m <<< j < 2 ^ (53 + j) := by
    rw [Nat.shiftLeft_eq, Nat.pow_add]
    exact Nat.mul_lt_mul_of_pos_right hm (Nat.two_pow_pos j)
  exact (Nat.pow_lt_pow_iff_right (by decide)).1 (Nat.lt_of_le_of_lt hle hlt)

/-- A quotient that needs a lower exponent than there is comes out without full room. -/
theorem not_isFull_div (s : Sign) {m n : Nat} {e k : Int} (hm : 0 < m) (h : 0 < 2 ^ n)
    (hm' : m < 2 ^ 53) (he : e - k < -1074) :
    IsRounded (.div .binary64 (.finite s m e hm) (.finite .positive (2 ^ n) (k - n) h)) ∧
      ¬ IsFull (.div .binary64 (.finite s m e hm) (.finite .positive (2 ^ n) (k - n) h)) := by
  have hhi := (Nat.log2_lt (by omega)).2 hm'
  obtain ⟨t, ht⟩ : ∃ t, min (e - (k - n)) (max (m.log2 + e - k - 53) (-1074)) = t := ⟨_, rfl⟩
  obtain ⟨j, hj⟩ : ∃ j, (e - (k - n) - t).toNat = j := ⟨_, rfl⟩
  simp only [UnpackedFloat.div, Float.Model.UnpackedFloat.divCore, totalExponent_sub_two_pow,
    targetExponent_eq, ht, hj]
  refine ⟨isRounded_roundWithAccuracy _ _ (by omega), ?_⟩
  intro hfull
  have hroom := le_of_isFull_roundWithAccuracy (by omega) hfull
  by_cases hne : m <<< j / 2 ^ n = 0
  · rw [hne, Nat.log2_zero] at hroom
    omega
  · have hbits := log2_shiftLeft_div_lt hm' hne
    omega

/-- One is no factor. -/
theorem mul_one (x : Float) : x * 1 = x := by
  refine unpacked_inj ?_
  obtain ⟨n, h, hone⟩ := isTwoPow_one
  have hx := rounded_unpacked x
  have hshift : IsRounded (shift 0 (unpacked x)) := by
    rw [shift_eq_self]
    exact hx.1
  rw [mul_eq, hone, mul_two_pow h hshift, shift_eq_self, unpacked_ofUnpacked hx.1 hx.2]

namespace IsTwoPow

variable {k : Int} {s x : Float}

/-- **Multiplying by a power of two is exact** for a zero, and between normal doubles. -/
theorem scaled_mul (hs : IsTwoPow k s) (h : IsSafe x (x * s)) : Scaled k x (x * s) := by
  obtain ⟨n, hn, heq⟩ := hs
  have hx := rounded_unpacked x
  have hs' := rounded_unpacked s
  rcases h with ⟨t, ht⟩ | ⟨h, h'⟩
  · rw [Scaled, mul_eq, ht, heq, mul_two_pow hn (by trivial)]
    exact unpacked_ofUnpacked (by trivial) (by trivial)
  · have hfull := h.isFull
    have hraw := isRounded_mul hx.1 hs'.1
    rw [mul_eq] at h'
    have hfull' := IsNormal.isFull_raw hraw h'
    have hrange := inRange_of_isFinite h'.1
    rw [Scaled, mul_eq]
    rw [heq] at hraw hfull' hrange hs' ⊢
    generalize unpacked x = u at *
    cases u with
    | finite t m e hm =>
      have hlo := le_mantissa hx.1 hfull
      have hhi : m < 2 ^ 53 := hx.1.2.1
      have hroom := (room_of_isFull_mul hx.1 hs'.1 hfull').2
      rw [← Nat.shiftLeft_eq, log2_shiftLeft (by omega)] at hroom
      have hlog := (Nat.log2_lt (by omega)).2 hhi
      have hshift : IsRounded (shift k (.finite t m e hm)) := ⟨by omega, hhi, .inr hlo⟩
      rw [mul_two_pow hn hshift] at hrange ⊢
      exact unpacked_ofUnpacked hshift hrange
    | _ => exact hfull.elim

/-- So is dividing. -/
theorem scaled_div (hs : IsTwoPow k s) (h : IsNormal x) (h' : IsNormal (x / s)) :
    Scaled k (x / s) x := by
  obtain ⟨n, hn, heq⟩ := hs
  have hx := rounded_unpacked x
  have hfull := h.isFull
  rw [div_eq, heq] at h'
  rw [Scaled, div_eq, heq]
  generalize unpacked x = u at *
  cases u with
  | finite t m e hm =>
    have hlo := le_mantissa hx.1 hfull
    have hhi : m < 2 ^ 53 := hx.1.2.1
    have hroom : -1074 ≤ e - k := by
      by_contra hlow
      obtain ⟨hraw, hnot⟩ := not_isFull_div t hm hn hhi (Int.not_le.1 hlow)
      exact hnot (IsNormal.isFull_raw hraw h')
    have hshift : IsRounded (shift (-k) (.finite t m e hm)) := ⟨by omega, hhi, .inr hlo⟩
    rw [div_two_pow hn hx.1 hshift] at h' ⊢
    rw [unpacked_ofUnpacked hshift (inRange_of_isFinite h'.1), shift_shift, Int.add_left_neg,
      shift_eq_self]
  | _ => exact hfull.elim

/-- What is not finite stays so. -/
theorem isFinite_mul (hs : IsTwoPow k s) (h : x.isFinite = false) : (x * s).isFinite = false := by
  obtain ⟨n, hn, heq⟩ := hs
  rw [isFinite_eq] at h
  rw [isFinite_eq, mul_eq, heq]
  generalize unpacked x = u at *
  cases u with
  | infinity t =>
    rw [mul_two_pow hn (by trivial), unpacked_ofUnpacked (by trivial) (by trivial)]
    exact h
  | notANumber =>
    rw [mul_two_pow hn (by trivial), unpacked_ofUnpacked (by trivial) (by trivial)]
    exact h
  | _ => exact absurd h (by simp [UnpackedFloat.isFinite])

end IsTwoPow
end Binary64
end PageContent
