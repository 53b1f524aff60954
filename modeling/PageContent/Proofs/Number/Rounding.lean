/-
# Rounding in closed form

Rounding shifts the mantissa to the exponent at which 53 bits have room, or to
`-1074`, rounds what is shifted out, and does so again if that carried
(`roundWithAccuracy_eq_carried`).  Two things follow.

* The result is `IsRounded`, so packing it loses nothing.
* Where 53 bits have room, rounding does not see the exponent
  (`roundWithAccuracy_shift`): another power of two on the way in is the same
  power of two on the way out.

That 53 bits have room can be read off the result: it is `IsFull`, beyond the least
number of 53 bits (`le_of_isFull_roundWithAccuracy`).
-/

import PageContent.Proofs.Number.Unpacked

namespace PageContent
namespace Binary64

open Float.Model (UnpackedFloat Format totalExponent)
open Float.Model.UnpackedFloat (Sign Accuracy ExtendedMantissa shiftToExponent
  shiftToTargetExponent roundWithAccuracy decreaseExponent normalize sqrtCore)

/-! ## Shifting a mantissa -/

theorem shiftRight_succ (em : ExtendedMantissa) (n : Nat) :
    em >>> (n + 1) = (em >>> n).shiftRightOne := rfl

theorem mantissa_shiftRight (em : ExtendedMantissa) (n : Nat) :
    (em >>> n).mantissa = em.mantissa / 2 ^ n := by
  induction n with
  | zero => exact (Nat.div_one _).symm
  | succ n ih =>
    rw [shiftRight_succ, ExtendedMantissa.shiftRightOne, ih, Nat.div_div_eq_div_mul, Nat.pow_succ]

/-- Shifting out zeros leaves no residue. -/
theorem shiftRight_mul_two_pow (m n : Nat) :
    (⟨m * 2 ^ n, false, false⟩ : ExtendedMantissa) >>> n = ⟨m, false, false⟩ := by
  induction n generalizing m with
  | zero => rw [Nat.pow_zero, Nat.mul_one]; rfl
  | succ n ih =>
    rw [shiftRight_succ, Nat.pow_succ, Nat.mul_comm (2 ^ n), ← Nat.mul_assoc, ih]
    simp [ExtendedMantissa.shiftRightOne]

theorem roundedMantissa_bounds (em : ExtendedMantissa) :
    em.mantissa ≤ em.roundedMantissa ∧ em.roundedMantissa ≤ em.mantissa + 1 := by
  obtain ⟨m, r, s⟩ := em
  cases r <;> cases s <;>
    simp [ExtendedMantissa.roundedMantissa, ExtendedMantissa.accuracy, Accuracy.roundToNearestEven]
  omega

/-- What is left of a mantissa without its last `n` bits, rounded. -/
def leading (m : Nat) (acc : Accuracy) (n : Nat) : Nat :=
  (ExtendedMantissa.ofMantissaAndAccuracy m acc >>> n).roundedMantissa

theorem leading_bounds (m : Nat) (acc : Accuracy) (n : Nat) :
    m / 2 ^ n ≤ leading m acc n ∧ leading m acc n ≤ m / 2 ^ n + 1 := by
  have hm : (ExtendedMantissa.ofMantissaAndAccuracy m acc).mantissa = m := by
    unfold ExtendedMantissa.ofMantissaAndAccuracy
    split <;> rfl
  have h := roundedMantissa_bounds (ExtendedMantissa.ofMantissaAndAccuracy m acc >>> n)
  rwa [mantissa_shiftRight, hm] at h

theorem leading_mul_two_pow (m n : Nat) : leading (m * 2 ^ n) .exact n = m := by
  unfold leading ExtendedMantissa.ofMantissaAndAccuracy
  rw [shiftRight_mul_two_pow]
  rfl

/-- A mantissa of at most 53 bits, or the next power of two, at an exponent. -/
def carried (s : Sign) (r : Nat) (e : Int) : UnpackedFloat :=
  if h : r = 0 then .zero s
  else if r = 2 ^ 53 then .finite s (2 ^ 52) (e + 1) (by decide)
  else .finite s r e (Nat.pos_of_ne_zero h)

/-- The exponent at which a number is rounded, from the place of its highest bit. -/
theorem targetExponent_eq (t : Int) : Format.binary64.targetExponent t = max (t - 53) (-1074) := rfl

theorem totalExponent_eq (m : Nat) (e : Int) : totalExponent m e = m.log2 + 1 + e := rfl

theorem shiftToTargetExponent_of_lt {m : Nat} {e : Int} (hm : m < 2 ^ 53) (he : -1074 ≤ e) :
    shiftToTargetExponent .binary64 m e .exact = (⟨m, false, false⟩, e) := by
  have hlog : m.log2 ≤ 52 := by
    rcases Nat.eq_zero_or_pos m with rfl | hpos
    · simp
    · have := (Nat.log2_lt (by omega)).2 hm
      omega
  have hn : (Format.binary64.targetExponent (totalExponent m e) - e).toNat = 0 := by
    rw [targetExponent_eq, totalExponent_eq]
    omega
  simp only [shiftToTargetExponent, shiftToExponent, hn]
  exact congrArg _ (Int.add_zero e)

theorem shiftToTargetExponent_two_pow {e : Int} (he : -1074 ≤ e) :
    shiftToTargetExponent .binary64 (2 ^ 53) e .exact = (⟨2 ^ 52, false, false⟩, e + 1) := by
  have hn : (Format.binary64.targetExponent (totalExponent (2 ^ 53) e) - e).toNat = 1 := by
    rw [targetExponent_eq, totalExponent_eq, Nat.log2_two_pow]
    omega
  simp only [shiftToTargetExponent, shiftToExponent, hn]
  rfl

/-- **Rounding in closed form.**  The bits below the target exponent are rounded away, and a
carry out of the mantissa raises the exponent. -/
theorem roundWithAccuracy_eq_carried (s : Sign) {m : Nat} {e t : Int} (acc : Accuracy)
    (ht : t = max (m.log2 + 1 + e - 53) (-1074)) (he : e ≤ t) :
    leading m acc (t - e).toNat ≤ 2 ^ 53 ∧
      roundWithAccuracy .binary64 s m e acc = carried s (leading m acc (t - e).toNat) t := by
  have htarget : Format.binary64.targetExponent (totalExponent m e) = t := ht.symm
  have hle : leading m acc (t - e).toNat ≤ 2 ^ 53 := by
    have hbits : m < 2 ^ (53 + (t - e).toNat) :=
      Nat.lt_of_lt_of_le Nat.lt_log2_self (Nat.pow_le_pow_right (by decide) (by omega))
    have hdiv : m / 2 ^ (t - e).toNat < 2 ^ 53 := by
      rw [Nat.div_lt_iff_lt_mul (Nat.two_pow_pos _), ← Nat.pow_add]
      exact hbits
    have := (leading_bounds m acc (t - e).toNat).2
    omega
  refine ⟨hle, ?_⟩
  have hfirst : shiftToTargetExponent .binary64 m e acc =
      (ExtendedMantissa.ofMantissaAndAccuracy m acc >>> (t - e).toNat, t) := by
    simp only [shiftToTargetExponent, shiftToExponent, htarget]
    congr 1
    omega
  rw [roundWithAccuracy, hfirst]
  show (let second := shiftToTargetExponent .binary64 (leading m acc (t - e).toNat) t .exact
    if h : second.1.mantissa = 0 then UnpackedFloat.zero s
    else .finite s second.1.mantissa second.2 (Nat.pos_of_ne_zero h)) = _
  generalize leading m acc (t - e).toNat = r at hle ⊢
  rcases Nat.lt_or_eq_of_le hle with hlt | rfl
  · rw [shiftToTargetExponent_of_lt hlt (by omega), carried]
    simp only [Nat.ne_of_lt hlt, if_false]
  · rw [shiftToTargetExponent_two_pow (by omega)]
    rfl

theorem isRounded_carried {s : Sign} {r : Nat} {e : Int} (hr : r ≤ 2 ^ 53) (he : -1074 ≤ e)
    (hlo : e = -1074 ∨ 2 ^ 52 ≤ r) : IsRounded (carried s r e) := by
  unfold carried
  split
  · trivial
  · split
    · exact ⟨by omega, by decide, .inr (Nat.le_refl _)⟩
    · exact ⟨he, by omega, hlo⟩

/-- The highest 53 bits of a mantissa start with a one. -/
theorem le_leading {m n : Nat} (hm : m ≠ 0) (hn : m.log2 = 52 + n) (acc : Accuracy) :
    2 ^ 52 ≤ leading m acc n := by
  refine Nat.le_trans ?_ (leading_bounds m acc n).1
  rw [Nat.le_div_iff_mul_le (Nat.two_pow_pos n), ← Nat.pow_add, ← hn]
  exact Nat.log2_self_le hm

theorem isRounded_roundWithAccuracy (s : Sign) {m : Nat} {e : Int} (acc : Accuracy)
    (he : e ≤ max (m.log2 + 1 + e - 53) (-1074)) :
    IsRounded (roundWithAccuracy .binary64 s m e acc) := by
  obtain ⟨hle, heq⟩ := roundWithAccuracy_eq_carried s acc rfl he
  rw [heq]
  refine isRounded_carried hle (Int.le_max_right _ _) ?_
  rcases Int.le_total (m.log2 + 1 + e - 53) (-1074) with h | h
  · exact .inl (Int.max_eq_right h)
  · have hm : m ≠ 0 := by
      rintro rfl
      rw [Nat.log2_zero] at h he
      omega
    exact .inr (le_leading hm (by omega) acc)

/-- The same reading with another exponent. -/
def shift (k : Int) : UnpackedFloat → UnpackedFloat
  | .finite s m e hm => .finite s m (e + k) hm
  | u => u

@[simp] theorem shift_zero (k : Int) (s : Sign) : shift k (.zero s) = .zero s := rfl

@[simp] theorem shift_finite (k : Int) (s : Sign) (m : Nat) (e : Int) (hm : 0 < m) :
    shift k (.finite s m e hm) = .finite s m (e + k) hm := rfl

theorem shift_carried (k : Int) (s : Sign) (r : Nat) (e : Int) :
    shift k (carried s r e) = carried s r (e + k) := by
  unfold carried
  split
  · rfl
  · split
    · rw [shift_finite, Int.add_right_comm]
    · rfl

/-- **Rounding does not see the exponent** as long as the highest bit stands where all 53 bits
have room. -/
theorem roundWithAccuracy_shift (s : Sign) {m : Nat} {e k : Int} (acc : Accuracy)
    (hlog : 52 ≤ m.log2) (h : -1021 ≤ m.log2 + 1 + e) (hk : -1021 ≤ m.log2 + 1 + (e + k)) :
    roundWithAccuracy .binary64 s m (e + k) acc =
      shift k (roundWithAccuracy .binary64 s m e acc) := by
  have ht : m.log2 + 1 + e - 53 = max (m.log2 + 1 + e - 53) (-1074) := by omega
  have htk : m.log2 + 1 + e - 53 + k = max (m.log2 + 1 + (e + k) - 53) (-1074) := by omega
  rw [(roundWithAccuracy_eq_carried s acc ht (by omega)).2,
    (roundWithAccuracy_eq_carried s acc htk (by omega)).2, shift_carried]
  congr 2
  omega

/-- A finite reading beyond the least number of 53 bits. -/
def IsFull : UnpackedFloat → Prop
  | .finite _ m e _ => -1074 < e ∨ 2 ^ 52 < m
  | _ => False

/-- The mantissa of a full reading has all 53 bits. -/
theorem le_mantissa {s : Sign} {m : Nat} {e : Int} {hm : 0 < m}
    (hu : IsRounded (.finite s m e hm)) (h : IsFull (.finite s m e hm)) : 2 ^ 52 ≤ m := by
  obtain ⟨-, -, hlo⟩ := hu
  rcases h with h | h <;> omega

/-- What is rounded where 53 bits have no room does not come out beyond the least number
that has them. -/
theorem le_of_isFull_roundWithAccuracy {s : Sign} {m : Nat} {e : Int} {acc : Accuracy}
    (he : e ≤ -1074)
    (h : IsFull (roundWithAccuracy .binary64 s m e acc)) : -1021 ≤ m.log2 + 1 + e := by
  by_contra hlow
  have ht : -1074 = max (m.log2 + 1 + e - 53) (-1074) := by omega
  rw [(roundWithAccuracy_eq_carried s acc ht he).2] at h
  have hbits : m / 2 ^ (-1074 - e).toNat < 2 ^ 52 := by
    rw [Nat.div_lt_iff_lt_mul (Nat.two_pow_pos _), ← Nat.pow_add]
    exact Nat.lt_of_lt_of_le Nat.lt_log2_self (Nat.pow_le_pow_right (by decide) (by omega))
  have := (leading_bounds m acc (-1074 - e).toNat).2
  unfold carried at h
  split at h
  · exact h
  · rw [if_neg (by omega)] at h
    rcases h with h | h <;> omega

/-- A mantissa with zeros appended has its highest bit as much higher. -/
theorem log2_shiftLeft {m : Nat} (hm : m ≠ 0) (n : Nat) : (m <<< n).log2 = m.log2 + n := by
  induction n with
  | zero => rfl
  | succ n ih =>
    have hne : m <<< n ≠ 0 := mt Nat.shiftLeft_eq_zero_iff.1 hm
    rw [Nat.shiftLeft_succ, Nat.log2_two_mul hne, ih, Nat.add_assoc]

theorem round_eq (s : Sign) {m : Nat} {e t : Int} (ht : t = max (m.log2 + 1 + e - 53) (-1074)) :
    UnpackedFloat.round .binary64 s m e =
      roundWithAccuracy .binary64 s (m <<< (e - t).toNat) (e - (e - t).toNat) .exact := by
  subst ht
  rfl

theorem isRounded_round (s : Sign) {m : Nat} (e : Int) (hm : m ≠ 0) :
    IsRounded (UnpackedFloat.round .binary64 s m e) := by
  rw [round_eq s rfl]
  refine isRounded_roundWithAccuracy s .exact ?_
  rw [log2_shiftLeft hm]
  omega

theorem round_shift (s : Sign) {m : Nat} {e k : Int} (hm : m ≠ 0) (h : -1021 ≤ m.log2 + 1 + e)
    (hk : -1021 ≤ m.log2 + 1 + (e + k)) :
    UnpackedFloat.round .binary64 s m (e + k) = shift k (UnpackedFloat.round .binary64 s m e) := by
  have ht : m.log2 + 1 + e - 53 = max (m.log2 + 1 + e - 53) (-1074) := by omega
  have htk : m.log2 + 1 + (e + k) - 53 = max (m.log2 + 1 + (e + k) - 53) (-1074) := by omega
  have hn : (e + k - (m.log2 + 1 + (e + k) - 53)).toNat = (e - (m.log2 + 1 + e - 53)).toNat := by
    omega
  have he : e + k - (e - (m.log2 + 1 + e - 53)).toNat =
      e - (e - (m.log2 + 1 + e - 53)).toNat + k := by omega
  rw [round_eq s ht, round_eq s htk, hn, he]
  refine roundWithAccuracy_shift s .exact ?_ ?_ ?_ <;> rw [log2_shiftLeft hm] <;> omega

theorem le_of_isFull_round {s : Sign} {m : Nat} {e : Int} (hm : m ≠ 0)
    (h : IsFull (UnpackedFloat.round .binary64 s m e)) : -1021 ≤ m.log2 + 1 + e := by
  by_contra hlow
  have ht : -1074 = max (m.log2 + 1 + e - 53) (-1074) := by omega
  rw [round_eq s ht] at h
  have := le_of_isFull_roundWithAccuracy (by omega) h
  rw [log2_shiftLeft hm] at this
  omega

/-! ## Sums, differences, products and roots -/

theorem normalize_eq (m e : Int) (s : Sign) :
    normalize .binary64 m e s =
      if m = 0 then .zero s
      else .round .binary64 (if m < 0 then .negative else .positive) m.natAbs e := by
  unfold UnpackedFloat.normalize
  rcases Int.lt_trichotomy m 0 with h | rfl | h
  · have habs : (-m).toNat = m.natAbs := by omega
    rw [Int.compare_eq_lt.2 h, if_neg (by omega), if_pos h, ← habs]
  · rfl
  · have habs : m.toNat = m.natAbs := by omega
    rw [Int.compare_eq_gt.2 h, if_neg (by omega), if_neg (by omega), ← habs]

theorem isRounded_normalize (m e : Int) (s : Sign) : IsRounded (normalize .binary64 m e s) := by
  rw [normalize_eq]
  split
  · trivial
  · exact isRounded_round _ e (by omega)

theorem normalize_shift {m e k : Int} {s : Sign}
    (h : m = 0 ∨ IsFull (normalize .binary64 m e s) ∧ IsFull (normalize .binary64 m (e + k) s)) :
    normalize .binary64 m (e + k) s = shift k (normalize .binary64 m e s) := by
  rcases h with rfl | ⟨h, hk⟩
  · rfl
  · rw [normalize_eq] at h hk ⊢
    rw [normalize_eq]
    split at h
    · exact h.elim
    · rename_i hm
      rw [if_neg hm] at hk ⊢
      rw [if_neg hm]
      exact round_shift _ (by omega) (le_of_isFull_round (by omega) h)
        (le_of_isFull_round (by omega) hk)

theorem decreaseExponent_shift (m : Nat) (e t k : Int) :
    (decreaseExponent m (e + k) (t + k)).1 = (decreaseExponent m e t).1 := by
  simp only [decreaseExponent]
  congr 2
  omega

theorem isRounded_sub {u v : UnpackedFloat} (hu : IsRounded u) (hv : IsRounded v) :
    IsRounded (.sub .binary64 u v) := by
  unfold UnpackedFloat.sub
  split <;> try first | trivial | assumption | exact isRounded_normalize _ _ _
  · split <;> trivial
  · split <;> trivial

theorem isRounded_add {u v : UnpackedFloat} (hu : IsRounded u) (hv : IsRounded v) :
    IsRounded (.add .binary64 u v) := by
  unfold UnpackedFloat.add
  split <;> try first | trivial | assumption | exact isRounded_normalize _ _ _
  · split <;> trivial
  · split <;> trivial

/-- A product has at least 53 bits unless both factors are at the least exponent. -/
theorem le_log2_mul {s t : Sign} {m n : Nat} {e f : Int} {hm : 0 < m} {hn : 0 < n}
    (hu : IsRounded (.finite s m e hm)) (hv : IsRounded (.finite t n f hn)) :
    52 ≤ (m * n).log2 ∨ e = -1074 ∧ f = -1074 := by
  have hne : m * n ≠ 0 := Nat.mul_ne_zero (by omega) (by omega)
  obtain ⟨-, -, hu⟩ := hu
  obtain ⟨-, -, hv⟩ := hv
  rcases hu with he | hm'
  · rcases hv with hf | hn'
    · exact .inr ⟨he, hf⟩
    · exact .inl ((Nat.le_log2 hne).2 (Nat.le_trans hn' (Nat.le_mul_of_pos_left _ hm)))
  · exact .inl ((Nat.le_log2 hne).2 (Nat.le_trans hm' (Nat.le_mul_of_pos_right _ hn)))

theorem isRounded_mul {u v : UnpackedFloat} (hu : IsRounded u) (hv : IsRounded v) :
    IsRounded (.mul .binary64 u v) := by
  unfold UnpackedFloat.mul
  split <;> try trivial
  refine isRounded_roundWithAccuracy _ _ ?_
  rcases le_log2_mul hu hv with hbits | ⟨he, hf⟩ <;> omega

/-- The difference of level numbers is a zero, or none. -/
theorem sub_of_compare_eq {u v : UnpackedFloat} (h : u.compare v = some .eq) :
    (∃ s, UnpackedFloat.sub .binary64 u v = .zero s) ∨
      UnpackedFloat.sub .binary64 u v = .notANumber := by
  rcases eq_or_zero_of_compare_eq h with rfl | ⟨s, t, rfl, rfl⟩
  · cases u with
    | finite s m e hm =>
      refine .inl ⟨.positive, ?_⟩
      simp only [UnpackedFloat.sub, normalize_eq, Int.sub_self, if_true]
    | infinity s => cases s <;> exact .inr rfl
    | zero s => cases s <;> exact .inl ⟨_, rfl⟩
    | notANumber => exact .inr rfl
  · cases s <;> cases t <;> exact .inl ⟨_, rfl⟩

theorem sub_shift {u v : UnpackedFloat} (k : Int)
    (h : u.compare v = some .eq ∨
      IsFull (.sub .binary64 u v) ∧ IsFull (.sub .binary64 (shift k u) (shift k v))) :
    UnpackedFloat.sub .binary64 (shift k u) (shift k v) = shift k (.sub .binary64 u v) := by
  cases u with
  | finite s m e hm =>
    cases v with
    | finite t n f hn =>
      have hmin : min (e + k) (f + k) = min e f + k := by omega
      simp only [shift_finite, UnpackedFloat.sub, hmin, decreaseExponent_shift] at h ⊢
      refine normalize_shift (h.imp_left fun heq => ?_)
      obtain ⟨rfl, rfl, rfl⟩ : s = t ∧ m = n ∧ e = f := by
        simpa using eq_or_zero_of_compare_eq heq
      exact Int.sub_self _
    | _ => rfl
  | infinity s => cases v with
    | infinity t => simp only [shift, UnpackedFloat.sub]; split <;> rfl
    | _ => rfl
  | zero s => cases v with
    | zero t => simp only [shift, UnpackedFloat.sub]; split <;> rfl
    | _ => rfl
  | notANumber => rfl

theorem add_shift {u v : UnpackedFloat} (k : Int)
    (h : IsFull (.add .binary64 u v) ∧ IsFull (.add .binary64 (shift k u) (shift k v)) ∨
      (∃ s, u = .zero s) ∨ ∃ s, v = .zero s) :
    UnpackedFloat.add .binary64 (shift k u) (shift k v) = shift k (.add .binary64 u v) := by
  cases u with
  | finite s m e hm =>
    cases v with
    | finite t n f hn =>
      have hmin : min (e + k) (f + k) = min e f + k := by omega
      simp only [shift_finite, UnpackedFloat.add, hmin, decreaseExponent_shift] at h ⊢
      exact normalize_shift (.inr (h.resolve_right (by simp)))
    | _ => rfl
  | infinity s => cases v with
    | infinity t => simp only [shift, UnpackedFloat.add]; split <;> rfl
    | _ => rfl
  | zero s => cases v with
    | zero t => simp only [shift, UnpackedFloat.add]; split <;> rfl
    | _ => rfl
  | notANumber => rfl

/-- A product that comes out full has its highest bit where all 53 bits have room. -/
theorem room_of_isFull_mul {s t : Sign} {m n : Nat} {e f : Int} {hm : 0 < m} {hn : 0 < n}
    (hu : IsRounded (.finite s m e hm)) (hv : IsRounded (.finite t n f hn))
    (h : IsFull (.mul .binary64 (.finite s m e hm) (.finite t n f hn))) :
    52 ≤ (m * n).log2 ∧ -1021 ≤ (m * n).log2 + 1 + (e + f) := by
  have hlow : e + f ≤ -1074 → -1021 ≤ (m * n).log2 + 1 + (e + f) :=
    fun he => le_of_isFull_roundWithAccuracy he h
  have hbits := le_log2_mul hu hv
  obtain ⟨he, -, -⟩ := hu
  obtain ⟨hf, -, -⟩ := hv
  omega

theorem mul_shift {u v : UnpackedFloat} {j k : Int} (hu : IsRounded u) (hv : IsRounded v)
    (hu' : IsRounded (shift j u)) (hv' : IsRounded (shift k v))
    (h : IsFull (.mul .binary64 u v)) (h' : IsFull (.mul .binary64 (shift j u) (shift k v))) :
    UnpackedFloat.mul .binary64 (shift j u) (shift k v) = shift (j + k) (.mul .binary64 u v) := by
  cases u with
  | finite s m e hm =>
    cases v with
    | finite t n f hn =>
      obtain ⟨hbits, hroom⟩ := room_of_isFull_mul hu hv h
      obtain ⟨-, hroom'⟩ := room_of_isFull_mul hu' hv' h'
      have hexp : e + j + (f + k) = e + f + (j + k) := by omega
      simp only [shift_finite, UnpackedFloat.mul, hexp]
      exact roundWithAccuracy_shift _ _ hbits hroom (by omega)
    | _ => rfl
  | _ => cases v <;> rfl

/-- How far the integer root of a number is from its root. -/
def rootAccuracy (n : Nat) : Accuracy :=
  if n - n.sqrt * n.sqrt = 0 then .exact
  else .inexact (if n - n.sqrt * n.sqrt ≤ n.sqrt then .lt else .gt)

/-- A mantissa of 53 bits with 52 or 53 zeros behind it, so that its exponent is even. -/
def evened (m : Nat) (e : Int) : Nat := m <<< (52 + (e % 2).toNat)

theorem log2_sqrt_evened {m : Nat} {e : Int} (hm : 2 ^ 52 ≤ m) (hm' : m < 2 ^ 53) :
    (evened m e).sqrt.log2 = 52 := by
  have hlo : 2 ^ 52 * 2 ^ 52 ≤ evened m e := by
    rw [evened, Nat.shiftLeft_eq, Nat.pow_add, ← Nat.mul_assoc]
    exact Nat.le_trans (Nat.mul_le_mul_right _ hm) (Nat.le_mul_of_pos_right _ (Nat.two_pow_pos _))
  have hhi : evened m e < 2 ^ 53 * 2 ^ 53 := by
    rw [evened, Nat.shiftLeft_eq]
    exact Nat.mul_lt_mul_of_lt_of_le hm' (Nat.pow_le_pow_right (by decide) (by omega)) (by decide)
  have hroot : 2 ^ 52 ≤ (evened m e).sqrt := Nat.le_sqrt.2 hlo
  have hroot' : (evened m e).sqrt < 2 ^ 53 := Nat.sqrt_lt.2 hhi
  exact (Nat.log2_eq_iff (by omega)).2 ⟨hroot, hroot'⟩

/-- The root of a number of 53 bits is read off the evened mantissa. -/
theorem sqrtCore_eq {m : Nat} {e : Int} (hm : 2 ^ 52 ≤ m) (hm' : m < 2 ^ 53) (he : -1074 ≤ e) :
    sqrtCore .binary64 m e = ((evened m e).sqrt, e / 2 - 26, rootAccuracy (evened m e)) := by
  have hlog : m.log2 = 52 := (Nat.log2_eq_iff (by omega)).2 ⟨hm, hm'⟩
  have htarget : min (e.ediv 2)
      (Format.binary64.targetExponent ((totalExponent m e + 1).ediv 2)) = e / 2 - 26 := by
    rw [targetExponent_eq, totalExponent_eq, hlog]
    show min (e / 2) (max ((((52 : Nat) : Int) + 1 + e + 1) / 2 - 53) (-1074)) = _
    omega
  have hshift : (e - 2 * (e / 2 - 26)).toNat = 52 + (e % 2).toNat := by omega
  simp only [sqrtCore, htarget, hshift]
  rfl

theorem evened_add (m : Nat) (e k : Int) : evened m (e + 2 * k) = evened m e := by
  unfold evened
  congr 3
  omega

theorem sqrt_shift {m : Nat} {e k : Int} {hpos : 0 < m} (hm : 2 ^ 52 ≤ m) (hm' : m < 2 ^ 53)
    (he : -1074 ≤ e) (hk : -1074 ≤ e + 2 * k) :
    UnpackedFloat.sqrt .binary64 (.finite .positive m (e + 2 * k) hpos) =
      shift k (.sqrt .binary64 (.finite .positive m e hpos)) := by
  have hhalf : (e + 2 * k) / 2 - 26 = e / 2 - 26 + k := by omega
  simp only [UnpackedFloat.sqrt, sqrtCore_eq hm hm' he, sqrtCore_eq hm hm' hk, evened_add, hhalf]
  refine roundWithAccuracy_shift _ _ ?_ ?_ ?_ <;> rw [log2_sqrt_evened hm hm'] <;> omega

theorem isRounded_sqrt {m : Nat} {e : Int} {hpos : 0 < m} (hm : 2 ^ 52 ≤ m) (hm' : m < 2 ^ 53)
    (he : -1074 ≤ e) (he' : e ≤ 971) :
    IsRounded (.sqrt .binary64 (.finite .positive m e hpos)) ∧
      InRange (.sqrt .binary64 (.finite .positive m e hpos)) := by
  have hlog := log2_sqrt_evened (e := e) hm hm'
  simp only [UnpackedFloat.sqrt, sqrtCore_eq hm hm' he]
  have ht : e / 2 - 26 = max ((evened m e).sqrt.log2 + 1 + (e / 2 - 26) - 53) (-1074) := by omega
  obtain ⟨hle, heq⟩ :=
    roundWithAccuracy_eq_carried .positive (rootAccuracy (evened m e)) ht (by omega)
  have hlo : 2 ^ 52 ≤ leading (evened m e).sqrt (rootAccuracy (evened m e)) 0 :=
    le_leading (fun h => by rw [h] at hlog; exact absurd hlog (by decide)) hlog _
  rw [heq]
  rw [Int.sub_self] at hle ⊢
  refine ⟨isRounded_carried hle (by omega) (.inr hlo), ?_⟩
  unfold carried
  split
  · trivial
  · split
    · exact show e / 2 - 26 + 1 ≤ 971 by omega
    · exact show e / 2 - 26 ≤ 971 by omega

theorem inRange_of_isFinite {u : UnpackedFloat} (h : (ofUnpacked u).isFinite = true) :
    InRange u := by
  cases u with
  | finite s m e hm =>
    by_contra hlarge
    rw [isFinite_eq, unpacked_ofUnpacked_of_overflow (Int.not_le.1 hlarge)] at h
    exact Bool.false_ne_true h
  | _ => trivial

end Binary64
end PageContent
