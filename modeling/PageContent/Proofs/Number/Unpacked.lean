/-
# Doubles as sign, mantissa and exponent

A double is read as an infinity, a NaN, a signed zero or a finite number
`± mantissa · 2 ^ exponent`, and arithmetic is done on these readings.  What a
double holds is its reading, and packing a reading gives the double back
(`ofUnpacked_unpacked`, `unpacked_ofUnpacked`).

| reading of a finite double | exponent | mantissa |
| --- | --- | --- |
| normal | `-1074 … 971` | `2 ^ 52 … 2 ^ 53 - 1` |
| subnormal | `-1074` | `1 … 2 ^ 52 - 1` |

`IsRounded` and `InRange` are the two halves of that table.  Comparisons and the
exact parts of a double are functions of its reading too.
-/

import PageContent.Number.Binary64
import Mathlib

namespace PageContent
namespace Binary64

open Float.Model (UnpackedFloat Format)
open Float.Model.UnpackedFloat (Sign unpackSign unpackExponent unpackMantissa packComponents)

/-- Sign, mantissa and exponent of a double. -/
def unpacked (x : Float) : UnpackedFloat := x.toModel.unpack

/-- The double of a reading, an infinity if the exponent is too large. -/
def ofUnpacked (u : UnpackedFloat) : Float := .ofModel (.pack u)

/-- The mantissa and exponent that rounding leaves: 53 bits, or fewer at the least exponent. -/
def IsRounded : UnpackedFloat → Prop
  | .finite _ m e _ => -1074 ≤ e ∧ m < 2 ^ 53 ∧ (e = -1074 ∨ 2 ^ 52 ≤ m)
  | _ => True

/-- The exponent is not too large for a double. -/
def InRange : UnpackedFloat → Prop
  | .finite _ _ e _ => e ≤ 971
  | _ => True

/-- The reading of the three fields of a double. -/
def ofFields (s : Sign) (field : BitVec 11) (fraction : BitVec 52) : UnpackedFloat :=
  if field.toNat = 2047 then if fraction.toNat = 0 then .infinity s else .notANumber
  else if field.toNat = 0 then
    if h : fraction.toNat = 0 then .zero s else .finite s fraction.toNat (-1074) (by omega)
  else .finite s (2 ^ 52 + fraction.toNat) (field.toNat - 1075) (by omega)

theorem unpack_eq_ofFields (b : BitVec Format.binary64.numBits) :
    UnpackedFloat.unpack .binary64 b =
      ofFields (Sign.ofBitVec (unpackSign b)) (unpackExponent b) (unpackMantissa b) := by
  have hfraction : ∀ f : BitVec 52, (1#1 ++ f).toNat = 2 ^ 52 + f.toNat := by
    intro f
    rw [BitVec.toNat_append, ← Nat.shiftLeft_add_eq_or_of_lt f.isLt]
    rfl
  generalize hE : unpackExponent b = field
  generalize hM : unpackMantissa b = fraction
  have hfield : field = -1#11 ↔ field.toNat = 2047 := by rw [← BitVec.toNat_inj]; rfl
  have hzero : field = 0#11 ↔ field.toNat = 0 := by rw [← BitVec.toNat_inj]; rfl
  have hblank : fraction = 0#52 ↔ fraction.toNat = 0 := by rw [← BitVec.toNat_inj]; rfl
  have hbias : (Format.binary64.exponentBias : Int) = 1023 := rfl
  simp only [UnpackedFloat.unpack, ofFields, hE, hM, hfield, hzero, hblank, hfraction, hbias]
  split
  · rfl
  · split
    · rename_i h0
      simp only [h0]
      rfl
    · simp

theorem rounded_unpacked (x : Float) : IsRounded (unpacked x) ∧ InRange (unpacked x) := by
  show IsRounded (UnpackedFloat.unpack .binary64 x.toModel.toBits.toBitVec) ∧
    InRange (UnpackedFloat.unpack .binary64 x.toModel.toBits.toBitVec)
  rw [unpack_eq_ofFields]
  generalize unpackExponent _ = field
  generalize unpackMantissa _ = fraction
  have hfield : field.toNat < 2 ^ 11 := field.isLt
  have hfraction : fraction.toNat < 2 ^ 52 := fraction.isLt
  unfold ofFields
  split
  · split <;> exact ⟨trivial, trivial⟩
  · split
    · split
      · exact ⟨trivial, trivial⟩
      · exact ⟨⟨by decide, by omega, .inl rfl⟩, show (-1074 : Int) ≤ 971 by decide⟩
    · exact ⟨⟨by omega, by omega, by omega⟩, show (_ : Int) ≤ 971 by omega⟩

theorem unpack_packComponents (s : Sign) (field : BitVec 11) (fraction : BitVec 52) :
    UnpackedFloat.unpack .binary64 (packComponents .binary64 s field fraction) =
      ofFields s field fraction := by
  rw [unpack_eq_ofFields, UnpackedFloat.unpackSign_packComponents,
    UnpackedFloat.unpackExponent_packComponents, UnpackedFloat.unpackMantissa_packComponents,
    Sign.ofBitVec_toBitVec]

theorem ofFields_normal {s : Sign} {field : BitVec 11} {fraction : BitVec 52} {m : Nat} {e : Int}
    (hm : 0 < m) (he : -1074 ≤ e) (he' : e ≤ 971) (hfield : (field.toNat : Int) = e + 1075)
    (hfraction : 2 ^ 52 + fraction.toNat = m) : ofFields s field fraction = .finite s m e hm := by
  rw [ofFields, if_neg (by omega), if_neg (by omega)]
  subst hfraction
  congr 1
  omega

theorem ofFields_subnormal {s : Sign} {fraction : BitVec 52} {m : Nat} (hm : 0 < m)
    (hfraction : fraction.toNat = m) : ofFields s 0#11 fraction = .finite s m (-1074) hm := by
  subst hfraction
  rw [ofFields, if_neg (by decide), if_pos (by decide), dif_neg (by omega)]

/-- An exponent beyond the range makes an infinity of a finite reading. -/
theorem unpacked_ofUnpacked_of_overflow {s : Sign} {m : Nat} {e : Int} {hm : 0 < m} (h : 971 < e) :
    unpacked (ofUnpacked (.finite s m e hm)) = .infinity s := by
  have hbias : (Format.binary64.exponentBias : Int) = 1023 := rfl
  show UnpackedFloat.unpack .binary64 (UnpackedFloat.pack .binary64 (.finite s m e hm)) = _
  rw [UnpackedFloat.pack]
  simp only [hbias]
  rw [if_pos (show 2 ^ 11 ≤ _ by omega)]
  cases s <;> rfl

/-- Packing loses nothing of a rounded reading in range. -/
theorem unpacked_ofUnpacked {u : UnpackedFloat} (h : IsRounded u) (h' : InRange u) :
    unpacked (ofUnpacked u) = u := by
  show UnpackedFloat.unpack .binary64 (UnpackedFloat.pack .binary64 u) = u
  match u with
  | .notANumber => rfl
  | .infinity s => cases s <;> rfl
  | .zero s => cases s <;> rfl
  | .finite s m e hm =>
    obtain ⟨he, hm', hlo⟩ := h
    change e ≤ 971 at h'
    have hbias : (Format.binary64.exponentBias : Int) = 1023 := rfl
    have hbits : Format.binary64.mantissaBits = 53 := rfl
    rw [UnpackedFloat.pack]
    simp only [hbias, hbits]
    rw [if_neg (show ¬ 2 ^ 11 ≤ _ by omega)]
    split
    · rename_i hlog
      have hm'' : 2 ^ 52 ≤ m := (Nat.le_log2 (by omega)).1 (by omega)
      rw [unpack_packComponents, ofFields_normal hm he h']
      · rw [BitVec.toNat_ofNat, Nat.mod_eq_of_lt (show _ < 2 ^ 11 by omega)]
        omega
      · rw [BitVec.toNat_ofNat]
        omega
    · rename_i hlog
      have hm'' : m < 2 ^ 52 := by
        by_contra hle
        have := (Nat.le_log2 (by omega)).2 (Nat.le_of_not_lt hle)
        have := (Nat.log2_lt (by omega)).2 hm'
        omega
      obtain rfl : e = -1074 := by omega
      rw [unpack_packComponents]
      exact ofFields_subnormal hm (by rw [BitVec.toNat_ofNat]; exact Nat.mod_eq_of_lt hm'')

/-- **A double is what it reads as.** -/
theorem ofUnpacked_unpacked (x : Float) : ofUnpacked (unpacked x) = x :=
  Float.toBits_inj.1 <| UInt64.toBitVec_inj.1 <|
    UnpackedFloat.pack_unpack_of_valid x.toModel.valid

theorem unpacked_inj {x y : Float} (h : unpacked x = unpacked y) : x = y := by
  rw [← ofUnpacked_unpacked x, h, ofUnpacked_unpacked]

/-! ## Comparing -/

theorem isFinite_eq (x : Float) : x.isFinite = (unpacked x).isFinite := rfl

theorem isNaN_eq (x : Float) : x.isNaN = (unpacked x).isNaN := rfl

theorem beq_iff (x y : Float) :
    (x == y) = true ↔ (unpacked x).compare (unpacked y) = some .eq := by
  show ((unpacked x).compare (unpacked y) == some .eq) = true ↔ _
  exact beq_iff_eq

theorem lt_iff (x y : Float) : x < y ↔ (unpacked x).compare (unpacked y) = some .lt := by
  show decide (((unpacked x).compare (unpacked y) == some .lt) = true) = true ↔ _
  rw [decide_eq_true_iff, beq_iff_eq]

/-- Level readings are the same, or both a zero. -/
theorem eq_or_zero_of_compare_eq {u v : UnpackedFloat} (h : u.compare v = some .eq) :
    u = v ∨ ∃ s t, u = .zero s ∧ v = .zero t := by
  have hbeq : u.beq v = true := beq_iff_eq.2 h
  obtain ⟨-, -, heq | ⟨hu, hv⟩ | ⟨hu, hv⟩⟩ := (u.beq_iff_ne_notANumber_and_eq v).1 hbeq
  · exact .inl heq
  · exact .inr ⟨.positive, .negative, hu, hv⟩
  · exact .inr ⟨.negative, .positive, hu, hv⟩

/-- Level doubles are the same, or both a zero. -/
theorem eq_or_zero_of_beq {x y : Float} (h : (x == y) = true) :
    x = y ∨ ∃ s t, unpacked x = .zero s ∧ unpacked y = .zero t :=
  (eq_or_zero_of_compare_eq ((beq_iff x y).1 h)).imp_left unpacked_inj

/-- The doubles with the reading of a zero are the two zeros. -/
theorem eq_of_unpacked_zero {x : Float} {s : Sign} (h : unpacked x = .zero s) :
    x = 0 ∨ x = -0.0 := by
  cases s with
  | positive => exact .inl (unpacked_inj (h.trans rfl))
  | negative => exact .inr (unpacked_inj (h.trans rfl))

/-! ## Exact parts -/

theorem toNat_unpackMantissa (b : BitVec Format.binary64.numBits) :
    (unpackMantissa b).toNat = b.toNat % 2 ^ 52 := by
  simp [unpackMantissa]

theorem toNat_unpackExponent (b : BitVec Format.binary64.numBits) :
    (unpackExponent b).toNat = b.toNat / 2 ^ 52 % 2 ^ 11 := by
  simp [unpackExponent, Nat.shiftRight_eq_div_pow]

theorem toNat_unpackSign (b : BitVec Format.binary64.numBits) :
    (unpackSign b).toNat = b.toNat / 2 ^ 63 := by
  have hb : b.toNat < 2 ^ 64 := b.isLt
  have hsign : b.toNat / 2 ^ 63 % 2 = b.toNat / 2 ^ 63 := Nat.mod_eq_of_lt (by omega)
  simpa [unpackSign, Nat.shiftRight_eq_div_pow] using hsign

/-- The sign of a number below zero. -/
def isNegative : Sign → Bool
  | .negative => true
  | .positive => false

/-- The exact parts from the three fields. -/
theorem parts_eq {x : Float} {b : BitVec Format.binary64.numBits}
    (h : x.toModel.toBits.toBitVec = b) :
    parts x =
      { negative := isNegative (Sign.ofBitVec (unpackSign b))
        mantissa := if (unpackExponent b).toNat = 0 then (unpackMantissa b).toNat
          else (unpackMantissa b).toNat + 2 ^ 52
        exponent := (if (unpackExponent b).toNat = 0 then 1 else ((unpackExponent b).toNat : Int)) -
          1075 } := by
  subst h
  have hsign : ∀ s : BitVec 1, isNegative (Sign.ofBitVec s) = decide (s.toNat = 1) := by decide
  simp only [hsign, toNat_unpackSign, toNat_unpackExponent, toNat_unpackMantissa]
  rfl

/-- The exact parts of a finite double that is not a zero are its reading. -/
theorem parts_of_unpacked {x : Float} {s : Sign} {m : Nat} {e : Int} {hm : 0 < m}
    (h : unpacked x = .finite s m e hm) : parts x = ⟨isNegative s, m, e⟩ := by
  rw [parts_eq rfl]
  change UnpackedFloat.unpack .binary64 x.toModel.toBits.toBitVec = _ at h
  rw [unpack_eq_ofFields, ofFields] at h
  split at h
  · split at h <;> exact absurd h (by simp)
  · split at h
    · rename_i h0
      split at h
      · exact absurd h (by simp)
      · obtain ⟨rfl, rfl, rfl⟩ := UnpackedFloat.finite.inj h
        simp only [h0, if_true]
        rfl
    · rename_i h0
      obtain ⟨rfl, rfl, rfl⟩ := UnpackedFloat.finite.inj h
      rw [if_neg h0, if_neg h0, Nat.add_comm]

theorem mantissa_of_unpacked_zero {x : Float} {s : Sign} (h : unpacked x = .zero s) :
    (parts x).mantissa = 0 := by
  rw [parts_eq rfl]
  change UnpackedFloat.unpack .binary64 x.toModel.toBits.toBitVec = _ at h
  rw [unpack_eq_ofFields, ofFields] at h
  split at h
  · split at h <;> exact absurd h (by simp)
  · split at h
    · rename_i h0
      split at h
      · rename_i hblank
        simp only [h0, if_true]
        exact hblank
      · exact absurd h (by simp)
    · exact absurd h (by simp)

end Binary64
end PageContent
