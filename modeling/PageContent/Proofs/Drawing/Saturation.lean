/-
# Colors out of range

A gray or RGB component out of range counts as the end of the range that it is beyond.  Of the four
CMYK components only the product `255 (1 - ink) (1 - black)` is cut, so there it is a matter of the
two that meet in a channel:

| ink and black | the channel is | if the product overflows |
| --- | --- | --- |
| both in `0 … 1` | as it is | it does not |
| one at `1` or above, the other at `1` or below | `0`, as under full ink | `0` |
| both at `0` or below | `255`, as without any | `0` |
| one below `0`, the other in between | not darker than with the one at `0` | `0` |
| both above `1` | not darker than under full ink: two signs cancel | `0` |

In the last two rows it is lighter just if the product is past the next rounding step
(`inkChannel_unit_eq_iff`).  A product that overflows leaves `0`, so there a channel saturates just
if it is dark with ink and black in range.
-/

import PageContent.Color
import PageContent.Proofs.Number.HalfDown

namespace PageContent
namespace Color

open Binary64

/-! ## Bytes -/

/-- **A byte is rounded with halves going down.** -/
theorem toByte_le_iff {x : Float} (h : x.isFinite = true) {n : ℕ} (hn : n < 255) :
    toByte x ≤ n ↔ value x ≤ n + 1 / 2 := by
  have hcut : toByte x ≤ n ↔ ceilInt (x - 0.5) ≤ n := by
    rw [toByte, if_pos h, clampInt]
    omega
  rw [hcut, ceilInt_sub_half_le_iff h (by omega)]

/-- The last number of a byte is a half above it. -/
theorem le_byteLimit_iff {x : Float} (h : x.isFinite = true) {n : ℕ} (hn : n < 255) :
    x ≤ Float.ofNat n + 0.5 ↔ toByte x ≤ n := by
  have hhalf : |value 0.5| ≤ 1 := by
    rw [value_half]
    norm_num
  have hnat : (Float.ofNat n).isFinite = true := (Decimal.isWithin_ofNat (by omega)).isFinite
  have hlimit := isFinite_add hnat (by decide) (.inr hhalf)
  have hvalue : value (Float.ofNat n + 0.5) = n + 1 / 2 := by
    rw [value_add hnat (by decide) hlimit, value_ofNat (by omega), value_half,
      nearest_add_half (by omega)]
  rw [le_iff_value h hlimit, hvalue, toByte_le_iff h hn]

theorem toByte_mono {x y : Float} (hx : x.isFinite = true) (hy : y.isFinite = true)
    (h : value x ≤ value y) : toByte x ≤ toByte y := by
  rcases (Nat.le_of_lt_succ (toByte_lt y)).eq_or_lt with hwhite | hlt
  · rw [hwhite]
    exact Nat.le_of_lt_succ (toByte_lt x)
  · exact (toByte_le_iff hx hlt).2 (h.trans ((toByte_le_iff hy hlt).1 le_rfl))

theorem toByte_eq_zero {x : Float} (h : x.isFinite = true → value x ≤ 0) : toByte x = 0 := by
  by_cases hx : x.isFinite = true
  · refine Nat.le_zero.1 ((toByte_le_iff hx (by decide)).2 ((h hx).trans ?_))
    norm_num
  · exact if_neg hx

/-! ## Components in range -/

theorem isFinite_unit (c : Float) : (unit c).isFinite = true := by
  unfold unit
  dsimp only
  split
  · decide
  · split
    · decide
    · exact isFinite_settle c

theorem value_unit (c : Float) : value (unit c) = max 0 (min 1 (value c)) := by
  have hlow : Binary64.settle c < 0 ↔ value c < 0 := by
    rw [lt_iff_value (isFinite_settle c) (by decide), value_settle, value_zero]
  have hhigh : 1 < Binary64.settle c ↔ 1 < value c := by
    rw [lt_iff_value (by decide) (isFinite_settle c), value_settle, value_one]
  unfold unit
  dsimp only
  split
  · rename_i hc
    rw [max_eq_left ((min_le_right _ _).trans (hlow.1 hc).le), value_zero]
  · rename_i hc
    have hnonneg : 0 ≤ value c := not_lt.1 (mt hlow.2 hc)
    split
    · rename_i hc'
      rw [min_eq_left (hhigh.1 hc').le, max_eq_right zero_le_one, value_one]
    · rename_i hc'
      rw [min_eq_right (not_lt.1 (mt hhigh.2 hc')), max_eq_right hnonneg, value_settle]

theorem value_unit_bounds (c : Float) : 0 ≤ value (unit c) ∧ value (unit c) ≤ 1 := by
  rw [value_unit]
  exact ⟨le_max_left _ _, max_le zero_le_one (min_le_left _ _)⟩

theorem isWithin_unit (c : Float) : IsWithin 0 (unit c) := by
  obtain ⟨hlo, hhi⟩ := value_unit_bounds c
  exact ⟨isFinite_unit c, by rwa [zpow_zero, abs_of_nonneg hlo]⟩

/-- What is in range stays. -/
theorem unit_eq {c : Float} (h : c.isFinite = true) (hlo : 0 ≤ value c) (hhi : value c ≤ 1) :
    unit c = c := by
  have hlo : ¬ c < 0 := mt (lt_iff_value h (by decide)).1 (not_lt.2 hlo)
  have hhi : ¬ 1 < c := mt (lt_iff_value (by decide) h).1 (not_lt.2 (hhi.trans_eq value_one.symm))
  rw [unit, settle_of_isFinite h]
  simp only [if_neg hlo, if_neg hhi]

/-- **Cutting a component twice is cutting it once.** -/
theorem unit_unit (c : Float) : unit (unit c) = unit c :=
  unit_eq (isFinite_unit c) (value_unit_bounds c).1 (value_unit_bounds c).2

/-! ## Ink under black -/

/-- The product that is cut to the byte of an ink under black. -/
def inkProduct (ink black : Float) : Float :=
  255 * (1 - Binary64.settle ink) * (1 - Binary64.settle black)

theorem inkChannel_eq (ink black : Float) : inkChannel ink black = toByte (inkProduct ink black) :=
  rfl

/-- The number of the product, if it is finite. -/
def shade (ink black : ℚ) : ℚ := nearest (nearest (255 * nearest (1 - ink)) * nearest (1 - black))

theorem value_inkProduct {ink black : Float} (h : (inkProduct ink black).isFinite = true) :
    value (inkProduct ink black) = shade (value ink) (value black) := by
  have hrest (c : Float) : value (1 - Binary64.settle c) = nearest (1 - value c) := by
    have hone : |value 1| ≤ 1 := by rw [value_one, abs_one]
    rw [value_sub (by decide) (isFinite_settle c)
      (isFinite_sub (by decide) (isFinite_settle c) (.inl hone)), value_one, value_settle]
  have hwhite : value 255 = 255 := (value_ofNat (n := 255) (by norm_num)).trans (by norm_num)
  obtain ⟨hink, hblack⟩ := isFinite_of_isFinite_mul h
  obtain ⟨hwhite', hink'⟩ := isFinite_of_isFinite_mul hink
  rw [inkProduct, value_mul hink hblack h, value_mul hwhite' hink' hink, hrest, hrest, hwhite,
    shade]

/-- Of components in range the product never overflows. -/
theorem isFinite_inkProduct_unit (ink black : Float) :
    (inkProduct (unit ink) (unit black)).isFinite = true := by
  have hone : IsWithin 0 1 := ⟨by decide, by rw [value_one, abs_one, zpow_zero]⟩
  have hwhite : IsWithin 8 255 := by
    refine ⟨by decide, ?_⟩
    rw [show value 255 = 255 from (value_ofNat (n := 255) (by norm_num)).trans (by norm_num)]
    norm_num
  rw [inkProduct, settle_of_isFinite (isFinite_unit ink), settle_of_isFinite (isFinite_unit black)]
  exact ((hwhite.mul (hone.sub (isWithin_unit ink))).mul (hone.sub (isWithin_unit black))).isFinite

section Shade

variable {i i' k k' : ℚ}

/-- More ink and more black make a channel darker, as long as none is beyond full. -/
theorem shade_anti (hi : i ≤ i') (hi' : i' ≤ 1) (hk : k ≤ k') (hk' : k' ≤ 1) :
    shade i' k' ≤ shade i k := by
  have hink : nearest (1 - i') ≤ nearest (1 - i) := nearest_mono (by linarith)
  have hblack : nearest (1 - k') ≤ nearest (1 - k) := nearest_mono (by linarith)
  have hlight : 0 ≤ nearest (1 - k') := nearest_nonneg (by linarith)
  have hfull : 0 ≤ nearest (255 * nearest (1 - i)) :=
    nearest_nonneg (mul_nonneg (by norm_num) (nearest_nonneg (by linarith)))
  refine nearest_mono (mul_le_mul (nearest_mono ?_) hblack hlight hfull)
  exact mul_le_mul_of_nonneg_left hink (by norm_num)

/-- Full ink or more under black up to full leaves no light. -/
theorem shade_nonpos_of_ink (hi : 1 ≤ i) (hk : k ≤ 1) : shade i k ≤ 0 := by
  have hink : nearest (1 - i) ≤ 0 := nearest_nonpos (by linarith)
  have hblack : 0 ≤ nearest (1 - k) := nearest_nonneg (by linarith)
  refine nearest_nonpos (mul_nonpos_of_nonpos_of_nonneg (nearest_nonpos ?_) hblack)
  exact mul_nonpos_of_nonneg_of_nonpos (by norm_num) hink

/-- Nor does black of full or more over ink up to full. -/
theorem shade_nonpos_of_black (hi : i ≤ 1) (hk : 1 ≤ k) : shade i k ≤ 0 := by
  have hink : 0 ≤ nearest (1 - i) := nearest_nonneg (by linarith)
  have hblack : nearest (1 - k) ≤ 0 := nearest_nonpos (by linarith)
  refine nearest_nonpos (mul_nonpos_of_nonneg_of_nonpos (nearest_nonneg ?_) hblack)
  exact mul_nonneg (by norm_num) hink

end Shade

section Channel

variable {ink black : Float}

/-- Ink and black are in range, or the one is full or more and the other at most full. -/
def InStep (ink black : Float) : Prop :=
  (0 ≤ ink ∧ ink ≤ 1 ∧ 0 ≤ black ∧ black ≤ 1) ∨ (1 ≤ ink ∧ black ≤ 1) ∨ (ink ≤ 1 ∧ 1 ≤ black)

instance : Decidable (InStep ink black) := inferInstanceAs (Decidable (_ ∨ _ ∨ _))

theorem inStep_iff (hink : ink.isFinite = true) (hblack : black.isFinite = true) :
    InStep ink black ↔
      (0 ≤ value ink ∧ value ink ≤ 1 ∧ 0 ≤ value black ∧ value black ≤ 1) ∨
        (1 ≤ value ink ∧ value black ≤ 1) ∨ (value ink ≤ 1 ∧ 1 ≤ value black) := by
  have hzero : (0 : Float).isFinite = true := by decide
  have hone : (1 : Float).isFinite = true := by decide
  rw [InStep, le_iff_value hzero hink, le_iff_value hink hone, le_iff_value hzero hblack,
    le_iff_value hblack hone, le_iff_value hone hink, le_iff_value hone hblack, value_zero,
    value_one]

/-- Without light a channel is dark, whether its product overflows or not. -/
theorem inkChannel_eq_zero (h : shade (value ink) (value black) ≤ 0) : inkChannel ink black = 0 :=
  toByte_eq_zero fun hproduct => (value_inkProduct hproduct).trans_le h

/-- Nor is there light where the product overflows. -/
theorem inkChannel_of_overflow (h : (inkProduct ink black).isFinite = false) :
    inkChannel ink black = 0 :=
  toByte_eq_zero fun hproduct => absurd (h.symm.trans hproduct) Bool.noConfusion

/-- **With full ink or full black a channel is dark.** -/
theorem inkChannel_unit_of_full (h : 1 ≤ value ink ∨ 1 ≤ value black) :
    inkChannel (unit ink) (unit black) = 0 := by
  refine inkChannel_eq_zero ?_
  rcases h with hi | hk
  · rw [value_unit ink, min_eq_left hi]
    exact shade_nonpos_of_ink (le_max_right _ _) (value_unit_bounds black).2
  · rw [value_unit black, min_eq_left hk]
    exact shade_nonpos_of_black (value_unit_bounds ink).2 (le_max_right _ _)

/-- **In step a channel saturates**, whether its product overflows or not. -/
theorem inkChannel_unit_of_inStep (hink : ink.isFinite = true) (hblack : black.isFinite = true)
    (h : InStep ink black) : inkChannel (unit ink) (unit black) = inkChannel ink black := by
  obtain ⟨hi, hi', hk, hk'⟩ | ⟨hi, hk⟩ | ⟨hi, hk⟩ := (inStep_iff hink hblack).1 h
  · rw [unit_eq hink hi hi', unit_eq hblack hk hk']
  · rw [inkChannel_eq_zero (shade_nonpos_of_ink hi hk), inkChannel_unit_of_full (.inl hi)]
  · rw [inkChannel_eq_zero (shade_nonpos_of_black hi hk), inkChannel_unit_of_full (.inr hk)]

/-- **Without ink and black a channel is white.** -/
theorem inkChannel_unit_of_nonpos (hink : value ink ≤ 0) (hblack : value black ≤ 0) :
    inkChannel (unit ink) (unit black) = 255 := by
  have hcut {q : ℚ} (h : q ≤ 0) : max 0 (min 1 q) = 0 := max_eq_left ((min_le_right _ _).trans h)
  have hone : nearest (1 - 0) = 1 := by
    rw [sub_zero]
    exact_mod_cast nearest_intCast (n := 1) (by decide)
  have hwhite : nearest 255 = 255 := by exact_mod_cast nearest_intCast (n := 255) (by decide)
  have hshade : shade 0 0 = 255 := by
    rw [shade, hone, Rat.mul_one, Rat.mul_one, hwhite, hwhite]
  have hunit := isFinite_inkProduct_unit ink black
  have hvalue : value (inkProduct (unit ink) (unit black)) = 255 := by
    rw [value_inkProduct hunit, value_unit, value_unit, hcut hink, hcut hblack, hshade]
  have hlight : ¬ inkChannel (unit ink) (unit black) ≤ 254 := by
    rw [inkChannel_eq, toByte_le_iff hunit (by decide), hvalue]
    norm_num
  have htop : inkChannel (unit ink) (unit black) < 256 := toByte_lt _
  omega

/-- **Cutting ink and black first makes no channel lighter**, if the product is finite. -/
theorem inkChannel_unit_le (h : (inkProduct ink black).isFinite = true) :
    inkChannel (unit ink) (unit black) ≤ inkChannel ink black := by
  by_cases hfull : 1 ≤ value ink ∨ 1 ≤ value black
  · rw [inkChannel_unit_of_full hfull]
    exact Nat.zero_le _
  rw [not_or, not_le, not_le] at hfull
  have hcut {c : Float} (hc : value c < 1) : value c ≤ value (unit c) := by
    rw [value_unit, min_eq_right hc.le]
    exact le_max_right _ _
  have hunit := isFinite_inkProduct_unit ink black
  rw [inkChannel_eq, inkChannel_eq]
  refine toByte_mono hunit h ?_
  rw [value_inkProduct hunit, value_inkProduct h]
  exact shade_anti (hcut hfull.1) (value_unit_bounds ink).2 (hcut hfull.2)
    (value_unit_bounds black).2

/-- **A channel saturates just if its product is not past the next rounding step.** -/
theorem inkChannel_unit_eq_iff (h : (inkProduct ink black).isFinite = true) :
    inkChannel (unit ink) (unit black) = inkChannel ink black ↔
      inkChannel (unit ink) (unit black) = 255 ∨
        inkProduct ink black ≤ Float.ofNat (inkChannel (unit ink) (unit black)) + 0.5 := by
  have hle := inkChannel_unit_le h
  have htop : inkChannel ink black ≤ 255 := Nat.le_of_lt_succ (toByte_lt _)
  rcases (hle.trans htop).eq_or_lt with hwhite | hlt
  · rw [hwhite] at hle ⊢
    exact ⟨fun _ => .inl rfl, fun _ => hle.antisymm htop⟩
  · rw [or_iff_right hlt.ne, le_byteLimit_iff h hlt, ← inkChannel_eq]
    exact ⟨fun heq => heq.ge, fun hge => hle.antisymm hge⟩

/-- Ink and black are in step, or their product is not past the next rounding step, or it overflows
where there is no light with both in range. -/
def Saturates (ink black : Float) : Prop :=
  InStep ink black ∨
    if (inkProduct ink black).isFinite = true then
      inkChannel (unit ink) (unit black) = 255 ∨
        inkProduct ink black ≤ Float.ofNat (inkChannel (unit ink) (unit black)) + 0.5
    else inkChannel (unit ink) (unit black) = 0

instance : Decidable (Saturates ink black) := inferInstanceAs (Decidable (_ ∨ ite _ _ _))

/-- **A channel saturates just there.** -/
theorem inkChannel_unit_eq_iff_saturates (hink : ink.isFinite = true)
    (hblack : black.isFinite = true) :
    inkChannel (unit ink) (unit black) = inkChannel ink black ↔ Saturates ink black := by
  unfold Saturates
  by_cases hstep : InStep ink black
  · exact iff_of_true (inkChannel_unit_of_inStep hink hblack hstep) (.inl hstep)
  · rw [or_iff_right hstep]
    split
    · rename_i hproduct
      exact inkChannel_unit_eq_iff hproduct
    · rename_i hproduct
      rw [inkChannel_of_overflow (eq_false_of_ne_true hproduct)]

end Channel

/-! ## Colors -/

theorem hexPair_inj {m n : ℕ} (hm : m < 256) (hn : n < 256) (h : hexPair m = hexPair n) :
    m = n := by
  have hdigit : ∀ i < 16, ∀ j < 16, Nat.digitChar i = Nat.digitChar j → i = j := by decide
  rw [hexPair, hexPair, List.cons.injEq, List.cons.injEq] at h
  have hhigh := hdigit _ (Nat.mod_lt _ (by decide)) _ (Nat.mod_lt _ (by decide)) h.1
  have hlow := hdigit _ (Nat.mod_lt _ (by decide)) _ (Nat.mod_lt _ (by decide)) h.2.1
  omega

/-- **Colors of other channels have other names.** -/
theorem hex_inj {r g b r' g' b' : ℕ} (hr : r < 256) (hg : g < 256) (hb : b < 256)
    (hr' : r' < 256) (hg' : g' < 256) (hb' : b' < 256) :
    hex r g b = hex r' g' b' ↔ r = r' ∧ g = g' ∧ b = b' := by
  constructor
  · intro h
    obtain ⟨-, h⟩ := List.cons.inj (String.ofList_inj.1 h)
    obtain ⟨hrg, hb''⟩ := List.append_inj h rfl
    obtain ⟨hr'', hg''⟩ := List.append_inj hrg rfl
    exact ⟨hexPair_inj hr hr' hr'', hexPair_inj hg hg' hg'', hexPair_inj hb hb' hb''⟩
  · rintro ⟨rfl, rfl, rfl⟩
    rfl

theorem channel_unit (c : Float) : channel (unit c) = channel c := by
  rw [channel, unit_unit, channel]

/-- **Components out of range saturate**, but of CMYK only where the product of each channel does:
two negative factors, or one above one, can carry it past the next rounding step, and one that
overflows leaves no light, though without ink and black there is all of it. -/
theorem ofComponents_map_unit (components : List Float)
    (hfinite : ∀ c ∈ components, c.isFinite = true) :
    (components.length ≠ 4 → ofComponents (components.map unit) = ofComponents components) ∧
      ∀ c m y k, components = [c, m, y, k] →
        (ofComponents (components.map unit) = ofComponents components ↔
          ∀ ink ∈ [c, m, y], Saturates ink k) ∧
        ∀ ink ∈ [c, m, y],
          (ink ≤ 0 → k ≤ 0 → inkChannel (unit ink) (unit k) = 255) ∧
          (1 ≤ ink ∨ 1 ≤ k → inkChannel (unit ink) (unit k) = 0) ∧
          ((inkProduct ink k).isFinite = false → inkChannel ink k = 0) := by
  constructor
  · intro hlength
    match components, hlength with
    | [], _ => rfl
    | [gray], _ => simp only [List.map, ofComponents, channel_unit]
    | [_, _], _ => rfl
    | [r, g, b], _ => simp only [List.map, ofComponents, channel_unit]
    | [_, _, _, _], hlength => exact absurd rfl hlength
    | _ :: _ :: _ :: _ :: _ :: _, _ => rfl
  · rintro c m y k rfl
    have hinks : ∀ ink ∈ [c, m, y], ink.isFinite = true := fun ink hmem =>
      hfinite ink (List.mem_append_left [k] hmem)
    have hk : k.isFinite = true := hfinite k (List.mem_append_right [c, m, y] List.mem_cons_self)
    have hlt : ∀ ink black, inkChannel ink black < 256 := fun _ _ => toByte_lt _
    refine ⟨?saturated, fun ink hmem => ⟨fun hlow hlow' => ?white, fun hfull => ?dark, ?overflow⟩⟩
    case saturated =>
      have hchannel : ∀ ink ∈ [c, m, y], _ := fun ink hmem =>
        inkChannel_unit_eq_iff_saturates (hinks ink hmem) hk
      rw [← forall₂_congr hchannel, List.forall_mem_cons, List.forall_mem_cons,
        List.forall_mem_singleton]
      exact hex_inj (hlt _ _) (hlt _ _) (hlt _ _) (hlt _ _) (hlt _ _) (hlt _ _)
    case white =>
      have hnone {x : Float} (hx : x.isFinite = true) : x ≤ 0 → value x ≤ 0 :=
        (le_iff_value hx (by decide)).1
      exact inkChannel_unit_of_nonpos (hnone (hinks ink hmem) hlow) (hnone hk hlow')
    case dark =>
      have hone {x : Float} (hx : x.isFinite = true) (hle : 1 ≤ x) : 1 ≤ value x :=
        value_one.symm.trans_le ((le_iff_value (by decide) hx).1 hle)
      exact inkChannel_unit_of_full (hfull.imp (hone (hinks ink hmem)) (hone hk))
    case overflow => exact inkChannel_of_overflow

/-- A gray beyond white is white, an ink beyond full under half of black leaves nothing, and inks
under less than no black are white.  But a negative ink lifts its channel under half of black.
Products that overflow make no difference far beyond full ink, and they make the white of far less
than none black. -/
theorem ofComponents_map_unit_of_halfBlack :
    ofComponents ([7].map unit) = ofComponents [7] ∧
      ofComponents ([1.5, 0.25, 0, 0.5].map unit) = ofComponents [1.5, 0.25, 0, 0.5] ∧
      ofComponents ([-2, 0, 0, -1].map unit) = ofComponents [-2, 0, 0, -1] ∧
      ofComponents ([-0.5, 0, 0, 0.5].map unit) ≠ ofComponents [-0.5, 0, 0, 0.5] ∧
      ofComponents ([1e200, 1e200, 1e200, 1e200].map unit) =
        ofComponents [1e200, 1e200, 1e200, 1e200] ∧
      inkChannel (unit (-1e200)) (unit (-1e200)) = 255 ∧ inkChannel (-1e200) (-1e200) = 0 ∧
      ofComponents ([-1e200, 0, 0, -1e200].map unit) ≠ ofComponents [-1e200, 0, 0, -1e200] := by
  obtain ⟨hgray, -⟩ := ofComponents_map_unit [7] (by decide +kernel)
  obtain ⟨-, hfull⟩ := ofComponents_map_unit [1.5, 0.25, 0, 0.5] (by decide +kernel)
  obtain ⟨-, hnone⟩ := ofComponents_map_unit [-2, 0, 0, -1] (by decide +kernel)
  obtain ⟨-, hnegative⟩ := ofComponents_map_unit [-0.5, 0, 0, 0.5] (by decide +kernel)
  obtain ⟨-, hhuge⟩ := ofComponents_map_unit [1e200, 1e200, 1e200, 1e200] (by decide +kernel)
  obtain ⟨-, htiny⟩ := ofComponents_map_unit [-1e200, 0, 0, -1e200] (by decide +kernel)
  obtain ⟨htiny, hcyan⟩ := htiny _ _ _ _ rfl
  obtain ⟨hwhite, -, hoverflow⟩ := hcyan _ List.mem_cons_self
  refine ⟨hgray (by decide), ?_, ?_, ?_, ?_, ?_, ?_, ?_⟩
  · exact (hfull _ _ _ _ rfl).1.2 (by decide +kernel)
  · exact (hnone _ _ _ _ rfl).1.2 (by decide +kernel)
  · exact mt (hnegative _ _ _ _ rfl).1.1 (by decide +kernel)
  · exact (hhuge _ _ _ _ rfl).1.2 (by decide +kernel)
  · exact hwhite (by decide +kernel) (by decide +kernel)
  · exact hoverflow (by decide +kernel)
  · exact mt htiny.1 (by decide +kernel)

/-- Cyan and black of twice the full make red and not black. -/
theorem not_forall_ofComponents_map_unit :
    ¬ ∀ components : List Float, (∀ c ∈ components, c.isFinite = true) →
      components.length ∈ [1, 3, 4] →
        ofComponents (components.map unit) = ofComponents components := by
  intro h
  exact absurd (h [2, 0, 0, 2] (by decide +kernel) (by decide)) (by decide +kernel)

end Color
end PageContent
