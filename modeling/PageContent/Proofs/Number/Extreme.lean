/-
# The least and the greatest of some doubles

`least` and `greatest` take one of two doubles, and a NaN stands aside for a number.  Folded over a
list they give its extreme in one of the two directions (`isExtreme_foldl`):

| of the extreme | holds |
| --- | --- |
| where it is from | it is one of the doubles |
| what is beyond it | none of them that is a number |
| when it is a NaN | only if all of them are |

Two extremes of the same doubles are level, in whatever order these are met (`IsExtreme.level`): the
zero that comes out may have either sign, and there is one NaN.
-/

import PageContent.Proofs.Number.Level
import PageContent.Proofs.Number.Ordered

namespace PageContent
namespace Binary64

variable {x y z : Float}

/-! ## Order and levels -/

protected theorem le_refl (hx : x.isNaN = false) : x ≤ x :=
  (le_iff_rank hx hx).2 le_rfl

protected theorem le_of_lt (h : x < y) : x ≤ y := by
  obtain ⟨hx, hy⟩ := isNaN_of_lt h
  exact (le_iff_rank hx hy).2 ((lt_iff_rank hx hy).1 h).le

/-- There is one NaN. -/
theorem eq_of_isNaN (hx : x.isNaN = true) (hy : y.isNaN = true) : x = y := by
  rw [Float.isNaN_eq_decide_eq_nan, decide_eq_true_iff] at hx hy
  exact hx.trans hy.symm

/-- **Doubles neither of which is beyond the other are level.** -/
theorem Level.of_le (hxy : x ≤ y) (hyx : y ≤ x) : Level x y := by
  obtain ⟨hx, hy⟩ := isNaN_of_le hxy
  have hrank := le_antisymm ((le_iff_rank hx hy).1 hxy) ((le_iff_rank hy hx).1 hyx)
  have hcompare : (unpacked x).compare (unpacked y) = some .eq := by
    rw [compare_eq_rank (rounded_unpacked x).1 (rounded_unpacked y).1 hx hy, hrank,
      compare_eq_iff_eq.2 rfl]
  rcases eq_or_zero_of_compare_eq hcompare with heq | ⟨s, t, hs, ht⟩
  · exact .inl (unpacked_inj heq)
  · exact .inr ⟨⟨s, hs⟩, ⟨t, ht⟩⟩

/-- One of the two directions in which doubles are ordered. -/
structure IsDirection (r : Float → Float → Prop) : Prop where
  trans : ∀ {x y z}, r x y → r y z → r x z
  level : ∀ {x y}, r x y → r y x → Level x y
  isNaN : ∀ {x y}, r x y → x.isNaN = false

theorem isDirection_le : IsDirection (· ≤ ·) :=
  ⟨Binary64.le_trans, Level.of_le, fun h => (isNaN_of_le h).1⟩

theorem isDirection_ge : IsDirection (· ≥ ·) :=
  ⟨fun h h' => Binary64.le_trans h' h, fun h h' => Level.of_le h' h, fun h => (isNaN_of_le h).2⟩

/-! ## Extremes -/

/-- One of some doubles, as far in a direction as any of them that is a number, and a NaN only if
all of them are. -/
structure IsExtreme (r : Float → Float → Prop) (xs : List Float) (x : Float) : Prop where
  mem : x ∈ xs
  bound : ∀ y ∈ xs, y.isNaN = false → r x y
  isNaN : x.isNaN = true → ∀ y ∈ xs, y.isNaN = true

/-- The least of some doubles. -/
abbrev IsLowest : List Float → Float → Prop := IsExtreme (· ≤ ·)

/-- The greatest of some doubles. -/
abbrev IsHighest : List Float → Float → Prop := IsExtreme (· ≥ ·)

section Extremes

variable {r : Float → Float → Prop} {xs ys : List Float}

/-- A double in a direction from a number is no NaN itself. -/
theorem IsDirection.isExtreme (hr : IsDirection r) (hmem : x ∈ xs)
    (hbound : ∀ y ∈ xs, y.isNaN = false → r x y) : IsExtreme r xs x := by
  refine ⟨hmem, hbound, fun hx y hy => ?_⟩
  by_contra hnumber
  rw [Bool.not_eq_true] at hnumber
  have hx' := hr.isNaN (hbound y hy hnumber)
  exact absurd (hx.symm.trans hx') Bool.noConfusion

theorem IsDirection.isExtreme_pair (hr : IsDirection r) (hmem : z = x ∨ z = y)
    (hx : x.isNaN = false → r z x) (hy : y.isNaN = false → r z y) : IsExtreme r [x, y] z := by
  refine hr.isExtreme ?_ (List.forall_mem_cons.2 ⟨hx, List.forall_mem_singleton.2 hy⟩)
  rw [List.mem_cons, List.mem_singleton]
  exact hmem

/-- The extreme of the first two of some doubles stands for both. -/
theorem IsExtreme.of_cons_pair (hr : IsDirection r) (hpair : IsExtreme r [x, y] z) {e : Float}
    (h : IsExtreme r (z :: xs) e) : IsExtreme r (x :: y :: xs) e := by
  have hfront : ∀ w ∈ [x, y], w.isNaN = false → r e w := by
    intro w hw hnumber
    have hzw := hpair.bound w hw hnumber
    exact hr.trans (h.bound z List.mem_cons_self (hr.isNaN hzw)) hzw
  refine hr.isExtreme ?_ fun w hw => ?_
  · rcases List.mem_cons.1 h.mem with rfl | he
    · exact List.mem_append_left xs hpair.mem
    · exact List.mem_append_right [x, y] he
  · rcases List.mem_append.1 (show w ∈ [x, y] ++ xs from hw) with hw | hw
    · exact hfront w hw
    · exact h.bound w (List.mem_cons_of_mem z hw)

/-- **Taking the extreme of two over and over gives that of all.** -/
theorem isExtreme_foldl (hr : IsDirection r) {op : Float → Float → Float}
    (hop : ∀ x y, IsExtreme r [x, y] (op x y)) (x : Float) (xs : List Float) :
    IsExtreme r (x :: xs) (xs.foldl op x) := by
  induction xs generalizing x with
  | nil =>
    have hx : op x x = x := by simpa using (hop x x).mem
    have hself := (hop x x).bound x List.mem_cons_self
    rw [hx] at hself
    exact hr.isExtreme List.mem_cons_self (List.forall_mem_singleton.2 hself)
  | cons y xs ih => exact (hop x y).of_cons_pair hr (ih (op x y))

/-- **The extremes of the same doubles are level.** -/
theorem IsExtreme.level (hr : IsDirection r) (hx : IsExtreme r xs x) (hy : IsExtreme r ys y)
    (hmem : ∀ z, z ∈ xs ↔ z ∈ ys) : Level x y := by
  have hxmem : x ∈ ys := (hmem x).1 hx.mem
  have hymem : y ∈ xs := (hmem y).2 hy.mem
  by_cases hnan : x.isNaN = true
  · exact .inl (eq_of_isNaN hnan (hx.isNaN hnan y hymem))
  · have hnan' : ¬ y.isNaN = true := fun h => hnan (hy.isNaN h x hxmem)
    rw [Bool.not_eq_true] at hnan hnan'
    exact hr.level (hx.bound y hymem hnan') (hy.bound x hxmem hnan)

end Extremes

theorem isLowest_least (x y : Float) : IsLowest [x, y] (least x y) := by
  refine isDirection_le.isExtreme_pair (least_eq_or x y) (fun hx => ?_) fun hy => ?_
  · unfold least
    split
    · exact Binary64.le_refl hx
    · rename_i h
      rw [Bool.or_eq_true, not_or, Bool.not_eq_true, decide_eq_true_eq] at h
      exact Binary64.le_of_not_lt h.1 hx h.2
  · rw [least, hy, Bool.false_or]
    split
    · rename_i hlt
      exact Binary64.le_of_lt (of_decide_eq_true hlt)
    · exact Binary64.le_refl hy

theorem isHighest_greatest (x y : Float) : IsHighest [x, y] (greatest x y) := by
  refine isDirection_ge.isExtreme_pair (greatest_eq_or x y) (fun hx => ?_) fun hy => ?_
  · unfold greatest
    split
    · exact Binary64.le_refl hx
    · rename_i h
      rw [Bool.or_eq_true, not_or, Bool.not_eq_true, decide_eq_true_eq] at h
      exact Binary64.le_of_not_lt hx h.1 h.2
  · rw [greatest, hy, Bool.false_or]
    split
    · rename_i hlt
      exact Binary64.le_of_lt (of_decide_eq_true hlt)
    · exact Binary64.le_refl hy

end Binary64
end PageContent
