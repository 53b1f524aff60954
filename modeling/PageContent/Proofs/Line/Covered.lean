/-
# What the overlap pass drops

A dropped fragment has a survivor over it: the overlap pass drops it for a fragment that
was kept before, and what is kept stays (`exists_isOverlapOf_of_dropped`).  How much of
the width has to be covered is a matter of the options, but not whether the two meet:
no quotient of a nonnegative width is beyond a coverage that is not negative unless
the common width is positive, and it is positive only if the two extents have points
in common (`meets_of_isOverlapOf`).

All of this is about fragments that have a width.  One without has no part of it
left uncovered, wherever it stands, so the pass looks at its edges and at its text
and not at its place on the line (`isOverlapOf_move`).
-/

import PageContent.Proofs.Line.Survivors
import PageContent.Proofs.Number.Nearest

namespace PageContent

open Binary64

/-- The left and the right edge are numbers. -/
def Fragment.HasEdges (f : Fragment) : Prop :=
  f.bbox.x0.isFinite = true ∧ f.bbox.x1.isFinite = true

instance (f : Fragment) : Decidable f.HasEdges := inferInstanceAs (Decidable (_ ∧ _))

/-- The extents of two fragments on their lines have points in common. -/
def Fragment.Meets (f g : Fragment) : Prop := f.bbox.x0 < g.bbox.x1 ∧ g.bbox.x0 < f.bbox.x1

instance (f g : Fragment) : Decidable (f.Meets g) := inferInstanceAs (Decidable (_ ∧ _))

/-- The fragment with other edges to the left and to the right. -/
def Fragment.movedTo (f : Fragment) (left right : Float) : Fragment :=
  { f with bbox := { f.bbox with x0 := left, x1 := right } }

namespace Merge

variable {o : MergeOptions}

/-! ## Coverage -/

/-- Nothing of a positive width is not beyond a nonnegative coverage. -/
theorem not_lt_zero_div {c w : Float} (hc : ¬ c < 0) (hw : 0 < w) : ¬ c < 0 / w := by
  have hquotient : unpacked (0 / w) = .zero .positive := by
    rw [lt_iff, show unpacked 0 = .zero .positive from rfl] at hw
    rw [div_eq, show unpacked 0 = .zero .positive from rfl]
    generalize unpacked w = u at hw
    cases u with
    | zero s => exact absurd hw nofun
    | notANumber => exact absurd hw nofun
    | infinity s =>
      cases s with
      | positive => rfl
      | negative => exact absurd hw nofun
    | finite s m e hm =>
      cases s with
      | positive => exact unpacked_ofUnpacked (u := .zero .positive) trivial trivial
      | negative => exact absurd hw nofun
  rw [lt_iff, hquotient]
  exact fun h => hc ((lt_iff c 0).2 h)

/-- What two fragments have in common of their widths is positive only if they meet. -/
theorem meets_of_zero_lt {f g : Fragment} (hf : f.HasEdges) (hg : g.HasEdges)
    (h : 0 < least f.bbox.x1 g.bbox.x1 - greatest f.bbox.x0 g.bbox.x0) : f.Meets g := by
  obtain ⟨hf0, hf1⟩ := hf
  obtain ⟨hg0, hg1⟩ := hg
  have hleft := isFinite_greatest hf0 hg0
  have hright := isFinite_least hf1 hg1
  rw [sub_pos_iff hright hleft, lt_iff_value hleft hright, value_greatest hf0 hg0,
    value_least hf1 hg1, max_lt_iff, lt_min_iff, lt_min_iff] at h
  obtain ⟨⟨-, hfg⟩, hgf, -⟩ := h
  exact ⟨(lt_iff_value hf0 hg1).2 hfg, (lt_iff_value hg0 hf1).2 hgf⟩

/-- Without a width all of a fragment is covered. -/
theorem coverage_of_not_lt {f : Fragment} (g : Fragment) (hf : f.HasEdges)
    (h : ¬ f.bbox.x0 < f.bbox.x1) : coverage f g = 1 := by
  have hwidth : ¬ 0 < f.bbox.x1 - f.bbox.x0 := mt (sub_pos_iff hf.2 hf.1).1 h
  rw [coverage, if_neg hwidth]

/-- **What is painted over meets what is over it** if it has a width. -/
theorem meets_of_isOverlapOf (ho : ¬ o.overlapCoverage < 0) {f g : Fragment} (hf : f.HasEdges)
    (hg : g.HasEdges) (hwidth : f.bbox.x0 < f.bbox.x1) (h : isOverlapOf o f g = true) :
    f.Meets g := by
  have hpos : 0 < f.bbox.x1 - f.bbox.x0 := (sub_pos_iff hf.2 hf.1).2 hwidth
  rw [isOverlapOf, Bool.and_eq_true] at h
  have hcovered := of_decide_eq_true h.2
  rw [coverage, if_pos hpos, greatest, show (0 : Float).isNaN = false from rfl,
    Bool.false_or] at hcovered
  by_cases hshared : 0 < least f.bbox.x1 g.bbox.x1 - greatest f.bbox.x0 g.bbox.x0
  · exact meets_of_zero_lt hf hg hshared
  · rw [if_neg (mt of_decide_eq_true hshared)] at hcovered
    exact absurd hcovered (not_lt_zero_div ho hpos)

/-- **Where a fragment without a width stands on its line makes no difference.** -/
theorem isOverlapOf_move {f : Fragment} (g : Fragment) (hf : f.HasEdges)
    (h : ¬ f.bbox.x0 < f.bbox.x1) {left right : Float} (hl : left.isFinite = true)
    (hr : right.isFinite = true) (h' : ¬ left < right) :
    isOverlapOf o (f.movedTo left right) g = isOverlapOf o f g := by
  have hmoved : coverage (f.movedTo left right) g = 1 := coverage_of_not_lt g ⟨hl, hr⟩ h'
  rw [isOverlapOf, isOverlapOf, hmoved, coverage_of_not_lt g hf h]
  rfl

/-! ## The survivor over a dropped fragment -/

/-- A fragment is kept, or painted over by what is kept. -/
theorem foldl_keepUncovered_covers (ordered kept : List (Fragment × Nat)) :
    ∀ f ∈ ordered, f ∈ ordered.foldl (keepUncovered o) kept ∨
      ∃ g ∈ ordered.foldl (keepUncovered o) kept, isOverlapOf o f.1 g.1 = true := by
  induction ordered generalizing kept with
  | nil => exact fun _ h => absurd h List.not_mem_nil
  | cons e ordered ih =>
    have hstay := (foldl_keepUncovered_spec o ordered (keepUncovered o kept e)).1
    intro f hf
    rw [List.foldl_cons]
    rcases List.mem_cons.1 hf with rfl | hf
    · by_cases hany : kept.any (isOverlapOf o f.1 ·.1) = true
      · obtain ⟨g, hg, hover⟩ := List.any_eq_true.1 hany
        exact .inr ⟨g, hstay g ((keepUncovered_spec o kept f).1 g hg), hover⟩
      · refine .inl (hstay f ?_)
        rw [keepUncovered, if_neg hany]
        exact List.mem_append_right kept List.mem_cons_self
    · exact ih _ f hf

/-- The fragments that the overlap pass drops, with their places in the input. -/
def dropped (o : MergeOptions) (fs : List Fragment) : List (Fragment × Nat) :=
  fs.zipIdx.filter fun f => !(uncovered o (longestFirst fs)).any (·.2 == f.2)

/-- **A dropped fragment is painted over by a survivor.** -/
theorem exists_isOverlapOf_of_dropped {fs : List Fragment} {f : Fragment × Nat}
    (hf : f ∈ dropped o fs) : ∃ g ∈ dedupeOverlaps o fs, isOverlapOf o f.1 g = true := by
  obtain ⟨hmem, hnone⟩ := List.mem_filter.1 hf
  have hperm : (longestFirst fs).Perm fs.zipIdx := stableSort_perm _ _
  rcases foldl_keepUncovered_covers (o := o) (longestFirst fs) [] f (hperm.mem_iff.2 hmem) with
    hkept | ⟨g, hg, hover⟩
  · have hany : (uncovered o (longestFirst fs)).any (·.2 == f.2) = true :=
      List.any_eq_true.2 ⟨f, hkept, beq_self_eq_true f.2⟩
    rw [hany] at hnone
    exact absurd hnone Bool.false_ne_true
  · have hplace : g ∈ fs.zipIdx := hperm.mem_iff.1 ((uncovered_spec o (longestFirst fs)).1 g hg)
    refine ⟨g.1, List.mem_map.2 ⟨g, List.mem_filter.2 ⟨hplace, ?_⟩, rfl⟩, hover⟩
    exact List.any_eq_true.2 ⟨g, hg, beq_self_eq_true g.2⟩

/-- **The overlap pass drops what is painted over, as far as it has a width.**  A dropped fragment
has its text in that of a survivor whose top and bottom are near its own, and meets it if it has a
width.  One without a width is dropped for such a survivor wherever it stands on its line. -/
theorem dropped_isCovered (o : MergeOptions) (ho : ¬ o.overlapCoverage < 0) (fs : List Fragment)
    (hfs : ∀ f ∈ fs, f.HasEdges) :
    (∀ f ∈ dropped o fs, ∃ g ∈ dedupeOverlaps o fs, f.1.chars <:+: g.chars ∧
      (f.1.bbox.y0 - g.bbox.y0).abs < o.overlapTolerance ∧
      (f.1.bbox.y1 - g.bbox.y1).abs < o.overlapTolerance ∧
      (f.1.bbox.x0 < f.1.bbox.x1 → f.1.Meets g)) ∧
    ∀ f ∈ fs, ¬ f.bbox.x0 < f.bbox.x1 → ∀ g left right, left.isFinite = true →
      right.isFinite = true → ¬ left < right →
        isOverlapOf o (f.movedTo left right) g = isOverlapOf o f g := by
  constructor
  · intro f hf
    obtain ⟨g, hg, hover⟩ := exists_isOverlapOf_of_dropped hf
    have hmem : f.1 ∈ fs := by
      rw [← List.zipIdx_map_fst 0 fs]
      exact List.mem_map_of_mem (List.mem_filter.1 hf).1
    have hedges := hfs g ((dedupeOverlaps_sublist o fs).mem hg)
    have hmeets := fun hwidth => meets_of_isOverlapOf ho (hfs f.1 hmem) hedges hwidth hover
    refine ⟨g, hg, infix_of_isOverlapOf hover, ?_, ?_, hmeets⟩
    · rw [isOverlapOf, Bool.and_eq_true, Bool.and_eq_true, Bool.and_eq_true] at hover
      exact of_decide_eq_true hover.1.1.1
    · rw [isOverlapOf, Bool.and_eq_true, Bool.and_eq_true, Bool.and_eq_true] at hover
      exact of_decide_eq_true hover.1.1.2
  · intro f hf hwidth g left right hl hr h'
    exact isOverlapOf_move g (hfs f hf) hwidth hl hr h'

/-- A word, a part of it painted once more beside it, and a letter of it without a width at the
other end of the line. -/
def shadowedWord : List Fragment :=
  [{ id := "word", content := "hello", bbox := ⟨0, 0, 50, 10⟩ },
    { id := "shadow", content := "hell", bbox := ⟨1, 1, 41, 11⟩ },
    { id := "letter", content := "o", bbox := ⟨300, 0, 300, 10⟩ }]

/-- The shadow meets the word that it is dropped for, and the letter would go as well if it stood
on the word. -/
theorem dropped_isCovered_shadowedWord :
    (dropped {} shadowedWord).map (·.1.id) = ["shadow", "letter"] ∧
    (∀ f ∈ dropped {} shadowedWord, ∃ g ∈ dedupeOverlaps {} shadowedWord,
      f.1.chars <:+: g.chars ∧ (f.1.bbox.x0 < f.1.bbox.x1 → f.1.Meets g)) ∧
    ∀ f ∈ shadowedWord, ¬ f.bbox.x0 < f.bbox.x1 → ∀ g,
      isOverlapOf {} (f.movedTo 45 45) g = isOverlapOf {} f g := by
  obtain ⟨hover, hmove⟩ := dropped_isCovered {} (by decide +kernel) shadowedWord (by decide +kernel)
  refine ⟨by decide +kernel, ?_, ?_⟩
  · intro f hf
    obtain ⟨g, hg, hinfix, -, -, hmeets⟩ := hover f hf
    exact ⟨g, hg, hinfix, hmeets⟩
  · intro f hf hwidth g
    exact hmove f hf hwidth g 45 45 (by decide +kernel) (by decide +kernel) (by decide +kernel)

end Merge
end PageContent
