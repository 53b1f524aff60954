/-
# Fragments of one baseline

The key of a group is the baseline of its first fragment to the nearest half unit, and it is the
key that the tolerance is compared with.  So a group need not admit the baseline it was opened
at, and then the next fragment there opens a group of its own.  If it does admit it, the
fragments of the baseline are never told apart (`isTogether_of_admitsOwn`): the first of them has
its group in front of all others that a later one could go to.

| tolerance | fragments of one baseline |
| --- | --- |
| more than the distance of the baseline from its half unit | are together, whatever else there is |
| no more than that | are apart as soon as there are two |

That distance is never more than a quarter (`abs_halfUnit_sub_le`).
-/

import PageContent.Proofs.Line.FirstMatch
import PageContent.Proofs.Number.HalfUnits
import PageContent.Proofs.Number.Level

namespace PageContent
namespace Merge

open Binary64 (Level)

variable {o : MergeOptions} {x y : Float}

/-! ## Level baselines -/

theorem level_of_beq (h : (x == y) = true) : Level x y :=
  (Binary64.eq_or_zero_of_beq h).imp_right fun ⟨s, t, hs, ht⟩ => ⟨⟨s, hs⟩, ⟨t, ht⟩⟩

/-- No distance tells level baselines apart. -/
theorem abs_sub_congr (h : Level x y) (key : Float) : (key - x).abs = (key - y).abs := by
  rcases h with rfl | ⟨⟨s, hs⟩, ⟨t, ht⟩⟩
  · rfl
  · rw [Binary64.sub_eq, Binary64.sub_eq, hs, ht]
    cases Binary64.unpacked key with
    | zero r => cases r <;> cases s <;> cases t <;> rfl
    | _ => rfl

/-- Nor does a key. -/
theorem groupKey_congr (h : Level x y) : groupKey x = groupKey y := by
  rcases h with rfl | ⟨⟨s, hs⟩, ⟨t, ht⟩⟩
  · rfl
  · rcases Binary64.eq_of_unpacked_zero hs with rfl | rfl <;>
      rcases Binary64.eq_of_unpacked_zero ht with rfl | rfl <;> decide +kernel

/-! ## The group of a baseline -/

/-- The group of a baseline has all its fragments, in their order. -/
def IsTogether (o : MergeOptions) (fs : List Fragment) (y : Float) : Prop :=
  ∀ f ∈ fs, (f.baseline == y) = true → ∃ g ∈ groupByBaseline o fs,
    g.items.filter (·.baseline == y) = fs.filter (·.baseline == y)

/-- A group that is opened at the baseline admits it. -/
def AdmitsOwn (o : MergeOptions) (y : Float) : Prop :=
  (groupKey y - y).abs < o.baselineTolerance

section Places

variable {fs : List Fragment} {places : List Nat} {groups : List Group}

theorem not_lt_of_admitsOwn (h : IsFirstMatch o fs places groups) (hy : AdmitsOwn o y)
    {e e' : Fragment} {i i' : Nat} (he : (e, i) ∈ fs.zip places) (he' : (e', i') ∈ fs.zip places)
    (hlevel : Level e.baseline y) (hlevel' : Level e'.baseline y) : ¬ i < i' := by
  intro hlt
  obtain ⟨g, hg⟩ : ∃ g, groups[i]? = some g :=
    ⟨_, List.getElem?_eq_getElem (h.lt_length i (List.of_mem_zip he).2)⟩
  have hmem : e ∈ g.items := by
    rw [h.items_eq i g hg]
    exact List.mem_map.2 ⟨(e, i), List.mem_filter.2 ⟨he, beq_self_eq_true i⟩, rfl⟩
  have hkey := h.key_eq i g hg
  have hnear := h.near i g hg
  refine h.apart e' i' he' i g hlt hg ?_
  rw [abs_sub_congr hlevel']
  obtain ⟨first, rest, hitems⟩ := List.exists_cons_of_ne_nil (List.ne_nil_of_mem hmem)
  rw [hitems] at hmem hkey hnear
  rcases List.mem_cons.1 hmem with rfl | hrest
  · have hkey : groupKey e.baseline = g.key := Option.some.inj hkey
    rw [← hkey, groupKey_congr hlevel]
    exact hy
  · rw [← abs_sub_congr hlevel]
    exact hnear e hrest

theorem map_fst_zip_places (hlength : places.length = fs.length) :
    (fs.zip places).map Prod.fst = fs :=
  List.map_fst_zip (Nat.le_of_eq hlength.symm)

theorem exists_place (hlength : places.length = fs.length) {f : Fragment} (hf : f ∈ fs) :
    ∃ i, (f, i) ∈ fs.zip places := by
  rw [← map_fst_zip_places hlength] at hf
  obtain ⟨⟨e, i⟩, hmem, rfl⟩ := List.mem_map.1 hf
  exact ⟨i, hmem⟩

/-- A place has all the fragments of a kind if it is the place of each of them. -/
theorem filter_dealtTo (hlength : places.length = fs.length) {i : Nat} {p : Fragment → Bool}
    (h : ∀ e j, (e, j) ∈ fs.zip places → p e = true → j = i) :
    (dealtTo i fs places).filter p = fs.filter p := by
  have hplace : ((fs.zip places).filter (·.2 == i)).filter (p ∘ Prod.fst) =
      (fs.zip places).filter (p ∘ Prod.fst) := by
    rw [List.filter_filter]
    refine List.filter_congr ?_
    rintro ⟨e, j⟩ hmem
    by_cases hp : p e = true
    · simp [hp, h e j hmem hp]
    · simp [hp]
  rw [dealtTo, List.filter_map, hplace, ← List.filter_map, map_fst_zip_places hlength]

end Places

/-- **Fragments of a baseline that groups opened there admit are together.** -/
theorem isTogether_of_admitsOwn (hy : AdmitsOwn o y) (fs : List Fragment) : IsTogether o fs y := by
  intro f hf hbeq
  obtain ⟨places, h⟩ := exists_isFirstMatch o fs
  obtain ⟨i, hi⟩ := exists_place h.length_eq hf
  have hlt : i < (groupByBaseline o fs).length := h.lt_length i (List.of_mem_zip hi).2
  refine ⟨_, List.getElem_mem hlt, ?_⟩
  rw [h.items_eq i _ (List.getElem?_eq_getElem hlt)]
  refine filter_dealtTo h.length_eq fun e j he hlevel => ?_
  have hle := not_lt_of_admitsOwn h hy he hi (level_of_beq hlevel) (level_of_beq hbeq)
  have hge := not_lt_of_admitsOwn h hy hi he (level_of_beq hbeq) (level_of_beq hlevel)
  omega

/-- Two fragments at a baseline that a group opened there does not admit. -/
theorem groupByBaseline_pair (f : Fragment) (h : ¬ AdmitsOwn o f.baseline) :
    groupByBaseline o [f, f] =
      [⟨groupKey f.baseline, [f]⟩, ⟨groupKey f.baseline, [f]⟩] := by
  have hadmits : Group.admits o ⟨groupKey f.baseline, [f]⟩ f.baseline = false := decide_eq_false h
  simp [groupByBaseline, joinGroup, hadmits]

/-- **Fragments of one baseline are together, whatever else there is, if and only if the distance
of the baseline from its half unit is below the tolerance.**  A tolerance of more than a quarter
is enough, for baselines of at most `2 ^ 50`. -/
theorem baseline_together (o : MergeOptions) (hy : y.isFinite = true) :
    ((∀ fs, IsTogether o fs y) ↔ AdmitsOwn o y) ∧
      (y.abs ≤ 1125899906842624 → 0.25 < o.baselineTolerance → ∀ fs, IsTogether o fs y) := by
  refine ⟨⟨fun h => ?_, isTogether_of_admitsOwn⟩, fun hbound htolerance => ?_⟩
  · by_contra hapart
    obtain ⟨f, hf⟩ : ∃ f : Fragment, f.baseline = y :=
      ⟨{ id := "", content := "", bbox := .ofPoint ⟨0, y⟩ }, rfl⟩
    obtain rfl := hf
    have hself := Binary64.beq_self_of_isFinite hy
    obtain ⟨g, hg, hitems⟩ := h [f, f] f List.mem_cons_self hself
    rw [groupByBaseline_pair f hapart] at hg
    obtain rfl : g = ⟨groupKey f.baseline, [f]⟩ := by simpa using hg
    simp [hself] at hitems
  · refine isTogether_of_admitsOwn ?_
    exact Binary64.lt_of_le_of_lt (Binary64.abs_halfUnit_sub_le hbound) htolerance

/-- Half way between half units, a tolerance of a tenth is less than that distance. -/
theorem baseline_together_halfway :
    let y : Float := 100.25
    y.isFinite = true ∧ y.abs ≤ 1125899906842624 ∧
      (∀ fs, IsTogether {} fs y) ∧ ¬ ∀ fs, IsTogether { baselineTolerance := 0.1 } fs y := by
  intro y
  have hy : y.isFinite = true := by decide +kernel
  have hbound : y.abs ≤ 1125899906842624 := by decide +kernel
  have hapart : ¬ AdmitsOwn { baselineTolerance := 0.1 } y := by
    unfold AdmitsOwn
    decide +kernel
  exact ⟨hy, hbound, (baseline_together {} hy).2 hbound (by decide +kernel),
    mt (baseline_together { baselineTolerance := 0.1 } hy).1.1 hapart⟩

end Merge
end PageContent
