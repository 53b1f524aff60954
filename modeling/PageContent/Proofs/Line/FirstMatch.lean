/-
# Grouping is first match

Each fragment goes to one group, and which one is told against the groups in the end, though
it was decided against those that stood when the fragment came.  That makes no difference,
since groups are opened behind the others and a key is never touched again
(`keys_prefix_joinGroup`):

| | |
| --- | --- |
| groups in front of that of a fragment | their keys are not near its baseline (`IsFirstMatch.apart`) |
| the group of a fragment | its key is near, or it is the one that opened the group (`IsFirstMatch.near`) |
| the key of a group | the baseline that opened it to the nearest half unit (`IsFirstMatch.key_eq`) |

The invariant is on the groups of the fragments so far, with the place of each of these
(`IsFirstMatch.joinGroup`).  Nothing is used of nearness but that it is decided by the key and
the baseline, so both may be NaNs.
-/

import PageContent.Proofs.Line.Survivors
import Mathlib.Data.List.Induction

namespace PageContent
namespace Merge

variable {o : MergeOptions}

/-- The fragments whose place is the `i`-th group, in their order. -/
def dealtTo (i : Nat) (fs : List Fragment) (places : List Nat) : List Fragment :=
  ((fs.zip places).filter (·.2 == i)).map Prod.fst

section Dealt

variable {fs : List Fragment} {places : List Nat} (hlength : places.length = fs.length)
include hlength

theorem dealtTo_sublist (i : Nat) : (dealtTo i fs places).Sublist fs := by
  have h := (List.filter_sublist (p := (·.2 == i)) (l := fs.zip places)).map Prod.fst
  rwa [List.map_fst_zip (Nat.le_of_eq hlength.symm)] at h

theorem dealtTo_concat (i : Nat) (f : Fragment) (place : Nat) :
    dealtTo i (fs ++ [f]) (places ++ [place]) =
      dealtTo i fs places ++ if place = i then [f] else [] := by
  rw [dealtTo, List.zip_append hlength.symm, List.filter_append, List.map_append, dealtTo]
  by_cases hplace : place = i
  · simp [hplace]
  · simp [hplace]

end Dealt

/-- The groups of some fragments, of which `places` tells to which group each one went. -/
structure IsFirstMatch (o : MergeOptions) (fs : List Fragment) (places : List Nat)
    (groups : List Group) : Prop where
  length_eq : places.length = fs.length
  lt_length : ∀ i ∈ places, i < groups.length
  items_eq : ∀ (i : Nat) (g : Group), groups[i]? = some g → g.items = dealtTo i fs places
  key_eq : ∀ (i : Nat) (g : Group), groups[i]? = some g →
    g.items.head?.map (fun first => groupKey first.baseline) = some g.key
  apart : ∀ f i, (f, i) ∈ fs.zip places → ∀ (j : Nat) (g : Group), j < i → groups[j]? = some g →
    ¬ (g.key - f.baseline).abs < o.baselineTolerance
  near : ∀ (i : Nat) (g : Group), groups[i]? = some g → ∀ f ∈ g.items.tail,
    (g.key - f.baseline).abs < o.baselineTolerance

/-! ## One fragment -/

/-- The group with one more fragment. -/
def Group.push (g : Group) (f : Fragment) : Group := { g with items := g.items ++ [f] }

/-- **A fragment goes to the first group that admits it, or opens one behind the others.** -/
theorem joinGroup_cases (o : MergeOptions) (f : Fragment) (groups : List Group) :
    (∃ (i : Nat) (g : Group), groups[i]? = some g ∧ g.admits o f.baseline = true ∧
      (∀ (j : Nat) (e : Group), j < i → groups[j]? = some e → e.admits o f.baseline = false) ∧
      joinGroup o f groups = groups.set i (g.push f)) ∨
    (∀ (j : Nat) (e : Group), groups[j]? = some e → e.admits o f.baseline = false) ∧
      joinGroup o f groups = groups ++ [{ key := groupKey f.baseline, items := [f] }] := by
  induction groups with
  | nil => exact .inr ⟨fun _ _ h => absurd h nofun, rfl⟩
  | cons g groups ih =>
    rw [joinGroup]
    split
    · rename_i hadmits
      exact .inl ⟨0, g, rfl, hadmits, fun _ _ h => absurd h (Nat.not_lt_zero _), rfl⟩
    · rename_i hadmits
      have hg := eq_false_of_ne_true hadmits
      rcases ih with ⟨i, e, he, hnear, hbefore, heq⟩ | ⟨hnone, heq⟩
      · refine .inl ⟨i + 1, e, he, hnear, fun j d hj hd => ?_, by rw [heq, List.set_cons_succ]⟩
        cases j with
        | zero => exact Option.some.inj hd ▸ hg
        | succ j => exact hbefore j d (Nat.lt_of_succ_lt_succ hj) hd
      · refine .inr ⟨fun j d hd => ?_, by rw [heq, List.cons_append]⟩
        cases j with
        | zero => exact Option.some.inj hd ▸ hg
        | succ j => exact hnone j d hd

/-- **No key is touched**: those that were there stay, in their order. -/
theorem keys_prefix_joinGroup (o : MergeOptions) (f : Fragment) (groups : List Group) :
    groups.map Group.key <+: (joinGroup o f groups).map Group.key := by
  induction groups with
  | nil => exact List.nil_prefix
  | cons g groups ih =>
    rw [joinGroup]
    split
    · exact List.prefix_rfl
    · exact List.prefix_cons_inj g.key |>.2 ih

section Step

variable {fs : List Fragment} {places : List Nat} {groups : List Group} {f : Fragment}

theorem mem_zip_concat (hlength : places.length = fs.length) {place : Nat} {e : Fragment} {i : Nat}
    (h : (e, i) ∈ (fs ++ [f]).zip (places ++ [place])) :
    (e, i) ∈ fs.zip places ∨ e = f ∧ i = place := by
  rw [List.zip_append hlength.symm, List.mem_append] at h
  exact h.imp_right fun h => Prod.mk.inj (List.mem_singleton.1 h)

/-- **One more fragment at a place.**  The group there has it behind the fragments dealt to the
place, and the key it had if it stood there; the groups in front do not admit the fragment, and
all others are as they were. -/
theorem IsFirstMatch.concat (h : IsFirstMatch o fs places groups) {place : Nat} {e : Group}
    {groups' : List Group} (hle : groups.length ≤ groups'.length)
    (he : groups'[place]? = some e)
    (hothers : ∀ (j : Nat) (d : Group), groups'[j]? = some d → j ≠ place → groups[j]? = some d)
    (hkept : ∀ g, groups[place]? = some g → e.key = g.key)
    (hitems : e.items = dealtTo place fs places ++ [f])
    (hkey : e.items.head?.map (fun first => groupKey first.baseline) = some e.key)
    (hnear : ∀ d ∈ e.items.tail, (e.key - d.baseline).abs < o.baselineTolerance)
    (hbefore : ∀ (j : Nat) (d : Group), j < place → groups[j]? = some d →
      d.admits o f.baseline = false) :
    IsFirstMatch o (fs ++ [f]) (places ++ [place]) groups' := by
  have hgroups : ∀ {j d}, groups'[j]? = some d →
      j = place ∧ d = e ∨ j ≠ place ∧ groups[j]? = some d := by
    intro j d hd
    by_cases hj : j = place
    · subst hj
      exact .inl ⟨rfl, Option.some.inj (hd.symm.trans he)⟩
    · exact .inr ⟨hj, hothers j d hd hj⟩
  refine ⟨by simp [h.length_eq], ?_, ?_, ?_, ?_, ?_⟩
  · intro j hj
    rcases List.mem_append.1 hj with hj | hj
    · exact Nat.lt_of_lt_of_le (h.lt_length j hj) hle
    · obtain rfl := List.mem_singleton.1 hj
      exact (List.getElem?_eq_some_iff.1 he).1
  · intro j d hd
    rw [dealtTo_concat h.length_eq]
    rcases hgroups hd with ⟨rfl, rfl⟩ | ⟨hj, hd⟩
    · rw [if_pos rfl, hitems]
    · rw [if_neg (Ne.symm hj), List.append_nil, h.items_eq j d hd]
  · intro j d hd
    rcases hgroups hd with ⟨rfl, rfl⟩ | ⟨-, hd⟩
    · exact hkey
    · exact h.key_eq j d hd
  · intro d i hmem j c hj hc
    rcases mem_zip_concat h.length_eq hmem with hold | ⟨rfl, rfl⟩
    · rcases hgroups hc with ⟨rfl, rfl⟩ | ⟨-, hc⟩
      · -- The group of the fragment stood there already, with the key it has.
        have hlt := Nat.lt_trans hj (h.lt_length i (List.of_mem_zip hold).2)
        have hg := List.getElem?_eq_getElem hlt
        rw [hkept _ hg]
        exact h.apart d i hold j _ hj hg
      · exact h.apart d i hold j c hj hc
    · exact of_decide_eq_false (hbefore j c hj (hothers j c hc (Nat.ne_of_lt hj)))
  · intro j d hd
    rcases hgroups hd with ⟨rfl, rfl⟩ | ⟨-, hd⟩
    · exact hnear
    · exact h.near j d hd

/-- A fragment joins the first group that admits it. -/
theorem IsFirstMatch.push (h : IsFirstMatch o fs places groups) {i : Nat} {g : Group}
    (hg : groups[i]? = some g) (hadmits : g.admits o f.baseline = true)
    (hbefore : ∀ (j : Nat) (e : Group), j < i → groups[j]? = some e →
      e.admits o f.baseline = false) :
    IsFirstMatch o (fs ++ [f]) (places ++ [i]) (groups.set i (g.push f)) := by
  have hlt : i < groups.length := (List.getElem?_eq_some_iff.1 hg).1
  have hkey := h.key_eq i g hg
  have hnear := h.near i g hg
  have hitems := h.items_eq i g hg
  obtain ⟨key, items⟩ := g
  cases items with
  | nil => exact absurd hkey nofun
  | cons first rest =>
    refine h.concat (Nat.le_of_eq List.length_set.symm) (List.getElem?_set_self hlt) ?_ ?_ ?_ hkey
      ?_ hbefore
    · intro j e he hj
      rwa [List.getElem?_set_ne (Ne.symm hj)] at he
    · intro g' hg'
      obtain rfl := Option.some.inj (hg.symm.trans hg')
      rfl
    · exact congrArg (· ++ [f]) hitems
    · intro d hd
      rcases List.mem_append.1 hd with hd | hd
      · exact hnear d hd
      · obtain rfl := List.mem_singleton.1 hd
        exact of_decide_eq_true hadmits

/-- A fragment that no group admits opens one behind the others. -/
theorem IsFirstMatch.open (h : IsFirstMatch o fs places groups)
    (hnone : ∀ (j : Nat) (e : Group), groups[j]? = some e → e.admits o f.baseline = false) :
    IsFirstMatch o (fs ++ [f]) (places ++ [groups.length])
      (groups ++ [{ key := groupKey f.baseline, items := [f] }]) := by
  refine h.concat (by simp) List.getElem?_concat_length ?_ ?_ ?_ rfl
    (fun _ hd => absurd hd List.not_mem_nil) fun j e _ => hnone j e
  · intro j e he hj
    have hlt := (List.getElem?_eq_some_iff.1 he).1
    rw [List.length_append, List.length_singleton] at hlt
    rwa [List.getElem?_append_left (by omega)] at he
  · intro g hg
    exact absurd (List.getElem?_eq_some_iff.1 hg).1 (Nat.lt_irrefl _)
  · -- No fragment so far went to a group that was not there.
    have hempty : dealtTo groups.length fs places = [] := by
      rw [dealtTo, List.map_eq_nil_iff, List.filter_eq_nil_iff]
      rintro ⟨e, i⟩ hmem heq
      have hlt := h.lt_length i (List.of_mem_zip hmem).2
      exact Nat.ne_of_lt hlt (beq_iff_eq.1 heq)
    rw [hempty, List.nil_append]

/-- **One more fragment, one more place.** -/
theorem IsFirstMatch.joinGroup (h : IsFirstMatch o fs places groups) (f : Fragment) :
    ∃ place, IsFirstMatch o (fs ++ [f]) (places ++ [place]) (joinGroup o f groups) := by
  rcases joinGroup_cases o f groups with ⟨i, g, hg, hadmits, hbefore, heq⟩ | ⟨hnone, heq⟩
  · exact ⟨i, heq ▸ h.push hg hadmits hbefore⟩
  · exact ⟨groups.length, heq ▸ h.open hnone⟩

end Step

/-! ## All fragments -/

theorem groupByBaseline_concat (o : MergeOptions) (fs : List Fragment) (f : Fragment) :
    groupByBaseline o (fs ++ [f]) = joinGroup o f (groupByBaseline o fs) :=
  List.foldl_append

theorem exists_isFirstMatch (o : MergeOptions) (fs : List Fragment) :
    ∃ places, IsFirstMatch o fs places (groupByBaseline o fs) := by
  induction fs using List.reverseRecOn with
  | nil =>
    exact ⟨[], rfl, fun _ h => absurd h List.not_mem_nil, fun _ _ h => absurd h nofun,
      fun _ _ h => absurd h nofun, fun _ _ h => absurd h List.not_mem_nil,
      fun _ _ h => absurd h nofun⟩
  | append_singleton fs f ih =>
    obtain ⟨places, h⟩ := ih
    obtain ⟨place, h⟩ := h.joinGroup f
    exact ⟨places ++ [place], groupByBaseline_concat o fs f ▸ h⟩

/-- The keys of the groups so far are those of the first groups in the end. -/
theorem keys_prefix_groupByBaseline (o : MergeOptions) (before after : List Fragment) :
    (groupByBaseline o before).map Group.key <+:
      (groupByBaseline o (before ++ after)).map Group.key := by
  induction after using List.reverseRecOn with
  | nil => exact (List.append_nil before).symm ▸ List.prefix_rfl
  | append_singleton after f ih =>
    rw [← List.append_assoc, groupByBaseline_concat]
    exact ih.trans (keys_prefix_joinGroup o f _)

/-- **Grouping is first match.**  Every fragment has one place among the groups, and the items of a
group are the fragments with its place, in their order.  The key of a group is the baseline of the
first of these to the nearest half unit, and never another one while the groups are made.  The
key of no group in front of that of a fragment is near its baseline; that of its own group is,
unless the fragment is the first there. -/
theorem groupByBaseline_firstMatch (o : MergeOptions) (fs : List Fragment) :
    (∃ places, IsFirstMatch o fs places (groupByBaseline o fs)) ∧
    ((groupByBaseline o fs).flatMap Group.items).Perm fs ∧
    (∀ g ∈ groupByBaseline o fs, g.items.Sublist fs) ∧
    ∀ before after, before ++ after = fs →
      (groupByBaseline o before).map Group.key <+: (groupByBaseline o fs).map Group.key := by
  obtain ⟨places, h⟩ := exists_isFirstMatch o fs
  refine ⟨⟨places, h⟩, groupByBaseline_perm o fs, fun g hg => ?_, ?_⟩
  · obtain ⟨i, hi⟩ := List.getElem?_of_mem hg
    rw [h.items_eq i g hi]
    exact dealtTo_sublist h.length_eq i
  · rintro before after rfl
    exact keys_prefix_groupByBaseline o before after

/-- Near the keys of two groups, a fragment joins the first one, though the other is nearer. -/
example : (groupByBaseline {}
    [{ id := "a", content := "a", bbox := ⟨0, 0, 5, 10⟩ },
      { id := "b", content := "b", bbox := ⟨0, 3, 5, 13⟩ },
      { id := "c", content := "c", bbox := ⟨9, 1.75, 14, 11⟩ }]).map
        (fun g => g.items.map Fragment.id) = [["a", "c"], ["b"]] := by
  decide +kernel

end Merge
end PageContent
