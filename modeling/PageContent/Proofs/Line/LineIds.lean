/-
# Which lines have one id

A line takes its id from the fragment it starts with: the id of the fragment, or if its
extractor knew a line for it the name of that line, from the second line of a group on with
the number of the line behind it.

| two lines start with | they have one id |
| --- | --- |
| fragments of no known line | never |
| fragments of known lines | for one name and number, or if one name is the other with its number |
| one of either kind | if the one is called what the line of the other is |

A number holds no hyphen, so name and number can be read off an id (`hyphenated_inj`), and there
are no other ways (`lineId_eq_iff`).  Numbers are counted in a group, so for one name they are
distinct there and not on the page, and no name is compared with the ids of fragments.
-/

import PageContent.Proofs.Line.Assembled
import PageContent.Proofs.Number.Written

namespace PageContent
namespace Merge

variable {origins : NaNOrigins} {o : MergeOptions}

/-! ## Names with numbers -/

/-- The name of a line in front of its number in a group; the first line goes by the name alone. -/
def numbered (name : String) (n : Nat) : String :=
  if n = 0 then name else name ++ "-" ++ toString n

/-- Name and number can be read off, from behind. -/
theorem hyphenated_inj {a b : String} {n m : Nat}
    (h : a ++ "-" ++ toString n = b ++ "-" ++ toString m) : a = b ∧ n = m := by
  have hspan : ∀ (s : String) (k : Nat), (s ++ "-" ++ toString k).toList.reverse.span Char.isDigit =
      ((Nat.toDigits 10 k).reverse, '-' :: s.toList.reverse) := by
    intro s k
    have hchars : (s ++ "-" ++ toString k).toList.reverse =
        (Nat.toDigits 10 k).reverse ++ '-' :: s.toList.reverse := by
      simp [toString, String.toList_append, Nat.toList_repr]
    rw [hchars]
    refine Numeral.span_digits (fun c hc => ?_) fun c hc => ?_
    · exact Numeral.isDigit_of_mem_toDigits (List.mem_reverse.1 hc)
    · obtain rfl := Option.some.inj hc
      rfl
  obtain ⟨hnumber, hname⟩ := Prod.mk.inj ((hspan a n).symm.trans (h ▸ hspan b m))
  constructor
  · exact String.toList_inj.1 (List.reverse_inj.1 (List.cons.inj hname).2)
  · refine Nat.repr_inj.1 (String.toList_inj.1 ?_)
    rw [Nat.toList_repr, Nat.toList_repr, List.reverse_inj.1 hnumber]

theorem numbered_eq_iff {a b : String} {n m : Nat} : numbered a n = numbered b m ↔
    a = b ∧ n = m ∨ n = 0 ∧ m ≠ 0 ∧ a = b ++ "-" ++ toString m ∨
      n ≠ 0 ∧ m = 0 ∧ b = a ++ "-" ++ toString n := by
  unfold numbered
  by_cases hn : n = 0
  · by_cases hm : m = 0
    · simp [hn, hm]
    · rw [if_pos hn, if_neg hm]
      constructor
      · exact fun h => .inr (.inl ⟨hn, hm, h⟩)
      · rintro (⟨-, h⟩ | ⟨-, -, h⟩ | ⟨h, -⟩)
        · exact absurd (h.symm.trans hn) hm
        · exact h
        · exact absurd hn h
  · by_cases hm : m = 0
    · rw [if_neg hn, if_pos hm]
      constructor
      · exact fun h => .inr (.inr ⟨hn, hm, h.symm⟩)
      · rintro (⟨-, h⟩ | ⟨h, -⟩ | ⟨-, -, h⟩)
        · exact absurd (h.trans hm) hn
        · exact absurd h hn
        · exact h.symm
    · rw [if_neg hn, if_neg hm]
      constructor
      · exact fun h => .inl (hyphenated_inj h)
      · rintro (⟨rfl, rfl⟩ | ⟨h, -⟩ | ⟨-, h, -⟩)
        · rfl
        · exact absurd h hn
        · exact absurd h hm

/-! ## Fragments that lines start with -/

/-- Lines that start with these fragments, at these numbers in their groups, have one id though
the fragments have two. -/
def Clash (s t : Fragment × Nat) : Prop :=
  match s.1.lineId, t.1.lineId with
  | none, none => False
  | some a, none => t.1.id = numbered a s.2
  | none, some b => s.1.id = numbered b t.2
  | some a, some b => a = b ∧ s.2 = t.2 ∨ s.2 = 0 ∧ t.2 ≠ 0 ∧ a = b ++ "-" ++ toString t.2 ∨
      s.2 ≠ 0 ∧ t.2 = 0 ∧ b = a ++ "-" ++ toString s.2

theorem lineId_of_none {f : Fragment} (h : f.lineId = none) (hid : f.id ≠ "") (n : Nat) :
    lineId f n = f.id := by
  unfold lineId
  rw [h]
  exact if_pos hid

theorem lineId_of_some {f : Fragment} {name : String} (h : f.lineId = some name) (n : Nat) :
    lineId f n = numbered name n := by
  unfold lineId
  rw [h]
  rfl

/-- **Lines have one id in these ways and no others.** -/
theorem lineId_eq_iff {s t : Fragment × Nat} (hs : s.1.id ≠ "") (ht : t.1.id ≠ "")
    (hne : s.1.id ≠ t.1.id) : lineId s.1 s.2 = lineId t.1 t.2 ↔ Clash s t := by
  unfold Clash
  cases hsl : s.1.lineId with
  | none =>
    cases htl : t.1.lineId with
    | none => rw [lineId_of_none hsl hs, lineId_of_none htl ht]; exact iff_false_intro hne
    | some b => rw [lineId_of_none hsl hs, lineId_of_some htl]
  | some a =>
    cases htl : t.1.lineId with
    | none => rw [lineId_of_some hsl, lineId_of_none htl ht]; exact eq_comm
    | some b => rw [lineId_of_some hsl, lineId_of_some htl]; exact numbered_eq_iff

/-- The fragments that the lines of a group start with, and the numbers of the lines. -/
def groupStarts (origins : NaNOrigins) (o : MergeOptions) (items : List Fragment) :
    List (Fragment × Nat) :=
  (runs o (stableSort (isLeftOf origins) items)).zipIdx.filterMap fun (run, n) =>
    run.head?.map (·, n)

/-- The fragments that the lines of all groups start with, and their numbers in the groups. -/
def starts (origins : NaNOrigins) (o : MergeOptions) (fs : List Fragment) :
    List (Fragment × Nat) :=
  (groupByBaseline o (dedupe o fs)).flatMap fun g => groupStarts origins o g.items

theorem id_cutGroup (origins : NaNOrigins) (o : MergeOptions) (items : List Fragment) :
    (cutGroup origins o items).map Line.id =
      (groupStarts origins o items).map fun s => lineId s.1 s.2 := by
  rw [cutGroup_eq_filterMap, groupStarts, List.map_filterMap, List.map_filterMap]
  refine List.filterMap_congr fun ⟨run, n⟩ _ => ?_
  cases run with
  | nil => rfl
  | cons first rest => rfl

/-- **The ids of the lines are those of their starts.** -/
theorem id_linesBy_perm (origins : NaNOrigins) (o : MergeOptions) (fs : List Fragment) :
    ((linesBy origins o fs).map Line.id).Perm
      ((starts origins o fs).map fun s => lineId s.1 s.2) := by
  have hlines := (sortLines_perm origins o.order
    ((groupByBaseline o (dedupe o fs)).flatMap fun g => cutGroup origins o g.items)).map Line.id
  rw [List.map_flatMap] at hlines
  rw [starts, List.map_flatMap]
  simp only [id_cutGroup] at hlines
  exact hlines

theorem filterMap_head?_sublist {α : Type} (rs : List (List α)) :
    (rs.filterMap List.head?).Sublist rs.flatten := by
  induction rs with
  | nil => exact .slnil
  | cons run rs ih =>
    cases run with
    | nil => exact ih
    | cons a run => exact (ih.trans (List.sublist_append_right run _)).cons_cons a

theorem fst_groupStarts_sublist (origins : NaNOrigins) (o : MergeOptions)
    (items : List Fragment) :
    ((groupStarts origins o items).map Prod.fst).Sublist (stableSort (isLeftOf origins) items) := by
  have hfirst : (groupStarts origins o items).map Prod.fst =
      (runs o (stableSort (isLeftOf origins) items)).filterMap List.head? := by
    rw [groupStarts, List.map_filterMap]
    conv_rhs => rw [← List.zipIdx_map_fst 0 (runs o _), List.filterMap_map]
    refine List.filterMap_congr fun ⟨run, n⟩ _ => ?_
    cases run with
    | nil => rfl
    | cons first rest => rfl
  have hsublist := filterMap_head?_sublist (runs o (stableSort (isLeftOf origins) items))
  rwa [runs_flatten, ← hfirst] at hsublist

theorem mem_of_mem_groupStarts {items : List Fragment} {s : Fragment × Nat}
    (h : s ∈ groupStarts origins o items) : s.1 ∈ items :=
  (stableSort_perm _ items).mem_iff.1
    ((fst_groupStarts_sublist origins o items).mem (List.mem_map_of_mem h))

/-- The lines of a group are numbered in their order. -/
theorem pairwise_snd_groupStarts (origins : NaNOrigins) (o : MergeOptions)
    (items : List Fragment) :
    (groupStarts origins o items).Pairwise fun s t => s.2 < t.2 := by
  refine (pairwise_snd_zipIdx _).filterMap _ fun p q hpq s hs t ht => ?_
  obtain ⟨f, -, rfl⟩ := Option.map_eq_some_iff.1 hs
  obtain ⟨g, -, rfl⟩ := Option.map_eq_some_iff.1 ht
  exact hpq

section Page

variable {fs : List Fragment}

/-- The starts of the lines are fragments, in some order a part of them. -/
theorem exists_fst_starts_sublist (origins : NaNOrigins) (o : MergeOptions) (fs : List Fragment) :
    ∃ kept, kept.Perm (dedupe o fs) ∧ ((starts origins o fs).map Prod.fst).Sublist kept := by
  refine ⟨(groupByBaseline o (dedupe o fs)).flatMap fun g =>
    stableSort (isLeftOf origins) g.items, ?_, ?_⟩
  · refine List.Perm.trans ?_ (groupByBaseline_perm o (dedupe o fs))
    exact List.Perm.flatMap_left _ fun g _ => stableSort_perm _ g.items
  · rw [starts, List.map_flatMap]
    generalize groupByBaseline o (dedupe o fs) = groups
    induction groups with
    | nil => exact .slnil
    | cons g groups ih => exact (fst_groupStarts_sublist origins o g.items).append ih

theorem mem_of_mem_starts {s : Fragment × Nat} (h : s ∈ starts origins o fs) : s.1 ∈ fs := by
  obtain ⟨kept, hperm, hsublist⟩ := exists_fst_starts_sublist origins o fs
  exact (dedupe_sublist o fs).mem (hperm.mem_iff.1 (hsublist.mem (List.mem_map_of_mem h)))

/-- No fragment starts two lines. -/
theorem pairwise_id_starts (hids : (fs.map Fragment.id).Nodup) :
    (starts origins o fs).Pairwise fun s t => s.1.id ≠ t.1.id := by
  obtain ⟨kept, hperm, hsublist⟩ := exists_fst_starts_sublist origins o fs
  have hkept : (kept.map Fragment.id).Nodup :=
    (hperm.map Fragment.id).nodup_iff.2 (hids.sublist ((dedupe_sublist o fs).map Fragment.id))
  have hstarts := hkept.sublist (hsublist.map Fragment.id)
  rw [List.map_map] at hstarts
  exact List.pairwise_map.1 hstarts

/-- **Lines have distinct ids if and only if no two of them clash.** -/
theorem nodup_id_iff (origins : NaNOrigins) (hne : ∀ f ∈ fs, f.id ≠ "")
    (hids : (fs.map Fragment.id).Nodup) :
    ((linesBy origins o fs).map Line.id).Nodup ↔
      (starts origins o fs).Pairwise fun s t => ¬ Clash s t := by
  have hdistinct : (starts origins o fs).Pairwise fun s t => s.1.id ≠ t.1.id :=
    pairwise_id_starts hids
  have hclash : ∀ {s t : Fragment × Nat}, s ∈ starts origins o fs → t ∈ starts origins o fs →
      s.1.id ≠ t.1.id → (lineId s.1 s.2 = lineId t.1 t.2 ↔ Clash s t) := fun hs ht =>
    lineId_eq_iff (hne _ (mem_of_mem_starts hs)) (hne _ (mem_of_mem_starts ht))
  rw [(id_linesBy_perm origins o fs).nodup_iff, List.Nodup, List.pairwise_map]
  constructor
  · intro h
    exact (h.and hdistinct).imp_of_mem fun hs ht ⟨hid, hst⟩ => mt (hclash hs ht hst).2 hid
  · intro h
    exact (h.and hdistinct).imp_of_mem fun hs ht ⟨hid, hst⟩ => mt (hclash hs ht hst).1 hid

/-- Lines of fragments that no extractor knew a line for have distinct ids. -/
theorem nodup_id_of_forall_none (origins : NaNOrigins)
    (hne : ∀ f ∈ fs, f.id ≠ "") (hids : (fs.map Fragment.id).Nodup)
    (hnone : ∀ f ∈ fs, f.lineId = none) : ((linesBy origins o fs).map Line.id).Nodup := by
  refine (nodup_id_iff origins hne hids).2 (List.pairwise_of_forall_mem_list fun s hs t ht => ?_)
  unfold Clash
  rw [hnone _ (mem_of_mem_starts hs), hnone _ (mem_of_mem_starts ht)]
  exact id

/-- The names that extractors gave to lines tell lines apart: each name is used on one baseline,
no name is another with a number behind it, and none is, with a number or without, the id of a
fragment of no known line. -/
structure NamesApart (o : MergeOptions) (fs : List Fragment) : Prop where
  one_group : (groupByBaseline o (dedupe o fs)).Pairwise fun g g' =>
    ∀ f ∈ g.items, ∀ f' ∈ g'.items, ∀ a, f.lineId = some a → f'.lineId ≠ some a
  not_hyphenated : ∀ f ∈ fs, ∀ f' ∈ fs, ∀ a b, f.lineId = some a → f'.lineId = some b →
    ∀ n : Nat, b ≠ a ++ "-" ++ toString n
  not_id : ∀ f ∈ fs, ∀ f' ∈ fs, ∀ a, f.lineId = some a → f'.lineId = none →
    ∀ n, f'.id ≠ numbered a n

/-- Such names clash only where they are the same. -/
theorem NamesApart.eq_of_clash (h : NamesApart o fs) {s t : Fragment × Nat} (hs : s.1 ∈ fs)
    (ht : t.1 ∈ fs) (hclash : Clash s t) :
    ∃ a, s.1.lineId = some a ∧ t.1.lineId = some a ∧ s.2 = t.2 := by
  unfold Clash at hclash
  cases hsl : s.1.lineId with
  | none =>
    rw [hsl] at hclash
    cases htl : t.1.lineId with
    | none => rw [htl] at hclash; exact hclash.elim
    | some b => rw [htl] at hclash; exact absurd hclash (h.not_id _ ht _ hs b htl hsl _)
  | some a =>
    rw [hsl] at hclash
    cases htl : t.1.lineId with
    | none => rw [htl] at hclash; exact absurd hclash (h.not_id _ hs _ ht a hsl htl _)
    | some b =>
      rw [htl] at hclash
      rcases hclash with ⟨rfl, hn⟩ | ⟨-, -, hab⟩ | ⟨-, -, hab⟩
      · exact ⟨a, rfl, rfl, hn⟩
      · exact absurd hab (h.not_hyphenated _ ht _ hs b a htl hsl _)
      · exact absurd hab (h.not_hyphenated _ hs _ ht a b hsl htl _)

theorem NamesApart.pairwise_starts (h : NamesApart o fs) :
    (starts origins o fs).Pairwise fun s t => ¬ Clash s t := by
  have hclash : ∀ {s t}, s ∈ starts origins o fs → t ∈ starts origins o fs → Clash s t → _ :=
    fun hs ht => h.eq_of_clash (mem_of_mem_starts hs) (mem_of_mem_starts ht)
  have happart : (starts origins o fs).Pairwise fun s t =>
      ∀ a, s.1.lineId = some a → t.1.lineId = some a → s.2 ≠ t.2 := by
    refine List.pairwise_flatMap.2 ⟨fun g _ => ?_, h.one_group.imp fun hgroups s hs t ht => ?_⟩
    · exact (pairwise_snd_groupStarts origins o g.items).imp fun hlt _ _ _ => Nat.ne_of_lt hlt
    · intro a hsl htl
      exact absurd htl
        (hgroups _ (mem_of_mem_groupStarts hs) _ (mem_of_mem_groupStarts ht) a hsl)
  refine happart.imp_of_mem fun hs ht hne hst => ?_
  obtain ⟨a, hsl, htl, hn⟩ := hclash hs ht hst
  exact hne a hsl htl hn

end Page

/-- **Lines of fragments with distinct ids have distinct ids if and only if no two clash**: at the
same number of two groups for one name, with a name that is another with the number of its line
behind it, or with the id of a fragment that is such a name.  So they do if no extractor knew of
lines, and if the names it gave tell lines apart. -/
theorem lineIds_distinct (origins : NaNOrigins) (o : MergeOptions)
    {fs : List Fragment} (hne : ∀ f ∈ fs, f.id ≠ "") (hids : (fs.map Fragment.id).Nodup) :
    (((linesBy origins o fs).map Line.id).Nodup ↔
      (starts origins o fs).Pairwise fun s t => ¬ Clash s t) ∧
    (NamesApart o fs → ((linesBy origins o fs).map Line.id).Nodup) ∧
    ((∀ f ∈ fs, f.lineId = none) → ((linesBy origins o fs).map Line.id).Nodup) := by
  have hiff := nodup_id_iff (o := o) origins hne hids
  exact ⟨hiff, fun h => hiff.2 h.pairwise_starts, nodup_id_of_forall_none origins hne hids⟩

/-- Two fragments that one line was known for, far from each other on one baseline. -/
def besideEachOther : List Fragment :=
  [{ id := "a", content := "A", bbox := ⟨10, 90, 50, 100⟩, size := 10, lineId := some "L1" },
    { id := "b", content := "B", bbox := ⟨100, 90, 140, 100⟩, size := 10, lineId := some "L1" }]

/-- The fragments on two baselines. -/
def aboveEachOther : List Fragment :=
  [{ id := "a", content := "A", bbox := ⟨10, 90, 50, 100⟩, size := 10, lineId := some "L1" },
    { id := "b", content := "B", bbox := ⟨10, 190, 50, 200⟩, size := 10, lineId := some "L1" }]

/-- On one baseline their lines are numbered, and on two of them they clash. -/
theorem lineIds_distinct_oneName :
    ((linesBy .computed {} besideEachOther).map Line.id = ["L1", "L1-1"] ∧
      ((linesBy .computed {} besideEachOther).map Line.id).Nodup) ∧
    ((linesBy .computed {} aboveEachOther).map Line.id = ["L1", "L1"] ∧
      ¬ (starts .computed {} aboveEachOther).Pairwise fun s t => ¬ Clash s t) := by
  have hname : ∀ f ∈ besideEachOther, f.lineId = some "L1" := by decide
  have hapart : NamesApart {} besideEachOther := by
    refine ⟨?_, fun f hf f' hf' a b ha hb n heq => ?_, fun f _ f' hf' a _ hnone => ?_⟩
    · have hone : (groupByBaseline {} (dedupe {} besideEachOther)).length = 1 := by decide +kernel
      obtain ⟨g, hg⟩ := List.length_eq_one_iff.1 hone
      rw [hg]
      exact List.pairwise_singleton _ g
    · obtain rfl := Option.some.inj ((hname f hf).symm.trans ha)
      obtain rfl := Option.some.inj ((hname f' hf').symm.trans hb)
      have hlength := congrArg String.length heq
      rw [String.length_append, String.length_append] at hlength
      have hhyphen : "-".length = 1 := rfl
      omega
    · exact absurd ((hname f' hf').symm.trans hnone) nofun
  obtain ⟨-, hnodup, -⟩ := lineIds_distinct .computed {}
    (show ∀ f ∈ besideEachOther, f.id ≠ "" by decide) (by decide)
  obtain ⟨hiff, -⟩ := lineIds_distinct .computed {}
    (show ∀ f ∈ aboveEachOther, f.id ≠ "" by decide) (by decide)
  refine ⟨⟨by decide +kernel, hnodup hapart⟩, by decide +kernel, fun h => ?_⟩
  exact absurd (hiff.2 h) (by decide +kernel)

end Merge
end PageContent
