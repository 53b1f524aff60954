/-
# Lines are assembled by the gap rule

The fragments of a group are read from left to right, and what becomes of them is said
without a line under construction:

| step | specification | |
| --- | --- | --- |
| order | `IsStablySorted`, by where the fragments start | `isStablySorted_isLeftOf` |
| cut | `IsCut`: a gap is wide exactly where a run ends | `runs_eq_iff` |
| line | `IsLineOf`: texts with spaces, envelope, style of the first one | `isLineOf_lineOfRun` |
| order of the lines | `IsStablySorted`, by the tops of their boxes | `isStablySorted_sortLines` |

Both orders are the order of all doubles (`isLeftOf_iff`, `isAbove_ascending_iff`).

A gap is wide or not for the size of the fragment that its run starts with, so the runs
can only be found one after the other.  But there is one way to cut: a run ends at its
first wide gap, and what is behind it is cut by itself (`runs_append`).
-/

import PageContent.Proofs.Geometry.Envelope
import PageContent.Proofs.Line.Survivors
import PageContent.Proofs.Number.TotalOrder
import PageContent.Proofs.Order.Interleaving
import Mathlib.Data.List.Chain

namespace PageContent
namespace Merge

variable {o : MergeOptions}

/-! ## Runs -/

theorem isLeftOf_iff {origins : NaNOrigins} {f g : Fragment} : isLeftOf origins f g = true ↔
    Binary64.Precedes (origins.start f) f.startX (origins.start g) g.startX := by
  rw [isLeftOf, decide_eq_true_iff]
  exact Binary64.orderKey_le_iff _ _ _ _

theorem isStablySorted_isLeftOf (origins : NaNOrigins) (fs : List Fragment) :
    IsStablySorted (isLeftOf origins) fs (stableSort (isLeftOf origins) fs) :=
  isStablySorted_by (· ≤ ·) (startKey origins) fs

/-- The list cut into runs: between neighbours in a run the gap is not wide for the size of the
first fragment of the run, and between a run and the next one it is. -/
structure IsCut (o : MergeOptions) (fs : List Fragment) (rs : List (List Fragment)) : Prop where
  flatten_eq : rs.flatten = fs
  nil_notMem : [] ∉ rs
  narrow : ∀ run ∈ rs, ∀ first, run.head? = some first → run.IsChain fun left right =>
    ¬ o.gapEmRatio * first.size.abs < right.startX - left.bbox.x1
  wide : rs.IsChain fun run next => ∀ first left right, run.head? = some first →
    run.getLast? = some left → next.head? = some right →
      o.gapEmRatio * first.size.abs < right.startX - left.bbox.x1

theorem isWide_iff {first left right : Fragment} : isWide o first left right = true ↔
    o.gapEmRatio * first.size.abs < right.startX - left.bbox.x1 := decide_eq_true_iff

/-- The first fragment of some runs is that of the first run. -/
theorem head?_flatten {rs : List (List Fragment)} (h : [] ∉ rs) :
    rs.flatten.head? = rs.head?.bind List.head? := by
  cases rs with
  | nil => rfl
  | cons run rs =>
    cases run with
    | nil => exact absurd List.mem_cons_self h
    | cons f run => rfl

namespace IsCut

variable {first : Fragment} {rest more fs : List Fragment} {rs : List (List Fragment)}

theorem nil : IsCut o [] [] := ⟨rfl, List.not_mem_nil, by simp, .nil⟩

/-- A run up to a wide gap in front of a list that is cut. -/
theorem cons (hnarrow : (first :: rest).IsChain (isWide o first · · = false))
    (hwide : ∀ left right, (first :: rest).getLast? = some left → more.head? = some right →
      isWide o first left right = true) (h : IsCut o more rs) :
    IsCut o (first :: rest ++ more) ((first :: rest) :: rs) := by
  refine ⟨congrArg (first :: rest ++ ·) h.flatten_eq, ?_, List.forall_mem_cons.2 ⟨?_, h.narrow⟩,
    List.isChain_cons.2 ⟨?_, h.wide⟩⟩
  · simp [h.nil_notMem]
  · rintro _ ⟨⟩
    exact hnarrow.imp fun left right hgap => mt isWide_iff.2 (ne_true_of_eq_false hgap)
  · rintro next hnext _ left right ⟨⟩ hleft hright
    have hmore : more.head? = some right := by
      rw [← h.flatten_eq, head?_flatten h.nil_notMem, hnext, Option.bind_some, hright]
    exact isWide_iff.1 (hwide left right hleft hmore)

/-- The first run of a cut ends at a wide gap, and what is behind it is cut. -/
theorem cases_cons {run : List Fragment} (h : IsCut o fs (run :: rs)) :
    ∃ first rest more, run = first :: rest ∧ fs = first :: rest ++ more ∧
      (first :: rest).IsChain (isWide o first · · = false) ∧
      (∀ left right, (first :: rest).getLast? = some left → more.head? = some right →
        isWide o first left right = true) ∧ IsCut o more rs := by
  obtain ⟨hflatten, hne, hall, hchain⟩ := h
  obtain ⟨hfirst, hnarrow⟩ := List.forall_mem_cons.1 hall
  obtain ⟨hnext, hwide⟩ := List.isChain_cons.1 hchain
  have hrs : [] ∉ rs := fun hmem => hne (List.mem_cons_of_mem run hmem)
  cases run with
  | nil => exact absurd List.mem_cons_self hne
  | cons first rest =>
    refine ⟨first, rest, rs.flatten, rfl, hflatten.symm, ?_, ?_, rfl, hrs, hnarrow, hwide⟩
    · exact (hfirst first rfl).imp fun left right hgap => eq_false_of_ne_true (mt isWide_iff.1 hgap)
    · intro left right hleft hright
      rw [head?_flatten hrs] at hright
      obtain ⟨next, hmem, hright⟩ := Option.bind_eq_some_iff.1 hright
      exact isWide_iff.2 (hnext next hmem first left right rfl hleft hright)

end IsCut

/-- A run is read up to its first wide gap. -/
theorem runsFrom_append {first last : Fragment} {rest more : List Fragment}
    (hnarrow : (last :: rest).IsChain (isWide o first · · = false))
    (hwide : ∀ left right, (last :: rest).getLast? = some left → more.head? = some right →
      isWide o first left right = true) :
    runsFrom o first last (rest ++ more) = (rest, runs o more) := by
  induction rest generalizing last with
  | nil =>
    cases more with
    | nil => rfl
    | cons right more =>
      rw [List.nil_append, runsFrom, if_pos (hwide last right rfl rfl)]
      rfl
  | cons f rest ih =>
    obtain ⟨hgap, hnarrow⟩ := List.isChain_cons_cons.1 hnarrow
    rw [List.getLast?_cons_cons] at hwide
    rw [List.cons_append, runsFrom, if_neg (ne_true_of_eq_false hgap), ih hnarrow hwide]

/-- **A list is cut at its first wide gap and behind it.** -/
theorem runs_append {first : Fragment} {rest more : List Fragment}
    (hnarrow : (first :: rest).IsChain (isWide o first · · = false))
    (hwide : ∀ left right, (first :: rest).getLast? = some left → more.head? = some right →
      isWide o first left right = true) :
    runs o (first :: rest ++ more) = (first :: rest) :: runs o more := by
  rw [List.cons_append, runs, runsFrom_append hnarrow hwide]

/-- Behind every fragment there is a first wide gap, or none up to the end. -/
theorem exists_run (o : MergeOptions) (first last : Fragment) (fs : List Fragment) :
    ∃ rest more, fs = rest ++ more ∧ (last :: rest).IsChain (isWide o first · · = false) ∧
      ∀ left right, (last :: rest).getLast? = some left → more.head? = some right →
        isWide o first left right = true := by
  induction fs generalizing last with
  | nil => exact ⟨[], [], rfl, .singleton last, fun _ _ _ h => absurd h nofun⟩
  | cons f fs ih =>
    by_cases hgap : isWide o first last f = true
    · refine ⟨[], f :: fs, rfl, .singleton last, ?_⟩
      rintro _ _ ⟨⟩ ⟨⟩
      exact hgap
    · obtain ⟨rest, more, rfl, hnarrow, hwide⟩ := ih f
      refine ⟨f :: rest, more, rfl, ?_, hwide⟩
      exact List.isChain_cons_cons.2 ⟨eq_false_of_ne_true hgap, hnarrow⟩

theorem isCut_runs (o : MergeOptions) (fs : List Fragment) : IsCut o fs (runs o fs) := by
  induction hlength : fs.length using Nat.strongRecOn generalizing fs with
  | ind n ih =>
    cases fs with
    | nil => exact .nil
    | cons first fs =>
      obtain ⟨rest, more, rfl, hnarrow, hwide⟩ := exists_run o first first fs
      have hlt : more.length < n := by
        rw [← hlength, List.length_cons, List.length_append]
        omega
      rw [← List.cons_append, runs_append hnarrow hwide]
      exact (ih more.length hlt more rfl).cons hnarrow hwide

/-- **There is one way to cut a list**, and the runs are that. -/
theorem runs_eq_iff {fs : List Fragment} {rs : List (List Fragment)} :
    runs o fs = rs ↔ IsCut o fs rs := by
  constructor
  · rintro rfl
    exact isCut_runs o fs
  · intro h
    induction rs generalizing fs with
    | nil =>
      obtain rfl : [] = fs := h.flatten_eq
      rfl
    | cons run rs ih =>
      obtain ⟨first, rest, more, rfl, rfl, hnarrow, hwide, h⟩ := h.cases_cons
      rw [runs_append hnarrow hwide, ih h]

/-! ## Lines -/

/-- What the text of a line has behind that of `left`: a space if the gap is wide enough and there
is no blank on either side of it, and the text of `right`. -/
def spacedBehind (o : MergeOptions) (left right : Fragment) : List Char :=
  (if o.spaceGap < right.startX - left.bbox.x1 ∧ Text.endsBlank left.chars = false ∧
    Text.startsBlank right.chars = false then [' '] else []) ++ right.chars

/-- The texts of a run, one behind the other, with the spaces between neighbours. -/
def spacedText (o : MergeOptions) (run : List Fragment) : List Char :=
  run.head?.elim [] Fragment.chars ++
    (List.zipWith (spacedBehind o) run run.tail).flatten

/-- The line has the fragments of a run, their texts, the least box around theirs, and the place
and style of the first one. -/
structure IsLineOf (o : MergeOptions) (run : List Fragment) (l : Line) : Prop where
  items_eq : l.items = run
  content_eq : l.content.toList = spacedText o run
  isEnvelope : l.bbox.IsEnvelope (run.map Fragment.bbox)
  /-- The signs of zeros too are those of the envelope. -/
  envelope_eq : Box.envelope (run.map Fragment.bbox) = some l.bbox
  style_eq : ∀ first, run.head? = some first → l.origin = first.origin ∧ l.font = first.font ∧
    l.size = first.size ∧ l.color = first.color ∧ l.matrix = first.matrix ∧
    l.isBold = first.isBold ∧ l.isItalic = first.isItalic

theorem needsSpace_iff {left right : Fragment} : needsSpace o left right = true ↔
    o.spaceGap < right.startX - left.bbox.x1 ∧ Text.endsBlank left.chars = false ∧
      Text.startsBlank right.chars = false := by
  rw [needsSpace, gap, Bool.and_eq_true, Bool.and_eq_true, decide_eq_true_iff,
    Bool.not_eq_true', Bool.not_eq_true', and_assoc]

theorem joinedBehind_eq (o : MergeOptions) (left : Fragment) (rest : List Fragment) :
    joinedBehind o left rest = (List.zipWith (spacedBehind o) (left :: rest) rest).flatten := by
  induction rest generalizing left with
  | nil => rfl
  | cons f rest ih =>
    rw [joinedBehind, ih, List.zipWith_cons_cons, List.flatten_cons, spacedBehind]
    simp only [needsSpace_iff]

theorem isLineOf_lineOfRun (o : MergeOptions) (id : String) (first : Fragment)
    (rest : List Fragment) : IsLineOf o (first :: rest) (lineOfRun o id first rest) := by
  have henvelope : Box.envelope ((first :: rest).map Fragment.bbox) =
      some (lineOfRun o id first rest).bbox := by
    rw [List.map_cons, Box.envelope, List.foldl_map]
    rfl
  refine ⟨rfl, ?_, Box.isEnvelope_of_envelope henvelope, henvelope, ?_⟩
  · rw [lineOfRun, String.toList_ofList, joinedBehind_eq]
    rfl
  · rintro _ ⟨⟩
    exact ⟨rfl, rfl, rfl, rfl, rfl, rfl, rfl⟩

/-- Runs that are not empty have a line each. -/
theorem forall₂_isLineOf_filterMap {rs : List (List Fragment)} (h : [] ∉ rs) (n : Nat) :
    List.Forall₂ (IsLineOf o) rs ((rs.zipIdx n).filterMap (lineOfRun? o)) := by
  induction rs generalizing n with
  | nil => exact .nil
  | cons run rs ih =>
    cases run with
    | nil => exact absurd List.mem_cons_self h
    | cons first rest =>
      have hrs : [] ∉ rs := fun hmem => h (List.mem_cons_of_mem _ hmem)
      exact .cons (isLineOf_lineOfRun o _ first rest) (ih hrs (n + 1))

/-- **The lines of a group are those of its runs**, in their order. -/
theorem forall₂_isLineOf_cutGroup (origins : NaNOrigins) (o : MergeOptions) (fs : List Fragment) :
    List.Forall₂ (IsLineOf o) (runs o (stableSort (isLeftOf origins) fs))
      (cutGroup origins o fs) := by
  rw [cutGroup_eq_filterMap]
  exact forall₂_isLineOf_filterMap (isCut_runs o _).nil_notMem 0

/-! ## The order of lines -/

theorem isAbove_ascending_iff {origins : NaNOrigins} {l m : Line} :
    isAbove origins .ascending l m = true ↔
      Binary64.Precedes (topOrigin origins l) l.bbox.y0 (topOrigin origins m) m.bbox.y0 := by
  rw [isAbove, decide_eq_true_iff]
  exact Binary64.orderKey_le_iff _ _ _ _

theorem isStablySorted_sortLines (origins : NaNOrigins) (order : LineOrder) (ls : List Line) :
    IsStablySorted (isAbove origins order) ls (sortLines origins order ls) := by
  cases order with
  | ascending => exact isStablySorted_by (· ≤ ·) (topKey origins) ls
  | descending => exact isStablySorted_by (· ≥ ·) (topKey origins) ls

/-- **Lines are assembled exactly by the gap rule.**  Whatever the fragments of a group are, its
lines are those of the one cut of the fragments sorted by where they start, level ones in the order
they had.  The lines of all groups come out sorted by the tops of their boxes in the direction
that the options ask for, level ones again in the order they had.  Either order is that of all
doubles, in which a NaN is first or last as it came about. -/
theorem linesBy_assembled (origins : NaNOrigins) (o : MergeOptions) (fs : List Fragment) :
    (∀ group : List Fragment, ∃ sorted rs,
      IsStablySorted (isLeftOf origins) group sorted ∧
      IsCut o sorted rs ∧ (∀ rs', IsCut o sorted rs' → rs' = rs) ∧
      List.Forall₂ (IsLineOf o) rs (cutGroup origins o group)) ∧
    IsStablySorted (isAbove origins o.order)
      ((groupByBaseline o (dedupe o fs)).flatMap fun g => cutGroup origins o g.items)
      (linesBy origins o fs) ∧
    (∀ f g, isLeftOf origins f g = true ↔
      Binary64.Precedes (origins.start f) f.startX (origins.start g) g.startX) ∧
    ∀ l m, (isAbove origins .ascending l m = true ↔
        Binary64.Precedes (topOrigin origins l) l.bbox.y0 (topOrigin origins m) m.bbox.y0) ∧
      isAbove origins .descending l m = isAbove origins .ascending m l := by
  refine ⟨fun group => ?_, isStablySorted_sortLines origins o.order _, fun _ _ => isLeftOf_iff,
    fun _ _ => ⟨isAbove_ascending_iff, rfl⟩⟩
  exact ⟨stableSort (isLeftOf origins) group, runs o (stableSort (isLeftOf origins) group),
    isStablySorted_isLeftOf origins group, isCut_runs o _, fun rs' h => (runs_eq_iff.2 h).symm,
    forall₂_isLineOf_cutGroup origins o group⟩

/-- Of three fragments the first starts at a NaN: computed, it stays in front, and given, it goes
behind the others. -/
example :
    let fs : List Fragment := [{ id := "a", content := "a", bbox := ⟨0 / 0, 0, 5, 8⟩ },
      { id := "b", content := "b", bbox := ⟨7, 0, 9, 8⟩ },
      { id := "c", content := "c", bbox := ⟨4, 0, 7, 8⟩ }]
    (cutGroup .computed {} fs).map Line.content = ["acb"] ∧
      (cutGroup ⟨fun _ => .given, fun _ => .given⟩ {} fs).map Line.content = ["cba"] := by
  decide +kernel

end Merge
end PageContent
