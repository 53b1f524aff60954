/-
# From fragments to lines

Extractors hand out a fragment for every run, often for every glyph, and paint
some text twice.  Merging goes through four stages:

1. of fragments with the same text at the same whole-unit place, the first stays
   (`dedupeExact`);
2. a fragment painted over by a longer one that contains its text goes
   (`dedupeOverlaps`), if the options ask for it;
3. the others are grouped by baseline (`groupByBaseline`): a fragment joins the
   first group whose key is near enough, or else opens a group;
4. each group is read from left to right and cut at wide gaps (`cutGroup`).

The lines are sorted by the top of their boxes.  Where a NaN goes, in a group or among
the lines, depends on how it came about: `linesBy` is told, and `lines` takes them all
for computed.
-/

import PageContent.Line.Basic
import PageContent.Number.Decimal
import PageContent.Order

namespace PageContent

/-- The order of merged lines by the tops of their boxes. -/
inductive LineOrder where
  | descending
  | ascending
deriving DecidableEq, Repr

/-- How fragments are merged. -/
structure MergeOptions where
  /-- Baselines nearer to the key of a group than this belong to it. -/
  baselineTolerance : Float := 2
  /-- A gap wider than this many times the size of a line ends it. -/
  gapEmRatio : Float := 0.5
  /-- A wider gap than this inside a line becomes a space. -/
  spaceGap : Float := 1
  dedupesOverlaps : Bool := true
  /-- Boxes whose tops and bottoms are nearer than this may overlap. -/
  overlapTolerance : Float := 3
  /-- The part of its width from which a fragment is painted over. -/
  overlapCoverage : Float := 0.8
  order : LineOrder := .descending
deriving DecidableEq, Repr

/-- How the NaNs among the places of fragments came about. -/
structure NaNOrigins where
  /-- Of the places where they start. -/
  start : Fragment → Binary64.NaNOrigin
  /-- Of the tops of their boxes. -/
  top : Fragment → Binary64.NaNOrigin

/-- All of them were computed. -/
def NaNOrigins.computed : NaNOrigins := ⟨fun _ => .computed, fun _ => .computed⟩

namespace Merge

/-- The text of a fragment and the whole units nearest to its corner. -/
def exactKey (f : Fragment) : String × Int × Int :=
  (f.content, Binary64.toInt64 (Binary64.halfUp f.bbox.x0),
    Binary64.toInt64 (Binary64.halfUp f.bbox.y0))

/-- The fragments whose key none of `seen` and none before them has. -/
def firstOfEachKey (seen : List (String × Int × Int)) : List Fragment → List Fragment
  | [] => []
  | f :: fs =>
    if seen.contains (exactKey f) then firstOfEachKey seen fs
    else f :: firstOfEachKey (exactKey f :: seen) fs

/-- The first fragment of each key. -/
def dedupeExact (fs : List Fragment) : List Fragment := firstOfEachKey [] fs

/-- The part of the width of `f` that lies within the width of `g`; all of it if `f`
has no width. -/
def coverage (f g : Fragment) : Float :=
  let shared := Binary64.greatest
    (Binary64.least f.bbox.x1 g.bbox.x1 - Binary64.greatest f.bbox.x0 g.bbox.x0) 0
  let width := f.bbox.x1 - f.bbox.x0
  if 0 < width then shared / width else 1

/-- `f` is painted over by `g`: their tops and their bottoms are near, `g` contains
the text of `f`, and `f` is covered. -/
def isOverlapOf (o : MergeOptions) (f g : Fragment) : Bool :=
  decide ((f.bbox.y0 - g.bbox.y0).abs < o.overlapTolerance) &&
    decide ((f.bbox.y1 - g.bbox.y1).abs < o.overlapTolerance) &&
    Text.occursIn f.chars g.chars && decide (o.overlapCoverage < coverage f g)

/-- Fragments with their places in the input, longer ones first. -/
def longestFirst (fs : List Fragment) : List (Fragment × Nat) :=
  stableSort (fun f g => decide (g.1.chars.length ≤ f.1.chars.length)) fs.zipIdx

/-- Each fragment stays unless one that stays already is painted over it. -/
def uncovered (o : MergeOptions) (ordered : List (Fragment × Nat)) : List (Fragment × Nat) :=
  ordered.foldl
    (fun kept f => if kept.any (isOverlapOf o f.1 ·.1) then kept else kept ++ [f]) []

/-- The fragments that no longer one is painted over, in the order of the input. -/
def dedupeOverlaps (o : MergeOptions) (fs : List Fragment) : List Fragment :=
  let kept := uncovered o (longestFirst fs)
  (fs.zipIdx.filter fun f => kept.any (·.2 == f.2)).map Prod.fst

/-- Fragments on one baseline. -/
structure Group where
  key : Float
  items : List Fragment
deriving DecidableEq, Repr

/-- The baseline is near the key of the group. -/
def Group.admits (o : MergeOptions) (g : Group) (baseline : Float) : Bool :=
  decide ((g.key - baseline).abs < o.baselineTolerance)

/-- The key of a new group: its first baseline to the nearest half unit. -/
def groupKey (baseline : Float) : Float := Binary64.halfUp (baseline * 2) / 2

/-- A fragment joins the first group that admits its baseline, or opens one. -/
def joinGroup (o : MergeOptions) (f : Fragment) : List Group → List Group
  | [] => [{ key := groupKey f.baseline, items := [f] }]
  | g :: gs =>
    if g.admits o f.baseline then { g with items := g.items ++ [f] } :: gs
    else g :: joinGroup o f gs

/-- The groups of the fragments, in the order in which they were opened. -/
def groupByBaseline (o : MergeOptions) (fs : List Fragment) : List Group :=
  fs.foldl (fun groups f => joinGroup o f groups) []

/-- The id of the `n`-th line of a group, from the fragment it starts with. -/
def lineId (first : Fragment) (n : Nat) : String :=
  match first.lineId with
  | some id => if n = 0 then id else id ++ "-" ++ toString n
  | none =>
    if first.id ≠ "" then first.id
    else
      let spell (x : Float) := Decimal.Layout.plain.write (Binary64.halfUp x)
      "line-" ++ spell first.bbox.x0 ++ "-" ++ spell first.bbox.y0

/-- The gap between two neighbours. -/
def gap (left right : Fragment) : Float := right.startX - left.bbox.x1

/-- The gap is too wide for a line that starts with `first`. -/
def isWide (o : MergeOptions) (first left right : Fragment) : Bool :=
  decide (o.gapEmRatio * first.size.abs < gap left right)

/-- A space stands for the gap: it is wide enough, and neither side has a blank there. -/
def needsSpace (o : MergeOptions) (left right : Fragment) : Bool :=
  decide (o.spaceGap < gap left right) && !Text.endsBlank left.chars &&
    !Text.startsBlank right.chars

/-- The runs that a sorted list of fragments is cut into: `first` starts the run
that ends, for now, with `last`. -/
def runsFrom (o : MergeOptions) (first last : Fragment) : List Fragment →
    List Fragment × List (List Fragment)
  | [] => ([], [])
  | f :: fs =>
    if isWide o first last f then
      let (run, runs) := runsFrom o f f fs
      ([], (f :: run) :: runs)
    else
      let (run, runs) := runsFrom o first f fs
      (f :: run, runs)

/-- Sorted fragments cut at gaps that are wide for the size their line started with. -/
def runs (o : MergeOptions) : List Fragment → List (List Fragment)
  | [] => []
  | f :: fs => let (run, runs) := runsFrom o f f fs; (f :: run) :: runs

/-- The text of a run behind its fragment `left`. -/
def joinedBehind (o : MergeOptions) (left : Fragment) : List Fragment → List Char
  | [] => []
  | f :: fs => (if needsSpace o left f then [' '] else []) ++ f.chars ++ joinedBehind o f fs

/-- The line of a run. -/
def lineOfRun (o : MergeOptions) (id : String) (first : Fragment) (rest : List Fragment) : Line :=
  { Line.start id first with
    content := String.ofList (first.chars ++ joinedBehind o first rest)
    bbox := rest.foldl (fun b f => b.join f.bbox) first.bbox
    items := first :: rest }

/-- The position of a fragment by where it starts. -/
def startKey (origins : NaNOrigins) (f : Fragment) : Int :=
  Binary64.orderKey (origins.start f) f.startX

/-- The fragment starts before the other or level with it. -/
def isLeftOf (origins : NaNOrigins) (f g : Fragment) : Bool :=
  decide (startKey origins f ≤ startKey origins g)

/-- The lines of a group, left to right. -/
def cutGroup (origins : NaNOrigins) (o : MergeOptions) (items : List Fragment) : List Line :=
  (runs o (stableSort (isLeftOf origins) items)).zipIdx.filterMap fun
    | (first :: rest, n) => some (lineOfRun o (lineId first n) first rest)
    | ([], _) => none

/-- How the top of a line came about, should it be a NaN: it is that of the first item. -/
def topOrigin (origins : NaNOrigins) (l : Line) : Binary64.NaNOrigin :=
  l.items.head?.elim .computed origins.top

/-- The position of a line by its top. -/
def topKey (origins : NaNOrigins) (l : Line) : Int :=
  Binary64.orderKey (topOrigin origins l) l.bbox.y0

/-- The line stands before the other or level with it, by the tops of their boxes. -/
def isAbove (origins : NaNOrigins) (order : LineOrder) (l m : Line) : Bool :=
  match order with
  | .ascending => decide (topKey origins l ≤ topKey origins m)
  | .descending => decide (topKey origins m ≤ topKey origins l)

/-- The lines sorted by the tops of their boxes. -/
def sortLines (origins : NaNOrigins) (order : LineOrder) (lines : List Line) : List Line :=
  stableSort (isAbove origins order) lines

/-- The fragments that are left without doubles. -/
def dedupe (o : MergeOptions) (fs : List Fragment) : List Fragment :=
  if o.dedupesOverlaps then dedupeOverlaps o (dedupeExact fs) else dedupeExact fs

/-- The lines that fragments make up, of which `origins` tells how NaNs came about. -/
def linesBy (origins : NaNOrigins) (o : MergeOptions) (fs : List Fragment) : List Line :=
  sortLines origins o.order
    ((groupByBaseline o (dedupe o fs)).flatMap fun g => cutGroup origins o g.items)

/-- The lines that fragments make up. -/
def lines (o : MergeOptions) (fs : List Fragment) : List Line := linesBy .computed o fs

end Merge
end PageContent
