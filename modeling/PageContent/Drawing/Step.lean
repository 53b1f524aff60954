/-
# Building a path

A path is built by steps in user space.  They come one by one as operators, or
flattened into a batch of numbers in which a code stands in front of the
coordinates of each step:

| code | step | numbers |
| ---: | --- | ---: |
| 0 | move | 2 |
| 1 | line | 2 |
| 2 | curve | 6 |
| 3, 4 | a line to the second of two points | 4 |
| 5 | rectangle | 4 |
| 6 | close | 0 |

`Batch.steps` reads a batch as far as it is whole: it stops at an unknown code
and at a code that lacks numbers.
-/

import PageContent.Drawing.Path

namespace PageContent

/-- A step of building a path, its points in user space. -/
inductive PathStep where
  | move (target : Point Float)
  | line (target : Point Float)
  | curve (control₁ control₂ target : Point Float)
  /-- The first control point is where the path ends so far. -/
  | curveFromEnd (control₂ target : Point Float)
  /-- The second control point is the end of the curve. -/
  | curveIntoEnd (control₁ target : Point Float)
  | rectangle (corner : Point Float) (width height : Float)
  | close
deriving DecidableEq, Repr

namespace PathStep

def isRectangle : PathStep → Bool
  | .rectangle .. => true
  | _ => false

def isClose : PathStep → Bool
  | .close => true
  | _ => false

end PathStep

namespace Path

/-- Where a path ends so far; the corner of the page if it has no end point. -/
def current (path : List Segment) : Point Float :=
  (path.reverse.findSome? Segment.end?).getD ⟨0, 0⟩

/-- The segments that a step adds to a path; `place` takes user space to the page. -/
def segmentsOf (place : Point Float → Point Float) (path : List Segment) :
    PathStep → List Segment
  | .move p => [.move (place p)]
  | .line p => [.line (place p)]
  | .curve c₁ c₂ p => [.curve (place c₁) (place c₂) (place p)]
  | .curveFromEnd c₂ p => [.curve (current path) (place c₂) (place p)]
  | .curveIntoEnd c₁ p => [.curve (place c₁) (place p) (place p)]
  | .rectangle p w h =>
    [.move (place p), .line (place ⟨p.x + w, p.y⟩), .line (place ⟨p.x + w, p.y + h⟩),
      .line (place ⟨p.x, p.y + h⟩), .close]
  | .close => [.close]

/-- A path with a step added. -/
def add (place : Point Float → Point Float) (path : List Segment) (step : PathStep) :
    List Segment :=
  path ++ segmentsOf place path step

end Path

namespace Batch

/-- The first step of a batch and the numbers behind it, if its code is known and
its numbers are there. -/
def first? : List Float → Option (PathStep × List Float)
  | [] => none
  | code :: numbers =>
    if code == 0 then match numbers with
      | x :: y :: rest => some (.move ⟨x, y⟩, rest)
      | _ => none
    else if code == 1 then match numbers with
      | x :: y :: rest => some (.line ⟨x, y⟩, rest)
      | _ => none
    else if code == 2 then match numbers with
      | x₁ :: y₁ :: x₂ :: y₂ :: x :: y :: rest => some (.curve ⟨x₁, y₁⟩ ⟨x₂, y₂⟩ ⟨x, y⟩, rest)
      | _ => none
    else if code == 3 || code == 4 then match numbers with
      | _ :: _ :: x :: y :: rest => some (.line ⟨x, y⟩, rest)
      | _ => none
    else if code == 5 then match numbers with
      | x :: y :: w :: h :: rest => some (.rectangle ⟨x, y⟩ w h, rest)
      | _ => none
    else if code == 6 then some (.close, numbers)
    else none

/-- The steps of a batch of at most `fuel` numbers. -/
def stepsWith : (fuel : Nat) → List Float → List PathStep
  | 0, _ => []
  | fuel + 1, numbers => match first? numbers with
    | some (step, rest) => step :: stepsWith fuel rest
    | none => []

/-- The whole steps at the head of a batch. -/
def steps (numbers : List Float) : List PathStep := stepsWith numbers.length numbers

example : steps [0, 1, 2, 6, 3, 9, 9, 4, 5, 1, 7] = [.move ⟨1, 2⟩, .close, .line ⟨4, 5⟩] := by
  decide +kernel

end Batch
end PageContent
