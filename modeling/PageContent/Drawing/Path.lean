/-
# Paths and their sub-paths

A path is a list of segments on the shown page.  Before it is painted it is cut
into sub-paths:

* at every `move`, and
* if a threshold is given, between two segments of a sub-path that both have an
  end point and whose end points lie further apart than the threshold.

The piece behind such a jump starts with a `move` of its own to the place where
its first segment ends.  A `close` has no end point, so no cut touches one.
-/

import PageContent.Geometry.Box

namespace PageContent

/-- A segment of a path. -/
inductive Segment where
  | move (target : Point Float)
  | line (target : Point Float)
  | curve (control₁ control₂ target : Point Float)
  | close
deriving DecidableEq, Repr

namespace Segment

/-- Where the segment ends; a `close` says nothing about that. -/
def end? : Segment → Option (Point Float)
  | .move p | .line p | .curve _ _ p => some p
  | .close => none

def isMove : Segment → Bool
  | .move _ => true
  | _ => false

def isClose : Segment → Bool
  | .close => true
  | _ => false

/-- Both segments have end points, further apart than the threshold. -/
def jumps (threshold : Float) (s t : Segment) : Bool :=
  match s.end?, t.end? with
  | some p, some q => decide (threshold < p.distance q)
  | _, _ => false

end Segment

namespace Path

/-- The box around the finite end points of a path; control points do not count. -/
def bounds (path : List Segment) : Option Box := Box.around (path.filterMap Segment.end?)

/-- A path cut in front of every `move`. -/
def splitAtMoves (path : List Segment) : List (List Segment) :=
  path.splitBy fun _ s => !s.isMove

/-- A piece that starts with a `move` to the end of its first segment. -/
def reopen : List Segment → List Segment
  | [] => []
  | s :: rest => match s.end? with
    | some p => .move p :: s :: rest
    | none => s :: rest

/-- A path cut where it jumps, every piece behind a jump reopened. -/
def splitAtJumps (threshold : Float) (path : List Segment) : List (List Segment) :=
  match path.splitBy fun s t => !s.jumps threshold t with
  | [] => []
  | piece :: rest => piece :: rest.map reopen

/-- The sub-paths of a path: cut at moves, and at jumps too if there is a threshold. -/
def subPaths (path : List Segment) (threshold : Option Float) : List (List Segment) :=
  match threshold with
  | none => splitAtMoves path
  | some t => (splitAtMoves path).flatMap (splitAtJumps t)

end Path

namespace Segment

/-- The tags of the segments, in their order. -/
def tags : List String := ["move", "line", "curve", "close"]

/-- The numbers of a record that has just these fields. -/
def numbers? (names : List String) (body : Json) : Option (List Float) := do
  (← body.fields? (names.map ([·])) names.length).mapM Json.need

/-- The point of a record `x`, `y`. -/
def point? (body : Json) : Option (Point Float) := do
  let [x, y] ← numbers? ["x", "y"] body | none
  return ⟨x, y⟩

/-- The segment of a tagged record. -/
def read? (site : Json.Site) (j : Json) : Option Segment := do
  let (tag, body) ← j.tagged? site tags
  match tag with
  | "move" => return .move (← point? body)
  | "line" => return .line (← point? body)
  | "curve" =>
    let [x₁, y₁, x₂, y₂, x, y] ← numbers? ["cp1x", "cp1y", "cp2x", "cp2y", "x", "y"] body | none
    return .curve ⟨x₁, y₁⟩ ⟨x₂, y₂⟩ ⟨x, y⟩
  | "close" =>
    let [] ← numbers? [] body | none
    return .close
  | _ => none

end Segment

instance : Recorded Segment where
  toJson
    | .move p => .object [("type", .string "move"), ("x", toJson p.x), ("y", toJson p.y)]
    | .line p => .object [("type", .string "line"), ("x", toJson p.x), ("y", toJson p.y)]
    | .curve c₁ c₂ p => .object
      [("type", .string "curve"), ("cp1x", toJson c₁.x), ("cp1y", toJson c₁.y),
        ("cp2x", toJson c₂.x), ("cp2y", toJson c₂.y), ("x", toJson p.x), ("y", toJson p.y)]
    | .close => .object [("type", .string "close")]
  ofJson? := Segment.read? .outside

/-- A painted sub-path. -/
structure Shape where
  id : String
  path : List Segment
  thickness : Float
  strokeColor : String
  fillColor : String
  opacity : Float
  isFilled : Bool
  isStroked : Bool
deriving DecidableEq, Repr

/-- The box around the end points of the shape. -/
def Shape.bounds (s : Shape) : Option Box := Path.bounds s.path

/-- The shape of a record. -/
def Shape.read? (site : Json.Site) (j : Json) : Option Shape := do
  let [id, path, thickness, strokeColor, fillColor, opacity, isFilled, isStroked] ←
    j.fields? [["id"], ["path"], ["thickness"], ["strokeColor"], ["fillColor"], ["opacity"],
      ["isFilled"], ["isStroked"]] 8 | none
  return {
    id := ← Json.need id
    path := ← path.bind (Json.list? (Segment.read? site))
    thickness := ← Json.need thickness
    strokeColor := ← Json.need strokeColor
    fillColor := ← Json.need fillColor
    opacity := ← Json.need opacity
    isFilled := ← Json.need isFilled
    isStroked := ← Json.need isStroked }

instance : Recorded Shape where
  toJson s := .object
    [("id", toJson s.id), ("path", toJson s.path), ("thickness", toJson s.thickness),
      ("strokeColor", toJson s.strokeColor), ("fillColor", toJson s.fillColor),
      ("opacity", toJson s.opacity), ("isFilled", toJson s.isFilled),
      ("isStroked", toJson s.isStroked)]
  ofJson? := Shape.read? .outside

/-- An image placed on the page. -/
structure Image where
  id : String
  name : Option String
  bbox : Box
  opacity : Float
deriving DecidableEq, Repr

instance : Recorded Image where
  toJson i := .object ([("id", toJson i.id)] ++ Json.optionalField "name" i.name ++
    [("bbox", toJson i.bbox), ("opacity", toJson i.opacity)])
  ofJson? j := do
    let [id, name, bbox, opacity] ←
      j.fields? [["id"], ["name"], ["bbox"], ["opacity"]] 4 | none
    return {
      id := ← Json.need id
      name := ← Json.orElse none name
      bbox := ← Json.need bbox
      opacity := ← Json.need opacity }

end PageContent
