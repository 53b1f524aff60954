/-
# The scene graph

The nodes of a page in the order in which they are painted.  A node is written
as its record with the kind of the node in front, so what a node holds is read as
part of a tagged record.
-/

import PageContent.Drawing.Path
import PageContent.Json.Reader
import PageContent.Json.Writer
import PageContent.Line.Merge

namespace PageContent

/-- A thing to be painted. -/
inductive Node where
  | shape (s : Shape)
  | image (i : Image)
  /-- A fragment that is not part of a line yet. -/
  | text (f : Fragment)
  | line (l : Line)
deriving DecidableEq, Repr

namespace Node

def isText : Node → Bool
  | .text _ => true
  | _ => false

def id : Node → String
  | .shape s => s.id
  | .image i => i.id
  | .text f => f.id
  | .line l => l.id

def shape? : Node → Option Shape
  | .shape s => some s
  | _ => none

def text? : Node → Option Fragment
  | .text f => some f
  | _ => none

def line? : Node → Option Line
  | .line l => some l
  | _ => none

/-- The nodes with their text merged: first the others in their order, then the lines
of the text. -/
def merge (o : MergeOptions) (nodes : List Node) : List Node :=
  nodes.filter (!·.isText) ++ (Merge.lines o (nodes.filterMap text?)).map .line

end Node

/-- The tags of the nodes, in their order. -/
def Node.tags : List String := ["shape", "image", "text", "line"]

instance : Recorded Node where
  toJson
    | .shape s => (toJson s).withTag "shape"
    | .image i => (toJson i).withTag "image"
    | .text f => (toJson f).withTag "text"
    | .line l => (toJson l).withTag "line"
  ofJson? j := do
    let (tag, body) ← j.tagged? .outside Node.tags
    match tag with
    | "shape" => (Shape.read? .inside body).map .shape
    | "image" => (ofJson? body).map .image
    | "text" => (Fragment.read? .inside body).map .text
    | "line" => (Line.read? .inside body).map .line
    | _ => none

/-- The nodes of a page, the lowest first. -/
structure SceneGraph where
  nodes : List Node := []
deriving DecidableEq, Repr

instance : Recorded SceneGraph where
  toJson g := .object [("nodes", toJson g.nodes)]
  ofJson? j := do
    let [nodes] ← j.fields? [["nodes"]] 1 | none
    return { nodes := ← Json.need nodes }

namespace SceneGraph

/-- The graph with one more node on top. -/
def push (g : SceneGraph) (n : Node) : SceneGraph := { nodes := g.nodes ++ [n] }

def lines (g : SceneGraph) : List Line := g.nodes.filterMap Node.line?

def shapes (g : SceneGraph) : List Shape := g.nodes.filterMap Node.shape?

/-- The text of a scene file. -/
def write (format : Json.Format) (g : SceneGraph) : String := (toJson g).write format

/-- The graph that a scene file holds. -/
def read? (text : String) : Option SceneGraph := (Json.parse? text).bind ofJson?

end SceneGraph
end PageContent
