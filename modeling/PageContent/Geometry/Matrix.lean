/-
# Points, matrices and the way onto the page

User space is bottom-up and the page is top-down.  An affine matrix
`[a, b, c, d, e, f]` maps

    (x, y) ↦ (a x + c y + e, b x + d y + f),

and a viewport then flips the result against its height and scales both axes.

The formulas are written once, for any numbers with `+ - *` and a rule `settle`
that replaces a number no drawing can use.  For doubles that rule puts `0` in
place of infinities and NaN; for exact numbers it does nothing.
-/

import PageContent.Json.Recorded

namespace PageContent

/-- Numbers with a stand-in for those that no drawing can use. -/
class Settle (α : Type) where
  settle : α → α

export Settle (settle)

instance : Settle Float := ⟨Binary64.settle⟩

/-- A point, or a pair of coordinates on its way to one. -/
structure Point (α : Type) where
  x : α
  y : α
deriving DecidableEq, Repr

/-- Euclidean distance. -/
def Point.distance (p q : Point Float) : Float :=
  ((p.x - q.x) * (p.x - q.x) + (p.y - q.y) * (p.y - q.y)).sqrt

/-- Both coordinates are finite. -/
def Point.isFinite (p : Point Float) : Bool := p.x.isFinite && p.y.isFinite

/-- The affine matrix `[a, b, c, d, e, f]`. -/
structure Matrix (α : Type) where
  a : α
  b : α
  c : α
  d : α
  e : α
  f : α
deriving DecidableEq, Repr

namespace Matrix

variable {α : Type}

/-- The same function on every entry. -/
def map {β : Type} (g : α → β) (m : Matrix α) : Matrix β :=
  ⟨g m.a, g m.b, g m.c, g m.d, g m.e, g m.f⟩

/-- Every entry made usable. -/
def settled [Settle α] (m : Matrix α) : Matrix α := m.map settle

/-- `m` first, then `n`. -/
def compose [Add α] [Mul α] [Settle α] (m n : Matrix α) : Matrix α :=
  let p := m.settled
  let q := n.settled
  settled
    { a := p.a * q.a + p.b * q.c
      b := p.a * q.b + p.b * q.d
      c := p.c * q.a + p.d * q.c
      d := p.c * q.b + p.d * q.d
      e := p.e * q.a + p.f * q.c + q.e
      f := p.e * q.b + p.f * q.d + q.f }

/-- The image of a point. -/
def apply [Add α] [Mul α] (m : Matrix α) (p : Point α) : Point α :=
  { x := p.x * m.a + p.y * m.c + m.e
    y := p.x * m.b + p.y * m.d + m.f }

/-- The matrix that leaves every point where it is. -/
def identity [OfNat α 0] [OfNat α 1] : Matrix α := ⟨1, 0, 0, 1, 0, 0⟩

/-- The entries in their order. -/
def toList (m : Matrix α) : List α := [m.a, m.b, m.c, m.d, m.e, m.f]

/-- The matrix of six entries. -/
def ofList? : List α → Option (Matrix α)
  | [a, b, c, d, e, f] => some ⟨a, b, c, d, e, f⟩
  | _ => none

@[simp] theorem ofList?_toList (m : Matrix α) : ofList? m.toList = some m := rfl

end Matrix

/-- The linear part `[a, b, c, d]` of a matrix. -/
structure Linear where
  a : Float
  b : Float
  c : Float
  d : Float
deriving DecidableEq, Repr

/-- The linear part of the identity. -/
def Linear.identity : Linear := ⟨1, 0, 0, 1⟩

/-- The page as it is shown: its height in user units and the scale of each axis. -/
structure Viewport (α : Type) where
  height : α
  scaleX : α
  scaleY : α
deriving DecidableEq, Repr

namespace Viewport

variable {α : Type}

/-- The shown place of a point of the page: flipped against the height, then scaled. -/
def project [Sub α] [Mul α] [Settle α] (v : Viewport α) (p : Point α) : Point α :=
  { x := settle (p.x * v.scaleX)
    y := settle ((v.height - p.y) * v.scaleY) }

/-- The shown place of a point in user space under a matrix. -/
def place [Add α] [Sub α] [Mul α] [Settle α] (v : Viewport α) (m : Matrix α) (p : Point α) :
    Point α :=
  v.project (m.settled.apply ⟨settle p.x, settle p.y⟩)

end Viewport

namespace Json

instance : Recorded (Point Float) where
  toJson p := ofFloats [p.x, p.y]
  ofJson? j := do
    let [x, y] ← floats? j | none
    return ⟨x, y⟩

instance : Recorded (Matrix Float) where
  toJson m := ofFloats m.toList
  ofJson? j := do Matrix.ofList? (← floats? j)

instance : Recorded Linear where
  toJson m := ofFloats [m.a, m.b, m.c, m.d]
  ofJson? j := do
    let [a, b, c, d] ← floats? j | none
    return ⟨a, b, c, d⟩

end Json
end PageContent
