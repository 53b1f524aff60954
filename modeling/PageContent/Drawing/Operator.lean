/-
# Drawing operators

A page is drawn by a list of operators, each a numeric code with operands and
its place in the list.  `Operator.decode` reads the codes the drawing acts on;
any other code is `unsupported`.

| codes | operators |
| --- | --- |
| 2, 9, 10, 11, 12 | line width, opacity, save, restore, transform |
| 13 … 19, 91 | move, line, three curves, close, rectangle, batch of steps |
| 20 … 28 | eight ways to paint a path, and to end it unpainted |
| 29 … 32 | two clips, begin and end of text |
| 52 … 61 | stroke and fill colors |
| 83, 85, 86, 88 | images |

An operator with too few operands is an error; an operand of the wrong kind
counts as `0`, and inside a batch as a code that nothing knows.
-/

import PageContent.Drawing.Step
import PageContent.Operand

namespace PageContent

/-- An operator as it stands in the list of a page. -/
structure RawOperator where
  code : UInt32
  operands : List Json
  index : UInt64
deriving Repr

instance : Recorded RawOperator where
  toJson o := .object
    [("fn", toJson o.code), ("args", toJson o.operands), ("index", toJson o.index)]
  ofJson? j := do
    let [code, operands, index] ← j.fields? [["fn", "opcode"], ["args"], ["index"]] 1 | none
    return {
      code := ← Json.need code
      operands := ((← Json.orElse none operands : Option (List Json))).getD []
      index := ← Json.orElse 0 index }

/-- What can be wrong with the operands of a known operator. -/
inductive OperandFault where
  | tooFew (expected got : Nat)
  | noStateDictionary
  | noPathData
  | emptyPathData
deriving DecidableEq, Repr

namespace OperandFault

def message : OperandFault → String
  | .tooFew expected got =>
    "expected " ++ toString expected ++ " operands, got " ++ toString got
  | .noStateDictionary => "missing graphics state dictionary"
  | .noPathData => "missing path data"
  | .emptyPathData => "empty path data"

end OperandFault

/-- What a color operator sets. -/
inductive ColorTarget where
  | stroke
  | fill
deriving DecidableEq, Repr

/-- The rule that says what is inside a clip. -/
inductive ClipRule where
  | nonzero
  | evenOdd
deriving DecidableEq, Repr

/-- A way to paint a path. -/
inductive Paint where
  | stroke
  | closeStroke
  | fill
  | evenOddFill
  | fillStroke
  | evenOddFillStroke
  | closeFillStroke
  | closeEvenOddFillStroke
deriving DecidableEq, Repr

namespace Paint

/-- The way of painting that a code names. -/
def ofCode? : Nat → Option Paint
  | 20 => some .stroke
  | 21 => some .closeStroke
  | 22 => some .fill
  | 23 => some .evenOddFill
  | 24 => some .fillStroke
  | 25 => some .evenOddFillStroke
  | 26 => some .closeFillStroke
  | 27 => some .closeEvenOddFillStroke
  | _ => none

/-- The way of painting that a batch names, which knows `1` for stroke and `2`, `3`
for fill besides. -/
def ofBatchCode? : Nat → Option Paint
  | 1 => some .stroke
  | 2 | 3 => some .fill
  | n => ofCode? n

/-- The path is closed first. -/
def closes : Paint → Bool
  | .closeStroke | .closeFillStroke | .closeEvenOddFillStroke => true
  | _ => false

/-- The inside is painted. -/
def fills : Paint → Bool
  | .stroke | .closeStroke => false
  | _ => true

/-- The outline is painted. -/
def strokes : Paint → Bool
  | .fill | .evenOddFill => false
  | _ => true

/-- The same without closing first. -/
def unclosed : Paint → Paint
  | .closeStroke => .stroke
  | .closeFillStroke => .fillStroke
  | .closeEvenOddFillStroke => .evenOddFillStroke
  | p => p

theorem fills_or_strokes (p : Paint) : (p.fills || p.strokes) = true := by cases p <;> rfl

end Paint

/-- The opacities that a graphics-state dictionary sets. -/
structure OpacityChange where
  opacity : Option Float
  fillOpacity : Option Float
deriving DecidableEq, Repr

namespace OpacityChange

/-- The number that goes with a key: in an object the value of that field, in a list
of pairs that of the last pair of the key that has a usable one. -/
def lookup? (dictionary : Json) (key : String) : Option Float :=
  match dictionary with
  | .object fs => (Json.field? fs key).bind Operand.number?
  | .array pairs => pairs.reverse.findSome? fun
    | .array (.string k :: value :: _) => if k = key then Operand.number? value else none
    | _ => none
  | _ => none

/-- Fill opacity is `ca_m`, else `ca`; opacity is `CA_m`, else `CA`, else that. -/
def ofDictionary (dictionary : Json) : OpacityChange :=
  let fillOpacity := (lookup? dictionary "ca_m").or (lookup? dictionary "ca")
  { opacity := ((lookup? dictionary "CA_m").or (lookup? dictionary "CA")).or fillOpacity
    fillOpacity }

end OpacityChange

/-- A decoded operator. -/
inductive Operator where
  | save
  | restore
  | transform (matrix : Matrix Float)
  | lineWidth (width : Float)
  | opacity (change : OpacityChange)
  | color (target : ColorTarget) (components : List Float)
  | beginText
  | endText
  | step (step : PathStep)
  /-- A batch of steps, and how to paint the path behind it. -/
  | batch (paint : Option Paint) (numbers : List Float)
  | paint (paint : Paint)
  | clip (rule : ClipRule)
  | endPath
  | image (name : Option String)
  /-- A code the drawing does not act on. -/
  | unsupported (code : UInt32)
deriving DecidableEq, Repr

namespace Operator

/-- The operator builds a path; a `close` only finishes what is there. -/
def buildsPath : Operator → Bool
  | .step s => !s.isClose
  | .batch .. => true
  | _ => false

/-- An operator of one number; more operands are passed over. -/
def of1 (build : Float → Operator) : List Json → Except OperandFault Operator
  | x :: _ => .ok (build (Operand.number x))
  | operands => .error (.tooFew 1 operands.length)

/-- An operator of one point. -/
def of2 (build : Point Float → Operator) : List Json → Except OperandFault Operator
  | x :: y :: _ => .ok (build ⟨Operand.number x, Operand.number y⟩)
  | operands => .error (.tooFew 2 operands.length)

/-- An operator of two points. -/
def of4 (build : Point Float → Point Float → Operator) :
    List Json → Except OperandFault Operator
  | x :: y :: x' :: y' :: _ =>
    .ok (build ⟨Operand.number x, Operand.number y⟩ ⟨Operand.number x', Operand.number y'⟩)
  | operands => .error (.tooFew 4 operands.length)

/-- An operator of six numbers. -/
def of6 (build : Matrix Float → Operator) : List Json → Except OperandFault Operator
  | a :: b :: c :: d :: e :: f :: _ =>
    .ok (build ⟨Operand.number a, Operand.number b, Operand.number c, Operand.number d,
      Operand.number e, Operand.number f⟩)
  | operands => .error (.tooFew 6 operands.length)

/-- The number that an entry of a batch stands for; an unusable one is NaN, which is
no code, and as a coordinate lands on `0`. -/
def batchNumber (j : Json) : Float := (Operand.number? j).getD (0 / 0)

/-- The batch of `[paint, [numbers, …]]` or `[paint, numbers]`. -/
def ofBatch (operands : List Json) : Except OperandFault Operator :=
  let paint := (operands.head?.bind Operand.number?).bind fun code =>
    Paint.ofBatchCode? (Binary64.toWord32 code)
  match operands with
  | _ :: .array (.array inner :: _) :: _ => .ok (.batch paint (inner.map batchNumber))
  | _ :: .array [] :: _ => .error .emptyPathData
  | _ :: .array outer :: _ => .ok (.batch paint (outer.map batchNumber))
  | _ => .error .noPathData

/-- The change of opacity that the first operand describes. -/
def ofDictionary : List Json → Except OperandFault Operator
  | [] | .null :: _ => .error .noStateDictionary
  | dictionary :: _ => .ok (.opacity (OpacityChange.ofDictionary dictionary))

/-- The image that the first operand names, if it is a string. -/
def ofImageName : List Json → Operator
  | .string name :: _ => .image (some name)
  | _ => .image none

/-- The operator of a code and its operands. -/
def ofCode (code : UInt32) (operands : List Json) : Except OperandFault Operator :=
  match code.toNat with
  | 2 => of1 .lineWidth operands
  | 9 => ofDictionary operands
  | 10 => .ok .save
  | 11 => .ok .restore
  | 12 => of6 .transform operands
  | 13 => of2 (.step ∘ .move) operands
  | 14 => of2 (.step ∘ .line) operands
  | 15 => of6 (fun m => .step (.curve ⟨m.a, m.b⟩ ⟨m.c, m.d⟩ ⟨m.e, m.f⟩)) operands
  | 16 => of4 (fun c p => .step (.curveFromEnd c p)) operands
  | 17 => of4 (fun c p => .step (.curveIntoEnd c p)) operands
  | 18 => .ok (.step .close)
  | 19 => of4 (fun p size => .step (.rectangle p size.x size.y)) operands
  | 28 => .ok .endPath
  | 29 => .ok (.clip .nonzero)
  | 30 => .ok (.clip .evenOdd)
  | 31 => .ok .beginText
  | 32 => .ok .endText
  | 52 | 53 | 56 | 58 | 60 => .ok (.color .stroke (operands.map Operand.number))
  | 54 | 55 | 57 | 59 | 61 => .ok (.color .fill (operands.map Operand.number))
  | 83 | 85 | 86 | 88 => .ok (ofImageName operands)
  | 91 => ofBatch operands
  | n => .ok ((Paint.ofCode? n).elim (.unsupported code) .paint)

/-- The operator that stands in the list of a page. -/
def decode (raw : RawOperator) : Except OperandFault Operator := ofCode raw.code raw.operands

end Operator
end PageContent
