/-
# Errors

What can go wrong when an operator is decoded or a page is built, and the text
that says so.
-/

import PageContent.Drawing.Operator

namespace PageContent

/-- A number that the options of a scene must have positive. -/
inductive Dimension where
  | viewportHeight
  | scaleX
  | scaleY
  | textViewportHeight
  | textScaleX
  | textScaleY
deriving DecidableEq, Repr

def Dimension.name : Dimension → String
  | .viewportHeight => "viewport height"
  | .scaleX => "scale x"
  | .scaleY => "scale y"
  | .textViewportHeight => "text viewport height"
  | .textScaleX => "text scale x"
  | .textScaleY => "text scale y"

/-- Why there is no result. -/
inductive Error where
  | malformedOperator (code : UInt32) (fault : OperandFault)
  | unknownOperator (code : UInt32)
  | notPositive (what : Dimension) (value : Float)
  /-- A text that is no JSON, or JSON of the wrong shape. -/
  | json
deriving DecidableEq, Repr

namespace Error

/-- The text of an error; what is wrong with a JSON text is not told. -/
def message : Error → String
  | .malformedOperator code fault =>
    "Malformed operator " ++ toString code.toNat ++ ": " ++ fault.message
  | .unknownOperator code => "Unknown operator code: " ++ toString code.toNat
  | .notPositive what value =>
    "Invalid argument: " ++ what.name ++ " must be positive, got " ++
      Decimal.Layout.plain.write value
  | .json => "JSON error"

example : (Error.malformedOperator 13 (.tooFew 2 1)).message =
    "Malformed operator 13: expected 2 operands, got 1" := by decide +kernel

end Error

namespace Operator

/-- The operator that stands in a list, with the code in the error. -/
def decode? (raw : RawOperator) : Except Error Operator :=
  (decode raw).mapError (.malformedOperator raw.code)

/-- The same, refusing a code that the drawing does not act on. -/
def decodeStrict? (raw : RawOperator) : Except Error Operator :=
  match decode? raw with
  | .ok (.unsupported code) => .error (.unknownOperator code)
  | r => r

end Operator
end PageContent
