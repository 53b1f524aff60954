/-
# Operands

The operands of an operator are JSON values of any kind.  A number is read from

| operand | number |
| --- | --- |
| number | itself |
| string | the decimal it spells between blanks |
| `true`, `false` | `1`, `0` |
| anything else | none |

and only a finite number counts.
-/

import PageContent.Json.Recorded
import PageContent.Number.Numeral
import PageContent.Text.Blank

namespace PageContent
namespace Operand

/-- The number that a text spells, blanks around it aside. -/
def numeral? (s : String) : Option Float :=
  (Numeral.ofChars? (Text.trim s.toList)).bind Numeral.nearest?

/-- The finite number that an operand stands for. -/
def number? (j : Json) : Option Float :=
  let x : Option Float := match j with
    | .integer n => some (Float.ofInt n)
    | .number x => some x
    | .string s => numeral? s
    | .bool b => some (if b then 1 else 0)
    | _ => none
  x.filter Float.isFinite

/-- The number of an operand, an unusable one counting as `0`. -/
def number (j : Json) : Float := (number? j).getD 0

theorem isFinite_of_number? {j : Json} {x : Float} (h : number? j = some x) :
    x.isFinite = true :=
  (Option.filter_eq_some_iff.1 h).2

/-- An operand read with its default is finite. -/
theorem isFinite_number (j : Json) : (number j).isFinite = true := by
  unfold number
  cases h : number? j with
  | none => decide
  | some x => exact isFinite_of_number? h

example : number? (.string " -2.5e1 ") = some (-25) ∧ number? (.string ".5") = some 0.5 ∧
    number? (.string "1e") = none ∧ number? (.string "1e400") = none ∧
    number? (.bool true) = some 1 ∧ number? .null = none := by decide +kernel

end Operand
end PageContent
