/-
# Doubles that remember how a NaN came about

A `Traced` is a double that carries along, should it be a NaN, how it came about:

| operands | result, if it is a NaN |
| --- | --- |
| a NaN among them | goes back to what that one goes back to, to the first of two |
| numbers only | was computed here |

A formula that is written for any type with its operations gives on traced doubles
what it gives on doubles (`value_sub`, `value_mul`), and the origin besides.
-/

import PageContent.Number.Binary64

namespace PageContent

open Binary64 (NaNOrigin infinity)

/-- A double and how it came about, should it be a NaN. -/
structure Traced where
  value : Float
  origin : NaNOrigin
deriving DecidableEq, Repr

namespace Traced

/-- A double at the start of a formula. -/
def given (x : Float) : Traced := ⟨x, .given⟩

/-- The result of an operation. -/
def lift (op : Float → Float → Float) (x y : Traced) : Traced where
  value := op x.value y.value
  origin :=
    if x.value.isNaN then x.origin
    else if y.value.isNaN then y.origin
    else .computed

instance : Sub Traced := ⟨lift (· - ·)⟩

instance : Mul Traced := ⟨lift (· * ·)⟩

@[simp] theorem value_given (x : Float) : (given x).value = x := rfl

@[simp] theorem value_sub (x y : Traced) : (x - y).value = x.value - y.value := rfl

@[simp] theorem value_mul (x y : Traced) : (x * y).value = x.value * y.value := rfl

/-- It is a NaN, and goes back to one that was given. -/
def isGivenNaN (x : Traced) : Bool := x.value.isNaN && x.origin == .given

/-- The first NaN of a formula decides: `0 · ∞` comes before the factor that is none. -/
example : (given 0 * given infinity * given (0 / 0)).isGivenNaN = false ∧
    (given (0 / 0) * given 0 * given infinity).isGivenNaN = true := by decide +kernel

end Traced
end PageContent
