/-
# Doubles as exact values

A finite double is `± mantissa · 2 ^ exponent`.  This module takes that reading
from the bits and builds on it what the arithmetic of a page needs besides
`+ - * / < sqrt`:

| operation | rule |
| --- | --- |
| `settle x` | `x` if it is finite, `0` in place of an infinity or a NaN |
| `floorInt x` | the greatest integer not above a finite `x` |
| `halfUp x` | `⌊x + 1/2⌋` as a double |
| `toInt64 x` | towards zero, then to the nearest 64-bit integer; a NaN gives `0` |
| `orderKey origin x` | a total order of all doubles: `-0` before `0`, NaNs at either end |
| `least x y`, `greatest x y` | of two that are level the second; a NaN stands aside |

All of it is exact integer arithmetic on the bits, so each value is decided by
evaluation.
-/

namespace PageContent
namespace Binary64

/-- The exact reading `± mantissa · 2 ^ exponent` of a finite double. -/
structure Parts where
  negative : Bool
  mantissa : Nat
  exponent : Int
deriving DecidableEq, Repr

/-- The fields of the 64 bits: 1 sign, 11 biased exponent, 52 fraction; the
leading one is implicit unless the exponent field is `0`. -/
def parts (x : Float) : Parts :=
  let bits : Nat := x.toBits.toNat
  let field : Nat := bits / 0x10000000000000 % 0x800
  let fraction : Nat := bits % 0x10000000000000
  { negative := bits / 0x8000000000000000 = 1
    mantissa := if field = 0 then fraction else fraction + 0x10000000000000
    exponent := (if field = 0 then 1 else (field : Int)) - 1075 }

/-- A number that geometry can use: anything that is not finite counts as `0`. -/
def settle (x : Float) : Float := if x.isFinite then x else 0

theorem isFinite_settle (x : Float) : (settle x).isFinite = true := by
  unfold settle
  split
  · assumption
  · decide

theorem settle_of_isFinite {x : Float} (h : x.isFinite = true) : settle x = x := by
  simp [settle, h]

/-- Settling twice is settling once. -/
theorem settle_settle (x : Float) : settle (settle x) = settle x :=
  settle_of_isFinite (isFinite_settle x)

/-- The greatest integer not above a finite double (of the parts' value for the
others, which no caller asks for). -/
def floorInt (x : Float) : Int :=
  let p := parts x
  let signed : Int := if p.negative then -(p.mantissa : Int) else p.mantissa
  if 0 ≤ p.exponent then signed * Nat.pow 2 p.exponent.toNat
  else signed / Nat.pow 2 (-p.exponent).toNat

/-- The least integer not below a finite double. -/
def ceilInt (x : Float) : Int := -floorInt (-x)

/-- The integer part of a finite double, towards zero. -/
def truncInt (x : Float) : Int := if x < 0 then ceilInt x else floorInt x

/-- `⌊x⌋` as a double; infinities and NaN stay what they are. -/
def floor (x : Float) : Float := if x.isFinite then Float.ofInt (floorInt x) else x

/-- Round to a whole number, a half going up. -/
def halfUp (x : Float) : Float := floor (x + 0.5)

/-- An integer cut to the range `lo … hi`. -/
def clampInt (lo hi n : Int) : Int := max lo (min hi n)

theorem clampInt_bounds {lo hi : Int} (h : lo ≤ hi) (n : Int) :
    lo ≤ clampInt lo hi n ∧ clampInt lo hi n ≤ hi := by
  unfold clampInt; omega

/-- Towards zero, then to the nearest integer of `lo … hi`; a NaN gives `0`. -/
def toIntWithin (lo hi : Int) (x : Float) : Int :=
  if x.isFinite then clampInt lo hi (truncInt x)
  else if x < 0 then lo else if 0 < x then hi else 0

/-- Towards zero into a signed 64-bit integer, ends saturating. -/
def toInt64 (x : Float) : Int := toIntWithin (-0x8000000000000000) 0x7fffffffffffffff x

/-- Towards zero into an unsigned 32-bit integer, ends saturating. -/
def toWord32 (x : Float) : Nat := (toIntWithin 0 0xffffffff x).toNat

/-- How a NaN came about.  Its sign tells the two apart, and with it the end of the
order of all doubles at which it stands. -/
inductive NaNOrigin where
  /-- It is the result of an operation on numbers, such as `0 · ∞`: it stands below
  all numbers. -/
  | computed
  /-- It was given, or a given one went into it: it stands above all numbers. -/
  | given
deriving DecidableEq, Repr

/-- The position of a double in the order of all doubles: the bits of a
positive one, the reflected bits of a negative one, and beyond them the two places
of a NaN. -/
def orderKey (origin : NaNOrigin) (x : Float) : Int :=
  let bits : Nat := x.toBits.toNat
  if x.isNaN then match origin with
    | .computed => -0x8000000000000000
    | .given => 0x8000000000000000
  else if bits < 0x8000000000000000 then (bits : Int) else 0x7fffffffffffffff - (bits : Int)

/-- The smaller of two numbers, of two zeros the second; a NaN stands aside for the other. -/
def least (x y : Float) : Float := if y.isNaN || x < y then x else y

/-- The larger of two numbers, of two zeros the second; a NaN stands aside for the other. -/
def greatest (x y : Float) : Float := if y.isNaN || y < x then x else y

/-- The smaller of two doubles is one of the two. -/
theorem least_eq_or (x y : Float) : least x y = x ∨ least x y = y := by
  grind [least]

/-- The larger of two doubles is one of the two. -/
theorem greatest_eq_or (x y : Float) : greatest x y = x ∨ greatest x y = y := by
  grind [greatest]

/-- `+∞`. -/
def infinity : Float := 1 / 0

/-- The half-open steps of the scale: `⌊-1.5⌋ = -2`, `⌊2.5 + 1/2⌋ = 3`, and a
half below zero goes up too. -/
example : floorInt (-1.5) = -2 ∧ (halfUp 2.5).toBits = (3.0 : Float).toBits ∧
    (halfUp (-2.5)).toBits = (-2.0 : Float).toBits := by decide +kernel

/-- Conversions saturate at their ends and send a NaN to `0`. -/
example : toInt64 1e200 = 0x7fffffffffffffff ∧ toInt64 (-1e200) = -0x8000000000000000 ∧
    toInt64 (0 / 0) = 0 ∧ toWord32 (-3) = 0 ∧ toWord32 7.9 = 7 := by decide +kernel

/-- The order separates the zeros and puts the infinities at the ends of the numbers,
with the NaNs beyond them. -/
example : [(NaNOrigin.computed, 0 / 0), (.given, -infinity), (.given, -1), (.given, -0.0),
    (.given, 0), (.given, infinity), (.given, 0 / 0)].Pairwise
      (fun (o, x) (p, y) => orderKey o x < orderKey p y) := by decide +kernel

end Binary64
end PageContent
