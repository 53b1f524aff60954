/-
# Decimals: reading them and the shortest one that reads back

A decimal is `digits · 10 ^ exponent`.  It becomes a double in two ways:

| reading | rule | error |
| --- | --- | --- |
| `toFloat` | the nearest double, ties to the even mantissa | half a unit |
| `scaled?` | the digits as a double, times or over a power of ten | a rounding per step |

The second is what the numbers of page and scene files are read by.

`shortest` goes the other way: of all decimals that read back as a given positive
double it takes one with the fewest digits, and of those the nearest.  The search
walks down the grids of multiples of `10 ^ k`, from a `k` too coarse to hold the
value.  If any point of a grid reads back, so does one of the two neighbours of
the value on it, so only these two are tried, the nearer first; the first grid
with a hit gives the fewest digits.  A value half way between its neighbours goes
as a `Tie` says.
-/

import PageContent.Number.Binary64

namespace PageContent

/-- The number `digits · 10 ^ exponent`. -/
structure Decimal where
  digits : Nat
  exponent : Int
deriving DecidableEq, Repr

namespace Decimal

/-- The nearest double, ties to even; beyond the largest one an infinity. -/
def toFloat (d : Decimal) : Float :=
  Float.ofScientific d.digits (d.exponent < 0) d.exponent.natAbs

/-- The double nearest to `10 ^ k`. -/
def powerOfTen (k : Nat) : Float := (Decimal.mk 1 k).toFloat

/-- The decimal by scaling: its digits as a double, times `10 ^ k`, or over `10 ^ k`
in one step down to `k = 308` and in two steps below.  What is left below those is
`0`; what is left above the largest double has no value. -/
def scaled? (d : Decimal) : Option Float :=
  let f := Float.ofNat d.digits
  let k := d.exponent.natAbs
  if d.digits = 0 then some 0
  else if 0 ≤ d.exponent then
    if k ≤ 308 then some (f * powerOfTen k) |>.filter Float.isFinite else none
  else if k ≤ 308 then some (f / powerOfTen k)
  else if k ≤ 616 then some (f / powerOfTen 308 / powerOfTen (k - 308))
  else some 0

/-- Where a value goes that is half way between two points of a grid. -/
inductive Tie where
  /-- To the even one. -/
  | even
  /-- To the upper one. -/
  | up
deriving DecidableEq, Repr

/-- The neighbours of `num / den` among the multiples of `10 ^ k`, the nearer
first and of two equally near ones the one that `tie` prefers. -/
def neighbours (tie : Tie) (num den : Nat) (k : Int) : Decimal × Decimal :=
  let n := if 0 ≤ k then num else num * Nat.pow 10 (-k).toNat
  let d := if 0 ≤ k then den * Nat.pow 10 k.toNat else den
  let below := n / d
  let excess := 2 * (n % d)
  if excess < d ∨ (excess = d ∧ tie = .even ∧ below % 2 = 0) then (⟨below, k⟩, ⟨below + 1, k⟩)
  else (⟨below + 1, k⟩, ⟨below, k⟩)

/-- The first neighbour of `num / den` that reads back as `x`, on the grids
`10 ^ k`, `10 ^ (k - 1)`, … of which `steps` are tried. -/
def firstHit (tie : Tie) (x : Float) (num den : Nat) : (steps : Nat) → (k : Int) → Option Decimal
  | 0, _ => none
  | steps + 1, k =>
    let (near, far) := neighbours tie num den k
    if near.toFloat = x then some near
    else if far.toFloat = x then some far
    else firstHit tie x num den steps (k - 1)

/-- A hit reads back. -/
theorem toFloat_of_firstHit {tie : Tie} {x : Float} {num den steps : Nat} {k : Int}
    {d : Decimal} (h : firstHit tie x num den steps k = some d) : d.toFloat = x := by
  induction steps generalizing k with
  | zero => simp [firstHit] at h
  | succ n ih =>
    simp only [firstHit] at h
    split at h
    · cases h; assumption
    · split at h
      · cases h; assumption
      · exact ih h

/-- The exact decimal value of `mantissa · 2 ^ exponent`. -/
def exact (p : Binary64.Parts) : Decimal :=
  if 0 ≤ p.exponent then ⟨p.mantissa * Nat.pow 2 p.exponent.toNat, 0⟩
  else ⟨p.mantissa * Nat.pow 5 (-p.exponent).toNat, p.exponent⟩

/-- A decimal of the fewest digits that reads back as `|x|`, the nearest of
those.  Seventeen digits suffice for every double, and the search starts at most
a few grids above the first digit, so `24` grids reach it; the exact value stands
behind them. -/
def shortest (tie : Tie) (x : Float) : Decimal :=
  let p := Binary64.parts x
  if p.mantissa = 0 then ⟨0, 0⟩
  else
    let num := if 0 ≤ p.exponent then p.mantissa * Nat.pow 2 p.exponent.toNat else p.mantissa
    let den := if 0 ≤ p.exponent then 1 else Nat.pow 2 (-p.exponent).toNat
    let coarsest := (p.mantissa.log2 + 1 + p.exponent) * 30103 / 100000 + 1
    (firstHit tie x.abs num den 24 coarsest).getD (exact p)

/-- The digits of a decimal, most significant first. -/
def digitChars (d : Decimal) : List Char := Nat.toDigits 10 d.digits

/-- A rule for the text of a decimal.  `widest` and `zeros` bound positional
writing: the point stands at most `widest` places to the right of the first
digit, and less than `zeros` zeros stand between it and the first digit; outside
them an exponent is written, with its sign.  `wholePoint` says whether a whole
number ends in `.0`, and `tie` which of two equally near shortest decimals is
written. -/
structure Layout where
  widest : Option Int
  zeros : Option Int
  wholePoint : Bool
  tie : Tie

/-- The positional text of `ds` with the point after the first `p` digits. -/
def positional (wholePoint : Bool) (ds : List Char) (p : Int) : List Char :=
  if p ≤ 0 then '0' :: '.' :: (List.replicate (-p).toNat '0' ++ ds)
  else if p < ds.length then ds.take p.toNat ++ '.' :: ds.drop p.toNat
  else ds ++ List.replicate (p.toNat - ds.length) '0' ++ (if wholePoint then ['.', '0'] else [])

/-- The text `d.ddde±x` of `ds` with the point after the first `p` digits. -/
def scientific (ds : List Char) (p : Int) : List Char :=
  let lead := ds.take 1
  let rest := ds.drop 1
  let mark := if p - 1 < 0 then ['e', '-'] else ['e', '+']
  lead ++ (if rest.isEmpty then [] else '.' :: rest) ++ mark ++ Nat.toDigits 10 (p - 1).natAbs

/-- The text of a decimal under a layout. -/
def chars (layout : Layout) (d : Decimal) : List Char :=
  let ds := d.digitChars
  let p := ds.length + d.exponent
  if layout.widest.all (p ≤ ·) && layout.zeros.all (fun z => decide (-z < p)) then
    positional layout.wholePoint ds p
  else scientific ds p

end Decimal

/-- The text of a double: the shortest decimal under a layout, with the sign of
a negative number or zero in front. -/
def Decimal.Layout.write (layout : Decimal.Layout) (x : Float) : String :=
  if x.isNaN then "NaN"
  else
    let sign := if (Binary64.parts x).negative then ['-'] else []
    let body := if x.isFinite then (Decimal.shortest layout.tie x).chars layout else ['i', 'n', 'f']
    String.ofList (sign ++ body)

/-- Numbers in messages and ids are written positionally, whole ones without a point;
ties go up. -/
def Decimal.Layout.plain : Decimal.Layout := ⟨none, none, false, .up⟩

/-- Numbers in scene files keep `.0` on whole values, and use an exponent from
`10 ^ 16` up and below `10 ^ (-5)`; ties go to the even digit. -/
def Decimal.Layout.scene : Decimal.Layout := ⟨some 16, some 5, true, .even⟩

example : Decimal.Layout.plain.write 792 = "792" ∧
    Decimal.Layout.plain.write (-0.0000001) = "-0.0000001" ∧
    Decimal.Layout.plain.write 1e21 = "1000000000000000000000" := by decide +kernel

example : Decimal.Layout.scene.write 1 = "1.0" ∧ Decimal.Layout.scene.write 1e16 = "1e+16" ∧
    Decimal.Layout.scene.write 0.00001 = "0.00001" ∧ Decimal.Layout.scene.write 1.5e-7 = "1.5e-7" ∧
    Decimal.Layout.scene.write 5e-324 = "5e-324" ∧
    Decimal.Layout.scene.write 93.21000000000001 = "93.21000000000001" := by decide +kernel

/-- Two shortest decimals are equally near: the layouts part. -/
example : Decimal.Layout.plain.write (-1125899906842624.25) = "-1125899906842624.3" ∧
    Decimal.Layout.scene.write (-1125899906842624.25) = "-1125899906842624.2" := by decide +kernel

end PageContent
