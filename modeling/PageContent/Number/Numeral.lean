/-
# Numerals

A numeral is a number as it was spelled: sign, digits, point, exponent.  It is
scanned once and leniently, so that each text format can say which spellings it
admits, and it is read in one of two ways, either of which gives finite numbers
only:

| reading | of which digits | by |
| --- | --- | --- |
| `nearest?` | all | `Decimal.toFloat` |
| `scaled?` | those that fit a 64-bit significand | `Decimal.scaled?` |

The significand takes digits from the left as long as it stays below `2 ^ 64`.
A digit before the point that it does not take still counts as a place.
-/

import PageContent.Number.Decimal

namespace PageContent

/-- A number as it was spelled: sign, digits before the point, digits after it
if there is one, exponent if there is one. -/
structure Numeral where
  negative : Bool
  whole : List Char
  fraction : Option (List Char)
  exponent : Option Int
deriving DecidableEq, Repr

namespace Numeral

/-- The number `n` with one more digit. -/
def push (n : Nat) (c : Char) : Nat := 10 * n + (c.toNat - '0'.toNat)

/-- The number that a run of digits spells. -/
def natOf (ds : List Char) : Nat := ds.foldl push 0

/-- A digit run with an optional sign in front, at least one digit long. -/
def scanExponent (s : List Char) : Option (Int × List Char) :=
  let (negative, body) := match s with
    | '-' :: r => (true, r)
    | '+' :: r => (false, r)
    | r => (false, r)
  match body.span Char.isDigit with
  | ([], _) => none
  | (ds, rest) => some (if negative then -(natOf ds : Int) else natOf ds, rest)

/-- The numeral at the head of a text without its sign, and what follows it.
Digits may be missing before or after the point. -/
def scanUnsigned (s : List Char) : Option (Numeral × List Char) := do
  let (whole, s) := s.span Char.isDigit
  let (fraction, s) := match s with
    | '.' :: r => let (ds, r) := r.span Char.isDigit; (some ds, r)
    | r => (none, r)
  let (exponent, s) ← match s with
    | 'e' :: r | 'E' :: r => (scanExponent r).map fun (e, r) => (some e, r)
    | r => some (none, r)
  return (⟨false, whole, fraction, exponent⟩, s)

/-- The numeral that a whole text spells: an optional sign, digits with at most
one point among or beside them, an optional exponent. -/
def ofChars? (s : List Char) : Option Numeral := do
  let (negative, body) := match s with
    | '-' :: r => (true, r)
    | '+' :: r => (false, r)
    | r => (false, r)
  let (n, rest) ← scanUnsigned body
  guard (rest.isEmpty && !(n.whole.isEmpty && (n.fraction.getD []).isEmpty))
  return { n with negative }

/-- A number under the sign of the numeral. -/
def signed (n : Numeral) (x : Float) : Float := if n.negative then -x else x

/-- The decimal that the digits of a numeral spell, its sign aside. -/
def decimal (n : Numeral) : Decimal :=
  let fraction := n.fraction.getD []
  ⟨natOf (n.whole ++ fraction), n.exponent.getD 0 - fraction.length⟩

/-- The nearest double, if it is finite. -/
def nearest? (n : Numeral) : Option Float :=
  some (n.signed n.decimal.toFloat) |>.filter Float.isFinite

/-- The significand that takes digits behind those of `n` as long as it stays below
`2 ^ 64`, and the digits from the first that it does not take. -/
def gather (n : Nat) : List Char → Nat × List Char
  | [] => (n, [])
  | c :: cs => if push n c < 0x10000000000000000 then gather (push n c) cs else (n, c :: cs)

/-- A significand stays one. -/
theorem gather_lt {n : Nat} (h : n < 0x10000000000000000) (ds : List Char) :
    (gather n ds).1 < 0x10000000000000000 := by
  induction ds generalizing n with
  | nil => exact h
  | cons c cs ih =>
    simp only [gather]
    split
    · exact ih ‹_›
    · exact h

/-- The decimal of the digits that fit.  Of the others those before the point raise
the exponent, and those behind it drop off. -/
def clipped (n : Numeral) : Decimal :=
  let fraction := n.fraction.getD []
  let (significand, wholeRest) := gather 0 n.whole
  let (significand, fractionRest) := gather significand fraction
  ⟨significand, n.exponent.getD 0 + wholeRest.length + fractionRest.length - fraction.length⟩

/-- The clipped decimal by scaling, if it has a value. -/
def scaled? (n : Numeral) : Option Float := n.clipped.scaled?.map n.signed

/-- Scaling is not always the nearest reading: it may miss by a unit, and refuse the
largest numbers. -/
example : (ofChars? "14.284211970860273".toList).bind nearest? = some 14.284211970860273 ∧
    (ofChars? "14.284211970860273".toList).bind scaled? = some 14.284211970860271 ∧
    (ofChars? "1.7976931348623158e308".toList).bind nearest? = some 1.7976931348623157e308 ∧
    (ofChars? "1.7976931348623158e308".toList).bind scaled? = none := by decide +kernel

/-- The places of digits that do not fit still count before the point. -/
example : (ofChars? "-123456789012345678901.5e-2".toList).map clipped =
    some ⟨12345678901234567890, 1 - 2⟩ := by decide +kernel

end Numeral
end PageContent
