/-
# JSON tokens

A JSON text is a list of tokens with blanks (space, tab, line feed, carriage
return) between them.  `Token.scan` cuts a text into its tokens, strictly: no
comments, no raw control characters in a string, no leading zeros, no digit
missing beside a point.  How a number becomes a double is left to the caller, as
a reading of numerals.

A string is read in two steps.  `scanString` takes it apart into characters and
surrogate halves, which only an escape can spell; `joinHalves` joins each high
half to the low half that must follow it.
-/

import PageContent.Json.Basic
import PageContent.Number.Numeral

namespace PageContent
namespace Json

/-- A token of a JSON text. -/
inductive Token where
  /-- One of the six structural characters. -/
  | mark (c : Char)
  /-- A string; `none` when its escapes spell no text. -/
  | text (s : Option String)
  /-- `null`, `true`, `false` or a number. -/
  | literal (value : Json)

/-- A character of a string literal, or half of a surrogate pair. -/
inductive Piece where
  | char (c : Char)
  | half (unit : Nat)
deriving DecidableEq, Repr

/-- The value of a hexadecimal digit. -/
def hexValue (c : Char) : Option Nat :=
  if c.isDigit then some (c.toNat - '0'.toNat)
  else if 'a' ≤ c ∧ c ≤ 'f' then some (c.toNat - 'a'.toNat + 10)
  else if 'A' ≤ c ∧ c ≤ 'F' then some (c.toNat - 'A'.toNat + 10)
  else none

/-- The 16-bit unit that four hexadecimal digits spell: a half if it lies in the
surrogate range, else a character. -/
def unitPiece (a b c d : Char) : Option Piece := do
  let unit := 4096 * (← hexValue a) + 256 * (← hexValue b) + 16 * (← hexValue c) + (← hexValue d)
  return if 0xD800 ≤ unit ∧ unit < 0xE000 then .half unit else .char (Char.ofNat unit)

/-- The character that a backslash and one letter stand for. -/
def shortEscape : Char → Option Char
  | '"' => some '"'
  | '\\' => some '\\'
  | '/' => some '/'
  | 'b' => some '\x08'
  | 'f' => some '\x0c'
  | 'n' => some '\n'
  | 'r' => some '\r'
  | 't' => some '\t'
  | _ => none

/-- The pieces up to the closing quote, and what follows it. -/
def scanString : List Char → Option (List Piece × List Char)
  | [] => none
  | '"' :: rest => some ([], rest)
  | '\\' :: 'u' :: a :: b :: c :: d :: rest => do
    let piece ← unitPiece a b c d
    let (pieces, rest) ← scanString rest
    return (piece :: pieces, rest)
  | '\\' :: e :: rest => do
    let c ← shortEscape e
    let (pieces, rest) ← scanString rest
    return (.char c :: pieces, rest)
  | c :: rest => do
    guard (c ≠ '\\' ∧ 0x20 ≤ c.toNat)
    let (pieces, rest) ← scanString rest
    return (.char c :: pieces, rest)

/-- The text of the pieces, if the halves come in pairs, high before low. -/
def joinHalves : List Piece → Option (List Char)
  | [] => some []
  | .char c :: rest => (joinHalves rest).map (c :: ·)
  | .half high :: .half low :: rest =>
    if high < 0xDC00 ∧ 0xDC00 ≤ low then
      (joinHalves rest).map
        (Char.ofNat (0x10000 + (high - 0xD800) * 0x400 + (low - 0xDC00)) :: ·)
    else none
  | .half _ :: _ => none

/-- JSON wants a digit on either side of a point and no zero in front of others. -/
def admits (n : Numeral) : Bool :=
  (n.whole == ['0'] || (!n.whole.isEmpty && n.whole.head? != some '0')) &&
    n.fraction.all (!·.isEmpty)

/-- The value of an admitted numeral: an integer if it is written as one, is not
`-0` and fits into 64 bits, signed or unsigned; else the double that is read. -/
def ofNumeral (read : Numeral → Option Float) (n : Numeral) : Json :=
  let magnitude : Int := Numeral.natOf n.whole
  let value := if n.negative then -magnitude else magnitude
  if n.fraction.isNone && n.exponent.isNone && !(n.negative && magnitude == 0) &&
      -0x8000000000000000 ≤ value && value < 0x10000000000000000 then .integer value
  else (read n).elim .unusable .number

/-- The number at the head of a text, and what follows it. -/
def scanNumber (read : Numeral → Option Float) (s : List Char) : Option (Json × List Char) := do
  let (negative, body) := match s with
    | '-' :: r => (true, r)
    | r => (false, r)
  let (n, rest) ← Numeral.scanUnsigned body
  guard (admits n)
  return (ofNumeral read { n with negative }, rest)

/-- One of the four blanks of JSON. -/
def isGap (c : Char) : Bool := c == ' ' || c == '\t' || c == '\n' || c == '\r'

/-- One of the six structural characters. -/
def isMark (c : Char) : Bool :=
  c == '[' || c == ']' || c == ',' || c == ':' || c == '\x7b' || c == '\x7d'

namespace Token

/-- The token at the head of a text that starts with no blank, and what follows it. -/
def scanOne (read : Numeral → Option Float) : List Char → Option (Token × List Char)
  | 't' :: 'r' :: 'u' :: 'e' :: rest => some (.literal (.bool true), rest)
  | 'f' :: 'a' :: 'l' :: 's' :: 'e' :: rest => some (.literal (.bool false), rest)
  | 'n' :: 'u' :: 'l' :: 'l' :: rest => some (.literal .null, rest)
  | '"' :: rest => do
    let (pieces, rest) ← scanString rest
    return (.text ((joinHalves pieces).map String.ofList), rest)
  | c :: rest =>
    if isMark c then some (.mark c, rest)
    else (scanNumber read (c :: rest)).map fun (value, rest) => (.literal value, rest)
  | [] => none

/-- The tokens of a text of which no more than `fuel` characters are left. -/
def scanWith (read : Numeral → Option Float) : (fuel : Nat) → List Char → Option (List Token)
  | fuel, s =>
    match s.dropWhile isGap, fuel with
    | [], _ => some []
    | _, 0 => none
    | s, fuel + 1 => do
      let (token, rest) ← scanOne read s
      return token :: (← scanWith read fuel rest)

/-- The tokens of a text. -/
def scan (read : Numeral → Option Float) (s : List Char) : Option (List Token) :=
  scanWith read s.length s

end Token
end Json
end PageContent
