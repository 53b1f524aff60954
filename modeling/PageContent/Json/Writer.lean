/-
# Writing JSON

One printer serves both formats: `compact` puts nothing between the tokens,
`pretty` puts every item and field on a line of its own, two spaces deeper than
what holds it, and one space after a colon.  Empty arrays and objects stay
closed up.

A string escapes the quote, the backslash and the characters below `U+0020`;
everything else stands for itself.
-/

import PageContent.Json.Basic
import PageContent.Number.Decimal

namespace PageContent
namespace Json

/-- How a JSON text is laid out. -/
inductive Format where
  | compact
  | pretty
deriving DecidableEq, Repr

namespace Format

/-- The break in front of an item at a nesting depth. -/
def lineBreak (format : Format) (depth : Nat) : List Char :=
  match format with
  | .compact => []
  | .pretty => '\n' :: List.replicate (2 * depth) ' '

/-- What stands between the name of a field and its value. -/
def colon : Format → List Char
  | .compact => [':']
  | .pretty => [':', ' ']

end Format

/-- A hexadecimal digit. -/
def hexDigit (n : Nat) : Char := Nat.digitChar n

/-- The spelling of a character inside quotes. -/
def escape (c : Char) : List Char :=
  match c with
  | '"' => ['\\', '"']
  | '\\' => ['\\', '\\']
  | '\x08' => ['\\', 'b']
  | '\x0c' => ['\\', 'f']
  | '\n' => ['\\', 'n']
  | '\r' => ['\\', 'r']
  | '\t' => ['\\', 't']
  | c =>
    if c.toNat < 0x20 then
      ['\\', 'u', '0', '0', hexDigit (c.toNat / 16), hexDigit (c.toNat % 16)]
    else [c]

/-- A text between quotes. -/
def quoted (s : String) : List Char := '"' :: (s.toList.flatMap escape ++ ['"'])

/-- The text of a double; one that is not finite has none and is written `null`. -/
def numberChars (x : Float) : List Char :=
  if x.isFinite then (Decimal.Layout.scene.write x).toList else ['n', 'u', 'l', 'l']

/-- The text of an integer. -/
def integerChars (n : Int) : List Char :=
  if n < 0 then '-' :: Nat.toDigits 10 n.natAbs else Nat.toDigits 10 n.natAbs

mutual

/-- The text of a value that stands at a nesting depth. -/
def chars (format : Format) (depth : Nat) : Json → List Char
  | .null | .unusable => ['n', 'u', 'l', 'l']
  | .bool true => ['t', 'r', 'u', 'e']
  | .bool false => ['f', 'a', 'l', 's', 'e']
  | .integer n => integerChars n
  | .number x => numberChars x
  | .string s => quoted s
  | .array [] => ['[', ']']
  | .array (x :: xs) =>
    '[' :: (format.lineBreak (depth + 1) ++ chars format (depth + 1) x ++
      itemChars format (depth + 1) xs ++ format.lineBreak depth ++ [']'])
  | .object [] => ['\x7b', '\x7d']
  | .object ((name, x) :: fs) =>
    '\x7b' :: (format.lineBreak (depth + 1) ++ quoted name ++ format.colon ++
      chars format (depth + 1) x ++ fieldChars format (depth + 1) fs ++
      format.lineBreak depth ++ ['\x7d'])

/-- The text of further items. -/
def itemChars (format : Format) (depth : Nat) : List Json → List Char
  | [] => []
  | x :: xs =>
    ',' :: (format.lineBreak depth ++ chars format depth x ++ itemChars format depth xs)

/-- The text of further fields. -/
def fieldChars (format : Format) (depth : Nat) : List (String × Json) → List Char
  | [] => []
  | (name, x) :: fs =>
    ',' :: (format.lineBreak depth ++ quoted name ++ format.colon ++ chars format depth x ++
      fieldChars format depth fs)

end

/-- The text of a value. -/
def write (format : Format) (j : Json) : String := String.ofList (chars format 0 j)

example : write .compact (.object [("a", .array [.number 1, .null]), ("b", .array [])]) =
    "\x7b\"a\":[1.0,null],\"b\":[]\x7d" := by decide +kernel

end Json
end PageContent
