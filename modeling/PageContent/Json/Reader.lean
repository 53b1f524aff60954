/-
# Reading JSON

`Json.parseWith?` reads a whole text as one value, its numbers by a reading of
numerals; `Json.parse?` is the reader of page and scene files, which scales them.
The grammar is read off the tokens by recursive descent; each step takes a token
or passes on to a part, so twice the number of tokens bounds the steps.

Arrays and objects may nest `maxDepth` deep.  One that stands deeper is
well formed but unusable.
-/

import PageContent.Json.Token

namespace PageContent
namespace Json

/-- The deepest usable nesting of arrays and objects. -/
def maxDepth : Nat := 127

mutual

/-- The value at the head of a token list, and what follows it; `depth` is how
deep arrays and objects may still nest. -/
def readValue : (fuel depth : Nat) → List Token → Option (Json × List Token)
  | 0, _, _ => none
  | _ + 1, _, .literal value :: rest => some (value, rest)
  | _ + 1, _, .text s :: rest => some (s.elim .unusable .string, rest)
  | _ + 1, depth, .mark '[' :: .mark ']' :: rest =>
    some (if depth = 0 then .unusable else .array [], rest)
  | fuel + 1, depth, .mark '[' :: rest => do
    let (items, rest) ← readItems fuel (depth - 1) rest
    return (if depth = 0 then .unusable else .array items, rest)
  | _ + 1, depth, .mark '\x7b' :: .mark '\x7d' :: rest =>
    some (if depth = 0 then .unusable else .object [], rest)
  | fuel + 1, depth, .mark '\x7b' :: rest => do
    let (fields, rest) ← readFields fuel (depth - 1) rest
    return (if depth = 0 then .unusable else fields.elim .unusable .object, rest)
  | _ + 1, _, _ => none

/-- One or more items, up to the bracket that closes them. -/
def readItems : (fuel depth : Nat) → List Token → Option (List Json × List Token)
  | 0, _, _ => none
  | fuel + 1, depth, tokens => do
    let (item, rest) ← readValue fuel depth tokens
    match rest with
    | .mark ']' :: rest => return ([item], rest)
    | .mark ',' :: rest =>
      let (items, rest) ← readItems fuel depth rest
      return (item :: items, rest)
    | _ => none

/-- One or more fields, up to the brace that closes them; `none` for the fields
if a name spells no text. -/
def readFields : (fuel depth : Nat) → List Token →
    Option (Option (List (String × Json)) × List Token)
  | fuel + 1, depth, .text name :: .mark ':' :: rest => do
    let (value, rest) ← readValue fuel depth rest
    let field := name.map fun name => (name, value)
    match rest with
    | .mark '\x7d' :: rest => return (field.map ([·]), rest)
    | .mark ',' :: rest =>
      let (fields, rest) ← readFields fuel depth rest
      return (field.bind fun f => fields.map (f :: ·), rest)
    | _ => none
  | _, _, _ => none

end

/-- The value that a whole text spells. -/
def parseWith? (read : Numeral → Option Float) (s : String) : Option Json := do
  let tokens ← Token.scan read s.toList
  match ← readValue (2 * tokens.length) maxDepth tokens with
  | (value, []) => return value
  | _ => none

/-- The value that the text of a file spells. -/
def parse? : String → Option Json := parseWith? Numeral.scaled?

end Json
end PageContent
