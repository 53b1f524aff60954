/-
# JSON values

`Json` is a tree of JSON values in which whole numbers are kept apart from
numbers written with a point or an exponent, because an index admits only the
former.  The fields of an object stand in the order of the text and may repeat
a name; what a repetition means is the business of the reader of the object.

A text can spell a value that is well formed and yet none that can be used: a
number beyond the doubles, an escape that is half a surrogate pair, a nesting
deeper than the limit.  It is kept as `unusable`, so that a field nobody reads
may hold one.
-/

import PageContent.Table

namespace PageContent

/-- A JSON value. -/
inductive Json where
  | null
  | bool (b : Bool)
  /-- A number written without point and exponent. -/
  | integer (n : Int)
  | number (x : Float)
  | string (s : String)
  | array (items : List Json)
  | object (fields : List (String × Json))
  /-- A well-formed text without a value. -/
  | unusable
deriving Inhabited, Repr

namespace Json

mutual

/-- No part of the value is unusable. -/
def isUsable : Json → Bool
  | .array xs => itemsUsable xs
  | .object fs => fieldsUsable fs
  | .unusable => false
  | _ => true

/-- No item is unusable. -/
def itemsUsable : List Json → Bool
  | [] => true
  | x :: xs => isUsable x && itemsUsable xs

/-- No field is unusable. -/
def fieldsUsable : List (String × Json) → Bool
  | [] => true
  | (_, x) :: fs => isUsable x && fieldsUsable fs

end

mutual

/-- The value in which every object keeps the last field of each name. -/
def merged : Json → Json
  | .array xs => .array (mergedItems xs)
  | .object fs => .object (lastOfEach (mergedFields fs))
  | j => j

/-- `merged` of each item. -/
def mergedItems : List Json → List Json
  | [] => []
  | x :: xs => merged x :: mergedItems xs

/-- `merged` of the value of each field. -/
def mergedFields : List (String × Json) → List (String × Json)
  | [] => []
  | (name, x) :: fs => (name, merged x) :: mergedFields fs

end

/-- The value of the last field of a name. -/
def field? (fields : List (String × Json)) (name : String) : Option Json :=
  (fields.reverse.find? (·.1 == name)).map Prod.snd

end Json
end PageContent
