/-
# Records and their JSON forms

A type is `Recorded` when its values are written as JSON values and read back.

| value | form |
| --- | --- |
| number | any JSON number; written `null` when it is not finite |
| index | a number written without sign, point and exponent |
| optional value | `null` when there is none |
| list | an array |
| tuple of numbers | an array of just that length |
| table | an object; a name that comes again replaces the earlier value |
| record | an object, or an array of the fields in their order |

`fields?` is the common reader of records.  It finds the value given for each
declared field, by name in an object and by place in an array.  Names that are
not declared are passed over; a declared name may not come twice, and an array
may be short only of fields that have a default.

A tagged record tells its kind by a tag in front of its fields.  What stands
inside one is read by its `Site`, which admits two spellings more.
-/

import PageContent.Json.Basic
import PageContent.Number.Binary64

namespace PageContent

/-- A type whose values have a JSON form. -/
class Recorded (α : Type) where
  toJson : α → Json
  ofJson? : Json → Option α

export Recorded (toJson ofJson?)

namespace Json

/-- The nearest double of a JSON number. -/
def float? : Json → Option Float
  | .integer n => some (Float.ofInt n)
  | .number x => some x
  | _ => none

instance : Recorded Float where
  toJson x := if x.isFinite then .number x else .null
  ofJson? := float?

instance : Recorded Bool where
  toJson := .bool
  ofJson?
    | .bool b => some b
    | _ => none

instance : Recorded String where
  toJson := .string
  ofJson?
    | .string s => some s
    | _ => none

/-- A string of just one character. -/
instance : Recorded Char where
  toJson c := .string (String.ofList [c])
  ofJson?
    | .string s => match s.toList with
      | [c] => some c
      | _ => none
    | _ => none

instance : Recorded UInt32 where
  toJson n := .integer n.toNat
  ofJson?
    | .integer n => if 0 ≤ n ∧ n.toNat < UInt32.size then some (UInt32.ofNat n.toNat) else none
    | _ => none

instance : Recorded UInt64 where
  toJson n := .integer n.toNat
  ofJson?
    | .integer n => if 0 ≤ n ∧ n.toNat < UInt64.size then some (UInt64.ofNat n.toNat) else none
    | _ => none

/-- Any usable value; the last field of a name stands for all of that name. -/
instance : Recorded Json where
  toJson := id
  ofJson? j := if j.isUsable then some j.merged else none

instance {α : Type} [Recorded α] : Recorded (Option α) where
  toJson
    | some a => toJson a
    | none => .null
  ofJson?
    | .null => some none
    | j => (ofJson? j).map some

/-- The items of an array. -/
def items? : Json → Option (List Json)
  | .array xs => some xs
  | _ => none

/-- The items of an array, each of them read. -/
def list? {α : Type} (read : Json → Option α) (j : Json) : Option (List α) := do
  (← j.items?).mapM read

instance {α : Type} [Recorded α] : Recorded (List α) where
  toJson xs := .array (xs.map toJson)
  ofJson? := list? ofJson?

/-- The numbers of an array. -/
def floats? : Json → Option (List Float) := ofJson?

/-- The array of a few numbers. -/
def ofFloats (xs : List Float) : Json := toJson xs

/-- An object with names of its own choosing. -/
instance {α : Type} [Recorded α] : Recorded (Table α) where
  toJson t := .object (t.entries.map fun e => (e.1, toJson e.2))
  ofJson?
    | .object fs =>
      (fs.mapM fun f => (ofJson? f.2).map fun (a : α) => (f.1, a)).map Table.ofList
    | _ => none

/-- The value of the field that goes by one of the names, `some none` if there is
no such field and `none` if there are several. -/
def sole? (fields : List (String × Json)) (names : List String) : Option (Option Json) :=
  match fields.filter (names.contains ·.1) with
  | [] => some none
  | [(_, j)] => some (some j)
  | _ => none

/-- The value given for each declared field of a record.  Each field goes by any of
its names; an array holds at least the first `least` fields. -/
def fields? (declared : List (List String)) (least : Nat) : Json → Option (List (Option Json))
  | .object fs => declared.mapM (sole? fs)
  | .array xs =>
    if least ≤ xs.length ∧ xs.length ≤ declared.length then
      some (xs.map some ++ List.replicate (declared.length - xs.length) none)
    else none
  | _ => none

/-- A field without a default. -/
def need {α : Type} [Recorded α] (given : Option Json) : Option α := given.bind ofJson?

/-- A field that is read when it is given and stands for `default` when it is not. -/
def readOr {α : Type} (read : Json → Option α) (default : α) (given : Option Json) : Option α :=
  match given with
  | none => some default
  | some j => read j

/-- A field that stands for `default` when it is not given. -/
def orElse {α : Type} [Recorded α] : α → Option Json → Option α := readOr ofJson?

/-- A field that is written only when it has a value. -/
def optionalField {α : Type} [Recorded α] (name : String) (a : Option α) : List (String × Json) :=
  match a with
  | some a => [(name, toJson a)]
  | none => []

/-- Where a value is read. -/
inductive Site where
  /-- In no tagged record. -/
  | outside
  /-- As part of a tagged record. -/
  | inside
deriving DecidableEq, Repr

/-- The name of an alternative: a string, or an object with that one name and `null`.
Inside a tagged record an empty object may stand for the `null`. -/
def choice? (site : Site) : Json → Option String
  | .string s => some s
  | .object [(s, .null)] => some s
  | .object [(s, .object [])] => if site = .inside then some s else none
  | _ => none

/-- The name that a tag spells.  Inside a tagged record it may also be told by its
place among the tags. -/
def tagName? (site : Site) (tags : List String) : Json → Option String
  | .string tag => some tag
  | .integer n => if site = .inside ∧ 0 ≤ n then tags[n.toNat]? else none
  | _ => none

/-- The tag of a tagged record and the record without it.  The tag is the field
`type` of an object, wherever it stands, or the first item of an array; a tagged
record has no unusable part. -/
def tagged? (site : Site) (tags : List String) (j : Json) : Option (String × Json) :=
  if !j.isUsable then none
  else match j with
    | .object fs => do
      let tag ← (← sole? fs ["type"]).bind (tagName? site tags)
      return (tag, .object (fs.filter (·.1 != "type")))
    | .array (tag :: rest) => do return (← tagName? site tags tag, .array rest)
    | _ => none

/-- A record with its tag in front. -/
def withTag (tag : String) : Json → Json
  | .object fs => .object (("type", .string tag) :: fs)
  | j => j

end Json
end PageContent
