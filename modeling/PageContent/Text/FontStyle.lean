/-
# Weight and slant read off a font name

Embedded fonts tell their style in their name.  The name is lowered, and

* `medium` or `semibold` in it gives the weight `500`;
* else `bold`, `700`, `800`, `black` or `heavy` gives `bold`;
* else the weight is `normal`;
* `italic`, `oblique` or `-it` makes it slanted.
-/

import PageContent.Json.Recorded
import PageContent.Text.Occurs

namespace PageContent

/-- How heavy a font is. -/
inductive FontWeight where
  | normal
  | medium
  | bold
deriving DecidableEq, Repr

/-- The name by which style sheets know the weight. -/
def FontWeight.name : FontWeight → String
  | .normal => "normal"
  | .medium => "500"
  | .bold => "bold"

/-- The weight of a name. -/
def FontWeight.ofName? : String → Option FontWeight
  | "normal" => some .normal
  | "500" => some .medium
  | "bold" => some .bold
  | _ => none

/-- A weight is known by its name. -/
theorem FontWeight.ofName?_name (w : FontWeight) : ofName? w.name = some w := by
  cases w <;> rfl

/-- The weight that an alternative names. -/
def FontWeight.read? (site : Json.Site) (j : Json) : Option FontWeight :=
  (j.choice? site).bind ofName?

instance : Recorded FontWeight where
  toJson w := .string w.name
  ofJson? := FontWeight.read? .outside

namespace FontName

/-- The lower case of a character of a font name.  Beyond the ASCII letters only
the kelvin sign has one among them; the others stay apart from every letter
that a style is told by. -/
def lower (c : Char) : Char := if c = '\u212a' then 'k' else c.toLower

/-- A font name tells a style by one of some words. -/
def tells (name : String) (words : List String) : Bool :=
  words.any fun w => Text.occursIn w.toList (name.toList.map lower)

/-- The weight a font name tells. -/
def weight (name : String) : FontWeight :=
  if tells name ["medium", "semibold"] then .medium
  else if tells name ["bold", "700", "800", "black", "heavy"] then .bold
  else .normal

/-- The slant a font name tells. -/
def isItalic (name : String) : Bool := tells name ["italic", "oblique", "-it"]

example : weight "Inter-SemiBold" = .medium ∧ weight "Arial-Black" = .bold ∧
    weight "Helvetica" = .normal ∧ isItalic "SourceSans-It" = true := by decide

end FontName
end PageContent
