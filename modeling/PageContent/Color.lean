/-
# Colors

The color operators give gray, red-green-blue or cyan-magenta-yellow-black
components between `0` and `1`; a scene names a color by `#rrggbb`.

A channel is rounded to a byte with halves going down, so that `0.5 · 255` is
`0x7f`.  Gray and RGB components are cut to `0 … 1` first.  CMYK components are
combined as they come and only the product is cut to a byte.
-/

import PageContent.Json.Recorded

namespace PageContent

/-- A color of a text, with components in `0 … 1`. -/
structure Rgb where
  r : Float
  g : Float
  b : Float
deriving DecidableEq, Repr

/-- Black text. -/
def Rgb.black : Rgb := ⟨0, 0, 0⟩

instance : Recorded Rgb where
  toJson c := Json.ofFloats [c.r, c.g, c.b]
  ofJson? j := do
    let [r, g, b] ← Json.floats? j | none
    return ⟨r, g, b⟩

namespace Color

/-- A number rounded to `0 … 255`, halves down; one that is not finite gives `0`. -/
def toByte (x : Float) : Nat :=
  if x.isFinite then (Binary64.clampInt 0 255 (Binary64.ceilInt (x - 0.5))).toNat else 0

theorem toByte_lt (x : Float) : toByte x < 256 := by
  unfold toByte
  split
  · have := Binary64.clampInt_bounds (show (0 : Int) ≤ 255 by decide)
      (Binary64.ceilInt (x - 0.5))
    omega
  · decide

/-- A component cut to `0 … 1`. -/
def unit (c : Float) : Float :=
  let c := Binary64.settle c
  if c < 0 then 0 else if 1 < c then 1 else c

/-- The byte of a gray or RGB component. -/
def channel (c : Float) : Nat := toByte (unit c * 255)

/-- The byte that an ink leaves under black. -/
def inkChannel (ink black : Float) : Nat :=
  toByte (255 * (1 - Binary64.settle ink) * (1 - Binary64.settle black))

/-- Two lowercase hexadecimal digits. -/
def hexPair (n : Nat) : List Char := [Nat.digitChar (n / 16 % 16), Nat.digitChar (n % 16)]

/-- `#rrggbb`. -/
def hex (r g b : Nat) : String := String.ofList ('#' :: (hexPair r ++ hexPair g ++ hexPair b))

/-- Black. -/
def black : String := "#000000"

/-- The color of one gray, three RGB or four CMYK components; of any other number
of components, black. -/
def ofComponents : List Float → String
  | [gray] => hex (channel gray) (channel gray) (channel gray)
  | [r, g, b] => hex (channel r) (channel g) (channel b)
  | [c, m, y, k] => hex (inkChannel c k) (inkChannel m k) (inkChannel y k)
  | _ => black

example : ofComponents [0.5] = "#7f7f7f" ∧ ofComponents [1, 0, 0.25] = "#ff0040" ∧
    ofComponents [0, 1, 1, 0] = "#ff0000" ∧ ofComponents [] = "#000000" := by decide +kernel

end Color
end PageContent
