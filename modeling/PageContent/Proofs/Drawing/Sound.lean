/-
# No operator spoils a drawing

Operands are JSON values of any kind, products overflow, and the options may hold
infinities and NaNs.  All the same, in every state that a run reaches

| part | is sound, because |
| --- | --- |
| the pen and every saved pen | operators keep `Pen.IsSound` (`penInvariant_isSound`) |
| the path | places on the page are finite (`pathInvariant_isFinite`) |
| shapes and images | they are drawn with sound pens along such paths |

A pen is sound if its numbers are finite and its colors are written `#rrggbb`.  Colors
come from bytes, or are black, and a byte is two hexadecimal digits (`isHex_hex`).
-/

import PageContent.Proofs.Drawing.Numbers

namespace PageContent

/-! ## Colors -/

namespace Color

/-- A `#` and six lowercase hexadecimal digits. -/
def IsHex (s : String) : Prop :=
  ∃ digits, s.toList = '#' :: digits ∧ digits.length = 6 ∧
    ∀ d ∈ digits, d ∈ "0123456789abcdef".toList

theorem digitChar_mem_hexDigits : ∀ n < 16, Nat.digitChar n ∈ "0123456789abcdef".toList := by
  decide +kernel

theorem mem_hexDigits_of_mem_hexPair {n : Nat} {d : Char} (h : d ∈ hexPair n) :
    d ∈ "0123456789abcdef".toList := by
  rw [hexPair, List.mem_cons, List.mem_singleton] at h
  rcases h with rfl | rfl <;> exact digitChar_mem_hexDigits _ (Nat.mod_lt _ (by decide))

/-- Three bytes are written in hexadecimal. -/
theorem isHex_hex (r g b : Nat) : IsHex (hex r g b) := by
  refine ⟨hexPair r ++ hexPair g ++ hexPair b, String.toList_ofList, rfl, ?_⟩
  intro d hd
  rw [List.mem_append, List.mem_append] at hd
  rcases hd with (hd | hd) | hd <;> exact mem_hexDigits_of_mem_hexPair hd

theorem isHex_black : IsHex black := by
  refine ⟨List.replicate 6 '0', rfl, rfl, fun d hd => ?_⟩
  rw [List.eq_of_mem_replicate hd]
  exact digitChar_mem_hexDigits 0 (by decide)

/-- **Colors are written in hexadecimal**, whatever the components are. -/
theorem isHex_ofComponents (components : List Float) : IsHex (ofComponents components) := by
  unfold ofComponents
  split
  · exact isHex_hex _ _ _
  · exact isHex_hex _ _ _
  · exact isHex_hex _ _ _
  · exact isHex_black

end Color

/-! ## Pens -/

/-- The numbers of the pen are finite and its colors are written in hexadecimal. -/
structure Pen.IsSound (p : Pen) : Prop where
  isFinite : IsFinite p
  strokeColor : Color.IsHex p.strokeColor
  fillColor : Color.IsHex p.fillColor

theorem Pen.isSound_initial : ({} : Pen).IsSound :=
  ⟨Pen.isFinite_initial, Color.isHex_black, Color.isHex_black⟩

/-- **Operators keep a pen sound.** -/
theorem penInvariant_isSound : PenInvariant Pen.IsSound := by
  constructor
  intro pen raw op hop ⟨hfinite, hstroke, hfill⟩
  refine ⟨penInvariant_isFinite.after hop hfinite, ?_, ?_⟩
  · cases op with
    | color target components =>
      cases target with
      | stroke => exact Color.isHex_ofComponents components
      | fill => exact hstroke
    | _ => exact hstroke
  · cases op with
    | color target components =>
      cases target with
      | stroke => exact hfill
      | fill => exact Color.isHex_ofComponents components
    | _ => exact hfill

namespace PenInvariant

open Canvas

variable {P : Pen → Prop} {o : DrawingOptions}

/-- **What operators keep holds of all pens after every run.** -/
theorem pens_drawAll (h : PenInvariant P) {c : Canvas} (hc : c.pens.All P)
    (raws : List RawOperator) : (drawAll o c raws).pens.All P := by
  rw [Canvas.pens_drawAll]
  generalize c.pens = p at hc
  induction raws generalizing p with
  | nil => exact hc
  | cons raw raws ih => exact ih _ (h.afterRaw hc raw)

end PenInvariant

/-! ## Runs -/

namespace Canvas

variable (o : DrawingOptions) (raws : List RawOperator)

theorem all_isSound_pens : (pens {}).All Pen.IsSound :=
  ⟨Pen.isSound_initial, fun _ h => absurd h List.not_mem_nil⟩

/-- The colors of every shape are those of a sound pen. -/
theorem isHex_of_mem_shapes {s : Shape} (hs : s ∈ (ofOperators o raws).shapes) :
    Color.IsHex s.strokeColor ∧ Color.IsHex s.fillColor := by
  rw [shapes_ofOperators] at hs
  obtain ⟨q, hq, hs⟩ := List.mem_flatMap.1 hs
  obtain ⟨⟨piece, n⟩, -, rfl⟩ := List.mem_map.1 hs
  have hpen : q.pen.IsSound := penInvariant_isSound.paintings all_isSound_pens hq
  exact ⟨hpen.strokeColor, hpen.fillColor⟩

/-- **Every state that a run reaches is sound.**  The pen and the saved pens have finite numbers
and hexadecimal colors, all points of the path are finite, and so are all numbers of the shapes
and images drawn so far, the shapes with hexadecimal colors. -/
theorem isSound_ofOperators :
    (ofOperators o raws).state.pen.IsSound ∧
    (∀ pen ∈ (ofOperators o raws).state.saved, pen.IsSound) ∧
    IsFinite (ofOperators o raws).state.path ∧
    (∀ s ∈ (ofOperators o raws).shapes,
      IsFinite s ∧ Color.IsHex s.strokeColor ∧ Color.IsHex s.fillColor) ∧
    ∀ i ∈ (ofOperators o raws).images, IsFinite i := by
  obtain ⟨hpen, hsaved⟩ : (ofOperators o raws).pens.All Pen.IsSound :=
    penInvariant_isSound.pens_drawAll all_isSound_pens raws
  have hpath : Path.IsFinite (ofOperators o raws).state.path :=
    (pathInvariant_isFinite o).drawAll (pathInvariant_isFinite o).nil raws
  refine ⟨hpen, hsaved, fun a ha => Segment.isFinite_iff.2 (hpath a ha), fun s hs => ?_, ?_⟩
  · exact ⟨isFinite_shapes o raws s hs, isHex_of_mem_shapes o raws hs⟩
  · exact isFinite_images o raws

/-- A width and a place that spell no finite number, and a matrix of large ones, leave the path
finite on a page without a height and of infinite scale. -/
example : (ofOperators { viewport := ⟨0 / 0, 1 / 0, 1 / 0⟩ }
    [⟨2, [.string "1e400"], 0⟩, ⟨12, [.number 1e308, .null, .null, .number 1e308], 1⟩,
      ⟨13, [.number 1e308, .string "inf"], 2⟩]).state.path = [.move ⟨0, 0⟩] := by decide +kernel

end Canvas
end PageContent
