/-
# Finite records

A record is finite if every double in it is: only those have a text of their own,
and any other is written as `null`.  An operand is any JSON value, so for it the
condition says that it is one a program can hold at all.

| value | finite if |
| --- | --- |
| double | it is neither infinite nor a NaN |
| text, character, flag, index, name | always |
| operand | it is usable, its numbers fit, and no object of it holds a name twice |
| optional value, list, table | all that it holds are |
| record | all its fields are |
-/

import PageContent.Paragraph.Basic
import PageContent.Proofs.Json.Writable
import PageContent.Scene.Build

namespace PageContent

/-- A type of which some values may hold a number without a text. -/
class Finitary (α : Type) where
  /-- Every double in the value is finite. -/
  IsFinite : α → Prop

export Finitary (IsFinite)

/-! ## Values of fields -/

instance : Finitary Float := ⟨fun x => x.isFinite = true⟩

instance : Finitary Bool := ⟨fun _ => True⟩

instance : Finitary String := ⟨fun _ => True⟩

instance : Finitary Char := ⟨fun _ => True⟩

instance : Finitary UInt32 := ⟨fun _ => True⟩

instance : Finitary UInt64 := ⟨fun _ => True⟩

instance : Finitary FontWeight := ⟨fun _ => True⟩

instance : Finitary ParagraphKind := ⟨fun _ => True⟩

@[simp] theorem isFinite_bool (b : Bool) : IsFinite b := trivial

@[simp] theorem isFinite_string (s : String) : IsFinite s := trivial

@[simp] theorem isFinite_char (c : Char) : IsFinite c := trivial

@[simp] theorem isFinite_code (n : UInt32) : IsFinite n := trivial

@[simp] theorem isFinite_index (n : UInt64) : IsFinite n := trivial

@[simp] theorem isFinite_weight (w : FontWeight) : IsFinite w := trivial

@[simp] theorem isFinite_kind (k : ParagraphKind) : IsFinite k := trivial

instance : Finitary Json := ⟨fun j => j.isUsable = true ∧ j.Fits ∧ j.merged = j⟩

section
variable {α : Type} [Finitary α]

instance : Finitary (Option α) := ⟨fun o => ∀ a ∈ o, IsFinite a⟩

instance : Finitary (List α) := ⟨fun xs => ∀ a ∈ xs, IsFinite a⟩

instance : Finitary (Table α) := ⟨fun t => ∀ e ∈ t.entries, IsFinite e.2⟩

@[simp] theorem isFinite_none : IsFinite (none : Option α) := nofun

@[simp] theorem isFinite_some {a : α} : IsFinite (some a) ↔ IsFinite a :=
  ⟨fun h => h a rfl, fun h _ hb => Option.some.inj hb ▸ h⟩

@[simp] theorem isFinite_nil : IsFinite ([] : List α) := nofun

@[simp] theorem isFinite_cons {a : α} {xs : List α} :
    IsFinite (a :: xs) ↔ IsFinite a ∧ IsFinite xs := List.forall_mem_cons

@[simp] theorem isFinite_empty : IsFinite (Table.empty : Table α) :=
  fun _ he => absurd he List.not_mem_nil

@[simp] theorem isFinite_text (o : Option String) : IsFinite o := fun _ _ => trivial

end

/-! ## Places and colors -/

instance : Finitary (Point Float) := ⟨fun p => IsFinite [p.x, p.y]⟩

instance : Finitary (Matrix Float) := ⟨fun m => IsFinite m.toList⟩

instance : Finitary Linear := ⟨fun m => IsFinite [m.a, m.b, m.c, m.d]⟩

instance : Finitary Box := ⟨fun b => IsFinite [b.x0, b.y0, b.x1, b.y1]⟩

instance : Finitary Rgb := ⟨fun c => IsFinite [c.r, c.g, c.b]⟩

/-! The values that stand for fields that are not given. -/

theorem isFinite_zero : IsFinite (0 : Float) := show (0 : Float).isFinite = true by decide

theorem isFinite_identity : IsFinite Linear.identity :=
  show ∀ x ∈ ([1, 0, 0, 1] : List Float), x.isFinite = true by decide

theorem isFinite_black : IsFinite Rgb.black :=
  show ∀ x ∈ ([0, 0, 0] : List Float), x.isFinite = true by decide

/-! ## Text -/

instance : Finitary Glyph := ⟨fun g => IsFinite g.x ∧ IsFinite g.width⟩

instance : Finitary Fragment := ⟨fun f => IsFinite f.bbox ∧ IsFinite f.origin ∧
  IsFinite f.matrix ∧ IsFinite f.size ∧ IsFinite f.color ∧ IsFinite f.glyphs⟩

instance : Finitary Block := ⟨fun b => IsFinite b.bbox ∧ IsFinite b.children⟩

instance : Finitary Line := ⟨fun l => IsFinite l.bbox ∧ IsFinite l.origin ∧ IsFinite l.size ∧
  IsFinite l.color ∧ IsFinite l.matrix ∧ IsFinite l.items⟩

instance : Finitary GlyphRun := ⟨fun r => IsFinite r.transform ∧ IsFinite r.width⟩

instance : Finitary StyleHint := ⟨fun h => IsFinite h.fontFamily⟩

instance : Finitary GlyphMetrics := ⟨fun m => IsFinite m.widths ∧ IsFinite m.ascender ∧
  IsFinite m.descender⟩

instance : Finitary FontMetrics := ⟨fun f => IsFinite f.metrics⟩

instance : Finitary ParagraphStyle := ⟨fun s => IsFinite s.size⟩

instance : Finitary ParagraphLine := ⟨fun l => IsFinite l.y ∧ IsFinite l.items⟩

instance : Finitary Paragraph := ⟨fun p => IsFinite p.bbox ∧ IsFinite p.indentX ∧
  IsFinite p.textX ∧ IsFinite p.style ∧ IsFinite p.lines⟩

/-! ## Drawings and scenes -/

instance : Finitary Segment := ⟨fun
  | .move p | .line p => IsFinite p
  | .curve c₁ c₂ p => IsFinite c₁ ∧ IsFinite c₂ ∧ IsFinite p
  | .close => True⟩

instance : Finitary Shape := ⟨fun s => IsFinite s.path ∧ IsFinite s.thickness ∧
  IsFinite s.opacity⟩

instance : Finitary Image := ⟨fun i => IsFinite i.bbox ∧ IsFinite i.opacity⟩

instance : Finitary Node := ⟨fun
  | .shape s => IsFinite s
  | .image i => IsFinite i
  | .text f => IsFinite f
  | .line l => IsFinite l⟩

instance : Finitary SceneGraph := ⟨fun g => IsFinite g.nodes⟩

instance : Finitary RawOperator := ⟨fun o => IsFinite o.operands⟩

instance : Finitary Page := ⟨fun p => IsFinite p.operators ∧ IsFinite p.runs ∧
  IsFinite p.styles⟩

end PageContent
