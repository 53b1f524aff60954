/-
# Every record survives being written and read

A finite record is read back from its JSON form, whatever it holds.  It is read
back from its text too, in either format and by any faithful reading of numerals,
unless its form nests deeper than a text may.  Only operands can nest that deep:

| record | read back from its text |
| --- | --- |
| page | if its operands nest at most 123 deep |
| operator | if its operands nest at most 125 deep |
| any other | always |

What was read from some text is finite and nests little enough, so it always reads
back from what is written of it.
-/

import PageContent.Proofs.Record.Page

namespace PageContent

open Json
open Numeral (Faithful GivesBack nearest? faithful_nearest)
open Durable (ofJson?_toJson isFinite_of_ofJson?)

/-- Every finite value of the type survives being written as a form, and being written as a text
just if it is `shallow`; every value that is read from a text survives both. -/
structure Survives (read : Numeral → Option Float) (α : Type) [Recorded α] [Finitary α]
    (shallow : α → Prop) : Prop where
  form : ∀ {a : α}, IsFinite a → ofJson? (toJson a) = some a
  text : ∀ (f : Format) {a : α}, IsFinite a →
    ((parseWith? read ((toJson a).write f)).bind ofJson? = some a ↔ shallow a)
  again : ∀ (f : Format) {s : String} {a : α}, (parseWith? read s).bind ofJson? = some a →
    IsFinite a ∧ (parseWith? read ((toJson a).write f)).bind ofJson? = some a

section
variable {read : Numeral → Option Float} {α : Type} [Recorded α] [Finitary α] [Durable α]

/-- **What is read is finite**, if the reading gives finite numbers only. -/
theorem isFinite_of_read (hread : ∀ {n x}, read n = some x → x.isFinite = true) {s : String}
    {a : α} (h : (parseWith? read s).bind ofJson? = some a) : IsFinite a := by
  obtain ⟨j, hparse, hj⟩ := Option.bind_eq_some_iff.1 h
  exact isFinite_of_ofJson? (fits_of_parseWith? hread hparse).1 hj

/-- **A finite value is read back from its text** if that is writable and the reading gives its
doubles back. -/
theorem read_write (f : Format) {a : α} (ha : IsFinite a)
    (hwritable : (toJson a).Writable maxDepth)
    (hback : ∀ y ∈ (toJson a).doubles, GivesBack read y) :
    (parseWith? read ((toJson a).write f)).bind ofJson? = some a := by
  rw [hwritable.parseWith?_write f hback, Option.bind_some, ofJson?_toJson ha]

/-- A durable type survives, as far as a text admits what is written of it. -/
theorem Survives.of {shallow : α → Prop} (hread : Faithful read)
    (hwrite : ∀ {a : α}, IsFinite a → shallow a → (toJson a).Writable maxDepth)
    (haccept : ∀ {j : Json} {a : α}, j.Fits → j.depth ≤ maxDepth → ofJson? j = some a →
      shallow a) : Survives read α shallow := by
  have hshallow : ∀ {s : String} {a : α}, (parseWith? read s).bind ofJson? = some a →
      shallow a := by
    intro s a h
    obtain ⟨j, hparse, hj⟩ := Option.bind_eq_some_iff.1 h
    obtain ⟨hfits, hdepth⟩ := fits_of_parseWith? hread.isFinite hparse
    exact haccept hfits hdepth hj
  have htext : ∀ (f : Format) {a : α}, IsFinite a → shallow a →
      (parseWith? read ((toJson a).write f)).bind ofJson? = some a := by
    intro f a ha hnests
    have hwritable := hwrite ha hnests
    exact read_write f ha hwritable fun y hy =>
      hread.givesBack (isFinite_of_mem_doubles _ hwritable.fits hy)
  refine ⟨ofJson?_toJson, fun f _ ha => ⟨hshallow, htext f ha⟩, fun f _ _ h => ?_⟩
  have ha := isFinite_of_read hread.isFinite h
  exact ⟨ha, htext f ha (hshallow h)⟩

/-- A type whose forms all nest little survives as a whole. -/
theorem Survives.of_shallow {n : Nat} [Shallow α n] (hread : Faithful read)
    (hn : n ≤ maxDepth := by decide) : Survives read α fun _ => True :=
  .of hread (fun ha _ => (Shallow.writable ha).mono hn) fun _ _ _ => trivial

end

section
variable {read : Numeral → Option Float}

theorem survives_operator (hread : Faithful read) :
    Survives read RawOperator (RawOperator.Nests 125) :=
  .of hread RawOperator.writable_toJson RawOperator.nests_of_ofJson?

theorem survives_page (hread : Faithful read) : Survives read Page (Page.Nests 123) :=
  .of hread Page.writable_toJson Page.nests_of_ofJson?

/-- **Every finite record survives being written and read**, but for operators and pages whose
operands nest deeper than a text may; and so does every record that was read. -/
theorem records_survive (hread : Faithful read) :
    Survives read Page (Page.Nests 123) ∧
    Survives read RawOperator (RawOperator.Nests 125) ∧
    Survives read GlyphRun (fun _ => True) ∧
    Survives read Segment (fun _ => True) ∧
    Survives read Shape (fun _ => True) ∧
    Survives read Image (fun _ => True) ∧
    Survives read Fragment (fun _ => True) ∧
    Survives read Line (fun _ => True) ∧
    Survives read Block (fun _ => True) ∧
    Survives read Node (fun _ => True) ∧
    Survives read SceneGraph (fun _ => True) ∧
    Survives read Paragraph (fun _ => True) ∧
    Survives read FontMetrics (fun _ => True) :=
  ⟨survives_page hread, survives_operator hread, .of_shallow hread, .of_shallow hread,
    .of_shallow hread, .of_shallow hread, .of_shallow hread, .of_shallow hread, .of_shallow hread,
    .of_shallow hread, .of_shallow hread, .of_shallow hread, .of_shallow hread⟩

end

/-- A font without metrics, and a scene that holds an image without a name. -/
theorem records_survive_sparse :
    Faithful nearest? ∧
    (parseWith? nearest? ((toJson (FontMetrics.mk "Lato" none)).write .pretty)).bind ofJson? =
      some (FontMetrics.mk "Lato" none) ∧
    (parseWith? nearest? ((toJson (SceneGraph.mk [.image ⟨"image_0", none, .zero, 0⟩])).write
      .compact)).bind ofJson? = some (SceneGraph.mk [.image ⟨"image_0", none, .zero, 0⟩]) := by
  obtain ⟨-, -, -, -, -, -, -, -, -, -, hscene, -, hfont⟩ := records_survive faithful_nearest
  refine ⟨faithful_nearest, (hfont.text .pretty isFinite_none).2 trivial,
    (hscene.text .compact ?_).2 trivial⟩
  have hbox : IsFinite Box.zero := show ∀ x ∈ ([0, 0, 0, 0] : List Float), x.isFinite = true by
    decide
  exact isFinite_cons.2 ⟨⟨hbox, isFinite_zero⟩, isFinite_nil⟩

/-- An empty array in `n` arrays. -/
def nestedArrays : Nat → Json
  | 0 => .array []
  | n + 1 => .array [nestedArrays n]

theorem depth_nestedArrays (n : Nat) : (nestedArrays n).depth = n + 1 := by
  induction n with
  | zero => rfl
  | succ n ih =>
    show max (nestedArrays n).depth 0 + 1 = n + 2
    rw [ih, Nat.max_zero]

theorem isFinite_nestedArrays (n : Nat) : IsFinite (nestedArrays n) := by
  induction n with
  | zero => exact ⟨rfl, trivial, rfl⟩
  | succ n ih =>
    obtain ⟨husable, hfits, hmerged⟩ := ih
    refine ⟨?_, ⟨hfits, trivial⟩, ?_⟩
    · show ((nestedArrays n).isUsable && true) = true
      rw [husable]
      rfl
    · show Json.array [(nestedArrays n).merged] = .array [nestedArrays n]
      rw [hmerged]

/-- The operator whose one operand nests 126 deep. -/
def deepOperator : RawOperator := ⟨1, [nestedArrays 125], 0⟩

/-- **An operator that holds no double at all is not read back from its text.** -/
theorem deepOperator_lost :
    IsFinite deepOperator ∧
    (parseWith? nearest? ((toJson deepOperator).write .compact)).bind ofJson? ≠
      some deepOperator ∧
    (parseWith? nearest? ((toJson deepOperator).write .pretty)).bind ofJson? ≠
      some deepOperator := by
  have hfinite : IsFinite deepOperator :=
    isFinite_cons.2 ⟨isFinite_nestedArrays 125, isFinite_nil⟩
  have hdeep : ¬deepOperator.Nests 125 := by
    intro h
    have := h (nestedArrays 125) (List.mem_singleton_self _)
    rw [depth_nestedArrays] at this
    omega
  have htext := fun f => (survives_operator faithful_nearest).text f hfinite
  exact ⟨hfinite, mt (htext .compact).1 hdeep, mt (htext .pretty).1 hdeep⟩

end PageContent
