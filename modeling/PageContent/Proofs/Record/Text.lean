/-
# Text records read back

Places and colors are written as arrays of just so many numbers; the records of
texts, from a glyph up to a paragraph, as objects.  A fragment leaves out the
fields of which it has no value, and they are found to have none.
-/

import PageContent.Proofs.Record.Reading

namespace PageContent

open Json
open Durable (ofJson?_toJson isFinite_of_ofJson?)

/-! ## Tuples of numbers -/

section
variable {α : Type} [Recorded α] [Finitary α]

/-- **A tuple of numbers is read back**: its entries make it again, and no other numbers do. -/
theorem Durable.ofTuple (entries : α → List Float) {build : List Float → Option α}
    (hwrite : ∀ a : α, toJson a = ofFloats (entries a))
    (hread : ∀ j : Json, (ofJson? j : Option α) = (floats? j).bind build)
    (hback : ∀ a, build (entries a) = some a)
    (hbuild : ∀ a xs, build xs = some a → xs = entries a)
    (hfinite : ∀ a : α, IsFinite a ↔ IsFinite (entries a)) : Durable α where
  ofJson?_toJson {a} ha := by
    have hfloats : floats? (ofFloats (entries a)) = some (entries a) :=
      ofJson?_toJson ((hfinite a).1 ha)
    rw [hwrite, hread, hfloats, Option.bind_some, hback]
  isFinite_of_ofJson? {j a} hj h := by
    rw [hread] at h
    obtain ⟨xs, hxs, h⟩ := Option.bind_eq_some_iff.1 h
    obtain rfl := hbuild a xs h
    exact (hfinite a).2 (isFinite_of_ofJson? hj hxs)

theorem Shallow.ofTuple (entries : α → List Float)
    (hwrite : ∀ a : α, toJson a = ofFloats (entries a))
    (hfinite : ∀ a : α, IsFinite a ↔ IsFinite (entries a)) : Shallow α 1 where
  writable {a} ha := by
    rw [hwrite]
    exact Shallow.writable ((hfinite a).1 ha)

end

instance : Durable (Point Float) :=
  .ofTuple (fun p => [p.x, p.y]) (fun _ => rfl) (fun _ => rfl) (fun _ => rfl)
    (fun _ _ h => by split at h <;> cases h; rfl) fun _ => Iff.rfl

instance : Present (Point Float) := ⟨rfl⟩

instance : Shallow (Point Float) 1 := .ofTuple _ (fun _ => rfl) fun _ => Iff.rfl

instance : Durable (Matrix Float) :=
  .ofTuple Matrix.toList (fun _ => rfl) (fun _ => rfl) (fun _ => rfl)
    (fun _ _ h => by unfold Matrix.ofList? at h; split at h <;> cases h; rfl) fun _ => Iff.rfl

instance : Shallow (Matrix Float) 1 := .ofTuple _ (fun _ => rfl) fun _ => Iff.rfl

instance : Durable Linear :=
  .ofTuple (fun m => [m.a, m.b, m.c, m.d]) (fun _ => rfl) (fun _ => rfl) (fun _ => rfl)
    (fun _ _ h => by split at h <;> cases h; rfl) fun _ => Iff.rfl

instance : Shallow Linear 1 := .ofTuple _ (fun _ => rfl) fun _ => Iff.rfl

instance : Durable Box :=
  .ofTuple (fun b => [b.x0, b.y0, b.x1, b.y1]) (fun _ => rfl) (fun _ => rfl) (fun _ => rfl)
    (fun _ _ h => by split at h <;> cases h; rfl) fun _ => Iff.rfl

instance : Shallow Box 1 := .ofTuple _ (fun _ => rfl) fun _ => Iff.rfl

instance : Durable Rgb :=
  .ofTuple (fun c => [c.r, c.g, c.b]) (fun _ => rfl) (fun _ => rfl) (fun _ => rfl)
    (fun _ _ h => by split at h <;> cases h; rfl) fun _ => Iff.rfl

instance : Shallow Rgb 1 := .ofTuple _ (fun _ => rfl) fun _ => Iff.rfl

/-! ## Glyphs and fragments -/

instance : Present Float := ⟨rfl⟩

instance : Present String := ⟨rfl⟩

instance : Durable Glyph where
  ofJson?_toJson {g} hg := by
    obtain ⟨hx, hwidth⟩ := hg
    show (some [some (toJson g.char), some (toJson g.x), some (toJson g.width)]).bind _ = _
    simp only [Option.bind_some, need_toJson, isFinite_char, hx, hwidth]
    rfl
  isFinite_of_ofJson? hj := isFinite_of_fields? hj fun given hgiven h => by
    split at h
    · simp only [↓bind_eq_some] at h
      obtain ⟨char, -, x, hx, width, hwidth, h⟩ := h
      obtain rfl := Option.some.inj h
      exact ⟨hgiven.need (by simp) hx, hgiven.need (by simp) hwidth⟩
    · contradiction

instance : Shallow Glyph 1 where
  writable h := .field trivial <| .field h.1 <| .field h.2 .fieldless

namespace Fragment

variable {site : Site} {f : Fragment}

/-- The fields of a fragment as they are found in what is written of it. -/
theorem fields?_toJson (f : Fragment) :
    fields? [["id"], ["content"], ["bbox"], ["origin"], ["matrix"], ["font"], ["size"], ["color"],
        ["is_bold"], ["is_italic"], ["weight"], ["fallback_family"], ["line_id"], ["glyphs"]] 3
      (toJson f) =
    some [some (toJson f.id), some (toJson f.content), some (toJson f.bbox),
      some (toJson f.origin), some (toJson f.matrix), some (toJson f.font), some (toJson f.size),
      some (toJson f.color), some (toJson f.isBold), some (toJson f.isItalic),
      some (toJson f.weight), f.fallbackFamily.map toJson, f.lineId.map toJson,
      if f.glyphs.isEmpty then none else some (toJson f.glyphs)] := by
  obtain ⟨id, content, bbox, origin, matrix, font, size, color, isBold, isItalic, weight,
    fallbackFamily, lineId, glyphs⟩ := f
  cases fallbackFamily <;> cases lineId <;> cases glyphs <;> rfl

theorem orElse_glyphs {glyphs : List Glyph} (h : IsFinite glyphs) :
    orElse [] (if glyphs.isEmpty then none else some (toJson glyphs)) = some glyphs := by
  cases glyphs with
  | nil => rfl
  | cons g gs => exact ofJson?_toJson h

theorem read?_toJson (h : IsFinite f) : Fragment.read? site (toJson f) = some f := by
  obtain ⟨hbbox, horigin, hmatrix, hsize, hcolor, hglyphs⟩ := h
  have hweight : Json.readOr (FontWeight.read? site) .normal (some (toJson f.weight)) =
      some f.weight := FontWeight.ofName?_name f.weight
  unfold Fragment.read?
  simp only [fields?_toJson, ↓some_bind, need_toJson, orElse_toJson, orElse_map_toJson,
    orElse_glyphs, hweight, isFinite_string, isFinite_bool, isFinite_text, hbbox, horigin, hmatrix,
    hsize, hcolor, hglyphs]
  rfl

theorem isFinite_of_read? {j : Json} (hj : j.Fits) (h : Fragment.read? site j = some f) :
    IsFinite f := by
  refine isFinite_of_fields? hj (fun given hgiven h => ?_) h
  split at h
  · simp only [↓bind_eq_some] at h
    obtain ⟨id, -, content, -, bbox, hbbox, origin, horigin, matrix, hmatrix, font, -, size, hsize,
      color, hcolor, isBold, -, isItalic, -, weight, -, fallbackFamily, -, lineId, -, glyphs,
      hglyphs, h⟩ := h
    obtain rfl := Option.some.inj h
    refine ⟨hgiven.need (by simp) hbbox, hgiven.orElse (by simp) isFinite_none horigin,
      hgiven.orElse (by simp) isFinite_identity hmatrix,
      hgiven.orElse (by simp) isFinite_zero hsize, hgiven.orElse (by simp) isFinite_black hcolor,
      hgiven.orElse (by simp) isFinite_nil hglyphs⟩
  · contradiction

end Fragment

instance : Durable Fragment where
  ofJson?_toJson := Fragment.read?_toJson
  isFinite_of_ofJson? := Fragment.isFinite_of_read?

instance : Shallow Fragment 3 where
  writable {f} h := by
    obtain ⟨hbbox, horigin, hmatrix, hsize, hcolor, hglyphs⟩ := h
    have hgiven : (object (if f.glyphs.isEmpty then [] else
        [("glyphs", toJson f.glyphs)])).Writable 3 := by
      split
      · exact .fieldless
      · exact .field hglyphs .fieldless
    have hoptional : (object (optionalField "fallback_family" f.fallbackFamily ++
        optionalField "line_id" f.lineId ++ if f.glyphs.isEmpty then [] else
          [("glyphs", toJson f.glyphs)])).Writable 3 := by
      rw [List.append_assoc]
      exact .optionalField (isFinite_text _) (.optionalField (isFinite_text _) hgiven)
    exact .field trivial <| .field trivial <| .field hbbox <| .field horigin <| .field hmatrix <|
      .field trivial <| .field hsize <| .field hcolor <| .field trivial <| .field trivial <|
      .field trivial hoptional

/-! ## Blocks and lines -/

instance : Durable Block where
  ofJson?_toJson {b} hb := by
    obtain ⟨hbbox, hchildren⟩ := hb
    show (some [some (toJson b.id), some (toJson b.bbox), some (toJson b.children)]).bind _ = _
    simp only [Option.bind_some, need_toJson, isFinite_string, hbbox, hchildren]
    rfl
  isFinite_of_ofJson? hj := isFinite_of_fields? hj fun given hgiven h => by
    split at h
    · simp only [↓bind_eq_some] at h
      obtain ⟨id, -, bbox, hbbox, children, hchildren, h⟩ := h
      obtain rfl := Option.some.inj h
      exact ⟨hgiven.need (by simp) hbbox, hgiven.need (by simp) hchildren⟩
    · contradiction

instance : Shallow Block 5 where
  writable h := .field trivial <| .field h.1 <| .field h.2 .fieldless

namespace Line

variable {site : Site} {l : Line}

theorem read?_toJson (h : IsFinite l) : Line.read? site (toJson l) = some l := by
  obtain ⟨hbbox, horigin, hsize, hcolor, hmatrix, hitems⟩ := h
  have hread : list? (Fragment.read? site) (toJson l.items) = some l.items :=
    list?_toJson fun f hf => Fragment.read?_toJson (hitems f hf)
  unfold Line.read?
  show (some [some (toJson l.id), some (toJson l.content), some (toJson l.bbox),
    some (toJson l.origin), some (toJson l.font), some (toJson l.size), some (toJson l.color),
    some (toJson l.matrix), some (toJson l.isBold), some (toJson l.isItalic),
    some (toJson l.items)]).bind _ = _
  simp only [Option.bind_some, need_toJson, orElse_toJson, isFinite_string, isFinite_bool, hbbox,
    horigin, hsize, hcolor, hmatrix, hread]
  rfl

theorem isFinite_of_read? {j : Json} (hj : j.Fits) (h : Line.read? site j = some l) :
    IsFinite l := by
  refine isFinite_of_fields? hj (fun given hgiven h => ?_) h
  split at h
  · simp only [↓bind_eq_some] at h
    obtain ⟨id, -, content, -, bbox, hbbox, origin, horigin, font, -, size, hsize, color, hcolor,
      matrix, hmatrix, isBold, -, isItalic, -, items, hitems, h⟩ := h
    obtain rfl := Option.some.inj h
    obtain ⟨list, rfl, hlist⟩ := Option.bind_eq_some_iff.1 hitems
    exact ⟨hgiven.need (by simp) hbbox, hgiven.orElse (by simp) isFinite_none horigin,
      hgiven.need (by simp) hsize, hgiven.need (by simp) hcolor, hgiven.need (by simp) hmatrix,
      isFinite_of_list? (hgiven (some list) (by simp) list rfl) Fragment.isFinite_of_read? hlist⟩
  · contradiction

end Line

instance : Durable Line where
  ofJson?_toJson := Line.read?_toJson
  isFinite_of_ofJson? := Line.isFinite_of_read?

instance : Shallow Line 5 where
  writable h := by
    obtain ⟨hbbox, horigin, hsize, hcolor, hmatrix, hitems⟩ := h
    exact .field trivial <| .field trivial <| .field hbbox <| .field horigin <| .field trivial <|
      .field hsize <| .field hcolor <| .field hmatrix <| .field trivial <| .field trivial <|
      .field hitems .fieldless

/-! ## Glyph runs and fonts -/

instance : Durable GlyphRun where
  ofJson?_toJson {r} hr := by
    obtain ⟨htransform, hwidth⟩ := hr
    show (some [some (toJson r.transform), some (toJson r.text), some (toJson r.width),
      some (toJson r.font)]).bind _ = _
    simp only [Option.bind_some, need_toJson, orElse_toJson, isFinite_string, htransform, hwidth]
    rfl
  isFinite_of_ofJson? hj := isFinite_of_fields? hj fun given hgiven h => by
    split at h
    · simp only [↓bind_eq_some] at h
      obtain ⟨transform, htransform, text, -, width, hwidth, font, -, h⟩ := h
      obtain rfl := Option.some.inj h
      exact ⟨hgiven.need (by simp) htransform, hgiven.orElse (by simp) isFinite_zero hwidth⟩
    · contradiction

instance : Shallow GlyphRun 2 where
  writable h := .field h.1 <| .field trivial <| .field h.2 <| .field trivial .fieldless

instance : Durable StyleHint where
  ofJson?_toJson {h} _ := by
    show (some [some (toJson h.fontFamily)]).bind _ = _
    simp only [Option.bind_some, orElse_toJson, isFinite_text]
    rfl
  isFinite_of_ofJson? _ _ := isFinite_text _

instance : Shallow StyleHint 1 where
  writable h := .field h .fieldless

instance : Durable GlyphMetrics where
  ofJson?_toJson {m} hm := by
    obtain ⟨hwidths, hascender, hdescender⟩ := hm
    show (some [some (toJson m.widths), some (toJson m.ascender),
      some (toJson m.descender)]).bind _ = _
    simp only [Option.bind_some, orElse_toJson, hwidths, hascender, hdescender]
    rfl
  isFinite_of_ofJson? hj := isFinite_of_fields? hj fun given hgiven h => by
    split at h
    · simp only [↓bind_eq_some] at h
      obtain ⟨widths, hwidths, ascender, hascender, descender, hdescender, h⟩ := h
      obtain rfl := Option.some.inj h
      exact ⟨hgiven.orElse (by simp) isFinite_empty hwidths,
        hgiven.orElse (by simp) isFinite_zero hascender,
        hgiven.orElse (by simp) isFinite_zero hdescender⟩
    · contradiction

instance : Present GlyphMetrics := ⟨rfl⟩

instance : Shallow GlyphMetrics 2 where
  writable h := .field h.1 <| .field h.2.1 <| .field h.2.2 .fieldless

instance : Durable FontMetrics where
  ofJson?_toJson {f} hf := by
    have hmetrics : IsFinite f.metrics := hf
    show (some [some (toJson f.name), some (toJson f.metrics)]).bind _ = _
    simp only [Option.bind_some, need_toJson, orElse_toJson, isFinite_string, hmetrics]
    rfl
  isFinite_of_ofJson? hj := isFinite_of_fields? hj fun given hgiven h => by
    split at h
    · simp only [↓bind_eq_some] at h
      obtain ⟨name, -, metrics, hmetrics, h⟩ := h
      obtain rfl := Option.some.inj h
      exact show IsFinite metrics from hgiven.orElse (by simp) isFinite_none hmetrics
    · contradiction

instance : Shallow FontMetrics 3 where
  writable h := .field trivial <| .field (show IsFinite _ from h) .fieldless

/-! ## Paragraphs -/

instance : Durable ParagraphStyle where
  ofJson?_toJson {s} hs := by
    have hsize : IsFinite s.size := hs
    show (some [some (toJson s.font), some (toJson s.size)]).bind _ = _
    simp only [Option.bind_some, need_toJson, isFinite_string, hsize]
    rfl
  isFinite_of_ofJson? hj := isFinite_of_fields? hj fun given hgiven h => by
    split at h
    · simp only [↓bind_eq_some] at h
      obtain ⟨font, -, size, hsize, h⟩ := h
      obtain rfl := Option.some.inj h
      exact show IsFinite size from hgiven.need (by simp) hsize
    · contradiction

instance : Shallow ParagraphStyle 1 where
  writable h := .field trivial <| .field (show IsFinite _ from h) .fieldless

instance : Durable ParagraphLine where
  ofJson?_toJson {l} hl := by
    obtain ⟨hy, hitems⟩ := hl
    show (some [some (toJson l.y), some (toJson l.content), some (toJson l.items)]).bind _ = _
    simp only [Option.bind_some, need_toJson, orElse_toJson, isFinite_string, hy, hitems]
    rfl
  isFinite_of_ofJson? hj := isFinite_of_fields? hj fun given hgiven h => by
    split at h
    · simp only [↓bind_eq_some] at h
      obtain ⟨y, hy, content, -, items, hitems, h⟩ := h
      obtain rfl := Option.some.inj h
      exact ⟨hgiven.need (by simp) hy, hgiven.orElse (by simp) isFinite_nil hitems⟩
    · contradiction

instance : Shallow ParagraphLine 5 where
  writable h := .field h.1 <| .field trivial <| .field h.2 .fieldless

instance : Durable Paragraph where
  ofJson?_toJson {p} hp := by
    obtain ⟨hbbox, hindentX, htextX, hstyle, hlines⟩ := hp
    show (some [some (toJson p.id), some (toJson p.bbox), some (toJson p.indentX),
      some (toJson p.textX), some (toJson p.kind), some (toJson p.style),
      some (toJson p.lines)]).bind _ = _
    simp only [Option.bind_some, need_toJson, orElse_toJson, isFinite_string, isFinite_kind, hbbox,
      hindentX, htextX, hstyle, hlines]
    rfl
  isFinite_of_ofJson? hj := isFinite_of_fields? hj fun given hgiven h => by
    split at h
    · simp only [↓bind_eq_some] at h
      obtain ⟨id, -, bbox, hbbox, indentX, hindentX, textX, htextX, kind, -, style, hstyle, lines,
        hlines, h⟩ := h
      obtain rfl := Option.some.inj h
      exact ⟨hgiven.need (by simp) hbbox, hgiven.need (by simp) hindentX,
        hgiven.orElse (by simp) isFinite_none htextX, hgiven.need (by simp) hstyle,
        hgiven.orElse (by simp) isFinite_nil hlines⟩
    · contradiction

instance : Shallow Paragraph 7 where
  writable h := by
    obtain ⟨hbbox, hindentX, htextX, hstyle, hlines⟩ := h
    exact .field trivial <| .field hbbox <| .field hindentX <| .field htextX <| .field trivial <|
      .field hstyle <| .field hlines .fieldless

end PageContent
