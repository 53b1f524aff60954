/-
# Fragments with a place

The box, the origin and the size of a fragment are computed from the numbers of its
run and of the options, and nothing settles them on the way.  So a run of finite
numbers has a fragment of finite numbers just if none of these overflowed
(`isFinite_fragment_iff`), which takes numbers far beyond any page: up to `2 ^ 300`
every run gets its place (`isPlaced_fragment`).

| number | formula | within |
| --- | --- | --- |
| left edge | `e · sx` | `2 ^ 600` |
| right edge | `e · sx + width · sx` | `2 ^ 601` |
| size in user units | `√(a · a + b · b)`, or the default | `2 ^ 302` |
| size | `√(a · a + b · b) · sy` | `2 ^ 602` |
| baseline | `(height - f) · sy` | `2 ^ 601` |
| top edge | `(height - f - √(a · a + b · b) · rise) · sy` | `2 ^ 903` |
| bottom edge | the top edge and the size | `2 ^ 904` |
-/

import PageContent.Proofs.Number.Within
import PageContent.Proofs.Record.Finite

namespace PageContent

open Binary64 (IsWithin)

/-- The numbers that are computed for the fragment are finite. -/
structure Fragment.IsPlaced (f : Fragment) : Prop where
  bbox : IsFinite f.bbox
  origin : IsFinite f.origin
  size : IsFinite f.size

instance (f : Fragment) : Decidable f.IsPlaced :=
  decidable_of_iff ((∀ x ∈ [f.bbox.x0, f.bbox.y0, f.bbox.x1, f.bbox.y1], x.isFinite = true) ∧
      (∀ p ∈ f.origin, ∀ x ∈ [p.x, p.y], x.isFinite = true) ∧ f.size.isFinite = true)
    ⟨fun ⟨hbox, horigin, hsize⟩ => ⟨hbox, horigin, hsize⟩,
      fun ⟨hbox, horigin, hsize⟩ => ⟨hbox, horigin, hsize⟩⟩

/-- The numbers of the run are at most `2 ^ k` in magnitude. -/
structure GlyphRun.IsWithin (k : ℤ) (run : GlyphRun) : Prop where
  transform : ∀ x ∈ run.transform.toList, Binary64.IsWithin k x
  width : Binary64.IsWithin k run.width

/-- The numbers of the options are at most `2 ^ k` in magnitude. -/
structure TextOptions.IsWithin (k : ℤ) (o : TextOptions) : Prop where
  height : Binary64.IsWithin k o.viewport.height
  scaleX : Binary64.IsWithin k o.viewport.scaleX
  scaleY : Binary64.IsWithin k o.viewport.scaleY
  capHeightRatio : Binary64.IsWithin k o.capHeightRatio
  defaultFontSize : Binary64.IsWithin k o.defaultFontSize

namespace TextOptions

variable {o : TextOptions} {hints : StyleHints} {id : String} {run : GlyphRun}

/-- **Of a finite run the fragment is finite just if it has a place.** -/
theorem isFinite_fragment_iff (h : IsFinite run.transform) :
    IsFinite (o.fragment hints id run) ↔ (o.fragment hints id run).IsPlaced := by
  have hmatrix : IsFinite (o.fragment hints id run).matrix := by
    have hrow : ∀ x ∈ [run.transform.a, run.transform.b, run.transform.c, run.transform.d],
        x ∈ run.transform.toList := by
      simp [Matrix.toList]
    exact fun x hx => h x (hrow x hx)
  constructor
  · intro ⟨hbox, horigin, _, hsize, _, _⟩
    exact ⟨hbox, horigin, hsize⟩
  · intro ⟨hbox, horigin, hsize⟩
    exact ⟨hbox, horigin, hmatrix, hsize, isFinite_black, isFinite_nil⟩

theorem exists_run_of_mem_fragments {runs : List GlyphRun} {f : Fragment}
    (h : f ∈ o.fragments hints runs) : ∃ run ∈ runs, ∃ id, f = o.fragment hints id run := by
  obtain ⟨⟨run, i⟩, hmem, rfl⟩ := List.mem_map.1 (List.mem_filter.1 h).1
  exact ⟨run, List.fst_mem_of_mem_zipIdx hmem, nameAt i, rfl⟩

/-- The size of a font is not far beyond the entries of its matrix. -/
theorem isWithin_sizeOf (ho : o.IsWithin 300) {m : Matrix Float}
    (ha : Binary64.IsWithin 300 m.a) (hb : Binary64.IsWithin 300 m.b) :
    Binary64.IsWithin 302 (o.sizeOf m) := by
  unfold sizeOf
  dsimp only
  split
  · exact ho.defaultFontSize.mono (by decide)
  · rename_i hsize
    have hroot : (m.a * m.a + m.b * m.b).sqrt.isFinite = true := by
      by_contra h
      exact hsize (by simp [h])
    have hsquares : Binary64.IsWithin (2 * 301) (m.a * m.a + m.b * m.b) :=
      ((ha.mul ha).add (hb.mul hb)).mono (by decide)
    exact hsquares.sqrt hroot

/-- **A run of moderate numbers gets its place.** -/
theorem isPlaced_fragment (ho : o.IsWithin 300) (hrun : run.IsWithin 300) :
    (o.fragment hints id run).IsPlaced := by
  obtain ⟨ha, hb, -, -, he, hf⟩ : Binary64.IsWithin 300 run.transform.a ∧
      Binary64.IsWithin 300 run.transform.b ∧ Binary64.IsWithin 300 run.transform.c ∧
      Binary64.IsWithin 300 run.transform.d ∧ Binary64.IsWithin 300 run.transform.e ∧
      Binary64.IsWithin 300 run.transform.f := by
    simpa [Matrix.toList] using hrun.transform
  have huser := isWithin_sizeOf ho ha hb
  have hsize := huser.mul ho.scaleY
  have hleft := he.mul ho.scaleX
  have hright := hleft.add (hrun.width.mul ho.scaleX)
  have hdrop := ho.height.sub hf
  have hbaseline := hdrop.mul ho.scaleY
  have hrise := huser.mul ho.capHeightRatio
  have htop := ((hdrop.mono (by decide)).sub hrise).mul ho.scaleY
  have hbottom := htop.add (hsize.mono (by decide))
  constructor
  · exact isFinite_cons.2 ⟨hleft.isFinite, isFinite_cons.2 ⟨htop.isFinite, isFinite_cons.2
      ⟨hright.isFinite, isFinite_cons.2 ⟨hbottom.isFinite, isFinite_nil⟩⟩⟩⟩
  · exact isFinite_some.2 (isFinite_cons.2 ⟨hleft.isFinite, isFinite_cons.2
      ⟨hbaseline.isFinite, isFinite_nil⟩⟩)
  · exact hsize.isFinite

end TextOptions
end PageContent
