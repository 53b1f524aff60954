/-
# Broken lines measured again

Breaking a text and measuring it look a font up in one table, and a table may list a
font more than once, with metrics or without:

| | reads of the entries for a font | if it has no metrics |
| --- | --- | --- |
| `Reflow.widthsFor` | the first | estimates |
| `Measurer.metrics?` | the last one that has metrics | does not know the font |

So a font that is measured by metrics may be broken by an estimate, if its first entry
has none, and one with two tables of widths is broken by the first and measured by the
last.  A table is settled on a font if both read the same (`isSettled_iff`), as any
table is whose entries for the font are alike, and any that lists no font twice.  Then a
piece of text is as wide where it is broken as where it is measured (`width_eq_measure`).
-/

import Mathlib.Data.List.Nodup
import Mathlib.Data.List.ReduceOption
import PageContent.Font.Measure
import PageContent.Paragraph.Reflow

namespace PageContent

/-! ## The entries for a font -/

namespace FontMetrics

/-- What the entries for a font have, in the order of the table. -/
def entries (fonts : List FontMetrics) (family : String) : List (Option GlyphMetrics) :=
  (fonts.filter (·.name == family)).map FontMetrics.metrics

/-- The metrics that are known of a font, in the order of the table. -/
def known (fonts : List FontMetrics) (family : String) : List GlyphMetrics :=
  (entries fonts family).reduceOption

/-- The first entry for the font has what the last one with metrics has. -/
def IsSettled (fonts : List FontMetrics) (family : String) : Prop :=
  (entries fonts family).head?.join = (known fonts family).getLast?

instance (fonts : List FontMetrics) (family : String) : Decidable (IsSettled fonts family) :=
  inferInstanceAs (Decidable (_ = _))

variable {fonts : List FontMetrics} {family : String} {m : GlyphMetrics}

theorem mem_known : m ∈ known fonts family ↔ some m ∈ entries fonts family :=
  List.reduceOption_mem_iff

/-- The first entry is one of them. -/
theorem mem_known_of_head? (h : (entries fonts family).head?.join = some m) :
    m ∈ known fonts family :=
  mem_known.2 (List.mem_of_head? (Option.join_eq_some_iff.1 h))

/-- Entries that are alike are as good as one. -/
theorem isSettled_of_forall_eq
    (h : ∀ e ∈ entries fonts family, ∀ e' ∈ entries fonts family, e = e') :
    IsSettled fonts family := by
  unfold IsSettled
  cases hlast : (known fonts family).getLast? with
  | none =>
    have hnil : known fonts family = [] := List.getLast?_eq_none_iff.1 hlast
    refine Option.eq_none_iff_forall_ne_some.2 fun m hm => ?_
    have hmem := mem_known_of_head? hm
    rw [hnil] at hmem
    exact absurd hmem List.not_mem_nil
  | some m =>
    have hmem : some m ∈ entries fonts family := mem_known.1 (List.mem_of_getLast? hlast)
    obtain ⟨e, rest, heq⟩ := List.exists_cons_of_ne_nil (List.ne_nil_of_mem hmem)
    have hfirst : e ∈ entries fonts family := heq ▸ List.mem_cons_self
    rw [heq, List.head?_cons, h e hfirst _ hmem]
    rfl

/-- **A table that lists no font twice is settled on every font.** -/
theorem isSettled_of_nodup (h : (fonts.map FontMetrics.name).Nodup) (family : String) :
    IsSettled fonts family := by
  refine isSettled_of_forall_eq fun e he e' he' => ?_
  obtain ⟨f, hf, rfl⟩ := List.mem_map.1 he
  obtain ⟨f', hf', rfl⟩ := List.mem_map.1 he'
  obtain ⟨hf, hname⟩ := List.mem_filter.1 hf
  obtain ⟨hf', hname'⟩ := List.mem_filter.1 hf'
  have hnames : f.name = f'.name := (eq_of_beq hname).trans (eq_of_beq hname').symm
  rw [List.inj_on_of_nodup_map h hf hf' hnames]

example : ¬ IsSettled [⟨"Body", none⟩, ⟨"Body", some {}⟩] "Body" := by decide

end FontMetrics

open FontMetrics (entries known IsSettled)

/-! ## Two ways to look a font up -/

variable {fonts : List FontMetrics} {family : String}

theorem Reflow.widthsFor_eq_metrics_iff {m : GlyphMetrics} :
    widthsFor fonts family = .metrics m ↔ (entries fonts family).head?.join = some m := by
  have hfirst : (fonts.find? (·.name == family)).bind FontMetrics.metrics =
      (entries fonts family).head?.join := by
    rw [entries, List.head?_map, List.head?_filter]
    cases fonts.find? (·.name == family) with
    | none => rfl
    | some f => rfl
  unfold widthsFor
  rw [hfirst]
  cases (entries fonts family).head?.join with
  | none => simp
  | some m' => simp

theorem Reflow.widthsFor_eq_estimate_iff :
    widthsFor fonts family = .estimate ↔ (entries fonts family).head?.join = none := by
  rw [Option.eq_none_iff_forall_ne_some]
  cases hwidths : widthsFor fonts family with
  | metrics m =>
    have hm := widthsFor_eq_metrics_iff.1 hwidths
    exact iff_of_false (fun h => Widths.noConfusion h) fun h => h m hm
  | estimate =>
    refine iff_of_true rfl fun m hm => ?_
    rw [widthsFor_eq_metrics_iff.2 hm] at hwidths
    exact Widths.noConfusion hwidths

theorem Measurer.metrics?_eq_getLast? (fonts : List FontMetrics) (family : String) :
    metrics? fonts family = (known fonts family).getLast? := by
  unfold metrics? known entries List.reduceOption
  rw [List.filterMap_map, List.filterMap_filter, List.getLast?_filterMap]
  simp

namespace Reflow

/-- **A table is settled on a font if breaking and measuring read the same of it.** -/
theorem isSettled_iff :
    IsSettled fonts family ↔
      ∀ m, widthsFor fonts family = .metrics m ↔ Measurer.metrics? fonts family = some m := by
  rw [IsSettled, ← Measurer.metrics?_eq_getLast?, Option.ext_iff]
  exact forall_congr' fun m => by rw [widthsFor_eq_metrics_iff]

/-- Whatever the table, a font with measured widths is one that can be measured. -/
theorem isSome_metrics?_of_widthsFor {m : GlyphMetrics} (h : widthsFor fonts family = .metrics m) :
    (Measurer.metrics? fonts family).isSome = true := by
  have hmem := FontMetrics.mem_known_of_head? (widthsFor_eq_metrics_iff.1 h)
  rw [Measurer.metrics?_eq_getLast?, List.getLast?_isSome]
  exact List.ne_nil_of_mem hmem

/-- **A font that can be measured is estimated where its first entry has no metrics**, and nowhere
else. -/
theorem estimate_and_isSome_iff :
    (widthsFor fonts family = .estimate ∧ (Measurer.metrics? fonts family).isSome = true) ↔
      (entries fonts family).head? = some none ∧ known fonts family ≠ [] := by
  rw [Measurer.metrics?_eq_getLast?, List.getLast?_isSome, widthsFor_eq_estimate_iff]
  refine and_congr_left fun hknown => ?_
  have hentries : entries fonts family ≠ [] := by
    intro hnil
    rw [known, hnil] at hknown
    exact hknown rfl
  obtain ⟨e, rest, heq⟩ := List.exists_cons_of_ne_nil hentries
  rw [heq, List.head?_cons, Option.some.injEq]
  rfl

/-- Widths in a font that the table is settled on. -/
theorem width_eq_of_widthsFor {o : ReflowOptions} {font : FontSpec} {m : GlyphMetrics}
    (h : IsSettled fonts font.family) (ho : o.fallbackCharWidth = Measurer.fallbackWidth)
    (hm : widthsFor fonts font.family = .metrics m) (em : Float) :
    (∀ c, m.advance o.fallbackCharWidth font.size c = Measurer.ofFonts fonts em c font) ∧
      ∀ text, width o font.size (widthsFor fonts font.family) text =
        (Measurer.ofFonts fonts em).measure text font := by
  have hadvance : ∀ c, m.advance o.fallbackCharWidth font.size c =
      Measurer.ofFonts fonts em c font := by
    intro c
    unfold Measurer.ofFonts
    rw [(isSettled_iff.1 h m).1 hm, ho]
  refine ⟨hadvance, fun text => ?_⟩
  rw [hm]
  unfold width Measurer.measure
  simp only [hadvance]

/-- **Text is as wide where it is broken as where it is measured**, in a font that the table is
settled on: one of which both read the same, as they do if no font is listed twice.  On any table a
font with metrics to break by is one that can be measured; but one that can be measured is broken by
an estimate just if its first entry has no metrics and a later one has. -/
theorem width_eq_measure (fonts : List FontMetrics) (family : String) (o : ReflowOptions)
    (ho : o.fallbackCharWidth = Measurer.fallbackWidth) :
    (IsSettled fonts family →
      ((∃ m, widthsFor fonts family = .metrics m) ↔
        (Measurer.metrics? fonts family).isSome = true) ∧
      ∀ m, widthsFor fonts family = .metrics m →
        ∀ (em : Float) (font : FontSpec), font.family = family →
          (∀ c, m.advance o.fallbackCharWidth font.size c = Measurer.ofFonts fonts em c font) ∧
          ∀ text, width o font.size (widthsFor fonts family) text =
            (Measurer.ofFonts fonts em).measure text font) ∧
    ((fonts.map FontMetrics.name).Nodup → IsSettled fonts family) ∧
    (IsSettled fonts family ↔
      ∀ m, widthsFor fonts family = .metrics m ↔ Measurer.metrics? fonts family = some m) ∧
    (∀ m, widthsFor fonts family = .metrics m →
      (Measurer.metrics? fonts family).isSome = true) ∧
    ((widthsFor fonts family = .estimate ∧ (Measurer.metrics? fonts family).isSome = true) ↔
      (entries fonts family).head? = some none ∧ known fonts family ≠ []) := by
  refine ⟨fun h => ⟨?_, ?_⟩, fun h => FontMetrics.isSettled_of_nodup h family, isSettled_iff,
    fun _ => isSome_metrics?_of_widthsFor, estimate_and_isSome_iff⟩
  · rw [Option.isSome_iff_exists]
    exact exists_congr (isSettled_iff.1 h)
  · rintro m hm em font rfl
    exact width_eq_of_widthsFor h ho hm em

/-- A character without a width of its own is as wide as a space, in both.  A font that has its
metrics in its second entry can be measured, but is broken by an estimate. -/
theorem width_eq_measure_of_ghost :
    let m : GlyphMetrics := { widths := .ofList [("a", 60), (" ", 25)] }
    let fonts : List FontMetrics :=
      [⟨"Ghost", none⟩, ⟨"Body", some m⟩, ⟨"Late", none⟩, ⟨"Late", some m⟩]
    (IsSettled fonts "Body" ∧ widthsFor fonts "Body" = .metrics m ∧
      width {} 10 (widthsFor fonts "Body") ['a', 'z'] =
        (Measurer.ofFonts fonts Measurer.defaultEm).measure ['a', 'z']
          { family := "Body", size := 10 }) ∧
    widthsFor fonts "Late" = .estimate ∧ (Measurer.metrics? fonts "Late").isSome = true := by
  intro m fonts
  have hsettled : IsSettled fonts "Body" :=
    FontMetrics.isSettled_of_forall_eq fun _ he _ he' =>
      (List.mem_singleton.1 he).trans (List.mem_singleton.1 he').symm
  have hm : widthsFor fonts "Body" = .metrics m := rfl
  obtain ⟨h, -⟩ := width_eq_measure fonts "Body" {} rfl
  obtain ⟨-, -, -, -, hlate⟩ := width_eq_measure fonts "Late" {} rfl
  refine ⟨⟨hsettled, hm, ?_⟩, hlate.2 ⟨rfl, List.cons_ne_nil m []⟩⟩
  exact ((h hsettled).2 m hm Measurer.defaultEm { family := "Body", size := 10 } rfl).2 ['a', 'z']

end Reflow
end PageContent
