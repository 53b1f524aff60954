/-
# Scenes that can be loaded again

A scene file is read back as the scene it was written for, as long as every number of
the scene is finite; any other number is written as `null`, and no reader takes that
for a number.  Shapes and images never hold such a number (`isFinite_shapes`,
`isFinite_images`).  Lines do if one of their items has no place: they are finite just
if the fragments that make them up are (`isFinite_linesBy_iff`), and for a page that was
read from a text these are finite just if they have a place.
-/

import PageContent.Proofs.Drawing.Numbers
import PageContent.Proofs.Line.Survivors
import PageContent.Proofs.Record.RoundTrip
import PageContent.Proofs.Text.Fragments
import PageContent.Proofs.Text.Placed

namespace PageContent

open Json
open Numeral (GivesBack scaled?)

/-! ## Lines -/

namespace Merge

/-- A line is finite just if its items are. -/
theorem isFinite_lineOfRun_iff {o : MergeOptions} {id : String} {first : Fragment}
    {rest : List Fragment} :
    IsFinite (lineOfRun o id first rest) ↔ IsFinite (first :: rest) := by
  constructor
  · exact fun ⟨_, _, _, _, _, hitems⟩ => hitems
  · intro h
    obtain ⟨⟨hbox, horigin, hmatrix, hsize, hcolor, -⟩, hrest⟩ := isFinite_cons.1 h
    refine ⟨?_, horigin, hsize, hcolor, hmatrix, h⟩
    show IsFinite (rest.foldl (fun b f => b.join f.bbox) first.bbox)
    generalize first.bbox = b at hbox
    clear h
    induction rest generalizing b with
    | nil => exact hbox
    | cons f rest ih =>
      obtain ⟨hf, hrest⟩ := isFinite_cons.1 hrest
      exact ih hrest _ (Box.isFinite_join hbox hf.1)

/-- **Lines are finite just if the fragments are** that are left without doubles. -/
theorem isFinite_linesBy_iff (origins : NaNOrigins) (o : MergeOptions) (fs : List Fragment) :
    IsFinite (linesBy origins o fs) ↔ IsFinite (dedupe o fs) := by
  have hperm := items_linesBy_perm origins o fs
  constructor
  · intro h f hf
    obtain ⟨l, hl, hitem⟩ := List.mem_flatMap.1 (hperm.mem_iff.2 hf)
    obtain ⟨-, -, -, -, -, hitems⟩ := h l hl
    exact hitems f hitem
  · intro h l hl
    obtain ⟨id, first, rest, rfl⟩ := exists_of_mem_linesBy hl
    refine isFinite_lineOfRun_iff.2 fun f hf => h f (hperm.mem_iff.1 ?_)
    exact List.mem_flatMap.2 ⟨_, hl, hf⟩

end Merge

/-! ## Scenes -/

namespace Scene

variable {o : SceneOptions} {text : String} {scene : Scene} {page : Page}

/-- A scene that is read is built of the page that the text holds. -/
theorem exists_page_of_read (h : read o text = .ok scene) :
    ∃ page, Page.read? text = some page ∧ scene = build o page := by
  unfold read at h
  cases hvalid : o.validate with
  | error e =>
    rw [hvalid] at h
    exact absurd h nofun
  | ok _ =>
    rw [hvalid] at h
    cases hpage : Page.read? text with
    | none =>
      rw [hpage] at h
      exact absurd h nofun
    | some page =>
      rw [hpage] at h
      exact ⟨page, rfl, (Except.ok.inj h).symm⟩

theorem lines_build (o : SceneOptions) (page : Page) :
    (build o page).lines =
      Merge.linesBy (origins o page) o.merge (o.text.fragments page.styles page.runs) := by
  rw [← TextOptions.flatMap_children_blocks]
  rfl

/-- **The lines of a page that was read are finite just if their items have a place.** -/
theorem isFinite_lines_iff (h : Page.read? text = some page) :
    IsFinite (build o page).lines ↔
      ∀ f ∈ Merge.dedupe o.merge (o.text.fragments page.styles page.runs), f.IsPlaced := by
  have hpage : IsFinite page := isFinite_of_read Numeral.isFinite_of_scaled? h
  rw [lines_build, Merge.isFinite_linesBy_iff]
  refine forall₂_congr fun f hf => ?_
  obtain ⟨run, hrun, id, rfl⟩ :=
    TextOptions.exists_run_of_mem_fragments ((Merge.dedupe_sublist _ _).mem hf)
  exact TextOptions.isFinite_fragment_iff (hpage.2.1 run hrun).1

theorem isFinite_graph_iff (o : SceneOptions) (page : Page) :
    IsFinite (build o page).graph ↔ IsFinite (build o page).lines := by
  constructor
  · intro h l hl
    exact h (.line l) (List.mem_append_right _ (List.mem_map_of_mem hl))
  · intro h n hn
    rcases List.mem_append.1 hn with hn | hn
    · rcases List.mem_append.1 hn with hn | hn
      · obtain ⟨s, hs, rfl⟩ := List.mem_map.1 hn
        exact Canvas.isFinite_shapes o.drawing page.operators s hs
      · obtain ⟨i, hi, rfl⟩ := List.mem_map.1 hn
        exact Canvas.isFinite_images o.drawing page.operators i hi
    · obtain ⟨l, hl, rfl⟩ := List.mem_map.1 hn
      exact h l hl

/-- **Which scenes load again.**  All shapes and images of a scene that was built of a page text
are finite.  It is read back from its file only if its lines are too, and then it is as far as the
reader gives doubles back.  Its lines are finite just if the fragments that they are made of have a
place, and they have one as long as no number of the runs and the options is beyond `2 ^ 300`. -/
theorem loads_written (h : read o text = .ok scene) :
    IsFinite scene.shapes ∧ IsFinite scene.images ∧
    (∀ f, SceneGraph.read? (scene.write f) = some scene.graph → IsFinite scene.lines) ∧
    (IsFinite scene.lines → (∀ y ∈ (toJson scene.graph).doubles, GivesBack scaled? y) →
      ∀ f, SceneGraph.read? (scene.write f) = some scene.graph) ∧
    ∃ page, Page.read? text = some page ∧
      (IsFinite scene.lines ↔
        ∀ f ∈ Merge.dedupe o.merge (o.text.fragments page.styles page.runs), f.IsPlaced) ∧
      (o.text.IsWithin 300 → (∀ run ∈ page.runs, run.IsWithin 300) → IsFinite scene.lines) := by
  obtain ⟨page, hpage, rfl⟩ := exists_page_of_read h
  refine ⟨Canvas.isFinite_shapes o.drawing page.operators,
    Canvas.isFinite_images o.drawing page.operators, ?_, ?_, page, hpage,
    isFinite_lines_iff hpage, ?_⟩
  · intro f hback
    exact (isFinite_graph_iff o page).1 (isFinite_of_read Numeral.isFinite_of_scaled? hback)
  · intro hlines hback f
    have hgraph := (isFinite_graph_iff o page).2 hlines
    exact read_write f hgraph ((Shallow.writable hgraph).mono (by decide)) hback
  · intro ho hruns
    refine (isFinite_lines_iff hpage).2 fun f hf => ?_
    obtain ⟨run, hrun, id, rfl⟩ :=
      TextOptions.exists_run_of_mem_fragments ((Merge.dedupe_sublist _ _).mem hf)
    exact TextOptions.isPlaced_fragment ho (hruns run hrun)

/-- The text of a page with one run, which is so wide. -/
def pageOfWidth (width : String) : String :=
  "\x7b\"glyphRuns\":[\x7b\"transform\":[12,0,0,12,0,700],\"str\":\"A\",\"width\":" ++ width ++
    ",\"fontName\":\"F\"\x7d]\x7d"

/-- The usual options, but for a page that is shown ten times as wide. -/
def stretched : SceneOptions := (SceneOptions.ofHeight 792).withScale 10 1

/-- A run that reaches beyond the largest double keeps its page from being loaded again; a usual one
does not. -/
theorem loads_written_ofWidth :
    (∃ scene, read stretched (pageOfWidth "1e308") = .ok scene ∧
      ∀ f, SceneGraph.read? (scene.write f) ≠ some scene.graph) ∧
    ∃ scene, read stretched (pageOfWidth "9.5") = .ok scene ∧
      ∀ f, SceneGraph.read? (scene.write f) = some scene.graph := by
  constructor
  · have hwide : (read stretched (pageOfWidth "1e308")).toOption.any (fun scene : Scene =>
        scene.lines.any fun l => !l.bbox.x1.isFinite) = true := by decide +kernel
    cases hread : read stretched (pageOfWidth "1e308") with
    | error e =>
      rw [hread] at hwide
      exact absurd hwide Bool.false_ne_true
    | ok scene =>
      rw [hread] at hwide
      obtain ⟨-, -, hback, -⟩ := loads_written hread
      refine ⟨scene, rfl, fun f hf => ?_⟩
      obtain ⟨l, hl, hx⟩ := List.any_eq_true.1 hwide
      have hfinite := (Box.isFinite_iff.1 (hback f hf l hl).1).2.2.1
      rw [hfinite] at hx
      exact absurd hx Bool.false_ne_true
  · have husual : (read stretched (pageOfWidth "9.5")).toOption.any (fun scene : Scene =>
        decide (∀ y ∈ (toJson scene.graph).doubles, GivesBack scaled? y)) = true := by
      decide +kernel
    have hplaced : (Page.read? (pageOfWidth "9.5")).all (fun page : Page =>
        decide (∀ f ∈ Merge.dedupe stretched.merge
          (stretched.text.fragments page.styles page.runs), f.IsPlaced)) = true := by
      decide +kernel
    cases hread : read stretched (pageOfWidth "9.5") with
    | error e =>
      rw [hread] at husual
      exact absurd husual Bool.false_ne_true
    | ok scene =>
      rw [hread] at husual
      obtain ⟨-, -, -, hload, page, hpage, hlines, -⟩ := loads_written hread
      rw [hpage] at hplaced
      exact ⟨scene, rfl, hload (hlines.2 (of_decide_eq_true hplaced)) (of_decide_eq_true husual)⟩

end Scene
end PageContent
