/-
# The nodes of a scene have distinct ids

Ids are made in three places, and each has a first letter of its own:

| node | id | distinct because |
| --- | --- | --- |
| shape | `path_` index `_` place | an operator paints once, and places are counted |
| image | `image_` index | an operator places one image |
| line | the name of its first fragment | no fragment is in two lines |

A digit is no underscore, so index and place can be read off the id of a shape
(`shapeId_inj`).  The fragments of a page belong to no known line, so each line goes by
the name of the fragment it starts with (`exists_first_of_mem_linesBy`), and no fragment
starts two lines.
-/

import PageContent.Proofs.Drawing.Placing
import PageContent.Proofs.Line.LineIds
import PageContent.Proofs.Text.Fragments
import PageContent.Scene.Build

namespace PageContent

/-! ## Shapes and images -/

namespace Canvas

theorem underscore_notMem_toDigits (n : Nat) : '_' ∉ Nat.toDigits 10 n := by
  intro h
  exact absurd (Nat.isDigit_of_mem_toDigits (by decide) (by decide) h) (by decide)

/-- The id of a shape tells its index and its place. -/
theorem shapeId_inj {i j k l : Nat}
    (h : "path_" ++ toString i ++ "_" ++ toString k = "path_" ++ toString j ++ "_" ++ toString l) :
    i = j ∧ k = l := by
  rw [String.append_assoc, String.append_assoc, String.append_assoc, String.append_assoc,
    String.append_right_inj] at h
  have hchars : Nat.toDigits 10 i ++ '_' :: Nat.toDigits 10 k =
      Nat.toDigits 10 j ++ '_' :: Nat.toDigits 10 l := by
    have hlist := congrArg String.toList h
    simpa [toString, String.toList_append, Nat.toList_repr] using hlist
  obtain ⟨hindex, -, hplace⟩ := (List.append_cons_inj_of_notMem (underscore_notMem_toDigits i)
    (underscore_notMem_toDigits k)).1 hchars
  constructor
  · exact Nat.repr_inj.1 (String.toList_inj.1 (by rw [Nat.toList_repr, Nat.toList_repr, hindex]))
  · exact Nat.repr_inj.1 (String.toList_inj.1 (by rw [Nat.toList_repr, Nat.toList_repr, hplace]))

variable (o : DrawingOptions)

theorem exists_place_of_mem_shapes {q : Painting} {id : String}
    (h : id ∈ (q.shapes o).map Shape.id) :
    ∃ place : Nat, id = "path_" ++ toString q.index.toNat ++ "_" ++ toString place := by
  obtain ⟨places, -, hids⟩ := exists_places o q
  rw [hids] at h
  obtain ⟨place, -, rfl⟩ := List.mem_map.1 h
  exact ⟨place, rfl⟩

/-- The shapes of one painting differ in their places. -/
theorem nodup_id_shapes (q : Painting) : ((q.shapes o).map Shape.id).Nodup := by
  obtain ⟨places, hplaces, hids⟩ := exists_places o q
  rw [hids]
  exact List.Nodup.map (fun i j h => (shapeId_inj h).2) (hplaces.imp Nat.ne_of_lt)

/-- **The shapes of a run have distinct ids** if its operators have distinct indexes. -/
theorem nodup_id_shapes_ofOperators {raws : List RawOperator}
    (h : (raws.map RawOperator.index).Nodup) :
    ((ofOperators o raws).shapes.map Shape.id).Nodup := by
  have hindexes : (paintings o {} raws).Pairwise fun q q' => q.index ≠ q'.index :=
    List.pairwise_map.1 (List.Sublist.nodup (index_paintings_sublist raws) h)
  rw [shapes_ofOperators, List.map_flatMap, List.nodup_flatMap]
  refine ⟨fun q _ => nodup_id_shapes o q, hindexes.imp ?_⟩
  intro q q' hne id hid hid'
  obtain ⟨k, rfl⟩ := exists_place_of_mem_shapes o hid
  obtain ⟨l, hl⟩ := exists_place_of_mem_shapes o hid'
  exact hne (UInt64.toNat_inj.1 (shapeId_inj hl).1)

/-- **So have its images.** -/
theorem nodup_id_images_ofOperators {raws : List RawOperator}
    (h : (raws.map RawOperator.index).Nodup) :
    ((ofOperators o raws).images.map Image.id).Nodup := by
  have hnames : (raws.map fun raw => "image_" ++ toString raw.index.toNat) =
      (raws.map RawOperator.index).map fun index => "image_" ++ toString index.toNat := by
    rw [List.map_map]
    rfl
  rw [images_ofOperators]
  refine List.Sublist.nodup (id_placings_sublist _ raws) ?_
  rw [hnames]
  refine h.map fun i j heq => ?_
  exact UInt64.toNat_inj.1 (Nat.repr_inj.1 ((String.append_right_inj "image_").1 heq))

/-- The first letter of a name in two parts. -/
theorem head?_append {name : String} {c : Char} (h : name.toList.head? = some c) (rest : String) :
    (name ++ rest).toList.head? = some c := by
  rw [String.toList_append, List.head?_append, h, Option.some_or]

theorem head?_id_of_mem_shapes {raws : List RawOperator} {s : Shape}
    (h : s ∈ (ofOperators o raws).shapes) : s.id.toList.head? = some 'p' := by
  rw [shapes_ofOperators] at h
  obtain ⟨q, -, hq⟩ := List.mem_flatMap.1 h
  obtain ⟨place, hid⟩ := exists_place_of_mem_shapes o (List.mem_map_of_mem hq)
  rw [hid, String.append_assoc, String.append_assoc]
  exact head?_append (by decide) _

theorem head?_id_of_mem_images {raws : List RawOperator} {i : Image}
    (h : i ∈ (ofOperators o raws).images) : i.id.toList.head? = some 'i' := by
  rw [images_ofOperators] at h
  have hid : i.id ∈ raws.map fun raw => "image_" ++ toString raw.index.toNat :=
    (id_placings_sublist _ raws).mem (List.mem_map_of_mem h)
  obtain ⟨raw, -, hid⟩ := List.mem_map.1 hid
  rw [← hid]
  exact head?_append (by decide) _

end Canvas

/-! ## Lines -/

namespace Merge

variable {origins : NaNOrigins} {o : MergeOptions} {fs : List Fragment}

theorem exists_first_of_mem_linesBy (hnamed : ∀ f ∈ fs, f.IsNamed) {l : Line}
    (hl : l ∈ linesBy origins o fs) :
    ∃ first rest, l.items = first :: rest ∧ first ∈ fs ∧ l.id = first.id := by
  obtain ⟨n, first, rest, rfl⟩ := exists_run_of_mem_linesBy hl
  have hfs : first ∈ fs := mem_of_mem_items hl List.mem_cons_self
  obtain ⟨hline, hid⟩ := hnamed first hfs
  exact ⟨first, rest, rfl, hfs, lineId_of_none hline hid n⟩

/-- **The lines of fragments with distinct names have distinct ids.** -/
theorem nodup_id_linesBy (hnamed : ∀ f ∈ fs, f.IsNamed) (hids : (fs.map Fragment.id).Nodup) :
    ((linesBy origins o fs).map Line.id).Nodup :=
  nodup_id_of_forall_none origins (fun f hf => (hnamed f hf).id_ne) hids
    fun f hf => (hnamed f hf).lineId_eq

end Merge

/-! ## Scenes -/

namespace Scene

/-- The ids of a scene whose blocks hold fragments of a page under their names. -/
theorem nodup_id_assemble (o : SceneOptions) (page : Page) {blocks : List Block}
    (hindexes : (page.operators.map RawOperator.index).Nodup)
    (hnamed : ∀ f ∈ blocks.flatMap Block.children, f.IsNamed ∧ ∃ i, f.id = TextOptions.nameAt i)
    (hids : ((blocks.flatMap Block.children).map Fragment.id).Nodup) :
    ((assemble o page blocks).graph.nodes.map Node.id).Nodup := by
  have hnodes : (assemble o page blocks).graph.nodes.map Node.id =
      (Canvas.ofOperators o.drawing page.operators).shapes.map Shape.id ++
        (Canvas.ofOperators o.drawing page.operators).images.map Image.id ++
          (assemble o page blocks).lines.map Line.id := by
    rw [graph, List.map_append, List.map_append, List.map_map, List.map_map, List.map_map]
    rfl
  have hlines : ∀ l ∈ (assemble o page blocks).lines, l.id.toList.head? = some 'f' := by
    intro l hl
    obtain ⟨first, -, -, hfirst, hid⟩ :=
      Merge.exists_first_of_mem_linesBy (fun f hf => (hnamed f hf).1) hl
    obtain ⟨i, hi⟩ := (hnamed first hfirst).2
    rw [hid, hi]
    exact Canvas.head?_append (by decide) _
  rw [hnodes, List.nodup_append, List.nodup_append]
  refine ⟨⟨Canvas.nodup_id_shapes_ofOperators o.drawing hindexes,
    Canvas.nodup_id_images_ofOperators o.drawing hindexes, ?_⟩,
    Merge.nodup_id_linesBy (fun f hf => (hnamed f hf).1) hids, ?_⟩
  · intro a ha b hb heq
    obtain ⟨s, hs, rfl⟩ := List.mem_map.1 ha
    obtain ⟨i, hi, rfl⟩ := List.mem_map.1 hb
    have hletters := Canvas.head?_id_of_mem_shapes o.drawing hs
    rw [heq, Canvas.head?_id_of_mem_images o.drawing hi] at hletters
    exact absurd hletters (by decide)
  · intro a ha b hb heq
    obtain ⟨l, hl, rfl⟩ := List.mem_map.1 hb
    rcases List.mem_append.1 ha with ha | ha
    · obtain ⟨s, hs, rfl⟩ := List.mem_map.1 ha
      have hletters := Canvas.head?_id_of_mem_shapes o.drawing hs
      rw [heq, hlines l hl] at hletters
      exact absurd hletters (by decide)
    · obtain ⟨i, hi, rfl⟩ := List.mem_map.1 ha
      have hletters := Canvas.head?_id_of_mem_images o.drawing hi
      rw [heq, hlines l hl] at hletters
      exact absurd hletters (by decide)

/-- **The nodes of a scene have distinct ids** if the operators of its page have distinct indexes,
whether its text is measured or not. -/
theorem nodup_id_graph (o : SceneOptions) (page : Page)
    (h : (page.operators.map RawOperator.index).Nodup) :
    ((build o page).graph.nodes.map Node.id).Nodup ∧
      ∀ m : Measurer, ((buildMeasured o m page).graph.nodes.map Node.id).Nodup := by
  constructor
  · refine nodup_id_assemble o page h ?_ ?_
    · intro f hf
      rw [TextOptions.flatMap_children_blocks] at hf
      exact ⟨o.text.isNamed_of_mem_fragments _ _ hf, o.text.exists_id_of_mem_fragments _ _ hf⟩
    · rw [TextOptions.flatMap_children_blocks]
      exact o.text.nodup_id_fragments page.styles page.runs
  · intro m
    refine nodup_id_assemble o page h ?_ ?_
    · intro f hf
      rw [Measurer.flatMap_children_refine, TextOptions.flatMap_children_blocks] at hf
      obtain ⟨g, hg, rfl⟩ := List.mem_map.1 hf
      obtain ⟨hline, hname⟩ := o.text.isNamed_of_mem_fragments _ _ hg
      obtain ⟨i, hi⟩ := o.text.exists_id_of_mem_fragments _ _ hg
      exact ⟨⟨hline, hname⟩, i, hi⟩
    · rw [Measurer.flatMap_children_refine, TextOptions.flatMap_children_blocks, List.map_map]
      exact o.text.nodup_id_fragments page.styles page.runs

/-- A page with a rectangle that is cut in two by a move, an image, and two runs on one baseline,
the second beyond a wide gap. -/
def mixedPage : Page where
  operators := [⟨19, [.integer 0, .integer 0, .integer 9, .integer 9], 1⟩,
    ⟨19, [.integer 20, .integer 0, .integer 9, .integer 9], 2⟩, ⟨22, [], 3⟩, ⟨85, [], 4⟩]
  runs := [⟨⟨10, 0, 0, 10, 0, 50⟩, "a", 5, "F"⟩, ⟨⟨10, 0, 0, 10, 30, 50⟩, "b", 5, "F"⟩]

theorem nodup_id_graph_mixedPage :
    (build (.ofHeight 100) mixedPage).graph.nodes.map Node.id =
        ["path_3_0", "path_3_1", "image_4", "frag_0", "frag_1"] ∧
      ((build (.ofHeight 100) mixedPage).graph.nodes.map Node.id).Nodup :=
  ⟨by decide +kernel, (nodup_id_graph (.ofHeight 100) mixedPage (by decide)).1⟩

end Scene
end PageContent
