/-
# The fragments of a page

The blocks of a page hold its fragments in their order, each once: chunks put
together again give the list they were cut from (`flatten_chunksWith`), and so do
the children of blocks (`flatMap_children_blocks`).  Measuring changes a fragment in
its place (`flatMap_children_refine`) and leaves its name alone.

A fragment is named for the place of its run among all runs, and names of places
are distinct (`nameAt_inj`), so the fragments of a page have distinct names that are
not empty, and none of them knows of a line (`nodup_id_fragments`,
`isNamed_of_mem_fragments`).
-/

import PageContent.Font.Measure
import PageContent.Text.Run
import Mathlib

namespace PageContent

/-- The fragment goes by a name of its own, which its line takes over if it starts one. -/
structure Fragment.IsNamed (f : Fragment) : Prop where
  lineId_eq : f.lineId = none
  id_ne : f.id ≠ ""

namespace TextOptions

/-! ## Blocks -/

/-- **Chunks put together again give the list.** -/
theorem flatten_chunksWith {α : Type} {size fuel : Nat} (hsize : 0 < size) {l : List α}
    (hfuel : l.length ≤ fuel) : (chunksWith size fuel l).flatten = l := by
  induction fuel generalizing l with
  | zero =>
    obtain rfl : l = [] := List.length_eq_zero_iff.1 (Nat.le_zero.1 hfuel)
    rfl
  | succ fuel ih =>
    cases l with
    | nil => rfl
    | cons a l =>
      have hrest : ((a :: l).drop size).length ≤ fuel := by
        rw [List.length_drop]
        omega
      rw [chunksWith, List.flatten_cons, ih hrest, List.take_append_drop]
      exact List.cons_ne_nil a l

variable (o : TextOptions) (hints : StyleHints) (runs : List GlyphRun)

/-- **The blocks of a page hold its fragments**, in their order. -/
theorem flatMap_children_blocks :
    (o.blocks hints runs).flatMap Block.children = o.fragments hints runs := by
  have hchildren : ∀ (chunks : List (List Fragment)) (id : Nat → String) (n : Nat),
      ((chunks.zipIdx n).map fun p => Block.ofChildren (id p.2) p.1).flatMap Block.children =
        chunks.flatten := by
    intro chunks id n
    induction chunks generalizing n with
    | nil => rfl
    | cons chunk chunks ih =>
      rw [List.zipIdx_cons, List.map_cons, List.flatMap_cons, List.flatten_cons, ih]
      rfl
  have hflatten : (chunksWith (max o.chunkSize 1) (o.fragments hints runs).length
      (o.fragments hints runs)).flatten = o.fragments hints runs :=
    flatten_chunksWith (by omega) (Nat.le_refl _)
  exact (hchildren _ (fun n => "block_" ++ toString (n * max o.chunkSize 1)) 0).trans hflatten

/-! ## Names -/

/-- Different places have different names. -/
theorem nameAt_inj {i j : Nat} (h : nameAt i = nameAt j) : i = j :=
  Nat.repr_inj.1 ((String.append_right_inj "frag_").1 h)

/-- **The fragments of a page have distinct names.** -/
theorem nodup_id_fragments : ((o.fragments hints runs).map Fragment.id).Nodup := by
  have hnames : (runs.zipIdx.map fun p => o.fragment hints (nameAt p.2) p.1).map Fragment.id =
      (runs.zipIdx.map Prod.snd).map nameAt := by
    rw [List.map_map, List.map_map]
    rfl
  have hplaces : (runs.zipIdx.map Prod.snd).Nodup := by
    rw [List.zipIdx_map_snd]
    exact List.nodup_range'
  have hnodup := hplaces.map fun i j => nameAt_inj
  rw [← hnames] at hnodup
  exact List.Sublist.nodup (List.filter_sublist.map Fragment.id) hnodup

theorem isNamed_of_mem_fragments {f : Fragment} (h : f ∈ o.fragments hints runs) : f.IsNamed := by
  obtain ⟨⟨run, i⟩, -, rfl⟩ := List.mem_map.1 (List.mem_of_mem_filter h)
  refine ⟨rfl, fun hempty => ?_⟩
  exact absurd (congrArg String.toList hempty) (by simp [fragment, nameAt])

/-- The name of a fragment of a page says that it is one. -/
theorem exists_id_of_mem_fragments {f : Fragment} (h : f ∈ o.fragments hints runs) :
    ∃ i, f.id = nameAt i := by
  obtain ⟨⟨run, i⟩, -, rfl⟩ := List.mem_map.1 (List.mem_of_mem_filter h)
  exact ⟨i, rfl⟩

end TextOptions

/-! ## Measured fragments -/

namespace Measurer

variable (m : Measurer)

/-- Measuring changes each fragment in its place. -/
theorem flatMap_children_refine (blocks : List Block) :
    (m.refine blocks).flatMap Block.children =
      (blocks.flatMap Block.children).map m.refineFragment := by
  rw [refine, List.flatMap_map, List.map_flatMap]
  rfl

end Measurer
end PageContent
