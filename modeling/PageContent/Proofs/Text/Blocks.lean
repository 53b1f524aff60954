/-
# Blocks of a fixed size

The fragments of a page are dealt into blocks in their order.  With `size` fragments to a block,
block `n` holds those from place `n * size` on (`getElem?_blocks`): `size` of them, or in the last
block what is left, and never none.

| name of | counts |
| --- | --- |
| a fragment | the runs in front of its run, those without text too |
| a block | the fragments in front of it |

So the name of a block is a number below that of the runs, and how many fragments a block holds
changes nothing about the fragments (`blocks_deal_fragments`).
-/

import PageContent.Proofs.Geometry.Envelope
import PageContent.Proofs.Text.Fragments

namespace PageContent

/-- The block at place `n` among blocks of at most `size` fragments. -/
structure Block.IsDealt (size n : Nat) (b : Block) : Prop where
  id_eq : b.id = "block_" ++ toString (n * size)
  children_ne_nil : b.children ≠ []
  length_le : b.children.length ≤ size
  isEnvelope : b.bbox.IsEnvelope (b.children.map Fragment.bbox)
  /-- The signs of zeros too are those of the envelope. -/
  envelope_eq : Box.envelope (b.children.map Fragment.bbox) = some b.bbox

theorem Block.envelope_ofChildren (id : String) {children : List Fragment} (h : children ≠ []) :
    Box.envelope (children.map Fragment.bbox) = some (Block.ofChildren id children).bbox := by
  cases children with
  | nil => exact absurd rfl h
  | cons f children => rfl

/-- The box of a block is the least one around its children. -/
theorem Block.isEnvelope_ofChildren (id : String) {children : List Fragment} (h : children ≠ []) :
    (Block.ofChildren id children).bbox.IsEnvelope (children.map Fragment.bbox) :=
  Box.isEnvelope_of_envelope (envelope_ofChildren id h)

namespace TextOptions

/-- **The chunk at a place**: it starts behind as many full chunks, if the list goes on there. -/
theorem getElem?_chunksWith {α : Type} {size fuel : Nat} (hsize : 0 < size) {l : List α}
    (hfuel : l.length ≤ fuel) (n : Nat) :
    (chunksWith size fuel l)[n]? =
      if n * size < l.length then some ((l.drop (n * size)).take size) else none := by
  induction fuel generalizing l n with
  | zero => rw [chunksWith, List.getElem?_nil, if_neg (by omega)]
  | succ fuel ih =>
    cases l with
    | nil =>
      have hnil : chunksWith size (fuel + 1) ([] : List α) = [] := rfl
      rw [hnil, List.getElem?_nil, List.length_nil, if_neg (Nat.not_lt_zero _)]
    | cons a l =>
      have hrest : ((a :: l).drop size).length ≤ fuel := by
        rw [List.length_drop]
        omega
      rw [chunksWith]
      · cases n with
        | zero =>
          rw [List.getElem?_cons_zero, Nat.zero_mul, List.drop_zero, if_pos]
          exact Nat.zero_lt_succ l.length
        | succ n =>
          have hplace : (n + 1) * size = size + n * size := by rw [Nat.succ_mul, Nat.add_comm]
          rw [List.getElem?_cons_succ, ih hrest, List.drop_drop, hplace, List.length_drop]
          exact if_congr (by omega) rfl rfl
      · exact List.cons_ne_nil a l

variable (o : TextOptions) (hints : StyleHints) (runs : List GlyphRun)

/-- The fragments of a page are those of the runs with text. -/
theorem fragments_eq :
    o.fragments hints runs =
      (runs.zipIdx.filter fun (run, _) => run.text ≠ "").map fun (run, i) =>
        o.fragment hints ("frag_" ++ toString i) run := by
  rw [fragments, List.filter_map]
  refine congrArg (List.map _) (List.filter_congr fun p _ => ?_)
  show (!p.1.text.isEmpty) = decide (p.1.text ≠ "")
  rw [Bool.eq_iff_iff, Bool.not_eq_true', Bool.eq_false_iff, ne_eq, String.isEmpty_iff,
    decide_eq_true_iff]

theorem length_fragments_le : (o.fragments hints runs).length ≤ runs.length := by
  rw [fragments_eq, List.length_map]
  exact (List.length_filter_le _ _).trans_eq List.length_zipIdx

/-- **The block at a place** starts behind as many full blocks. -/
theorem getElem?_blocks (n : Nat) :
    (o.blocks hints runs)[n]? =
      if n * max o.chunkSize 1 < (o.fragments hints runs).length then
        some (.ofChildren ("block_" ++ toString (n * max o.chunkSize 1))
          (((o.fragments hints runs).drop (n * max o.chunkSize 1)).take (max o.chunkSize 1)))
      else none := by
  rw [blocks, List.getElem?_map, List.getElem?_zipIdx,
    getElem?_chunksWith (by omega) (Nat.le_refl _)]
  split
  · rw [Option.map_some, Option.map_some, Nat.zero_add]
  · rfl

variable {o hints runs}

/-- What is known of the block at a place. -/
theorem isDealt_of_getElem?_blocks {n : Nat} {b : Block}
    (h : (o.blocks hints runs)[n]? = some b) :
    b.IsDealt (max o.chunkSize 1) n ∧ n * max o.chunkSize 1 < (o.fragments hints runs).length ∧
      b.children.length = min (max o.chunkSize 1)
        ((o.fragments hints runs).length - n * max o.chunkSize 1) := by
  rw [getElem?_blocks] at h
  split at h
  · rename_i hplace
    obtain rfl := Option.some.inj h
    have hlength : ((((o.fragments hints runs).drop (n * max o.chunkSize 1)).take
        (max o.chunkSize 1))).length = min (max o.chunkSize 1)
          ((o.fragments hints runs).length - n * max o.chunkSize 1) := by
      rw [List.length_take, List.length_drop]
    have hne : ((o.fragments hints runs).drop (n * max o.chunkSize 1)).take (max o.chunkSize 1) ≠
        [] := by
      rw [← List.length_pos_iff_ne_nil, hlength]
      omega
    refine ⟨⟨rfl, hne, ?_, Block.isEnvelope_ofChildren _ hne, Block.envelope_ofChildren _ hne⟩,
      hplace, hlength⟩
    exact hlength.trans_le (Nat.min_le_left _ _)
  · exact absurd h nofun

/-- A block behind which another one stands is full. -/
theorem length_children_of_lt {n : Nat} {b : Block} (h : (o.blocks hints runs)[n]? = some b)
    (hnext : n + 1 < (o.blocks hints runs).length) : b.children.length = max o.chunkSize 1 := by
  have hplace := (isDealt_of_getElem?_blocks (List.getElem?_eq_getElem hnext)).2.1
  rw [Nat.succ_mul] at hplace
  rw [(isDealt_of_getElem?_blocks h).2.2]
  omega

variable (o hints runs)

/-- **Blocks are dealt losslessly and evenly.**  Together they hold the fragments of the runs with
text in their order, each named for the place of its run among all runs, whatever the size of the
blocks.  Each block is named for the number of fragments in front of it, which is below the number
of runs, is not empty and has the envelope of its children, and each but the last one is full. -/
theorem blocks_deal_fragments :
    (o.blocks hints runs).flatMap Block.children =
      ((runs.zipIdx.filter fun (run, _) => run.text ≠ "").map fun (run, i) =>
        o.fragment hints ("frag_" ++ toString i) run) ∧
    (∀ n b, (o.blocks hints runs)[n]? = some b →
      b.IsDealt (max o.chunkSize 1) n ∧ n * max o.chunkSize 1 < runs.length ∧
      (n + 1 < (o.blocks hints runs).length → b.children.length = max o.chunkSize 1)) ∧
    ∀ size, ({ o with chunkSize := size }.blocks hints runs).flatMap Block.children =
      (o.blocks hints runs).flatMap Block.children := by
  refine ⟨?_, fun n b h => ?_, fun size => ?_⟩
  · rw [flatMap_children_blocks, fragments_eq]
  · obtain ⟨hdealt, hplace, -⟩ := isDealt_of_getElem?_blocks h
    exact ⟨hdealt, hplace.trans_le (length_fragments_le o hints runs), length_children_of_lt h⟩
  · rw [flatMap_children_blocks, flatMap_children_blocks]
    rfl

/-- Of four runs the second is blank, and blocks are to hold two fragments: the first block is full,
and the second one is named for the two fragments in front of it. -/
theorem blocks_deal_fragments_of_blankRun :
    let blocks := TextOptions.blocks { chunkSize := 2 } .empty
      [⟨.identity, "A", 6, "F"⟩, ⟨.identity, "", 6, "F"⟩, ⟨.identity, "B", 6, "F"⟩,
        ⟨.identity, "C", 6, "F"⟩]
    blocks.length = 2 ∧
      (∃ b, blocks[0]? = some b ∧ b.IsDealt 2 0 ∧ b.children.length = 2) ∧
      ∃ b, blocks[1]? = some b ∧ b.id = "block_2" ∧ b.children.map Fragment.id = ["frag_3"] := by
  obtain ⟨-, hblocks, -⟩ := blocks_deal_fragments { chunkSize := 2 } .empty
    [⟨.identity, "A", 6, "F"⟩, ⟨.identity, "", 6, "F"⟩, ⟨.identity, "B", 6, "F"⟩,
      ⟨.identity, "C", 6, "F"⟩]
  refine ⟨by decide +kernel, ⟨_, rfl, ?_⟩, _, rfl, (hblocks 1 _ rfl).1.id_eq, by decide +kernel⟩
  obtain ⟨hdealt, -, hfull⟩ := hblocks 0 _ rfl
  exact ⟨hdealt, hfull (by decide +kernel)⟩

end TextOptions
end PageContent
