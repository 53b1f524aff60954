/-
# The pieces of a path

Before a path is painted it is cut, in front of its moves and, under a threshold,
where it jumps.  Pieces hold what the path holds, and a piece behind a jump
starts with a move of its own besides (`reopens_of_mem_subPaths`).  Whatever the
path and the threshold,

* only the first segment of a piece is a move (`isMove_of_mem_tail_of_mem_subPaths`), and
* under a threshold, neighbours in a piece are near: they end at one point, or
  not further apart than the threshold (`isChain_of_mem_subPaths`).

For the piece behind a jump the first neighbours are the move made for it and the
segment to whose end it moves.
-/

import PageContent.Drawing.Path
import Mathlib.Data.List.SplitBy

namespace PageContent

/-! ## Points of a path -/

namespace Segment

/-- The points of a segment. -/
def points : Segment → List (Point Float)
  | .move p | .line p => [p]
  | .curve c₁ c₂ p => [c₁, c₂, p]
  | .close => []

theorem mem_points_of_end? {a : Segment} {p : Point Float} (h : a.end? = some p) :
    p ∈ a.points := by
  cases a with
  | close => exact absurd h (Option.some_ne_none p).symm
  | _ =>
    obtain rfl := Option.some.inj h
    simp [points]

/-- Segments that end at one point, or not further apart than the threshold; a `close` is near
everything. -/
def IsNear (threshold : Float) (a b : Segment) : Prop :=
  ∀ p q, a.end? = some p → b.end? = some q → p = q ∨ ¬ threshold < p.distance q

theorem isNear_of_jumps_eq_false {t : Float} {a b : Segment} (h : a.jumps t b = false) :
    a.IsNear t b := by
  intro p q hp hq
  rw [jumps, hp, hq] at h
  exact .inr (of_decide_eq_false h)

theorem isNear_move_end {t : Float} {a : Segment} {p : Point Float} (h : a.end? = some p) :
    (Segment.move p).IsNear t a := by
  intro p' q hp hq
  obtain rfl := Option.some.inj hp
  exact .inl (Option.some.inj (h.symm.trans hq))

end Segment

namespace Path

/-- The end points of a path. -/
def ends (path : List Segment) : List (Point Float) := path.filterMap Segment.end?

/-! ## What the pieces hold -/

/-- A segment of the path, or a move to where one ends. -/
def Reopens (path : List Segment) (a : Segment) : Prop :=
  a ∈ path ∨ ∃ b ∈ path, ∃ p, b.end? = some p ∧ a = .move p

theorem mem_of_mem_splitBy {r : Segment → Segment → Bool} {path piece : List Segment}
    (h : piece ∈ path.splitBy r) {a : Segment} (ha : a ∈ piece) : a ∈ path := by
  rw [← List.flatten_splitBy r path]
  exact List.mem_flatten.2 ⟨piece, h, ha⟩

theorem reopens_of_mem_reopen {path piece : List Segment} (hpiece : ∀ a ∈ piece, a ∈ path)
    {a : Segment} (ha : a ∈ reopen piece) : Reopens path a := by
  cases piece with
  | nil => exact absurd ha List.not_mem_nil
  | cons b piece =>
    have hb := hpiece b List.mem_cons_self
    rw [reopen] at ha
    cases hend : b.end? with
    | some p =>
      rw [hend] at ha
      rcases List.mem_cons.1 ha with rfl | ha
      · exact .inr ⟨b, hb, p, hend, rfl⟩
      · exact .inl (hpiece a ha)
    | none =>
      rw [hend] at ha
      exact .inl (hpiece a ha)

theorem reopens_of_mem_splitAtJumps {t : Float} {path piece : List Segment}
    (hpiece : piece ∈ splitAtJumps t path) {a : Segment} (ha : a ∈ piece) : Reopens path a := by
  unfold splitAtJumps at hpiece
  split at hpiece
  · exact absurd hpiece List.not_mem_nil
  · rename_i first rest heq
    have hmem : ∀ p ∈ first :: rest, ∀ a ∈ p, a ∈ path :=
      fun p hp a ha => mem_of_mem_splitBy (heq ▸ hp) ha
    rcases List.mem_cons.1 hpiece with rfl | hpiece
    · exact .inl (hmem _ List.mem_cons_self a ha)
    · obtain ⟨p, hp, rfl⟩ := List.mem_map.1 hpiece
      exact reopens_of_mem_reopen (hmem p (List.mem_cons_of_mem first hp)) ha

theorem mem_of_mem_splitAtMoves {path group : List Segment} (h : group ∈ splitAtMoves path)
    {a : Segment} (ha : a ∈ group) : a ∈ path := mem_of_mem_splitBy h ha

theorem reopens_of_mem_subPaths {t : Option Float} {path piece : List Segment}
    (hpiece : piece ∈ subPaths path t) {a : Segment} (ha : a ∈ piece) : Reopens path a := by
  cases t with
  | none => exact .inl (mem_of_mem_splitAtMoves hpiece ha)
  | some t =>
    obtain ⟨group, hgroup, hpiece⟩ := List.mem_flatMap.1 hpiece
    rcases reopens_of_mem_splitAtJumps hpiece ha with ha | ⟨b, hb, p, hp, heq⟩
    · exact .inl (mem_of_mem_splitAtMoves hgroup ha)
    · exact .inr ⟨b, mem_of_mem_splitAtMoves hgroup hb, p, hp, heq⟩

theorem mem_ends_of_reopens {path piece : List Segment} (h : ∀ a ∈ piece, Reopens path a)
    {p : Point Float} (hp : p ∈ ends piece) : p ∈ ends path := by
  obtain ⟨a, ha, hend⟩ := List.mem_filterMap.1 hp
  rcases h a ha with ha | ⟨b, hb, q, hq, rfl⟩
  · exact List.mem_filterMap.2 ⟨a, ha, hend⟩
  · obtain rfl := Option.some.inj hend
    exact List.mem_filterMap.2 ⟨b, hb, hq⟩

/-- A piece has no end points but those of the path. -/
theorem mem_ends_of_mem_subPaths {t : Option Float} {path piece : List Segment}
    (h : piece ∈ subPaths path t) {p : Point Float} (hp : p ∈ ends piece) : p ∈ ends path :=
  mem_ends_of_reopens (fun _ ha => reopens_of_mem_subPaths h ha) hp

/-! ## Moves -/

/-- What holds of the second of all neighbours holds of all but the first element. -/
theorem forall_mem_tail_of_isChain {α : Type} {P : α → Prop} {l : List α}
    (h : l.IsChain fun _ b => P b) : ∀ b ∈ l.tail, P b := by
  induction l with
  | nil => simp
  | cons a l ih =>
    cases l with
    | nil => simp
    | cons b l =>
      obtain ⟨hb, hrest⟩ := List.isChain_cons_cons.1 h
      exact List.forall_mem_cons.2 ⟨hb, ih hrest⟩

/-- A group has no move but its first segment. -/
theorem isMove_of_mem_tail_of_mem_splitAtMoves {path group : List Segment}
    (h : group ∈ splitAtMoves path) : ∀ a ∈ group.tail, a.isMove = false := by
  have hchain : group.IsChain fun _ b => (!b.isMove) = true := List.isChain_of_mem_splitBy h
  intro a ha
  simpa using forall_mem_tail_of_isChain hchain a ha

/-- A reopened piece without moves has one at its head only. -/
theorem isMove_of_mem_tail_reopen {piece : List Segment} (h : ∀ a ∈ piece, a.isMove = false) :
    ∀ a ∈ (reopen piece).tail, a.isMove = false := by
  cases piece with
  | nil => exact h
  | cons b piece =>
    rw [reopen]
    cases b.end? with
    | some p => exact h
    | none => exact fun a ha => h a (List.mem_cons_of_mem b ha)

theorem isMove_of_mem_tail_of_mem_splitAtJumps {t : Float} {group piece : List Segment}
    (hgroup : ∀ a ∈ group.tail, a.isMove = false) (hpiece : piece ∈ splitAtJumps t group) :
    ∀ a ∈ piece.tail, a.isMove = false := by
  unfold splitAtJumps at hpiece
  split at hpiece
  · exact absurd hpiece List.not_mem_nil
  · rename_i first rest heq
    have hfirst : first ≠ [] :=
      List.ne_nil_of_mem_splitBy (r := fun a b => !a.jumps t b) (heq ▸ List.mem_cons_self)
    obtain ⟨b, first, rfl⟩ := List.exists_cons_of_ne_nil hfirst
    -- whatever stands behind the head of the first piece stands behind the head of the group
    have htail : group.tail = first ++ rest.flatten := by
      rw [← List.flatten_splitBy (fun a b => !a.jumps t b) group, heq]
      rfl
    rw [htail] at hgroup
    rcases List.mem_cons.1 hpiece with rfl | hpiece
    · exact fun a ha => hgroup a (List.mem_append_left _ ha)
    · obtain ⟨p, hp, rfl⟩ := List.mem_map.1 hpiece
      refine isMove_of_mem_tail_reopen fun a ha => ?_
      exact hgroup a (List.mem_append_right _ (List.mem_flatten.2 ⟨p, hp, ha⟩))

/-- **Only the first segment of a piece is a move.** -/
theorem isMove_of_mem_tail_of_mem_subPaths {t : Option Float} {path piece : List Segment}
    (h : piece ∈ subPaths path t) : ∀ a ∈ piece.tail, a.isMove = false := by
  cases t with
  | none => exact isMove_of_mem_tail_of_mem_splitAtMoves h
  | some t =>
    obtain ⟨group, hgroup, hpiece⟩ := List.mem_flatMap.1 h
    exact isMove_of_mem_tail_of_mem_splitAtJumps
      (isMove_of_mem_tail_of_mem_splitAtMoves hgroup) hpiece

/-! ## Jumps -/

theorem isChain_reopen {t : Float} {piece : List Segment} (h : piece.IsChain (Segment.IsNear t)) :
    (reopen piece).IsChain (Segment.IsNear t) := by
  cases piece with
  | nil => exact h
  | cons b piece =>
    rw [reopen]
    cases hend : b.end? with
    | some p => exact List.isChain_cons_cons.2 ⟨Segment.isNear_move_end hend, h⟩
    | none => exact h

theorem isChain_of_mem_splitAtJumps {t : Float} {group piece : List Segment}
    (h : piece ∈ splitAtJumps t group) : piece.IsChain (Segment.IsNear t) := by
  have hcut : ∀ p ∈ group.splitBy fun a b => !a.jumps t b, p.IsChain (Segment.IsNear t) := by
    intro p hp
    refine (List.isChain_of_mem_splitBy hp).imp fun a b hab => ?_
    exact Segment.isNear_of_jumps_eq_false (by simpa using hab)
  unfold splitAtJumps at h
  split at h
  · exact absurd h List.not_mem_nil
  · rename_i first rest heq
    rw [heq] at hcut
    rcases List.mem_cons.1 h with rfl | h
    · exact hcut _ List.mem_cons_self
    · obtain ⟨p, hp, rfl⟩ := List.mem_map.1 h
      exact isChain_reopen (hcut p (List.mem_cons_of_mem first hp))

/-- **Neighbours in a piece are near**, if the path was cut at jumps. -/
theorem isChain_of_mem_subPaths {t : Float} {path piece : List Segment}
    (h : piece ∈ subPaths path (some t)) : piece.IsChain (Segment.IsNear t) := by
  obtain ⟨group, -, hpiece⟩ := List.mem_flatMap.1 h
  exact isChain_of_mem_splitAtJumps hpiece

end Path
end PageContent
