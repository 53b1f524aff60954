/-
# Sub-paths segment their path

The sub-paths of a path are its parts between the cuts, in their order, and a part behind a
jump has a move put in front of it.  Between neighbours `a` and `b` there is a cut

* if `b` is a move, or
* if there is a threshold, and `a` and `b` have end points further apart than that

and nowhere else (`Segment.IsApart`), so never beside a `close` but in front of a move.

| part | sub-path |
| --- | --- |
| the first one | the part |
| starts with a move | the part |
| starts with another segment | a move to where that segment ends, and the part |

That fixes the sub-paths (`subPaths_eq_iff`): the parts are found by splitting once by both
reasons (`splitBy_splitBy`), and what becomes of a part depends on how it starts.
-/

import PageContent.Proofs.Drawing.Pieces

namespace PageContent

/-! ## Splitting twice -/

section SplitBy

variable {α : Type} {r s : α → α → Bool}

/-- A list whose neighbours are all related by `r` is split by what else is asked of them. -/
theorem splitBy_and_of_isChain {l : List α} (h : l.IsChain fun a b => r a b = true) :
    (l.splitBy fun a b => r a b && s a b) = l.splitBy s := by
  refine List.splitBy_eq_iff.2 ⟨(List.flatten_splitBy s l).symm, List.nil_notMem_splitBy s l,
    fun part hmem => ?_, ?_⟩
  · have hinfix : part <:+: l := List.flatten_splitBy s l ▸ List.infix_of_mem_flatten hmem
    refine List.isChain_iff_forall_rel_of_append_cons_cons.2 fun a b before after heq => ?_
    have hpart := List.IsChain.infix h hinfix
    have hr := List.isChain_iff_forall_rel_of_append_cons_cons.1 hpart heq
    have hs := List.isChain_iff_forall_rel_of_append_cons_cons.1
      (List.isChain_of_mem_splitBy hmem) heq
    rw [hr, hs, Bool.and_self]
  · refine (List.isChain_getLast_head_splitBy s l).imp ?_
    rintro part next ⟨hpart, hnext, hcut⟩
    exact ⟨hpart, hnext, by rw [hcut, Bool.and_false]⟩

/-- **Splitting what was split** is splitting once, wherever one of the two does. -/
theorem splitBy_splitBy (l : List α) :
    (l.splitBy r).flatMap (·.splitBy s) = l.splitBy fun a b => r a b && s a b := by
  have hsplit : ∀ groups : List (List α), [] ∉ groups →
      (∀ group ∈ groups, group.IsChain fun a b => r a b = true) →
      (groups.IsChain fun g g' => ∃ hg hg', r (g.getLast hg) (g'.head hg') = false) →
      groups.flatMap (·.splitBy s) = groups.flatten.splitBy fun a b => r a b && s a b := by
    intro groups hne hjoined hcut
    induction groups with
    | nil => rfl
    | cons group groups ih =>
      rw [List.mem_cons, not_or] at hne
      obtain ⟨hgroup, hgroups⟩ := List.forall_mem_cons.1 hjoined
      rw [List.flatMap_cons, ih hne.2 hgroups hcut.tail, List.flatten_cons, List.splitBy_append,
        splitBy_and_of_isChain hgroup]
      intro a ha b hb
      cases groups with
      | nil => exact absurd hb nofun
      | cons next groups =>
        obtain ⟨⟨hg, hnext, hab⟩, -⟩ := List.isChain_cons_cons.1 hcut
        have hhead : b = next.head hnext := by
          rw [List.flatten_cons, List.head?_append_of_ne_nil _ hnext] at hb
          exact (List.head_of_mem_head? hb).symm
        rw [hhead, ← List.getLast_of_mem_getLast? ha, hab, Bool.false_and]
  have hgroups := hsplit (l.splitBy r) (List.nil_notMem_splitBy r l)
    (fun _ => List.isChain_of_mem_splitBy) (List.isChain_getLast_head_splitBy r l)
  rwa [List.flatten_splitBy] at hgroups

end SplitBy

/-! ## Cuts -/

/-- Neighbours of a path between which it is cut. -/
def Segment.IsApart (threshold : Option Float) (a b : Segment) : Prop :=
  b.isMove = true ∨ ∃ t p q, threshold = some t ∧ a.end? = some p ∧ b.end? = some q ∧
    t < p.distance q

namespace Path

variable {threshold : Option Float} {path part piece : List Segment}
  {parts pieces : List (List Segment)}

/-- What a part behind a cut becomes: it starts with a move, its own or one to where its first
segment ends. -/
inductive IsOpened : List Segment → List Segment → Prop where
  | byMove (p : Point Float) (rest : List Segment) : IsOpened (.move p :: rest) (.move p :: rest)
  | byJump {a : Segment} {p : Point Float} (rest : List Segment) : a.isMove = false →
      a.end? = some p → IsOpened (a :: rest) (.move p :: a :: rest)

/-- The path in parts, cut wherever neighbours are apart and nowhere else, and the pieces that come
of the parts. -/
structure IsSegmentation (threshold : Option Float) (path : List Segment)
    (parts pieces : List (List Segment)) : Prop where
  flatten_eq : parts.flatten = path
  nil_notMem : [] ∉ parts
  joined : ∀ part ∈ parts, part.IsChain fun a b => ¬ a.IsApart threshold b
  apart : parts.IsChain fun part next => ∀ a b, part.getLast? = some a → next.head? = some b →
    a.IsApart threshold b
  head?_eq : pieces.head? = parts.head?
  opened : List.Forall₂ IsOpened parts.tail pieces.tail

/-- No cut between the two segments. -/
def joins (threshold : Option Float) (a b : Segment) : Bool :=
  !b.isMove && threshold.all fun t => !a.jumps t b

theorem joins_iff {a b : Segment} : joins threshold a b = true ↔ ¬ a.IsApart threshold b := by
  have hjumps : ∀ t, a.jumps t b = true ↔
      ∃ p q, a.end? = some p ∧ b.end? = some q ∧ t < p.distance q := by
    intro t
    unfold Segment.jumps
    cases a.end? <;> cases b.end? <;> simp
  cases threshold with
  | none => simp [joins, Segment.IsApart]
  | some t => simp [joins, Segment.IsApart, ← Bool.not_eq_true, hjumps]

/-- The parts are what the path splits into. -/
theorem IsSegmentation.parts_eq (h : IsSegmentation threshold path parts pieces) :
    path.splitBy (joins threshold) = parts := by
  refine List.splitBy_eq_iff.2 ⟨h.flatten_eq.symm, h.nil_notMem, fun part hpart => ?_, ?_⟩
  · exact (h.joined part hpart).imp fun a b => joins_iff.2
  · refine h.apart.imp_of_mem_imp fun part next hpart hnext hcut => ?_
    have hne : part ≠ [] := fun hnil => h.nil_notMem (hnil ▸ hpart)
    have hne' : next ≠ [] := fun hnil => h.nil_notMem (hnil ▸ hnext)
    have hapart := hcut _ _ (List.getLast?_eq_some_getLast hne) (List.head?_eq_some_head hne')
    exact ⟨hne, hne', eq_false_of_ne_true fun hjoins => joins_iff.1 hjoins hapart⟩

theorem isSegmentation_splitBy
    (hhead : pieces.head? = (path.splitBy (joins threshold)).head?)
    (hopened : List.Forall₂ IsOpened (path.splitBy (joins threshold)).tail pieces.tail) :
    IsSegmentation threshold path (path.splitBy (joins threshold)) pieces := by
  refine ⟨List.flatten_splitBy _ path, List.nil_notMem_splitBy _ path, fun part hpart => ?_, ?_,
    hhead, hopened⟩
  · exact (List.isChain_of_mem_splitBy hpart).imp fun a b => joins_iff.1
  · refine (List.isChain_getLast_head_splitBy _ path).imp ?_
    rintro part next ⟨hne, hne', hcut⟩ a b ha hb
    rw [List.getLast_of_mem_getLast? ha, List.head_of_mem_head? hb] at hcut
    by_contra hapart
    exact ne_true_of_eq_false hcut (joins_iff.2 hapart)

theorem IsOpened.right_unique : Relator.RightUnique IsOpened := by
  rintro part piece piece' h h'
  cases h with
  | byMove p rest =>
    cases h' with
    | byMove => rfl
    | byJump _ hmove => exact Bool.noConfusion hmove
  | byJump rest hmove hend =>
    cases h' with
    | byMove => exact Bool.noConfusion hmove
    | byJump _ _ hend' => rw [Option.some.inj (hend.symm.trans hend')]

/-! ## The sub-paths -/

/-- A group of a path but the first one: a move, and no other behind it. -/
structure IsGroup (group : List Segment) : Prop where
  exists_move : ∃ p rest, group = .move p :: rest
  isMove_tail : ∀ a ∈ group.tail, a.isMove = false

theorem isGroup_of_mem_tail_splitAtMoves (path : List Segment) :
    ∀ group ∈ (splitAtMoves path).tail, IsGroup group := by
  have hstart : (splitAtMoves path).IsChain fun _ group => ∃ p rest, group = .move p :: rest := by
    refine (List.isChain_getLast_head_splitBy _ path).imp ?_
    rintro group (_ | ⟨_ | _ | _ | _, rest⟩) ⟨-, hne, hcut⟩
    · exact absurd rfl hne
    · exact ⟨_, rest, rfl⟩
    all_goals exact Bool.noConfusion hcut
  intro group hgroup
  exact ⟨forall_mem_tail_of_isChain hstart group hgroup,
    isMove_of_mem_tail_of_mem_splitAtMoves (List.mem_of_mem_tail hgroup)⟩

/-- Behind a jump, without a move of its own, a part is reopened. -/
theorem forall_isOpened_reopen {t : Float} {group : List Segment}
    (hgroup : ∀ a ∈ group.tail, a.isMove = false) {rest : List (List Segment)}
    (heq : group.splitBy (fun a b => !a.jumps t b) = part :: rest) :
    ∀ next ∈ rest, IsOpened next (reopen next) := by
  have hcut := List.isChain_getLast_head_splitBy (fun a b => !Segment.jumps t a b) group
  have hflatten := List.flatten_splitBy (fun a b => !Segment.jumps t a b) group
  rw [heq] at hcut hflatten
  have hend : (part :: rest).IsChain fun _ next =>
      ∃ a p more, next = a :: more ∧ a.end? = some p := by
    refine hcut.imp ?_
    rintro part (_ | ⟨a, more⟩) ⟨hpart, hne, hjoins⟩
    · exact absurd rfl hne
    · have hjumps : (part.getLast hpart).jumps t a = true := by simpa using hjoins
      unfold Segment.jumps at hjumps
      split at hjumps
      · exact ⟨a, _, more, rfl, by assumption⟩
      · exact Bool.noConfusion hjumps
  intro next hnext
  obtain ⟨a, p, more, rfl, hp⟩ := forall_mem_tail_of_isChain hend next hnext
  have hmove : a.isMove = false := by
    refine hgroup a ?_
    have hpart : part ≠ [] := List.ne_nil_of_mem_splitBy
      (heq ▸ List.mem_cons_self : part ∈ group.splitBy fun a b => !a.jumps t b)
    rw [← hflatten, List.flatten_cons, List.tail_append_of_ne_nil hpart]
    exact List.mem_append_right _ (List.mem_flatten.2 ⟨_, hnext, List.mem_cons_self⟩)
  rw [reopen, hp]
  exact .byJump more hmove hp

/-- A group is cut at its jumps, and all but the first part are reopened. -/
theorem forall₂_isOpened_tail_splitAtJumps (t : Float) {group : List Segment}
    (hgroup : ∀ a ∈ group.tail, a.isMove = false) :
    (splitAtJumps t group).head? = (group.splitBy fun a b => !a.jumps t b).head? ∧
      List.Forall₂ IsOpened (group.splitBy fun a b => !a.jumps t b).tail
        (splitAtJumps t group).tail := by
  unfold splitAtJumps
  cases heq : group.splitBy fun a b => !a.jumps t b with
  | nil => exact ⟨rfl, .nil⟩
  | cons part rest =>
    refine ⟨rfl, List.forall₂_map_right_iff.2 (List.forall₂_same.2 ?_)⟩
    exact forall_isOpened_reopen hgroup heq

theorem forall₂_isOpened_splitAtJumps (t : Float) {group : List Segment} (h : IsGroup group) :
    List.Forall₂ IsOpened (group.splitBy fun a b => !a.jumps t b) (splitAtJumps t group) := by
  obtain ⟨p, more, rfl⟩ := h.exists_move
  obtain ⟨hhead, htail⟩ := forall₂_isOpened_tail_splitAtJumps t h.isMove_tail
  have hflatten := List.flatten_splitBy (fun a b => !Segment.jumps t a b) (.move p :: more)
  have hne := List.nil_notMem_splitBy (fun a b => !Segment.jumps t a b) (.move p :: more)
  generalize (Segment.move p :: more).splitBy (fun a b => !a.jumps t b) = parts at *
  generalize splitAtJumps t (.move p :: more) = pieces at *
  rcases parts with _ | ⟨_ | ⟨a, rest⟩, parts⟩
  · exact absurd hflatten nofun
  · exact absurd List.mem_cons_self hne
  · cases pieces with
    | nil => exact absurd hhead nofun
    | cons piece pieces =>
      obtain rfl := Option.some.inj hhead
      obtain rfl : a = .move p := (List.cons.inj hflatten).1
      exact .cons (.byMove p rest) htail

/-- Groups cut at their jumps one after the other. -/
theorem forall₂_isOpened_tail_flatMap (t : Float) {group : List Segment}
    {groups : List (List Segment)} (hne : group ≠ [])
    (hgroup : ∀ a ∈ group.tail, a.isMove = false) (hgroups : ∀ g ∈ groups, IsGroup g) :
    ((group :: groups).flatMap (splitAtJumps t)).head? =
        ((group :: groups).flatMap (·.splitBy fun a b => !a.jumps t b)).head? ∧
      List.Forall₂ IsOpened ((group :: groups).flatMap (·.splitBy fun a b => !a.jumps t b)).tail
        ((group :: groups).flatMap (splitAtJumps t)).tail := by
  obtain ⟨hhead, htail⟩ := forall₂_isOpened_tail_splitAtJumps t hgroup
  have hrest : List.Forall₂ IsOpened (groups.flatMap (·.splitBy fun a b => !a.jumps t b))
      (groups.flatMap (splitAtJumps t)) := by
    refine List.rel_flatMap (R := fun g g' => g = g' ∧ IsGroup g)
      (List.forall₂_same.2 fun g hg => ⟨rfl, hgroups g hg⟩) ?_
    rintro g _ ⟨rfl, hg⟩
    exact forall₂_isOpened_splitAtJumps t hg
  have hparts : group.splitBy (fun a b => !a.jumps t b) ≠ [] := List.splitBy_ne_nil.2 hne
  rw [List.flatMap_cons, List.flatMap_cons]
  generalize group.splitBy (fun a b => !a.jumps t b) = parts at *
  generalize splitAtJumps t group = pieces at *
  cases parts with
  | nil => exact absurd rfl hparts
  | cons part parts =>
    cases pieces with
    | nil => exact absurd hhead nofun
    | cons piece pieces => exact ⟨hhead, List.rel_append htail hrest⟩

/-- Without a threshold the sub-paths are the parts. -/
theorem splitBy_joins_none (path : List Segment) :
    path.splitBy (joins none) = subPaths path none := by
  have hjoins : joins none = fun _ b => !b.isMove := by
    funext a b
    exact Bool.and_true _
  rw [hjoins, subPaths, splitAtMoves]

/-- **The sub-paths are the parts of their path**, those behind a jump reopened. -/
theorem isSegmentation_subPaths (threshold : Option Float) (path : List Segment) :
    IsSegmentation threshold path (path.splitBy (joins threshold)) (subPaths path threshold) := by
  have hgroups := isGroup_of_mem_tail_splitAtMoves path
  cases threshold with
  | none =>
    have hparts := splitBy_joins_none path
    refine isSegmentation_splitBy (congrArg List.head? hparts.symm) ?_
    rw [hparts]
    refine List.forall₂_same.2 fun part hpart => ?_
    obtain ⟨p, rest, rfl⟩ := (hgroups part hpart).exists_move
    exact .byMove p rest
  | some t =>
    have hparts : path.splitBy (joins (some t)) =
        (splitAtMoves path).flatMap (·.splitBy fun a b => !a.jumps t b) :=
      (splitBy_splitBy path).symm
    have hopened : (subPaths path (some t)).head? =
        (path.splitBy (joins (some t))).head? ∧
        List.Forall₂ IsOpened (path.splitBy (joins (some t))).tail
          (subPaths path (some t)).tail := by
      rw [hparts, subPaths]
      cases hsplit : splitAtMoves path with
      | nil => exact ⟨rfl, .nil⟩
      | cons group groups =>
        have hmem : group ∈ splitAtMoves path := hsplit ▸ List.mem_cons_self
        rw [hsplit] at hgroups
        exact forall₂_isOpened_tail_flatMap t (List.ne_nil_of_mem_splitBy hmem)
          (isMove_of_mem_tail_of_mem_splitAtMoves hmem) hgroups
    exact isSegmentation_splitBy hopened.1 hopened.2

/-- **There is one way to cut a path**, and the sub-paths are that. -/
theorem subPaths_eq_iff :
    subPaths path threshold = pieces ↔ ∃ parts, IsSegmentation threshold path parts pieces := by
  have hself := isSegmentation_subPaths threshold path
  constructor
  · rintro rfl
    exact ⟨_, hself⟩
  · rintro ⟨parts, h⟩
    have hhead := hself.head?_eq
    have htail := hself.opened
    rw [h.parts_eq] at hhead htail
    have hhead := hhead.trans h.head?_eq.symm
    have htail := List.right_unique_forall₂' IsOpened.right_unique htail h.opened
    generalize subPaths path threshold = found at hhead htail
    cases found <;> cases pieces <;> simp_all

/-! ## Where the path is cut -/

/-- Neighbours that no part may hold have the end of a part between them. -/
theorem exists_parts_up_to {R : Segment → Segment → Prop} {before after : List Segment}
    {a b : Segment} (hjoined : ∀ part ∈ parts, part.IsChain fun a b => ¬ R a b) (hab : R a b)
    (heq : parts.flatten = before ++ [a] ++ b :: after) :
    ∃ front rear, front ++ rear = parts ∧ front.flatten = before ++ [a] := by
  induction parts generalizing before with
  | nil => exact absurd heq (by simp)
  | cons part parts ih =>
    obtain ⟨hpart, hparts⟩ := List.forall_mem_cons.1 hjoined
    rw [List.flatten_cons] at heq
    rcases List.append_eq_append_iff.1 heq with ⟨between, hfront, hrear⟩ | ⟨between, hfront, hrear⟩
    · rcases List.eq_nil_or_concat between with rfl | ⟨more, c, rfl⟩
      · exact ⟨[part], parts, rfl, by simpa using hfront.symm⟩
      · rw [List.concat_eq_append, ← List.append_assoc] at hfront
        obtain ⟨rfl, hc⟩ := List.append_inj' hfront rfl
        obtain rfl := (List.cons.inj hc).1
        rw [List.concat_eq_append] at hrear
        obtain ⟨front, rear, rfl, hmore⟩ := ih hparts hrear
        exact ⟨part :: front, rear, rfl, by simp [hmore]⟩
    · cases between with
      | nil => exact ⟨[part], parts, rfl, by simpa using hfront⟩
      | cons c between =>
        obtain rfl := (List.cons.inj hrear).1
        rw [List.append_assoc] at hfront
        exact absurd hab (List.isChain_iff_forall_rel_of_append_cons_cons.1 hpart hfront)

/-- **A part ends between two neighbours just if they are apart.** -/
theorem IsSegmentation.cut_iff (h : IsSegmentation threshold path parts pieces)
    {before after : List Segment} {a b : Segment} (heq : before ++ a :: b :: after = path) :
    (∃ front rear, front ++ rear = parts ∧ front.flatten = before ++ [a]) ↔
      a.IsApart threshold b := by
  have hpath : parts.flatten = before ++ [a] ++ b :: after := by simp [h.flatten_eq, heq]
  constructor
  · rintro ⟨front, rear, rfl, hfront⟩
    have hrear : rear.flatten = b :: after := by
      rw [List.flatten_append, hfront] at hpath
      exact List.append_cancel_left hpath
    have hne := h.nil_notMem
    rw [List.mem_append, not_or] at hne
    obtain ⟨-, -, hcut⟩ := List.isChain_append.1 h.apart
    obtain ⟨part, hpart, hlast⟩ : ∃ part ∈ front.getLast?, part.getLast? = some a := by
      rcases List.eq_nil_or_concat front with rfl | ⟨front, part, rfl⟩
      · simp at hfront
      · have hpart : part ≠ [] := by rintro rfl; simp at hne
        refine ⟨part, by simp, ?_⟩
        have hlast := congrArg List.getLast? hfront
        rwa [List.concat_eq_append, List.flatten_concat, List.getLast?_append_of_ne_nil _ hpart,
          List.getLast?_concat] at hlast
    obtain ⟨next, hnext, hfirst⟩ : ∃ next ∈ rear.head?, next.head? = some b := by
      cases rear with
      | nil => exact absurd hrear nofun
      | cons next rear =>
        have hnext : next ≠ [] := by rintro rfl; simp at hne
        refine ⟨next, rfl, ?_⟩
        have hfirst := congrArg List.head? hrear
        rwa [List.flatten_cons, List.head?_append_of_ne_nil _ hnext] at hfirst
    exact hcut part hpart next hnext a b hlast hfirst
  · exact fun hapart => exists_parts_up_to h.joined hapart hpath

/-- An opened part starts with a move. -/
theorem forall_exists_move (h : List.Forall₂ IsOpened parts pieces) :
    ∀ piece ∈ pieces, ∃ p rest, piece = .move p :: rest := by
  induction h with
  | nil => simp
  | cons hpart _ ih =>
    refine List.forall_mem_cons.2 ⟨?_, ih⟩
    cases hpart with
    | byMove p rest => exact ⟨p, rest, rfl⟩
    | byJump rest => exact ⟨_, _, rfl⟩

theorem IsSegmentation.nil_notMem_pieces (h : IsSegmentation threshold path parts pieces) :
    [] ∉ pieces := by
  have hmoves := forall_exists_move h.opened
  have hhead := h.head?_eq
  cases pieces with
  | nil => exact List.not_mem_nil
  | cons piece pieces =>
    rw [List.mem_cons, not_or]
    constructor
    · rintro rfl
      exact h.nil_notMem (List.mem_of_mem_head? hhead.symm)
    · intro hmem
      obtain ⟨p, rest, hnil⟩ := hmoves [] hmem
      exact absurd hnil nofun

/-- **Sub-paths segment their path.**  They are the parts of the path in their order, none of them
empty, where a part behind a jump has a move to the end of its first segment put in front of it;
without a threshold they are the parts themselves.  A part ends in front of each further move and,
under a threshold, between neighbours with end points further apart than that, and nowhere else.
So every sub-path but the first starts with a move. -/
theorem subPaths_segment (threshold : Option Float) (path : List Segment) :
    (∃ parts, IsSegmentation threshold path parts (subPaths path threshold) ∧
      ∀ before a b after, before ++ a :: b :: after = path →
        ((∃ front rear, front ++ rear = parts ∧ front.flatten = before ++ [a]) ↔
          a.IsApart threshold b)) ∧
    (∀ parts pieces, IsSegmentation threshold path parts pieces →
      pieces = subPaths path threshold) ∧
    [] ∉ subPaths path threshold ∧
    (∀ piece ∈ (subPaths path threshold).tail, ∃ p rest, piece = .move p :: rest) ∧
    IsSegmentation none path (subPaths path none) (subPaths path none) := by
  have h := isSegmentation_subPaths threshold path
  have hnone := isSegmentation_subPaths none path
  rw [splitBy_joins_none] at hnone
  refine ⟨⟨_, h, fun before a b after => h.cut_iff⟩, fun parts pieces h' => ?_,
    h.nil_notMem_pieces, forall_exists_move h.opened, hnone⟩
  exact (subPaths_eq_iff.2 ⟨parts, h'⟩).symm

/-- A line before any move, two jumps one after the other, and a close with a jump across it that
is none. -/
example : subPaths
    [.line ⟨0, 0⟩, .line ⟨1, 0⟩, .line ⟨9, 0⟩, .line ⟨20, 0⟩, .close, .line ⟨0, 0⟩, .move ⟨1, 1⟩]
      (some 5) =
    [[.line ⟨0, 0⟩, .line ⟨1, 0⟩], [.move ⟨9, 0⟩, .line ⟨9, 0⟩],
      [.move ⟨20, 0⟩, .line ⟨20, 0⟩, .close, .line ⟨0, 0⟩], [.move ⟨1, 1⟩]] := by
  decide +kernel

end Path
end PageContent
