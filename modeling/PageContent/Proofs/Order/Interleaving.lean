/-
# Sorting a part, and lists made of two

A part of a list, given by a predicate, is sorted by sorting the list: putting an
element into a sorted list and then taking the part is putting it into the part
(`filter_stableSort`).  That needs a total and transitive order, for in an
unsorted list an element of the other part may hold the new one back.  The elements
level with one of them are such a part, and it is in order already, so sorting leaves
their order alone (`isStablySorted_stableSort`).  Of two that are level, the one in front
is the one that came first (`pairwise_stableSort_of_pairwise`).

A list interleaves two lists if it is made of their elements, those of each in
their order (`Interleaves`).  The elements with a property and those without it
are one way to take a list apart (`interleaves_filter`), and the only one if the
property tells the two lists apart (`Interleaves.filter_eq_left`).
-/

import PageContent.Order
import Mathlib.Data.List.Sort

namespace PageContent

variable {α : Type}

/-- Elements are numbered in their order. -/
theorem pairwise_snd_zipIdx (l : List α) : l.zipIdx.Pairwise (·.2 < ·.2) := by
  rw [← List.pairwise_map (f := Prod.snd) (R := (· < ·)), List.zipIdx_map_snd]
  exact List.pairwise_lt_range'

/-! ## Stable sorting -/

section Sorting

variable {le : α → α → Bool}

theorem insertSorted_eq_orderedInsert (a : α) (l : List α) :
    insertSorted le a l = l.orderedInsert (le · · = true) a := by
  induction l with
  | nil => rfl
  | cons b l ih => rw [insertSorted, List.orderedInsert_cons, ih]

/-- Stable sorting is sorting by insertion. -/
theorem stableSort_eq_insertionSort (l : List α) :
    stableSort le l = l.insertionSort (le · · = true) := by
  induction l with
  | nil => rfl
  | cons a l ih =>
    rw [List.insertionSort_cons, ← ih, ← insertSorted_eq_orderedInsert]
    rfl

/-- **A sorted list is in order.** -/
theorem pairwise_stableSort (htotal : ∀ a b, (le a b || le b a) = true)
    (htrans : ∀ a b c, le a b = true → le b c = true → le a c = true) (l : List α) :
    (stableSort le l).Pairwise (le · · = true) := by
  have : Std.Total (le · · = true) := ⟨fun a b => (Bool.or_eq_true _ _).mp (htotal a b)⟩
  have : IsTrans α (le · · = true) := ⟨htrans⟩
  rw [stableSort_eq_insertionSort]
  exact List.pairwise_insertionSort _ l

/-- An element that stands before all goes to the front. -/
theorem insertSorted_of_forall {a : α} {l : List α} (h : ∀ b ∈ l, le a b = true) :
    insertSorted le a l = a :: l := by
  cases l with
  | nil => rfl
  | cons b l => rw [insertSorted, if_pos (h b List.mem_cons_self)]

/-- Putting an element into a sorted list puts it into each part it belongs to. -/
theorem filter_insertSorted (htrans : ∀ a b c, le a b = true → le b c = true → le a c = true)
    (p : α → Bool) (a : α) {l : List α} (hl : l.Pairwise (le · · = true)) :
    (insertSorted le a l).filter p =
      if p a then insertSorted le a (l.filter p) else l.filter p := by
  induction l with
  | nil => cases hp : p a <;> simp [insertSorted, hp]
  | cons b l ih =>
    obtain ⟨hb, hl⟩ := List.pairwise_cons.1 hl
    rw [insertSorted]
    split
    · rename_i hab
      have hfront : ∀ c ∈ (b :: l).filter p, le a c = true := by
        intro c hc
        rcases List.mem_cons.1 (List.mem_filter.1 hc).1 with rfl | hc
        · exact hab
        · exact htrans a b c hab (hb c hc)
      rw [insertSorted_of_forall hfront, List.filter_cons]
    · rename_i hab
      rw [List.filter_cons, ih hl, List.filter_cons]
      by_cases hp : p b = true
      · rw [if_pos hp, if_pos hp, insertSorted, if_neg hab]
        split <;> rfl
      · rw [if_neg hp, if_neg hp]

/-- **Sorting a list sorts each part of it.** -/
theorem filter_stableSort (htotal : ∀ a b, (le a b || le b a) = true)
    (htrans : ∀ a b c, le a b = true → le b c = true → le a c = true) (p : α → Bool) (l : List α) :
    (stableSort le l).filter p = stableSort le (l.filter p) := by
  induction l with
  | nil => rfl
  | cons a l ih =>
    show (insertSorted le a (stableSort le l)).filter p = _
    rw [filter_insertSorted htrans p a (pairwise_stableSort htotal htrans l), ih, List.filter_cons]
    split <;> rfl

/-- An element that came before all others in some order goes in front of those level with it. -/
theorem pairwise_insertSorted (htotal : ∀ a b, (le a b || le b a) = true)
    (htrans : ∀ a b c, le a b = true → le b c = true → le a c = true) {r : α → α → Prop} {a : α}
    {l : List α} (hl : l.Pairwise fun b c => le b c = true ∧ (le c b = true → r b c))
    (ha : ∀ b ∈ l, r a b) :
    (insertSorted le a l).Pairwise fun b c => le b c = true ∧ (le c b = true → r b c) := by
  induction l with
  | nil => exact List.pairwise_singleton _ _
  | cons b l ih =>
    obtain ⟨hb, htail⟩ := List.pairwise_cons.1 hl
    obtain ⟨hab, har⟩ := List.forall_mem_cons.1 ha
    rw [insertSorted]
    split
    · rename_i hle
      refine List.pairwise_cons.2 ⟨List.forall_mem_cons.2 ⟨⟨hle, fun _ => hab⟩, ?_⟩, hl⟩
      intro c hc
      exact ⟨htrans a b c hle (hb c hc).1, fun _ => har c hc⟩
    · rename_i hle
      refine List.pairwise_cons.2 ⟨fun c hc => ?_, ih htail har⟩
      rcases List.mem_cons.1 ((insertSorted_perm le a l).mem_iff.1 hc) with rfl | hc
      · exact ⟨((Bool.or_eq_true _ _).mp (htotal c b)).resolve_left hle, fun h => absurd h hle⟩
      · exact hb c hc

/-- **Sorting keeps level elements in the order they had**, whatever that order is. -/
theorem pairwise_stableSort_of_pairwise (htotal : ∀ a b, (le a b || le b a) = true)
    (htrans : ∀ a b c, le a b = true → le b c = true → le a c = true) {r : α → α → Prop}
    {l : List α} (hl : l.Pairwise r) :
    (stableSort le l).Pairwise fun a b => le a b = true ∧ (le b a = true → r a b) := by
  induction l with
  | nil => exact .nil
  | cons a l ih =>
    obtain ⟨ha, hl⟩ := List.pairwise_cons.1 hl
    refine pairwise_insertSorted htotal htrans (ih hl) fun b hb => ha b ?_
    exact (stableSort_perm le l).mem_iff.1 hb

/-- A list in order stays as it is. -/
theorem stableSort_of_pairwise {l : List α} (h : l.Pairwise (le · · = true)) :
    stableSort le l = l := by
  rw [stableSort_eq_insertionSort, h.insertionSort_eq]

/-- The first list in order, elements level with each other in the order they had. -/
structure IsStablySorted (le : α → α → Bool) (l sorted : List α) : Prop where
  perm : sorted.Perm l
  pairwise : sorted.Pairwise (le · · = true)
  filter_level : ∀ a, sorted.filter (fun b => le a b && le b a) =
    l.filter fun b => le a b && le b a

/-- **Stable sorting sorts, and keeps the order of level elements.** -/
theorem isStablySorted_stableSort (htotal : ∀ a b, (le a b || le b a) = true)
    (htrans : ∀ a b c, le a b = true → le b c = true → le a c = true) (l : List α) :
    IsStablySorted le l (stableSort le l) := by
  refine ⟨stableSort_perm le l, pairwise_stableSort htotal htrans l, fun a => ?_⟩
  rw [filter_stableSort htotal htrans]
  refine stableSort_of_pairwise (List.pairwise_iff_forall_sublist.2 fun {b c} hbc => ?_)
  have hlevel : ∀ d ∈ [b, c], le a d = true ∧ le d a = true := fun d hd =>
    (Bool.and_eq_true _ _).mp (List.mem_filter.1 (hbc.mem hd)).2
  exact htrans b a c (hlevel b (by simp)).2 (hlevel c (by simp)).1

/-- **Sorting by a key** in a total order sorts stably. -/
theorem isStablySorted_by {β : Type} (r : β → β → Prop) [DecidableRel r] [Std.Total r]
    [IsTrans β r] (key : α → β) (l : List α) :
    IsStablySorted (fun a b => decide (r (key a) (key b))) l
      (stableSort (fun a b => decide (r (key a) (key b))) l) := by
  refine isStablySorted_stableSort (fun a b => ?_) (fun a b c => ?_) l
  · rw [Bool.or_eq_true, decide_eq_true_iff, decide_eq_true_iff]
    exact Std.Total.total (key a) (key b)
  · rw [decide_eq_true_iff, decide_eq_true_iff, decide_eq_true_iff]
    exact Trans.trans

/-- Sorting does not see a map that the order does not see. -/
theorem stableSort_map {f : α → α} (h : ∀ a b, le (f a) (f b) = le a b) (l : List α) :
    stableSort le (l.map f) = (stableSort le l).map f := by
  rw [stableSort_eq_insertionSort, stableSort_eq_insertionSort]
  exact (List.map_insertionSort _ _ f l fun a _ b _ => by rw [h]).symm

end Sorting

/-! ## Interleavings -/

/-- The third list is made of the elements of the other two, those of each in their order. -/
inductive Interleaves : List α → List α → List α → Prop where
  | nil : Interleaves [] [] []
  | left (a : α) {as bs l : List α} : Interleaves as bs l → Interleaves (a :: as) bs (a :: l)
  | right (b : α) {as bs l : List α} : Interleaves as bs l → Interleaves as (b :: bs) (b :: l)

/-- The elements with a property and those without it. -/
theorem interleaves_filter (p : α → Bool) (l : List α) :
    Interleaves (l.filter p) (l.filter (!p ·)) l := by
  induction l with
  | nil => exact .nil
  | cons a l ih =>
    cases hp : p a with
    | true =>
      rw [List.filter_cons_of_pos hp, List.filter_cons_of_neg (by simp [hp])]
      exact .left a ih
    | false =>
      rw [List.filter_cons_of_neg (by simp [hp]), List.filter_cons_of_pos (by simp [hp])]
      exact .right a ih

namespace Interleaves

variable {as bs l : List α}

theorem symm (h : Interleaves as bs l) : Interleaves bs as l := by
  induction h with
  | nil => exact .nil
  | left a _ ih => exact .right a ih
  | right b _ ih => exact .left b ih

/-- An interleaving is a list of the same elements as the two lists one behind the other. -/
theorem perm (h : Interleaves as bs l) : l.Perm (as ++ bs) := by
  induction h with
  | nil => exact .refl _
  | left a _ ih => exact ih.cons a
  | right b _ ih => exact (ih.cons b).trans List.perm_middle.symm

/-- A property that tells the two lists apart gets them back. -/
theorem filter_eq_left (h : Interleaves as bs l) {p : α → Bool} (has : ∀ a ∈ as, p a = true)
    (hbs : ∀ b ∈ bs, p b = false) : l.filter p = as := by
  induction h with
  | nil => rfl
  | left a _ ih =>
    obtain ⟨ha, has⟩ := List.forall_mem_cons.1 has
    rw [List.filter_cons_of_pos ha, ih has hbs]
  | right b _ ih =>
    obtain ⟨hb, hbs⟩ := List.forall_mem_cons.1 hbs
    rw [List.filter_cons_of_neg (ne_true_of_eq_false hb), ih has hbs]

/-- What is made of the first list alone is made of an interleaving with the second. -/
theorem filterMap_left {β : Type} {f : α → Option β} (h : Interleaves as bs l)
    (hbs : ∀ b ∈ bs, f b = none) : l.filterMap f = as.filterMap f := by
  induction h with
  | nil => rfl
  | left a _ ih => rw [List.filterMap_cons, List.filterMap_cons, ih hbs]
  | right b _ ih =>
    obtain ⟨hb, hbs⟩ := List.forall_mem_cons.1 hbs
    rw [List.filterMap_cons_none hb, ih hbs]

end Interleaves
end PageContent
