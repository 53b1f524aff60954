/-
# What makes pieces the pieces of a text

`splitWords` gives words and gaps in turn, from a word to a word, and none of them is empty
between two others (`isSplit_splitWords`).  Pieces of that kind are the ones of the text that
they make up, so a text has no others (`splitWords_flatten`).

What stands together among the pieces of a text is words and gaps in turn as well
(`InTurn.infix`), but it may end with a gap.  Without the blanks at its end it has some of these
pieces, from the first on (`exists_prefix_trimEnd`).

| the pieces end with | left without trailing blanks |
| --- | --- |
| a word that is not empty | all |
| a gap, or an empty word behind one | all in front of the gap |
-/

import PageContent.Proofs.Text.Words
import Mathlib.Data.List.Induction

namespace PageContent
namespace Text

/-- Words and gaps in turn, none of them empty between two others; the flag says whether a
word comes first. -/
structure InTurn (atWord : Bool) (pieces : List (List Char)) : Prop where
  alternates : Alternates atWord pieces
  ne_nil : ∀ before piece after, pieces = before ++ piece :: after → before ≠ [] → after ≠ [] →
    piece ≠ []

/-- Words and gaps in turn from a word to a word. -/
structure IsSplit (pieces : List (List Char)) : Prop extends InTurn true pieces where
  length_mod_two : pieces.length % 2 = 1

/-! ## Gaps -/

/-- What is a word and a gap is nothing. -/
theorem IsGap.eq_nil {w : List Char} (h : IsGap w) (hword : ∀ c ∈ w, isBlank c = false) :
    w = [] :=
  List.eq_nil_iff_forall_not_mem.2 fun c hc =>
    absurd ((h c hc).symm.trans (hword c hc)) Bool.noConfusion

/-! ## Words and gaps in turn -/

theorem inTurn_singleton {word : List Char} (h : ∀ c ∈ word, isBlank c = false) :
    InTurn true [word] := by
  refine ⟨⟨h, trivial⟩, fun before piece after heq hbefore _ => ?_⟩
  obtain ⟨first, before, rfl⟩ := List.exists_cons_of_ne_nil hbefore
  rw [List.cons_append, List.cons_eq_cons] at heq
  exact absurd heq.2.symm (List.append_ne_nil_of_right_ne_nil _ (List.cons_ne_nil _ _))

/-- A word and a gap stand in front of words and gaps in turn that do not start with an empty
word, unless that is all there is. -/
theorem inTurn_cons_cons {word gap : List Char} {rest : List (List Char)} :
    InTurn true (word :: gap :: rest) ↔
      (∀ c ∈ word, isBlank c = false) ∧ gap ≠ [] ∧ IsGap gap ∧ InTurn true rest ∧
        ∀ v rest', rest = v :: rest' → rest' ≠ [] → v ≠ [] := by
  constructor
  · rintro ⟨⟨hword, hne, hgap, hrest⟩, hinner⟩
    refine ⟨hword, hne, hgap, ⟨hrest, ?_⟩, ?_⟩
    · rintro before piece after rfl - hafter
      exact hinner (word :: gap :: before) _ _ rfl (List.cons_ne_nil _ _) hafter
    · rintro v rest' rfl hrest'
      exact hinner [word, gap] _ _ rfl (List.cons_ne_nil _ _) hrest'
  · rintro ⟨hword, hne, hgap, ⟨hrest, hinner⟩, hfirst⟩
    refine ⟨⟨hword, hne, hgap, hrest⟩, fun before piece after heq hbefore hafter => ?_⟩
    -- The piece is the gap, the word behind it, or one further on.
    rcases before with - | ⟨_, - | ⟨_, - | ⟨v, before⟩⟩⟩
    · exact absurd rfl hbefore
    · obtain ⟨-, rfl, -⟩ := heq
      exact hne
    · obtain ⟨-, -, rfl⟩ := heq
      exact hfirst piece after rfl hafter
    · obtain ⟨-, -, rfl⟩ := heq
      exact hinner (v :: before) _ _ rfl (List.cons_ne_nil _ _) hafter

/-- The first word may be another one. -/
theorem InTurn.change_word {word word' : List Char} {rest : List (List Char)}
    (h : InTurn true (word :: rest)) (hword' : ∀ c ∈ word', isBlank c = false) :
    InTurn true (word' :: rest) := by
  cases rest with
  | nil => exact inTurn_singleton hword'
  | cons gap rest => exact inTurn_cons_cons.2 ⟨hword', (inTurn_cons_cons.1 h).2⟩

/-- Behind a gap come words and gaps in turn. -/
theorem InTurn.of_gap {gap : List Char} {rest : List (List Char)}
    (h : InTurn false (gap :: rest)) : InTurn true rest := by
  refine ⟨h.alternates.2.2, ?_⟩
  rintro before piece after rfl - hafter
  exact h.ne_nil (gap :: before) piece after rfl (List.cons_ne_nil _ _) hafter

theorem alternates_of_append {atWord : Bool} {before pieces after : List (List Char)}
    (h : Alternates atWord (before ++ (pieces ++ after))) :
    ∃ atWord', Alternates atWord' pieces := by
  induction before generalizing atWord with
  | nil =>
    refine ⟨atWord, ?_⟩
    rw [List.nil_append] at h
    induction pieces generalizing atWord with
    | nil => trivial
    | cons piece pieces ih =>
      cases atWord with
      | true => exact ⟨h.1, ih h.2⟩
      | false => exact ⟨h.1, h.2.1, ih h.2.2⟩
  | cons piece before ih =>
    cases atWord with
    | true => exact ih h.2
    | false => exact ih h.2.2

/-- **What stands together among words and gaps in turn is so too.** -/
theorem InTurn.infix {atWord : Bool} {before pieces after : List (List Char)}
    (h : InTurn atWord (before ++ (pieces ++ after))) : ∃ atWord', InTurn atWord' pieces := by
  obtain ⟨atWord', halternates⟩ := alternates_of_append h.alternates
  refine ⟨atWord', halternates, ?_⟩
  rintro before' piece after' rfl hbefore hafter
  refine h.ne_nil (before ++ before') piece (after' ++ after) ?_ ?_ ?_
  · simp only [List.append_assoc, List.cons_append]
  · exact List.append_ne_nil_of_right_ne_nil _ hbefore
  · exact List.append_ne_nil_of_left_ne_nil hafter _

/-- Up to a word, the number of pieces is odd. -/
theorem InTurn.length_mod_two {pieces : List (List Char)} (h : InTurn true pieces)
    {word : List Char} (hlast : pieces.getLast? = some word)
    (hword : ∀ c ∈ word, isBlank c = false) : pieces.length % 2 = 1 := by
  induction pieces using List.twoStepInduction with
  | nil => exact absurd hlast nofun
  | singleton => rfl
  | cons_cons first gap rest ih =>
    obtain ⟨-, hne, hgap, hrest, -⟩ := inTurn_cons_cons.1 h
    rw [List.getLast?_cons_cons] at hlast
    cases rest with
    | nil =>
      obtain rfl := Option.some.inj hlast
      exact absurd (hgap.eq_nil hword) hne
    | cons v rest =>
      rw [List.getLast?_cons_cons] at hlast
      have hlength := ih hrest hlast
      rw [List.length_cons, List.length_cons]
      omega

theorem isSplit_cons_cons {word gap : List Char} {rest : List (List Char)} :
    IsSplit (word :: gap :: rest) ↔
      (∀ c ∈ word, isBlank c = false) ∧ gap ≠ [] ∧ IsGap gap ∧ IsSplit rest ∧
        ∀ v rest', rest = v :: rest' → rest' ≠ [] → v ≠ [] := by
  have hlength : (word :: gap :: rest).length % 2 = rest.length % 2 := Nat.add_mod_right _ 2
  constructor
  · rintro ⟨h, hodd⟩
    obtain ⟨hword, hne, hgap, hrest, hfirst⟩ := inTurn_cons_cons.1 h
    exact ⟨hword, hne, hgap, ⟨hrest, hlength ▸ hodd⟩, hfirst⟩
  · rintro ⟨hword, hne, hgap, ⟨hrest, hodd⟩, hfirst⟩
    exact ⟨inTurn_cons_cons.2 ⟨hword, hne, hgap, hrest, hfirst⟩, hlength.trans hodd⟩

/-! ## The pieces of a text -/

theorem prependChar_of_isBlank {c : Char} (hc : isBlank c = true) {word : List Char}
    {rest : List (List Char)} (hword : rest ≠ [] → word ≠ []) :
    prependChar c (word :: rest) = [] :: [c] :: word :: rest := by
  unfold prependChar
  split
  · rename_i heq
    obtain ⟨rfl, rfl⟩ := List.cons_eq_cons.1 heq
    exact absurd rfl (hword (List.cons_ne_nil _ _))
  · rename_i heq
    obtain ⟨rfl, rfl⟩ := List.cons_eq_cons.1 heq
    rw [if_pos hc]
  · rename_i heq
    exact absurd heq (List.cons_ne_nil _ _)

theorem prependChar_of_not_isBlank {c : Char} (hc : isBlank c = false) (word : List Char)
    (rest : List (List Char)) : prependChar c (word :: rest) = (c :: word) :: rest := by
  have hc' : ¬ isBlank c = true := Bool.not_eq_true _ ▸ hc
  unfold prependChar
  split
  · rename_i heq
    obtain ⟨rfl, rfl⟩ := List.cons_eq_cons.1 heq
    rw [if_neg hc']
  · rename_i heq
    obtain ⟨rfl, rfl⟩ := List.cons_eq_cons.1 heq
    rw [if_neg hc']
  · rename_i heq
    exact absurd heq (List.cons_ne_nil _ _)

theorem InTurn.prependChar (c : Char) {word : List Char} {rest : List (List Char)}
    (h : InTurn true (word :: rest)) : InTurn true (prependChar c (word :: rest)) := by
  cases hc : isBlank c with
  | false =>
    rw [prependChar_of_not_isBlank hc]
    exact h.change_word (List.forall_mem_cons.2 ⟨hc, h.alternates.1⟩)
  | true =>
    by_cases hword : rest ≠ [] → word ≠ []
    · rw [prependChar_of_isBlank hc hword]
      refine inTurn_cons_cons.2 ⟨fun _ h => absurd h List.not_mem_nil, List.cons_ne_nil _ _,
        isGap_cons.2 ⟨hc, isGap_nil⟩, h, ?_⟩
      rintro v rest' heq
      obtain ⟨rfl, rfl⟩ := List.cons_eq_cons.1 heq
      exact hword
    · -- The gap behind an empty word takes the blank.
      obtain ⟨hrest, rfl⟩ : rest ≠ [] ∧ word = [] := by rwa [Classical.not_imp, not_not] at hword
      obtain ⟨gap, rest, rfl⟩ := List.exists_cons_of_ne_nil hrest
      obtain ⟨hword, -, hgap, hrest⟩ := inTurn_cons_cons.1 h
      rw [Text.prependChar, if_pos hc]
      exact inTurn_cons_cons.2 ⟨hword, List.cons_ne_nil _ _, isGap_cons.2 ⟨hc, hgap⟩, hrest⟩

/-- **The pieces of a text are words and gaps in turn from a word to a word.** -/
theorem isSplit_splitWords (s : List Char) : IsSplit (splitWords s) := by
  refine ⟨?_, length_splitWords_mod_two s⟩
  induction s with
  | nil => exact inTurn_singleton fun _ h => absurd h List.not_mem_nil
  | cons c s ih =>
    obtain ⟨word, rest, heq, -⟩ := alternates_splitWords s
    rw [heq] at ih
    rw [splitWords_cons, heq]
    exact ih.prependChar c

/-- A word in front of a text lengthens its first word. -/
theorem splitWords_word_append {word : List Char} (hword : ∀ c ∈ word, isBlank c = false)
    {s v : List Char} {rest : List (List Char)} (h : splitWords s = v :: rest) :
    splitWords (word ++ s) = (word ++ v) :: rest := by
  induction word with
  | nil => exact h
  | cons c word ih =>
    obtain ⟨hc, hword⟩ := List.forall_mem_cons.1 hword
    rw [List.cons_append, splitWords_cons, ih hword, prependChar_of_not_isBlank hc,
      List.cons_append]

/-- A gap in front of a text stands behind an empty word. -/
theorem splitWords_gap_append {gap : List Char} (hne : gap ≠ []) (hgap : IsGap gap)
    {s v : List Char} {rest : List (List Char)} (h : splitWords s = v :: rest)
    (hv : rest ≠ [] → v ≠ []) : splitWords (gap ++ s) = [] :: gap :: v :: rest := by
  induction gap with
  | nil => exact absurd rfl hne
  | cons c gap ih =>
    obtain ⟨hc, hgap⟩ := isGap_cons.1 hgap
    rw [List.cons_append, splitWords_cons]
    cases gap with
    | nil => rw [List.nil_append, h, prependChar_of_isBlank hc hv]
    | cons d gap => rw [ih (List.cons_ne_nil _ _) hgap, prependChar, if_pos hc]

/-- **Words and gaps in turn from a word to a word are the pieces of their text.** -/
theorem splitWords_flatten {pieces : List (List Char)} (h : IsSplit pieces) :
    splitWords pieces.flatten = pieces := by
  induction pieces using List.twoStepInduction with
  | nil => exact absurd h.length_mod_two Nat.zero_ne_one
  | singleton word =>
    rw [List.flatten_cons, splitWords_word_append h.alternates.1 rfl, List.append_nil]
  | cons_cons word gap rest ih =>
    obtain ⟨hword, hne, hgap, hrest, hfirst⟩ := isSplit_cons_cons.1 h
    cases rest with
    | nil => exact absurd hrest.length_mod_two Nat.zero_ne_one
    | cons v rest =>
      have hgaps := splitWords_gap_append hne hgap (ih hrest) (hfirst v rest rfl)
      rw [List.flatten_cons, List.flatten_cons, splitWords_word_append hword hgaps,
        List.append_nil]

/-! ## Without trailing blanks -/

theorem trimEnd_of_forall {w : List Char} (h : ∀ c ∈ w, isBlank c = false) : trimEnd w = w := by
  have hreverse : trimStart w.reverse = w.reverse :=
    trimStart_of_forall fun c hc => h c (List.mem_reverse.1 hc)
  rw [trimEnd, ← trimStart, hreverse, List.reverse_reverse]

/-- A text loses its trailing blanks behind what is in front, unless nothing else is left of
it. -/
theorem trimEnd_append (s t : List Char) :
    trimEnd (s ++ t) = if trimEnd t = [] then trimEnd s else s ++ trimEnd t := by
  rw [trimEnd, List.reverse_append, List.dropWhile_append]
  simp only [trimEnd, List.isEmpty_iff, List.reverse_eq_nil_iff]
  split
  · rfl
  · rw [List.reverse_append, List.reverse_reverse]

/-- **Without the blanks at its end, words and gaps in turn keep the pieces up to a word.** -/
theorem InTurn.exists_prefix_trimEnd {pieces : List (List Char)} (h : InTurn true pieces)
    (hne : pieces ≠ []) :
    ∃ kept, kept <+: pieces ∧ IsSplit kept ∧ kept.flatten = trimEnd pieces.flatten := by
  induction pieces using List.twoStepInduction with
  | nil => exact absurd rfl hne
  | singleton word =>
    refine ⟨[word], List.prefix_rfl, ⟨h, rfl⟩, ?_⟩
    rw [List.flatten_singleton, trimEnd_of_forall h.alternates.1]
  | cons_cons word gap rest ih =>
    obtain ⟨hword, hgapne, hgap, hrest, hfirst⟩ := inTurn_cons_cons.1 h
    rw [List.flatten_cons, List.flatten_cons]
    by_cases hlost : trimEnd rest.flatten = []
    · refine ⟨[word], List.prefix_append [word] _, ⟨inTurn_singleton hword, rfl⟩, ?_⟩
      rw [trimEnd_append, trimEnd_append, if_pos hlost, if_pos hgap.trimEnd_eq_nil,
        trimEnd_of_forall hword, List.flatten_singleton]
    · have hne : rest ≠ [] := by
        rintro rfl
        exact hlost rfl
      obtain ⟨kept, hbegin, hkept, heq⟩ := ih hrest hne
      refine ⟨word :: gap :: kept, ?_, isSplit_cons_cons.2 ⟨hword, hgapne, hgap, hkept, ?_⟩, ?_⟩
      · exact (List.prefix_cons_inj word).2 ((List.prefix_cons_inj gap).2 hbegin)
      · rintro v kept rfl hkeptne
        obtain ⟨after, rfl⟩ := hbegin
        exact hfirst v (kept ++ after) rfl (List.append_ne_nil_of_left_ne_nil hkeptne after)
      · have hgaprest : trimEnd (gap ++ rest.flatten) = gap ++ trimEnd rest.flatten := by
          rw [trimEnd_append, if_neg hlost]
        rw [trimEnd_append, hgaprest, if_neg (List.append_ne_nil_of_left_ne_nil hgapne _),
          List.flatten_cons, List.flatten_cons, heq]

end Text
end PageContent
