/-
# Texts put together from contents and gaps

A text is read in three ways:

| reading | what it keeps |
| --- | --- |
| `splitWords s` | words and gaps in turn (`alternates_splitWords`) |
| `words s` | the non-empty pieces between blanks |
| `IsWeave contents gaps s` | `s` is content, gap, content, gap, …, no inner gap empty |

Words stand at both ends of the pieces (`getLast_splitWords`).
A weave loses no word (`IsWeave.flatMap_words`): a run of blanks between two texts
keeps their words apart (`words_append_gap`).  In a text whose gaps are single spaces the
contents decide the text (`IsWeave.intercalate_eq`).
-/

import PageContent.Text.Words
import Mathlib.Data.List.Infix
import Mathlib.Data.List.TakeWhile

namespace PageContent
namespace Text

/-- A run of blanks, which may be empty. -/
def IsGap (w : List Char) : Prop := ∀ c ∈ w, isBlank c = true

instance (w : List Char) : Decidable (IsGap w) :=
  List.decidableBAll (isBlank · = true) w

theorem isGap_nil : IsGap [] := fun _ h => absurd h List.not_mem_nil

theorem isGap_cons {c : Char} {w : List Char} : IsGap (c :: w) ↔ isBlank c = true ∧ IsGap w :=
  List.forall_mem_cons

theorem IsGap.append {v w : List Char} (hv : IsGap v) (hw : IsGap w) : IsGap (v ++ w) :=
  fun c hc => (List.mem_append.1 hc).elim (hv c) (hw c)

/-- What `trimStart` removes is a gap. -/
theorem isGap_takeWhile (s : List Char) : IsGap (s.takeWhile isBlank) :=
  fun _ hc => List.mem_takeWhile_imp hc

/-- A gap without its leading blanks is nothing. -/
theorem IsGap.trimStart_eq_nil {w : List Char} (h : IsGap w) : trimStart w = [] :=
  List.dropWhile_eq_nil_iff.2 h

/-- Nor is anything left of it without its trailing ones. -/
theorem IsGap.trimEnd_eq_nil {w : List Char} (h : IsGap w) : trimEnd w = [] := by
  rw [trimEnd, List.dropWhile_eq_nil_iff.2 fun c hc => h c (List.mem_reverse.1 hc),
    List.reverse_nil]

/-- A text without blanks has none to lose. -/
theorem trimStart_of_forall {w : List Char} (h : ∀ c ∈ w, isBlank c = false) :
    trimStart w = w := by
  cases w with
  | nil => rfl
  | cons c w =>
    exact List.dropWhile_cons_of_neg (Bool.not_eq_true _ ▸ h c List.mem_cons_self)

/-- A word, which holds no blank, or a gap. -/
def IsPiece (w : List Char) : Prop := (∀ c ∈ w, isBlank c = false) ∨ IsGap w

theorem IsPiece.trimStart {w : List Char} (h : IsPiece w) : IsPiece (trimStart w) := by
  rcases h with hword | hgap
  · rw [trimStart_of_forall hword]
    exact .inl hword
  · rw [hgap.trimStart_eq_nil]
    exact .inr isGap_nil

/-- The blanks that `trimEnd` removes. -/
def trailing (s : List Char) : List Char := (s.reverse.takeWhile isBlank).reverse

theorem trimEnd_append_trailing (s : List Char) : trimEnd s ++ trailing s = s :=
  trimEnd_append_takeWhile s

theorem isGap_trailing (s : List Char) : IsGap (trailing s) := by
  intro c hc
  rw [trailing, List.mem_reverse] at hc
  exact isGap_takeWhile _ c hc

/-- A text that ends with a blank has one to lose. -/
theorem trailing_append_ne_nil (s : List Char) {w : List Char} (hw : w ≠ []) (h : IsGap w) :
    trailing (s ++ w) ≠ [] := by
  obtain ⟨v, c, rfl⟩ := (List.eq_nil_or_concat w).resolve_left hw
  rw [List.concat_eq_append] at h ⊢
  have hc : isBlank c = true := h c (List.mem_append_right v (List.mem_singleton_self c))
  rw [trailing, ← List.append_assoc, List.reverse_append, List.reverse_singleton,
    List.singleton_append, List.takeWhile_cons_of_pos hc]
  exact List.reverse_ne_nil_iff.2 (List.cons_ne_nil _ _)

/-! ## Words and gaps in turn -/

/-- Words, which hold no blank, and non-empty gaps in turn; the flag says whether a word
comes first. -/
def Alternates : Bool → List (List Char) → Prop
  | _, [] => True
  | true, word :: rest => (∀ c ∈ word, isBlank c = false) ∧ Alternates false rest
  | false, gap :: rest => gap ≠ [] ∧ IsGap gap ∧ Alternates true rest

/-- A character in front of words and gaps leaves words and gaps. -/
theorem alternates_prependChar (c : Char) {word : List Char} {rest : List (List Char)}
    (h : Alternates true (word :: rest)) :
    ∃ word' rest', prependChar c (word :: rest) = word' :: rest' ∧
      Alternates true (word' :: rest') := by
  obtain ⟨hword, hrest⟩ := h
  unfold prependChar
  by_cases hc : isBlank c = true
  · split
    · rename_i gap rest heq
      obtain ⟨rfl, rfl⟩ := List.cons_eq_cons.1 heq
      obtain ⟨-, hgap, hrest⟩ := hrest
      rw [if_pos hc]
      exact ⟨_, _, rfl, hword, List.cons_ne_nil _ _, isGap_cons.2 ⟨hc, hgap⟩, hrest⟩
    · rename_i word rest _ heq
      obtain ⟨rfl, rfl⟩ := List.cons_eq_cons.1 heq
      rw [if_pos hc]
      exact ⟨_, _, rfl, fun _ h => absurd h List.not_mem_nil, List.cons_ne_nil _ _,
        isGap_cons.2 ⟨hc, isGap_nil⟩, hword, hrest⟩
    · rename_i heq
      exact absurd heq (List.cons_ne_nil _ _)
  · have hword' : ∀ d ∈ c :: word, isBlank d = false :=
      List.forall_mem_cons.2 ⟨eq_false_of_ne_true hc, hword⟩
    split
    · rename_i gap rest heq
      obtain ⟨rfl, rfl⟩ := List.cons_eq_cons.1 heq
      rw [if_neg hc]
      exact ⟨_, _, rfl, hword', hrest⟩
    · rename_i word rest _ heq
      obtain ⟨rfl, rfl⟩ := List.cons_eq_cons.1 heq
      rw [if_neg hc]
      exact ⟨_, _, rfl, hword', hrest⟩
    · rename_i heq
      exact absurd heq (List.cons_ne_nil _ _)

/-- **The pieces of a text are words and gaps in turn**, a word first. -/
theorem alternates_splitWords (s : List Char) :
    ∃ word rest, splitWords s = word :: rest ∧ Alternates true (word :: rest) := by
  induction s with
  | nil => exact ⟨[], [], rfl, fun _ h => absurd h List.not_mem_nil, trivial⟩
  | cons c s ih =>
    obtain ⟨word, rest, heq, h⟩ := ih
    rw [splitWords_cons, heq]
    exact alternates_prependChar c h

/-- A text has one more word than gaps: an odd number of pieces. -/
theorem length_splitWords_mod_two (s : List Char) : (splitWords s).length % 2 = 1 := by
  induction s with
  | nil => rfl
  | cons c s ih =>
    rw [splitWords_cons]
    unfold prependChar
    split
    · rename_i heq
      rw [heq] at ih
      split <;> exact ih
    · rename_i heq
      rw [heq] at ih
      split
      · rw [List.length_cons, List.length_cons]
        omega
      · exact ih
    · rfl

/-- Pieces in turn, an even number of them behind a word, end with a word. -/
theorem getLast_of_alternates {atWord : Bool} {pieces : List (List Char)}
    (h : Alternates atWord pieces) (hlength : pieces.length % 2 = if atWord then 1 else 0)
    {piece : List Char} (hlast : pieces.getLast? = some piece) :
    ∀ c ∈ piece, isBlank c = false := by
  induction pieces generalizing atWord with
  | nil => exact absurd hlast nofun
  | cons p pieces ih =>
    cases pieces with
    | nil =>
      cases atWord with
      | true =>
        obtain rfl := Option.some.inj hlast
        exact h.1
      | false => exact absurd hlength Nat.one_ne_zero
    | cons q pieces =>
      rw [List.getLast?_cons_cons] at hlast
      rw [List.length_cons] at hlength
      cases atWord with
      | true => exact ih h.2 (by simp at hlength ⊢; omega) hlast
      | false => exact ih h.2.2 (by simp at hlength ⊢; omega) hlast

/-- **The pieces of a text end with a word.** -/
theorem getLast_splitWords {s piece : List Char} (h : (splitWords s).getLast? = some piece) :
    ∀ c ∈ piece, isBlank c = false := by
  obtain ⟨word, rest, heq, halternates⟩ := alternates_splitWords s
  have hlength := length_splitWords_mod_two s
  rw [heq] at h hlength
  exact getLast_of_alternates halternates hlength h

/-! ## Words -/

/-- The words of a text: its non-empty pieces between blanks. -/
def words (s : List Char) : List (List Char) := (s.splitOnP isBlank).filter (· ≠ [])

@[simp] theorem words_nil : words [] = [] := rfl

/-- **A blank keeps the words on its sides apart.** -/
theorem words_append_cons {c : Char} (hc : isBlank c = true) (s t : List Char) :
    words (s ++ c :: t) = words s ++ words t := by
  rw [words, List.splitOnP_append_cons s t hc, List.filter_append]
  rfl

/-- A gap in front of a text is no part of a word. -/
theorem words_gap_append {w : List Char} (hw : IsGap w) (s : List Char) :
    words (w ++ s) = words s := by
  induction w with
  | nil => rfl
  | cons c w ih =>
    obtain ⟨hc, hw⟩ := isGap_cons.1 hw
    rw [List.cons_append, ← List.nil_append (c :: (w ++ s)), words_append_cons hc, words_nil,
      List.nil_append, ih hw]

/-- Nor is one behind it. -/
theorem words_append_gap (s : List Char) {w : List Char} (hw : IsGap w) :
    words (s ++ w) = words s := by
  cases w with
  | nil => rw [List.append_nil]
  | cons c w =>
    obtain ⟨hc, hw⟩ := isGap_cons.1 hw
    rw [words_append_cons hc, ← List.append_nil w, words_gap_append hw, words_nil,
      List.append_nil]

/-- A text without blanks has no more than one word. -/
theorem length_words_le_one {w : List Char} (h : ∀ c ∈ w, isBlank c = false) :
    (words w).length ≤ 1 := by
  rw [words, List.splitOnP_eq_singleton fun c hc => Bool.not_eq_true _ ▸ h c hc]
  exact List.length_filter_le _ [w]

/-- A gap that is not empty keeps the words on its sides apart. -/
theorem words_append_gap_append (s t : List Char) {w : List Char} (hw : IsGap w) (hne : w ≠ []) :
    words (s ++ (w ++ t)) = words s ++ words t := by
  obtain ⟨c, w, rfl⟩ := List.exists_cons_of_ne_nil hne
  obtain ⟨hc, hw⟩ := isGap_cons.1 hw
  rw [List.cons_append, words_append_cons hc, words_gap_append hw]

/-! ## Weaves -/

/-- A text that is content, gap, content, gap, … in turn, with no empty gap between two
contents; the gap behind the last one may be empty. -/
structure IsWeave (contents gaps : List (List Char)) (s : List Char) : Prop where
  length_eq : gaps.length = contents.length
  isGap : ∀ w ∈ gaps, IsGap w
  ne_nil : ∀ w ∈ gaps.dropLast, w ≠ []
  text_eq : (List.zipWith (· ++ ·) contents gaps).flatten = s

namespace IsWeave

variable {contents gaps : List (List Char)} {s : List Char}

theorem nil : IsWeave [] [] [] := ⟨rfl, by simp, by simp, rfl⟩

/-- A content and a gap in front of a weave; the gap may be empty if nothing follows. -/
theorem cons (c : List Char) {w : List Char} (hw : IsGap w) (hne : contents ≠ [] → w ≠ [])
    (h : IsWeave contents gaps s) : IsWeave (c :: contents) (w :: gaps) (c ++ (w ++ s)) := by
  refine ⟨congrArg (· + 1) h.length_eq, List.forall_mem_cons.2 ⟨hw, h.isGap⟩, ?_, ?_⟩
  · cases gaps with
    | nil => exact fun _ hv => absurd hv List.not_mem_nil
    | cons v gaps =>
      have hcontents : contents ≠ [] := by
        rintro rfl
        exact absurd h.length_eq (Nat.succ_ne_zero _)
      exact List.forall_mem_cons.2 ⟨hne hcontents, h.ne_nil⟩
  · rw [List.zipWith_cons_cons, List.flatten_cons, h.text_eq, List.append_assoc]

/-- The first content of a weave, its gap and the weave behind them. -/
theorem cases_cons {c : List Char} (h : IsWeave (c :: contents) gaps s) :
    ∃ w gaps' s', gaps = w :: gaps' ∧ s = c ++ (w ++ s') ∧ IsGap w ∧ (contents ≠ [] → w ≠ []) ∧
      IsWeave contents gaps' s' := by
  obtain ⟨hlength, hgaps, hne, rfl⟩ := h
  cases gaps with
  | nil => exact absurd hlength.symm (Nat.succ_ne_zero _)
  | cons w gaps' =>
    obtain ⟨hw, hgaps⟩ := List.forall_mem_cons.1 hgaps
    have hlength : gaps'.length = contents.length := Nat.succ.inj hlength
    have hdrop : gaps' ≠ [] → (w :: gaps').dropLast = w :: gaps'.dropLast :=
      fun h => List.dropLast_cons_of_ne_nil h
    refine ⟨w, gaps', _, rfl, ?_, hw, fun hcontents => ?_, hlength, hgaps, fun v hv => ?_, rfl⟩
    · rw [List.zipWith_cons_cons, List.flatten_cons, List.append_assoc]
    · have hgaps' : gaps' ≠ [] := by
        rintro rfl
        exact hcontents (List.length_eq_zero_iff.1 hlength.symm)
      exact hne w (by rw [hdrop hgaps']; exact List.mem_cons_self)
    · have hgaps' : gaps' ≠ [] := by
        rintro rfl
        exact absurd hv List.not_mem_nil
      exact hne v (by rw [hdrop hgaps']; exact List.mem_cons_of_mem w hv)

/-- **A weave has the words of its contents**, in their order. -/
theorem flatMap_words (h : IsWeave contents gaps s) : contents.flatMap words = words s := by
  induction contents generalizing gaps s with
  | nil =>
    obtain ⟨-, -, -, rfl⟩ := h
    rfl
  | cons c contents ih =>
    obtain ⟨w, gaps', s', rfl, rfl, hw, hne, h⟩ := h.cases_cons
    rw [List.flatMap_cons, ih h]
    cases contents with
    | nil =>
      obtain ⟨-, -, -, rfl⟩ := h
      rw [List.zipWith_nil_left, List.flatten_nil, List.append_nil, words_append_gap c hw,
        words_nil, List.append_nil]
    | cons c' contents => exact (words_append_gap_append c s' hw (hne (List.cons_ne_nil _ _))).symm

end IsWeave

/-! ## Single spaces -/

/-- Neither end is blank, and a run of blanks is a single space. -/
structure IsSingleSpaced (s : List Char) : Prop where
  start_eq : startsBlank s = false
  end_eq : endsBlank s = false
  run_eq : ∀ w, w <:+: s → IsGap w → w = [] ∨ w = [' ']

/-- The runs are among the beginnings of the endings of a text. -/
theorem isSingleSpaced_iff (s : List Char) : IsSingleSpaced s ↔
    startsBlank s = false ∧ endsBlank s = false ∧
      ∀ t ∈ s.tails, ∀ w ∈ t.inits, IsGap w → w = [] ∨ w = [' '] := by
  constructor
  · rintro ⟨hstart, hend, hrun⟩
    refine ⟨hstart, hend, fun t ht w hw => hrun w ?_⟩
    exact ((List.mem_inits w t).1 hw).isInfix.trans ((List.mem_tails t s).1 ht).isInfix
  · rintro ⟨hstart, hend, hrun⟩
    refine ⟨hstart, hend, fun w hw => ?_⟩
    obtain ⟨t, hwt, ht⟩ := List.infix_iff_prefix_suffix.1 hw
    exact hrun t ((List.mem_tails t s).2 ht) w ((List.mem_inits w t).2 hwt)

instance (s : List Char) : Decidable (IsSingleSpaced s) :=
  decidable_of_iff _ (isSingleSpaced_iff s).symm

/-- What a text ends with does not end with a blank if the text does not. -/
theorem endsBlank_of_suffix {s t : List Char} (h : endsBlank s = false) (ht : t <:+ s) :
    endsBlank t = false := by
  obtain ⟨u, rfl⟩ := ht
  rcases List.eq_nil_or_concat t with rfl | ⟨v, c, rfl⟩
  · rfl
  · rw [List.concat_eq_append] at h ⊢
    rw [endsBlank, ← List.append_assoc, List.getLast?_concat] at h
    rwa [endsBlank, List.getLast?_concat]

/-- A gap at the end of a text that ends with no blank is empty. -/
theorem gap_eq_nil_of_suffix {s w : List Char} (h : endsBlank s = false) (hs : w <:+ s)
    (hw : IsGap w) : w = [] := by
  have hend := endsBlank_of_suffix h hs
  rcases List.eq_nil_or_concat w with rfl | ⟨v, c, rfl⟩
  · rfl
  · rw [List.concat_eq_append] at hend hw
    have hc : isBlank c = true := hw c (List.mem_append_right v (List.mem_singleton_self c))
    rw [endsBlank, List.getLast?_concat, Option.any_some, hc] at hend
    exact absurd hend (by decide)

/-- **The contents of a weave with single spaces, joined by spaces, are the text.** -/
theorem IsWeave.intercalate_eq {contents gaps : List (List Char)} {s : List Char}
    (h : IsWeave contents gaps s) (hend : endsBlank s = false)
    (hrun : ∀ w, w <:+: s → IsGap w → w = [] ∨ w = [' ']) : [' '].intercalate contents = s := by
  induction contents generalizing gaps s with
  | nil =>
    obtain ⟨-, -, -, rfl⟩ := h
    rfl
  | cons c contents ih =>
    obtain ⟨w, gaps', s', rfl, rfl, hw, hne, hs'⟩ := h.cases_cons
    cases contents with
    | nil =>
      obtain ⟨-, -, -, rfl⟩ := hs'
      rw [List.zipWith_nil_left, List.flatten_nil, List.append_nil] at hend ⊢
      rw [List.intercalate_singleton, gap_eq_nil_of_suffix hend (List.suffix_append c w) hw,
        List.append_nil]
    | cons c' contents =>
      obtain rfl : w = [' '] :=
        (hrun w ⟨c, s', by rw [List.append_assoc]⟩ hw).resolve_left (hne (List.cons_ne_nil _ _))
      have hsuffix : s' <:+ c ++ ([' '] ++ s') := ⟨c ++ [' '], by rw [List.append_assoc]⟩
      rw [List.intercalate_cons_cons, List.append_assoc,
        ih hs' (endsBlank_of_suffix hend hsuffix) fun v hv => hrun v (hv.trans hsuffix.isInfix)]

end Text
end PageContent
