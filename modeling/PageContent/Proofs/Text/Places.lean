/-
# Pieces and their places

What the pieces of a text are can be read off their places, counted from `0`:

| place | piece |
| --- | --- |
| even | a word: it holds no blank |
| odd | a gap: it holds nothing but blanks, and one at least |
| neither the first nor the last | not empty |

They are an odd number, and together they are the text.  No other list of pieces is like that
(`isDecomposition_iff`), so a gap is a whole run of blanks, and a word is all that stands between
two gaps.
-/

import PageContent.Proofs.Text.Split

namespace PageContent
namespace Text

/-- What may stand at a place: a word or a gap. -/
def SuitsPlace (i : Nat) (piece : List Char) : Prop :=
  if i % 2 = 0 then ∀ c ∈ piece, isBlank c = false else piece ≠ [] ∧ IsGap piece

/-- Pieces that make up the text, each of the kind of its place. -/
structure IsDecomposition (text : List Char) (pieces : List (List Char)) : Prop where
  flatten_eq : pieces.flatten = text
  length_mod_two : pieces.length % 2 = 1
  word : ∀ i piece, pieces[i]? = some piece → i % 2 = 0 → ∀ c ∈ piece, isBlank c = false
  gap : ∀ i piece, pieces[i]? = some piece → i % 2 = 1 →
    piece ≠ [] ∧ ∀ c ∈ piece, isBlank c = true
  ne_nil : ∀ i piece, pieces[i]? = some piece → 0 < i → i + 1 < pieces.length → piece ≠ []

/-- The first piece and those behind it, each at its place. -/
theorem forall_getElem?_cons {α : Type} {P : Nat → α → Prop} {a : α} {l : List α} :
    (∀ i b, (a :: l)[i]? = some b → P i b) ↔ P 0 a ∧ ∀ i b, l[i]? = some b → P (i + 1) b := by
  constructor
  · intro h
    exact ⟨h 0 a rfl, fun i b hb => h (i + 1) b hb⟩
  · rintro ⟨hfirst, hrest⟩ i b hb
    cases i with
    | zero => exact Option.some.inj hb ▸ hfirst
    | succ i => exact hrest i b hb

/-- Words and gaps in turn suit their places, counted from any place on. -/
theorem alternates_iff (n : Nat) (pieces : List (List Char)) :
    Alternates (n % 2 == 0) pieces ↔
      ∀ i piece, pieces[i]? = some piece → SuitsPlace (n + i) piece := by
  induction pieces generalizing n with
  | nil => exact iff_of_true trivial nofun
  | cons piece pieces ih =>
    have hplaces := forall_getElem?_cons (P := fun i => SuitsPlace (n + i)) (a := piece)
      (l := pieces)
    simp only [← Nat.add_assoc, Nat.add_right_comm n _ 1, ← ih (n + 1)] at hplaces
    rw [hplaces, Nat.add_zero, SuitsPlace]
    rcases Nat.mod_two_eq_zero_or_one n with hn | hn
    · have hnext : (n + 1) % 2 = 1 := by omega
      rw [hn, hnext, if_pos rfl]
      exact Iff.rfl
    · have hnext : (n + 1) % 2 = 0 := by omega
      rw [hn, hnext, if_neg Nat.one_ne_zero, and_assoc]
      exact Iff.rfl

/-- A piece has others in front of it and behind it exactly if its place is an inner one. -/
theorem forall_inner_iff {α : Type} {P : α → Prop} {l : List α} :
    (∀ before a after, l = before ++ a :: after → before ≠ [] → after ≠ [] → P a) ↔
      ∀ i a, l[i]? = some a → 0 < i → i + 1 < l.length → P a := by
  constructor
  · intro h i a ha hfirst hlast
    obtain ⟨hi, rfl⟩ := List.getElem?_eq_some_iff.1 ha
    have hl : l = l.take i ++ l[i] :: l.drop (i + 1) := by
      rw [← List.drop_eq_getElem_cons hi, List.take_append_drop]
    refine h _ _ _ hl ?_ ?_
    · rw [← List.length_pos_iff_ne_nil, List.length_take]
      omega
    · rw [← List.length_pos_iff_ne_nil, List.length_drop]
      omega
  · rintro h before a after rfl hbefore hafter
    refine h before.length a (by simp) (List.length_pos_iff_ne_nil.2 hbefore) ?_
    have hpos := List.length_pos_iff_ne_nil.2 hafter
    rw [List.length_append, List.length_cons]
    omega

/-- Words and gaps in turn from a word to a word are what suits its places. -/
theorem isSplit_iff {pieces : List (List Char)} :
    IsSplit pieces ↔ IsDecomposition pieces.flatten pieces := by
  have halternates := alternates_iff 0 pieces
  simp only [Nat.zero_add] at halternates
  constructor
  · rintro ⟨⟨hturn, hinner⟩, hodd⟩
    have hplaces := halternates.1 hturn
    refine ⟨rfl, hodd, ?_, ?_, forall_inner_iff.1 hinner⟩
    · intro i piece hpiece hi
      have hsuits := hplaces i piece hpiece
      rwa [SuitsPlace, if_pos hi] at hsuits
    · intro i piece hpiece hi
      have hsuits := hplaces i piece hpiece
      rwa [SuitsPlace, if_neg (by omega)] at hsuits
  · rintro ⟨-, hodd, hword, hgap, hinner⟩
    refine ⟨⟨halternates.2 fun i piece hpiece => ?_, forall_inner_iff.2 hinner⟩, hodd⟩
    unfold SuitsPlace
    split
    · rename_i hi
      exact hword i piece hpiece hi
    · rename_i hi
      exact hgap i piece hpiece (by omega)

/-- **A text has one list of pieces that suit their places, and `splitWords` gives it.** -/
theorem isDecomposition_iff (text : List Char) (pieces : List (List Char)) :
    IsDecomposition text pieces ↔ pieces = splitWords text := by
  constructor
  · intro h
    obtain rfl := h.flatten_eq
    exact (splitWords_flatten (isSplit_iff.2 h)).symm
  · rintro rfl
    have h := isSplit_iff.1 (isSplit_splitWords text)
    rwa [flatten_splitWords] at h

end Text
end PageContent
