/-
# Where spaces are inserted

Whether a gap becomes a space is decided by the two fragments beside it, by the last
character of the one and the first of the other, and not by the text of the line so far.
A fragment without text has neither, so what it says of the line is nothing:

| beside an inserted space | next to the space in the line |
| --- | --- |
| a fragment with text | a character of it, and not a blank one |
| one without, and then a second space, or no more fragments | that space, or the end of the line |
| one without, and then no space | what is next to the fragment beyond it |

The last row sends the question on to the next fragment (`endsInk_concat`,
`startsInk_cons`), so it is answered for every line.
-/

import PageContent.Proofs.Line.Assembled

namespace PageContent

/-! ## Text up to a space -/

namespace Text

/-- The text ends with a character that is not blank. -/
def EndsInk (s : List Char) : Prop := ∃ c ∈ s.getLast?, isBlank c = false

/-- The text starts with a character that is not blank. -/
def StartsInk (s : List Char) : Prop := ∃ c ∈ s.head?, isBlank c = false

variable {s t : List Char}

theorem not_endsInk_nil : ¬ EndsInk [] := fun ⟨_, h, _⟩ => absurd h nofun

theorem not_startsInk_nil : ¬ StartsInk [] := fun ⟨_, h, _⟩ => absurd h nofun

theorem endsInk_append (h : t ≠ []) : EndsInk (s ++ t) ↔ EndsInk t := by
  unfold EndsInk
  rw [List.getLast?_append_of_ne_nil s h]

theorem startsInk_append (h : s ≠ []) : StartsInk (s ++ t) ↔ StartsInk s := by
  unfold StartsInk
  rw [List.head?_append_of_ne_nil s h]

theorem endsInk_of_endsBlank (hne : s ≠ []) (h : endsBlank s = false) : EndsInk s := by
  refine ⟨s.getLast hne, List.getLast?_eq_some_getLast hne, ?_⟩
  rwa [endsBlank, List.getLast?_eq_some_getLast hne] at h

theorem startsInk_of_startsBlank (hne : s ≠ []) (h : startsBlank s = false) : StartsInk s := by
  refine ⟨s.head hne, List.head?_eq_some_head hne, ?_⟩
  rwa [startsBlank, List.head?_eq_some_head hne] at h

/-- A text does not end with ink behind a space. -/
theorem not_endsInk_space (s : List Char) : ¬ EndsInk (s ++ [' ']) := by
  rintro ⟨c, hc, hink⟩
  obtain rfl : ' ' = c := by simpa using hc
  exact Bool.noConfusion hink

theorem not_startsInk_space (s : List Char) : ¬ StartsInk (' ' :: s) := by
  rintro ⟨c, hc, hink⟩
  obtain rfl : ' ' = c := by simpa using hc
  exact Bool.noConfusion hink

end Text

namespace Merge

open Text (EndsInk StartsInk)

variable (o : MergeOptions)

/-! ## The text of a run, cut at a gap -/

/-- What stands in a line for the gap between two neighbours. -/
def spacing (left right : Fragment) : List Char := if needsSpace o left right then [' '] else []

theorem spacedText_cons (first : Fragment) (rest : List Fragment) :
    spacedText o (first :: rest) = first.chars ++ joinedBehind o first rest := by
  rw [joinedBehind_eq]
  rfl

theorem spacedText_singleton (f : Fragment) : spacedText o [f] = f.chars := by
  rw [spacedText_cons, joinedBehind, List.append_nil]

theorem spacedText_cons_cons (left right : Fragment) (after : List Fragment) :
    spacedText o (left :: right :: after) =
      left.chars ++ spacing o left right ++ spacedText o (right :: after) := by
  rw [spacedText_cons, spacedText_cons, joinedBehind, spacing, List.append_assoc,
    List.append_assoc]

/-- **The text of a run is that up to a gap, what stands for the gap, and that behind it.** -/
theorem spacedText_append (before after : List Fragment) (left right : Fragment) :
    spacedText o (before ++ left :: right :: after) =
      spacedText o (before ++ [left]) ++ spacing o left right ++
        spacedText o (right :: after) := by
  induction before with
  | nil => rw [List.nil_append, List.nil_append, spacedText_cons_cons, spacedText_singleton]
  | cons f before ih =>
    cases before with
    | nil => simp only [List.cons_append, List.nil_append, spacedText_cons_cons,
        spacedText_singleton, List.append_assoc]
    | cons g before =>
      simp only [List.cons_append, spacedText_cons_cons, List.append_assoc] at ih ⊢
      rw [ih]

theorem spacedText_concat (before : List Fragment) (prev left : Fragment) :
    spacedText o (before ++ [prev, left]) =
      spacedText o (before ++ [prev]) ++ spacing o prev left ++ left.chars := by
  rw [spacedText_append, spacedText_singleton]

/-! ## What is beside a space -/

/-- Up to a fragment that does not end blank, a line ends with ink if the fragment has text, or
else if it is not set apart from what is before it and that ends with ink. -/
theorem endsInk_concat (before : List Fragment) {left : Fragment}
    (h : Text.endsBlank left.chars = false) :
    EndsInk (spacedText o (before ++ [left])) ↔ left.chars ≠ [] ∨
      ∃ prev ∈ before.getLast?, needsSpace o prev left = false ∧
        EndsInk (spacedText o before) := by
  by_cases hleft : left.chars = []
  · rw [or_iff_right (not_not_intro hleft)]
    rcases List.eq_nil_or_concat' before with rfl | ⟨before, prev, rfl⟩
    · rw [List.nil_append, spacedText_singleton, hleft]
      exact iff_of_false Text.not_endsInk_nil fun ⟨_, hprev, _⟩ => absurd hprev nofun
    · rw [List.append_assoc, List.singleton_append, spacedText_concat, hleft, List.append_nil,
        List.getLast?_concat, spacing]
      by_cases hspace : needsSpace o prev left = true
      · simp [hspace, Text.not_endsInk_space]
      · simp [hspace]
  · refine iff_of_true ?_ (.inl hleft)
    have hink := Text.endsInk_of_endsBlank hleft h
    rcases List.eq_nil_or_concat' before with rfl | ⟨before, prev, rfl⟩
    · rwa [List.nil_append, spacedText_singleton]
    · rw [List.append_assoc, List.singleton_append, spacedText_concat]
      exact (Text.endsInk_append hleft).2 hink

/-- From a fragment on that does not start blank, a line starts with ink if the fragment has text,
or else if what is behind it is not set apart and starts with ink. -/
theorem startsInk_cons {right : Fragment} (after : List Fragment)
    (h : Text.startsBlank right.chars = false) :
    StartsInk (spacedText o (right :: after)) ↔ right.chars ≠ [] ∨
      ∃ next ∈ after.head?, needsSpace o right next = false ∧
        StartsInk (spacedText o after) := by
  by_cases hright : right.chars = []
  · rw [or_iff_right (not_not_intro hright)]
    cases after with
    | nil =>
      rw [spacedText_singleton, hright]
      exact iff_of_false Text.not_startsInk_nil fun ⟨_, hnext, _⟩ => absurd hnext nofun
    | cons next after =>
      rw [spacedText_cons_cons, hright, List.nil_append, List.head?_cons, spacing]
      by_cases hspace : needsSpace o right next = true
      · simp [hspace, Text.not_startsInk_space]
      · simp [hspace]
  · refine iff_of_true ?_ (.inl hright)
    rw [spacedText_cons, Text.startsInk_append hright]
    exact Text.startsInk_of_startsBlank hright h

/-! ## Lines -/

/-- A line is that of its items. -/
theorem content_of_mem_linesBy {origins : NaNOrigins} {o : MergeOptions} {fs : List Fragment}
    {l : Line} (h : l ∈ linesBy origins o fs) :
    l.content.toList = spacedText o l.items := by
  obtain ⟨id, first, rest, rfl⟩ := exists_of_mem_linesBy h
  have hline := isLineOf_lineOfRun o id first rest
  rw [hline.content_eq, hline.items_eq]

/-- **An inserted space stands between ink, if it stands between texts.**  The content of a line is
cut at each gap between two items into what is up to the gap, a space if the gap needs one, and
what is behind it.  If no fragment is without text, there is a character that is not blank on
either side of every such space.  In general there is one in front if and only if the item there
has text, or no space sets it apart from the item before it and what is up to that one ends with
such a character; and likewise behind. -/
theorem insertedSpace_stands (origins : NaNOrigins) (o : MergeOptions) (fs : List Fragment) :
    ∀ l ∈ linesBy origins o fs, ∀ before left right after,
      l.items = before ++ left :: right :: after →
      let front := spacedText o (before ++ [left])
      let back := spacedText o (right :: after)
      l.content.toList = front ++ (if needsSpace o left right then [' '] else []) ++ back ∧
      (needsSpace o left right = true →
        ((∀ f ∈ fs, f.chars ≠ []) → EndsInk front ∧ StartsInk back) ∧
        (EndsInk front ↔ left.chars ≠ [] ∨ ∃ prev ∈ before.getLast?,
          needsSpace o prev left = false ∧ EndsInk (spacedText o before)) ∧
        (StartsInk back ↔ right.chars ≠ [] ∨ ∃ next ∈ after.head?,
          needsSpace o right next = false ∧ StartsInk (spacedText o after))) := by
  intro l hl before left right after hitems front back
  refine ⟨?_, fun hspace => ?_⟩
  · rw [content_of_mem_linesBy hl, hitems, spacedText_append]
    rfl
  · obtain ⟨-, hends, hstarts⟩ := needsSpace_iff.1 hspace
    have hfront := endsInk_concat o before hends
    have hback := startsInk_cons o after hstarts
    refine ⟨fun htexts => ⟨hfront.2 (.inl ?_), hback.2 (.inl ?_)⟩, hfront, hback⟩
    · exact htexts left (mem_of_mem_items hl (by simp [hitems]))
    · exact htexts right (mem_of_mem_items hl (by simp [hitems]))

/-- Two words with a gap between them that needs a space. -/
def twoWords : List Fragment :=
  [{ id := "a", content := "Hello", bbox := ⟨20, 90, 50, 100⟩, size := 10 },
    { id := "c", content := "World", bbox := ⟨54, 90, 80, 100⟩, size := 10 }]

/-- The words with a blank of their own between them, and behind it a fragment without text. -/
def partedWords : List Fragment :=
  [{ id := "a", content := "Hello ", bbox := ⟨20, 90, 50, 100⟩, size := 10 },
    { id := "b", content := "", bbox := ⟨51.5, 90, 52.5, 100⟩, size := 10 },
    { id := "c", content := "World", bbox := ⟨54, 90, 80, 100⟩, size := 10 }]

/-- The space between the words stands between ink; behind a fragment without text one is inserted
though there is a blank in front of it. -/
theorem insertedSpace_stands_words :
    (linesBy .computed {} twoWords).map Line.content = ["Hello World"] ∧
    EndsInk "Hello".toList ∧ StartsInk "World".toList ∧
    (linesBy .computed {} partedWords).map Line.content = ["Hello  World"] ∧
    ¬ EndsInk (spacedText {} (partedWords.take 2)) := by
  obtain ⟨l, hl, hitems⟩ : ∃ l ∈ linesBy .computed {} twoWords, l.items = twoWords := by
    decide +kernel
  obtain ⟨m, hm, hparted⟩ :
      ∃ m ∈ linesBy .computed {} partedWords, m.items = partedWords := by
    decide +kernel
  obtain ⟨-, hstands⟩ := insertedSpace_stands _ {} twoWords l hl [] _ _ [] hitems
  obtain ⟨hink, -⟩ := hstands (by decide +kernel)
  obtain ⟨hfront, hback⟩ := hink (by decide)
  obtain ⟨-, hblank⟩ :=
    insertedSpace_stands _ {} partedWords m hm (partedWords.take 1) _ _ [] hparted
  obtain ⟨-, hends, -⟩ := hblank (by decide +kernel)
  refine ⟨by decide +kernel, hfront, hback, by decide +kernel, fun hink => ?_⟩
  rcases hends.1 hink with hne | ⟨prev, hprev, -, hink⟩
  · exact hne rfl
  · -- what is in front of the fragment without text ends with a blank
    obtain ⟨c, hc, hnot⟩ := hink
    obtain rfl := Option.some.inj hc
    exact Bool.noConfusion hnot

end Merge
end PageContent
