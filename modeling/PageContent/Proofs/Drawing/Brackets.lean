/-
# Saving and restoring as brackets

A save opens a bracket and a restore closes the latest one.  A list of operators
is balanced when no beginning of it has more restores than saves, and the whole
list has as many of the one as of the other.

A balanced list leaves the saved pens alone, and what stands inside a bracket
leaves no trace in the pen either: the pen is the one that the operators outside
every bracket make of it (`Pens.foldl_afterRaw_of_isBalanced`).  Those can change
it: the list of a single line width is balanced, and the width stays
(`not_forall_isBalanced_pens_eq`).

The induction is on the list, with any number of brackets open in front of it.
The pen that will be back when these are closed is the one saved first, or the
pen itself if none is open.
-/

import PageContent.Proofs.Drawing.Effect

namespace PageContent

/-! ## Brackets -/

namespace RawOperator

/-- The operator saves the pen. -/
def isSave (raw : RawOperator) : Bool :=
  match Operator.decode raw with
  | .ok .save => true
  | _ => false

/-- The operator restores the pen saved last. -/
def isRestore (raw : RawOperator) : Bool :=
  match Operator.decode raw with
  | .ok .restore => true
  | _ => false

/-- The operator sets something of the pen: the matrix, the line width, an opacity or a color. -/
def setsPen (raw : RawOperator) : Bool :=
  match Operator.decode raw with
  | .ok (.transform _) | .ok (.lineWidth _) | .ok (.opacity _) | .ok (.color _ _) => true
  | _ => false

variable {raw : RawOperator}

theorem decode_of_isSave (h : raw.isSave = true) : Operator.decode raw = .ok .save := by
  unfold isSave at h
  split at h
  · assumption
  · exact Bool.noConfusion h

theorem decode_of_isRestore (h : raw.isRestore = true) : Operator.decode raw = .ok .restore := by
  unfold isRestore at h
  split at h
  · assumption
  · exact Bool.noConfusion h

theorem isRestore_of_isSave (h : raw.isSave = true) : raw.isRestore = false := by
  rw [isRestore, decode_of_isSave h]

end RawOperator

/-- A list with `depth` brackets open in front of it: every restore closes one of these or one that
the list opens, and in the end none is open. -/
structure IsBalanced (depth : Nat) (raws : List RawOperator) : Prop where
  restores_le : ∀ before, before <+: raws →
    before.countP RawOperator.isRestore ≤ depth + before.countP RawOperator.isSave
  restores_eq : raws.countP RawOperator.isRestore = depth + raws.countP RawOperator.isSave

/-- The operators outside every bracket that neither save nor restore, with `depth` brackets open
in front of the list. -/
def outermost : (depth : Nat) → List RawOperator → List RawOperator
  | _, [] => []
  | depth, raw :: raws =>
    if raw.isSave then outermost (depth + 1) raws
    else if raw.isRestore then outermost (depth - 1) raws
    else if depth = 0 then raw :: outermost depth raws
    else outermost depth raws

namespace IsBalanced

variable {depth : Nat} {raw : RawOperator} {raws : List RawOperator}

theorem isBalanced_iff : IsBalanced depth raws ↔
    (∀ before ∈ raws.inits,
      before.countP RawOperator.isRestore ≤ depth + before.countP RawOperator.isSave) ∧
      raws.countP RawOperator.isRestore = depth + raws.countP RawOperator.isSave := by
  constructor
  · rintro ⟨hle, heq⟩
    exact ⟨fun before hb => hle before ((List.mem_inits _ _).1 hb), heq⟩
  · rintro ⟨hle, heq⟩
    exact ⟨fun before hb => hle before ((List.mem_inits _ _).2 hb), heq⟩

instance : Decidable (IsBalanced depth raws) := decidable_of_iff _ isBalanced_iff.symm

/-- What balance says of the operators behind the first one. -/
theorem of_cons (h : IsBalanced depth (raw :: raws)) :
    (∀ before, before <+: raws →
      before.countP RawOperator.isRestore + (if raw.isRestore then 1 else 0) ≤
        depth + (before.countP RawOperator.isSave + if raw.isSave then 1 else 0)) ∧
      raws.countP RawOperator.isRestore + (if raw.isRestore then 1 else 0) =
        depth + (raws.countP RawOperator.isSave + if raw.isSave then 1 else 0) := by
  constructor
  · intro before hbefore
    have hle := h.restores_le (raw :: before) (List.cons_prefix_cons.2 ⟨rfl, hbefore⟩)
    rwa [List.countP_cons, List.countP_cons] at hle
  · have heq := h.restores_eq
    rwa [List.countP_cons, List.countP_cons] at heq

/-- A save opens a bracket for what follows. -/
theorem of_isSave (h : IsBalanced depth (raw :: raws)) (hsave : raw.isSave = true) :
    IsBalanced (depth + 1) raws := by
  obtain ⟨hle, heq⟩ := h.of_cons
  simp only [hsave, RawOperator.isRestore_of_isSave hsave, if_true, if_false,
    Bool.false_eq_true] at hle heq
  constructor
  · intro before hbefore
    have hbefore := hle before hbefore
    omega
  · omega

/-- A restore closes a bracket that is open. -/
theorem of_isRestore (h : IsBalanced depth (raw :: raws)) (hsave : raw.isSave = false)
    (hrestore : raw.isRestore = true) : ∃ d, depth = d + 1 ∧ IsBalanced d raws := by
  obtain ⟨hle, heq⟩ := h.of_cons
  simp only [hsave, hrestore, if_true, if_false, Bool.false_eq_true] at hle heq
  have hopen : 0 < depth := by
    have hnone := hle [] List.nil_prefix
    rw [List.countP_nil, List.countP_nil] at hnone
    omega
  obtain ⟨d, rfl⟩ := Nat.exists_eq_add_one_of_ne_zero hopen.ne'
  refine ⟨d, rfl, ?_, by omega⟩
  intro before hbefore
  have hbefore := hle before hbefore
  omega

/-- Other operators open and close none. -/
theorem of_neither (h : IsBalanced depth (raw :: raws)) (hsave : raw.isSave = false)
    (hrestore : raw.isRestore = false) : IsBalanced depth raws := by
  obtain ⟨hle, heq⟩ := h.of_cons
  simp only [hsave, hrestore, if_false, Bool.false_eq_true, Nat.add_zero] at hle heq
  exact ⟨hle, heq⟩

end IsBalanced

/-! ## Pens behind brackets -/

/-- The pen after an operator of the list that neither saves nor restores. -/
def Pen.afterRaw (pen : Pen) (raw : RawOperator) : Pen :=
  match Operator.decode raw with
  | .ok op => pen.after op
  | .error _ => pen

namespace Pens

variable {raw : RawOperator}

theorem afterRaw_of_isSave (h : raw.isSave = true) (p : Pens) :
    p.afterRaw raw = { p with saved := p.pen :: p.saved } := by
  rw [afterRaw, RawOperator.decode_of_isSave h]
  rfl

theorem afterRaw_of_isRestore (h : raw.isRestore = true) (pen q : Pen) (saved : List Pen) :
    afterRaw { pen, saved := q :: saved } raw = { pen := q, saved } := by
  rw [afterRaw, RawOperator.decode_of_isRestore h]
  rfl

theorem afterRaw_of_neither (hsave : raw.isSave = false) (hrestore : raw.isRestore = false)
    (p : Pens) : p.afterRaw raw = { p with pen := p.pen.afterRaw raw } := by
  unfold afterRaw Pen.afterRaw
  unfold RawOperator.isSave at hsave
  unfold RawOperator.isRestore at hrestore
  cases hdecode : Operator.decode raw with
  | error e => rfl
  | ok op =>
    rw [hdecode] at hsave hrestore
    cases op with
    | save => exact Bool.noConfusion hsave
    | restore => exact Bool.noConfusion hrestore
    | _ => rfl

/-- **What stands in brackets leaves no trace.**  Behind a balanced list the pens saved before the
open brackets are what they were, and the pen is the one from before those brackets as the operators
outside every bracket change it. -/
theorem foldl_afterRaw_of_isBalanced {raws : List RawOperator} (pen : Pen)
    (opened saved : List Pen) (h : IsBalanced opened.length raws) :
    raws.foldl afterRaw { pen, saved := opened ++ saved } =
      { pen := (outermost opened.length raws).foldl Pen.afterRaw (opened.getLastD pen)
        saved } := by
  induction raws generalizing pen opened with
  | nil =>
    have hnone : opened = [] := List.length_eq_zero_iff.1 h.restores_eq.symm
    rw [hnone]
    rfl
  | cons raw raws ih =>
    rw [List.foldl_cons, outermost]
    by_cases hsave : raw.isSave = true
    · rw [if_pos hsave, afterRaw_of_isSave hsave]
      have hrest := ih pen (pen :: opened) (h.of_isSave hsave)
      rwa [List.getLastD_cons, List.length_cons] at hrest
    · rw [if_neg hsave]
      have hsave := eq_false_of_ne_true hsave
      by_cases hrestore : raw.isRestore = true
      · obtain ⟨d, hd, hbalanced⟩ := h.of_isRestore hsave hrestore
        obtain ⟨q, opened, rfl⟩ := List.exists_cons_of_length_eq_add_one hd
        obtain rfl : opened.length = d := Nat.succ.inj hd
        rw [if_pos hrestore, List.cons_append, afterRaw_of_isRestore hrestore, List.getLastD_cons]
        exact ih q opened hbalanced
      · rw [if_neg hrestore]
        have hrestore := eq_false_of_ne_true hrestore
        rw [afterRaw_of_neither hsave hrestore]
        have hrest := ih (pen.afterRaw raw) opened (h.of_neither hsave hrestore)
        cases opened with
        | nil => exact hrest
        | cons q opened => exact hrest

/-- Operators outside every bracket only set the pen. -/
theorem foldl_afterRaw_outermost (p : Pens) (depth : Nat) (raws : List RawOperator) :
    (outermost depth raws).foldl afterRaw p =
      { p with pen := (outermost depth raws).foldl Pen.afterRaw p.pen } := by
  induction raws generalizing p depth with
  | nil => rfl
  | cons raw raws ih =>
    rw [outermost]
    split_ifs with hsave hrestore hdepth
    · exact ih p (depth + 1)
    · exact ih p (depth - 1)
    · rw [List.foldl_cons, List.foldl_cons,
        afterRaw_of_neither (eq_false_of_ne_true hsave) (eq_false_of_ne_true hrestore)]
      exact ih { p with pen := p.pen.afterRaw raw } depth
    · exact ih p depth

end Pens

theorem Pen.afterRaw_of_not_setsPen {raw : RawOperator} (h : raw.setsPen = false) (pen : Pen) :
    pen.afterRaw raw = pen := by
  unfold afterRaw
  unfold RawOperator.setsPen at h
  cases hdecode : Operator.decode raw with
  | error e => rfl
  | ok op =>
    rw [hdecode] at h
    cases op with
    | transform m => exact Bool.noConfusion h
    | lineWidth w => exact Bool.noConfusion h
    | opacity change => exact Bool.noConfusion h
    | color target components => exact Bool.noConfusion h
    | _ => rfl

theorem Pen.foldl_afterRaw_of_not_setsPen {raws : List RawOperator}
    (h : ∀ raw ∈ raws, raw.setsPen = false) (pen : Pen) : raws.foldl afterRaw pen = pen := by
  induction raws with
  | nil => rfl
  | cons raw raws ih =>
    rw [List.foldl_cons, afterRaw_of_not_setsPen (h raw List.mem_cons_self)]
    exact ih fun raw hraw => h raw (List.mem_cons_of_mem _ hraw)

/-! ## Runs -/

namespace Canvas

variable (o : DrawingOptions) (c : Canvas)

/-- Behind a balanced list the pen is that of its outermost operators, and the saved pens stay. -/
theorem pens_drawAll_eq {raws : List RawOperator} (h : IsBalanced 0 raws) :
    (drawAll o c raws).pens =
      { pen := (outermost 0 raws).foldl Pen.afterRaw c.state.pen, saved := c.state.saved } := by
  rw [pens_drawAll]
  exact Pens.foldl_afterRaw_of_isBalanced c.state.pen [] c.state.saved h

theorem drawRaw_of_isRestore {raw : RawOperator} (h : raw.isRestore = true)
    (hc : c.state.saved = []) : drawRaw o c raw = c := by
  have hrestore : Operator.restore.buildsPath = false := rfl
  rw [drawRaw, RawOperator.decode_of_isRestore h]
  dsimp only
  rw [draw, hrestore, Bool.and_false, if_neg Bool.false_ne_true,
    GraphicsState.restore_of_saved_nil hc]
  rfl

/-- **Restores without a save change nothing.** -/
theorem drawAll_of_isRestore {raws : List RawOperator} (h : ∀ raw ∈ raws, raw.isRestore = true)
    (hc : c.state.saved = []) : drawAll o c raws = c := by
  induction raws with
  | nil => rfl
  | cons raw raws ih =>
    show drawAll o (drawRaw o c raw) raws = c
    rw [drawRaw_of_isRestore o c (h raw List.mem_cons_self) hc]
    exact ih fun raw hraw => h raw (List.mem_cons_of_mem _ hraw)

/-- **Save and restore are brackets.**  Behind a balanced list the saved pens are what they were.
The pen is the one that the operators outside every bracket make of it, so it is what it was if
none of these sets it, and always if the whole list stands between a save and a restore.  Wherever
no pen is saved, restores can be put into a run without changing anything. -/
theorem drawAll_brackets (raws : List RawOperator) :
    (IsBalanced 0 raws →
      (drawAll o c raws).state.saved = c.state.saved ∧
      (drawAll o c raws).state.pen = (drawAll o c (outermost 0 raws)).state.pen ∧
      ((∀ raw ∈ outermost 0 raws, raw.setsPen = false) →
        (drawAll o c raws).state.pen = c.state.pen) ∧
      ∀ save restore : RawOperator, save.isSave = true → restore.isRestore = true →
        (drawAll o c (save :: raws ++ [restore])).state.saved = c.state.saved ∧
          (drawAll o c (save :: raws ++ [restore])).state.pen = c.state.pen) ∧
    ∀ restores after : List RawOperator, (∀ raw ∈ restores, raw.isRestore = true) →
      (drawAll o c raws).state.saved = [] →
        drawAll o c (raws ++ restores ++ after) = drawAll o c (raws ++ after) := by
  constructor
  · intro h
    obtain ⟨hpen, hsaved⟩ := Pens.mk.inj (pens_drawAll_eq o c h)
    refine ⟨hsaved, ?_, ?_, ?_⟩
    · have hpens := (pens_drawAll o c (outermost 0 raws)).trans
        (Pens.foldl_afterRaw_outermost c.pens 0 raws)
      exact hpen.trans (congrArg Pens.pen hpens).symm
    · intro hsets
      rw [hpen, Pen.foldl_afterRaw_of_not_setsPen hsets]
    · intro save restore hsave hrestore
      have hpens : (drawAll o c (save :: raws ++ [restore])).pens = c.pens := by
        have hinside := Pens.foldl_afterRaw_of_isBalanced c.state.pen []
          (c.state.pen :: c.state.saved) h
        rw [pens_drawAll, List.cons_append, List.foldl_cons, Pens.afterRaw_of_isSave hsave,
          List.foldl_append]
        show Pens.afterRaw (raws.foldl Pens.afterRaw
          { pen := c.state.pen, saved := [] ++ c.state.pen :: c.state.saved }) restore = c.pens
        rw [hinside, Pens.afterRaw_of_isRestore hrestore]
        rfl
      obtain ⟨hpen', hsaved'⟩ := Pens.mk.inj hpens
      exact ⟨hsaved', hpen'⟩
  · intro restores after hrestores hsaved
    rw [List.append_assoc, drawAll_append, drawAll_append, drawAll_append,
      drawAll_of_isRestore o _ hrestores hsaved]

/-- Nested brackets around a line width and a transform, a line width put in brackets, and a restore
without a save. -/
theorem drawAll_brackets_of_nested :
    (drawAll {} {} [⟨10, [], 0⟩, ⟨2, [.integer 5], 1⟩, ⟨10, [], 2⟩,
      ⟨12, [.integer 2, .integer 0, .integer 0, .integer 2, .integer 7, .integer 7], 3⟩,
      ⟨11, [], 4⟩, ⟨11, [], 5⟩]).state.pen = ({} : Canvas).state.pen ∧
    (drawAll {} {} [⟨10, [], 0⟩, ⟨2, [.integer 5], 1⟩, ⟨11, [], 2⟩]).state.pen =
      ({} : Canvas).state.pen ∧
    drawAll {} {} [⟨2, [.integer 5], 0⟩, ⟨11, [], 1⟩, ⟨18, [], 2⟩] =
      drawAll {} {} [⟨2, [.integer 5], 0⟩, ⟨18, [], 2⟩] := by
  obtain ⟨hnested, -⟩ := drawAll_brackets {} {} [⟨10, [], 0⟩, ⟨2, [.integer 5], 1⟩, ⟨10, [], 2⟩,
    ⟨12, [.integer 2, .integer 0, .integer 0, .integer 2, .integer 7, .integer 7], 3⟩,
    ⟨11, [], 4⟩, ⟨11, [], 5⟩]
  obtain ⟨-, -, hpen, -⟩ := hnested (by decide +kernel)
  obtain ⟨hwidth, -⟩ := drawAll_brackets {} {} [⟨2, [.integer 5], 1⟩]
  obtain ⟨-, -, -, hwhole⟩ := hwidth (by decide +kernel)
  obtain ⟨-, hrestores⟩ := drawAll_brackets {} {} [⟨2, [.integer 5], 0⟩]
  exact ⟨hpen (by decide +kernel), (hwhole ⟨10, [], 0⟩ ⟨11, [], 2⟩ rfl rfl).2,
    hrestores [⟨11, [], 1⟩] [⟨18, [], 2⟩] (by decide +kernel) (by decide +kernel)⟩

/-- A balanced list need not leave the pen what it was: a line width outside every bracket stays. -/
theorem not_forall_isBalanced_pens_eq :
    ¬ ∀ (o : DrawingOptions) (c : Canvas) (raws : List RawOperator), IsBalanced 0 raws →
      (drawAll o c raws).pens = c.pens := by
  intro h
  have hpens := h {} {} [⟨2, [.integer 5], 0⟩] (by decide +kernel)
  have hwidth : (drawAll {} {} [⟨2, [.integer 5], 0⟩]).state.pen.lineWidth = 1 :=
    congrArg (fun p : Pens => p.pen.lineWidth) hpens
  exact absurd hwidth (by decide +kernel)

end Canvas
end PageContent
