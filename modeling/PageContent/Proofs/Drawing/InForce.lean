/-
# Transforms in force

A transform is in force until fewer saves are open than were open at it: then the matrix from
before the save is back.  A restore without a save closes nothing and undoes nothing.  Which
transforms of a list are in force behind it is a matter of counting open saves (`inForce`), and
the matrix of the pen is the one that these make (`Canvas.matrix_ofOperators`).

Every point that a path operator names in user space is placed on the page by that matrix,
whether the operator stands by itself or in a batch (`points_add`).  Over exact numbers this is
mapping the point by the last of the transforms first, then by the one in front of it and so on
to the first, and then flipping and scaling it (`place_transforms`).
-/

import PageContent.Proofs.Drawing.Brackets
import PageContent.Proofs.Drawing.Painting
import PageContent.Proofs.Drawing.Pieces
import PageContent.Proofs.Geometry.Composed

namespace PageContent

/-! ## Counting open saves -/

/-- How many saves are open behind an operator, with `depth` open in front of it. -/
def RawOperator.depthAfter (depth : Nat) (raw : RawOperator) : Nat :=
  if raw.isSave then depth + 1 else if raw.isRestore then depth - 1 else depth

/-- The fewest saves that are open at any place of a list, with `depth` open in front of it. -/
def fewestOpen : (depth : Nat) → List RawOperator → Nat
  | depth, [] => depth
  | depth, raw :: raws => min depth (fewestOpen (raw.depthAfter depth) raws)

/-- The matrix of a transform. -/
def RawOperator.matrix? (raw : RawOperator) : Option (Matrix Float) :=
  match Operator.decode raw with
  | .ok (.transform m) => some m
  | _ => none

/-- The transforms of a list that are in force behind it, the oldest first: at no place behind
such a transform fewer saves are open than at it. -/
def inForce : (depth : Nat) → List RawOperator → List (Matrix Float)
  | _, [] => []
  | depth, raw :: raws =>
    (if depth ≤ fewestOpen (raw.depthAfter depth) raws then raw.matrix?.toList else []) ++
      inForce (raw.depthAfter depth) raws

/-- Of three transforms the second is undone, and a restore without a save undoes none. -/
example :
    let shift (x : Int) (index : UInt64) : RawOperator :=
      ⟨12, [.integer 1, .integer 0, .integer 0, .integer 1, .integer x, .integer 0], index⟩
    (inForce 0 [shift 1 0, ⟨11, [], 1⟩, ⟨10, [], 2⟩, shift 2 3, ⟨11, [], 4⟩, ⟨10, [], 5⟩,
      shift 3 6]).map Matrix.e = [1, 3] := by decide +kernel

theorem RawOperator.matrix?_of_isSave {raw : RawOperator} (h : raw.isSave = true) :
    raw.matrix? = none := by
  rw [matrix?, decode_of_isSave h]

theorem RawOperator.matrix?_of_isRestore {raw : RawOperator} (h : raw.isRestore = true) :
    raw.matrix? = none := by
  rw [matrix?, decode_of_isRestore h]

theorem RawOperator.le_depthAfter {raw : RawOperator} (h : raw.isRestore = false) (depth : Nat) :
    depth ≤ raw.depthAfter depth := by
  rw [depthAfter, h, if_neg Bool.false_ne_true]
  split
  · exact Nat.le_succ depth
  · exact Nat.le_refl depth

theorem fewestOpen_le (depth : Nat) (raws : List RawOperator) : fewestOpen depth raws ≤ depth := by
  cases raws with
  | nil => exact Nat.le_refl _
  | cons raw raws => exact Nat.min_le_left _ _

theorem fewestOpen_append (depth : Nat) (before after : List RawOperator) :
    fewestOpen depth (before ++ after) =
      min (fewestOpen depth before)
        (fewestOpen (before.foldl RawOperator.depthAfter depth) after) := by
  induction before generalizing depth with
  | nil => exact (Nat.min_eq_right (fewestOpen_le depth after)).symm
  | cons raw before ih =>
    rw [List.cons_append, fewestOpen, ih, fewestOpen, List.foldl_cons, Nat.min_assoc]

/-- Without a restore no save is closed. -/
theorem le_fewestOpen {raws : List RawOperator} (h : ∀ raw ∈ raws, raw.isRestore = false)
    (depth : Nat) : depth ≤ fewestOpen depth raws := by
  induction raws generalizing depth with
  | nil => exact Nat.le_refl _
  | cons raw raws ih =>
    obtain ⟨hraw, hraws⟩ := List.forall_mem_cons.1 h
    exact Nat.le_min.2 ⟨Nat.le_refl _, (RawOperator.le_depthAfter hraw depth).trans (ih hraws _)⟩

/-- **Without a restore all transforms are in force.** -/
theorem inForce_of_forall_not_isRestore {raws : List RawOperator}
    (h : ∀ raw ∈ raws, raw.isRestore = false) (depth : Nat) :
    inForce depth raws = raws.filterMap RawOperator.matrix? := by
  induction raws generalizing depth with
  | nil => rfl
  | cons raw raws ih =>
    obtain ⟨hraw, hraws⟩ := List.forall_mem_cons.1 h
    have hfewest := (RawOperator.le_depthAfter hraw depth).trans (le_fewestOpen hraws _)
    rw [inForce, if_pos hfewest, ih hraws, List.filterMap_cons]
    cases raw.matrix? <;> rfl

/-- Behind a balanced list no more saves are open than in front of the open brackets, and at no
place of it are fewer. -/
theorem IsBalanced.depth_eq {opened : Nat} {raws : List RawOperator} (h : IsBalanced opened raws)
    (depth : Nat) :
    raws.foldl RawOperator.depthAfter (depth + opened) = depth ∧
      depth ≤ fewestOpen (depth + opened) raws := by
  induction raws generalizing opened with
  | nil =>
    obtain rfl : opened = 0 := h.restores_eq.symm
    exact ⟨rfl, Nat.le_refl _⟩
  | cons raw raws ih =>
    have hstep : ∃ opened', raw.depthAfter (depth + opened) = depth + opened' ∧
        IsBalanced opened' raws := by
      unfold RawOperator.depthAfter
      split
      · rename_i hsave
        exact ⟨opened + 1, rfl, h.of_isSave hsave⟩
      · rename_i hsave
        split
        · rename_i hrestore
          obtain ⟨d, rfl, hbalanced⟩ := h.of_isRestore (eq_false_of_ne_true hsave) hrestore
          exact ⟨d, rfl, hbalanced⟩
        · rename_i hrestore
          exact ⟨opened, rfl,
            h.of_neither (eq_false_of_ne_true hsave) (eq_false_of_ne_true hrestore)⟩
    obtain ⟨opened', hdepth, hbalanced⟩ := hstep
    obtain ⟨hend, hfewest⟩ := ih hbalanced
    rw [List.foldl_cons, fewestOpen, hdepth]
    exact ⟨hend, Nat.le_min.2 ⟨Nat.le_add_right _ _, hfewest⟩⟩

/-- What is undone behind a list leaves nothing of it in force. -/
theorem inForce_append_of_lt {depth : Nat} {before after : List RawOperator}
    (h : fewestOpen (before.foldl RawOperator.depthAfter depth) after < fewestOpen depth before) :
    inForce depth (before ++ after) =
      inForce (before.foldl RawOperator.depthAfter depth) after := by
  induction before generalizing depth with
  | nil => rfl
  | cons raw before ih =>
    have hlt : fewestOpen (raw.depthAfter depth) (before ++ after) < depth := by
      rw [fewestOpen_append]
      exact (Nat.min_le_right _ _).trans_lt (h.trans_le (fewestOpen_le depth _))
    rw [List.cons_append, inForce, if_neg (Nat.not_le.2 hlt), List.nil_append]
    exact ih (h.trans_le (Nat.min_le_right _ _))

section Bracket

variable {save restore : RawOperator} {inside : List RawOperator}

/-- A closed bracket adds no place with fewer saves open, and no transform of it stays in force. -/
theorem fewestOpen_inForce_bracket (hsave : save.isSave = true)
    (hrestore : restore.isRestore = true) (h : IsBalanced 0 inside) (depth : Nat)
    (after : List RawOperator) :
    fewestOpen depth (save :: inside ++ restore :: after) = fewestOpen depth after ∧
      inForce depth (save :: inside ++ restore :: after) = inForce depth after := by
  have hrestore' : restore.isSave = false := by
    rw [RawOperator.isSave, RawOperator.decode_of_isRestore hrestore]
  have hopen : save.depthAfter depth = depth + 1 := by
    rw [RawOperator.depthAfter, if_pos hsave]
  have hclose : restore.depthAfter (depth + 1) = depth := by
    rw [RawOperator.depthAfter, hrestore', if_neg Bool.false_ne_true, if_pos hrestore,
      Nat.add_sub_cancel]
  obtain ⟨hend, hfewest⟩ := h.depth_eq (depth + 1)
  rw [Nat.add_zero] at hend hfewest
  have hle := fewestOpen_le depth after
  have hbehind : fewestOpen (depth + 1) (restore :: after) = fewestOpen depth after := by
    rw [fewestOpen, hclose]
    omega
  constructor
  · rw [List.cons_append, fewestOpen, hopen, fewestOpen_append, hend, hbehind]
    omega
  · have hlt : fewestOpen (inside.foldl RawOperator.depthAfter (depth + 1)) (restore :: after) <
        fewestOpen (depth + 1) inside := by
      rw [hend, hbehind]
      omega
    rw [List.cons_append, inForce, RawOperator.matrix?_of_isSave hsave, Option.toList_none,
      ite_self, List.nil_append, hopen, inForce_append_of_lt hlt, hend, inForce,
      RawOperator.matrix?_of_isRestore hrestore, Option.toList_none, ite_self, List.nil_append,
      hclose]

/-- **A closed bracket leaves no transform in force**, and takes none out of it. -/
theorem inForce_bracket (hsave : save.isSave = true) (hrestore : restore.isRestore = true)
    (h : IsBalanced 0 inside) (depth : Nat) (before after : List RawOperator) :
    inForce depth (before ++ (save :: inside ++ restore :: after)) =
      inForce depth (before ++ after) := by
  induction before generalizing depth with
  | nil => exact (fewestOpen_inForce_bracket hsave hrestore h depth after).2
  | cons raw before ih =>
    have hfewest (d : Nat) : fewestOpen d (before ++ (save :: inside ++ restore :: after)) =
        fewestOpen d (before ++ after) := by
      rw [fewestOpen_append d before, fewestOpen_append d before,
        (fewestOpen_inForce_bracket hsave hrestore h _ after).1]
    show inForce depth (raw :: (before ++ (save :: inside ++ restore :: after))) =
      inForce depth (raw :: (before ++ after))
    rw [inForce.eq_2, inForce.eq_2, ih, hfewest]

end Bracket

/-! ## The matrix of the pen -/

theorem Pen.matrix_afterRaw (pen : Pen) (raw : RawOperator) :
    (pen.afterRaw raw).matrix =
      (raw.matrix?.map fun m => m.compose pen.matrix).getD pen.matrix := by
  unfold afterRaw RawOperator.matrix?
  cases Operator.decode raw with
  | error e => rfl
  | ok op =>
    cases op with
    | color target components => cases target <;> rfl
    | _ => rfl

namespace Pens

/-- The matrix that is back when no more than `depth` saves are open. -/
def matrixAt (p : Pens) (depth : Nat) : Matrix Float :=
  ((p.pen :: p.saved).map Pen.matrix).getD (p.saved.length - depth) .identity

theorem matrixAt_length (p : Pens) : p.matrixAt p.saved.length = p.pen.matrix := by
  rw [matrixAt, Nat.sub_self]
  rfl

/-- Behind the pen the saved ones count. -/
theorem matrixAt_of_lt {p : Pens} {depth : Nat} (h : depth < p.saved.length) :
    p.matrixAt depth = (p.saved.map Pen.matrix).getD (p.saved.length - 1 - depth) .identity := by
  have hplace : p.saved.length - depth = p.saved.length - 1 - depth + 1 := by omega
  rw [matrixAt, hplace]
  rfl

/-- How many saves are open is how many pens are saved. -/
theorem length_saved_afterRaw (p : Pens) (raw : RawOperator) :
    (p.afterRaw raw).saved.length = raw.depthAfter p.saved.length := by
  unfold RawOperator.depthAfter
  split
  · rename_i hsave
    rw [afterRaw_of_isSave hsave]
    rfl
  · rename_i hsave
    split
    · rename_i hrestore
      obtain ⟨pen, _ | ⟨q, saved⟩⟩ := p
      · rw [afterRaw, RawOperator.decode_of_isRestore hrestore]
        rfl
      · rw [afterRaw_of_isRestore hrestore]
        rfl
    · rename_i hrestore
      rw [afterRaw_of_neither (eq_false_of_ne_true hsave) (eq_false_of_ne_true hrestore)]

/-- What an operator does to the matrices: a transform changes the one that is there, and all
operators leave alone those that a restore brings back. -/
theorem matrixAt_afterRaw (p : Pens) (raw : RawOperator) {depth : Nat}
    (h : depth ≤ (p.afterRaw raw).saved.length) :
    (p.afterRaw raw).matrixAt depth =
      (if p.saved.length ≤ depth then raw.matrix?.toList else []).foldl
        (fun matrix m => m.compose matrix) (p.matrixAt (min p.saved.length depth)) := by
  by_cases hsave : raw.isSave = true
  · rw [RawOperator.matrix?_of_isSave hsave, Option.toList_none, ite_self, List.foldl_nil]
    rw [afterRaw_of_isSave hsave] at h ⊢
    have h : depth ≤ p.saved.length + 1 := h
    rcases h.lt_or_eq with hlt | rfl
    · rw [Nat.min_eq_right (by omega), matrixAt_of_lt hlt]
      rfl
    · rw [Nat.min_eq_left (by omega), matrixAt_length p]
      exact matrixAt_length { p with saved := p.pen :: p.saved }
  by_cases hrestore : raw.isRestore = true
  · rw [RawOperator.matrix?_of_isRestore hrestore, Option.toList_none, ite_self, List.foldl_nil]
    obtain ⟨pen, _ | ⟨q, saved⟩⟩ := p
    · have hstay : afterRaw { pen, saved := [] } raw = { pen, saved := [] } := by
        rw [afterRaw, RawOperator.decode_of_isRestore hrestore]
        rfl
      rw [hstay] at h ⊢
      rw [Nat.min_eq_right h]
    · rw [afterRaw_of_isRestore hrestore] at h ⊢
      have h : depth ≤ saved.length := h
      have hlt : depth < (q :: saved).length := by
        rw [List.length_cons]
        omega
      rw [Nat.min_eq_right hlt.le, matrixAt_of_lt (p := { pen, saved := q :: saved }) hlt]
      rfl
  · rw [afterRaw_of_neither (eq_false_of_ne_true hsave) (eq_false_of_ne_true hrestore)] at h ⊢
    have h : depth ≤ p.saved.length := h
    rw [Nat.min_eq_right h]
    rcases h.lt_or_eq with hlt | rfl
    · rw [if_neg (by omega), List.foldl_nil, matrixAt_of_lt hlt]
      exact matrixAt_of_lt (p := { p with pen := p.pen.afterRaw raw }) hlt
    · rw [if_pos (Nat.le_refl _), matrixAt_length p]
      refine (matrixAt_length { p with pen := p.pen.afterRaw raw }).trans ?_
      rw [Pen.matrix_afterRaw]
      cases raw.matrix? <;> rfl

/-- **The transforms in force make the matrix.**  They start from the matrix that was there when as
many saves were open as the fewest of the list. -/
theorem matrix_foldl_afterRaw (p : Pens) (raws : List RawOperator) :
    (raws.foldl afterRaw p).pen.matrix =
      (inForce p.saved.length raws).foldl (fun matrix m => m.compose matrix)
        (p.matrixAt (fewestOpen p.saved.length raws)) := by
  induction raws generalizing p with
  | nil => exact (matrixAt_length p).symm
  | cons raw raws ih =>
    have hdepth := length_saved_afterRaw p raw
    have hfewest := fewestOpen_le (raw.depthAfter p.saved.length) raws
    rw [List.foldl_cons, ih, hdepth, matrixAt_afterRaw p raw (hfewest.trans_eq hdepth.symm),
      inForce, List.foldl_append, fewestOpen]

end Pens

/-! ## Points -/

/-- The points of user space that a step names, as often as its segments have them. -/
def PathStep.userPoints : PathStep → List (Point Float)
  | .move p | .line p => [p]
  | .curve c₁ c₂ p => [c₁, c₂, p]
  | .curveFromEnd c₂ p => [c₂, p]
  | .curveIntoEnd c₁ p => [c₁, p, p]
  | .rectangle p w h => [p, ⟨p.x + w, p.y⟩, ⟨p.x + w, p.y + h⟩, ⟨p.x, p.y + h⟩]
  | .close => []

/-- The point of the page that a step takes over: where the path ends so far. -/
def PathStep.takenPoint (path : List Segment) : PathStep → List (Point Float)
  | .curveFromEnd _ _ => [Path.current path]
  | _ => []

/-- **A step places the points that it names**, and no others but the one that it takes over. -/
theorem Path.points_add (place : Point Float → Point Float) (path : List Segment)
    (step : PathStep) :
    (Path.add place path step).flatMap Segment.points =
      path.flatMap Segment.points ++ (step.takenPoint path ++ step.userPoints.map place) := by
  rw [add, List.flatMap_append]
  cases step <;> rfl

namespace Canvas

variable (o : DrawingOptions)

/-- **The matrix of a page is made by the transforms in force.** -/
theorem matrix_ofOperators (raws : List RawOperator) :
    (ofOperators o raws).state.pen.matrix = .stacked (inForce 0 raws) := by
  have hmatrix := Pens.matrix_foldl_afterRaw (pens {}) raws
  rw [← pens_drawAll o {} raws] at hmatrix
  have hlowest : fewestOpen 0 raws = 0 := Nat.le_zero.1 (fewestOpen_le 0 raws)
  exact hmatrix.trans (by rw [show (pens {}).saved.length = 0 from rfl, hlowest]; rfl)

/-- A step of its own extends the path. -/
theorem path_drawRaw_of_step {c : Canvas} (htext : c.state.inText = false) {raw : RawOperator}
    {step : PathStep} (h : Operator.decode raw = .ok (.step step)) :
    (drawRaw o c raw).state.path = Path.add (place o c.state.pen) c.state.path step := by
  have hdraw : drawRaw o c raw = addStep o c step := by
    rw [drawRaw, h]
    exact draw_step o htext step raw.index
  rw [hdraw, state_addStep]

/-- A batch extends the path by its steps and paints it. -/
theorem shapes_drawRaw_of_batch {c : Canvas} (htext : c.state.inText = false) {raw : RawOperator}
    {p : Paint} {numbers : List Float} (h : Operator.decode raw = .ok (.batch (some p) numbers)) :
    (drawRaw o c raw).shapes = c.shapes ++
      shapesOf o c.state.pen p raw.index
        ((Batch.steps numbers).foldl (Path.add (place o c.state.pen)) c.state.path ++
          if p.closes then [.close] else []) := by
  have hdraw : drawRaw o c raw =
      paint o ((Batch.steps numbers).foldl (addStep o) c) p raw.index := by
    rw [drawRaw, h]
    exact (draw_batch_eq_foldl o htext (some p) numbers raw.index).trans
      (draw_paint o _ p raw.index)
  have hclose : ∀ path : List Segment, (if p.closes then path ++ [.close] else path) =
      path ++ if p.closes then [.close] else [] := by
    intro path
    split
    · rfl
    · exact (List.append_nil path).symm
  have hpath : ((Batch.steps numbers).foldl (addStep o) c).state = _ :=
    state_foldl_addStep o c (Batch.steps numbers)
  rw [hdraw, shapes_paint, shapes_foldl_addStep, Painting.shapes, paintingOf, hpath, hclose]

/-- **Transforms act on points one after another, the last one first.**  Path operators, single or
in a batch, place the points that they name by the matrix that the transforms in force make.  Read
over exact numbers, where composing is associative and the identity neutral, this is mapping the
point by the transforms from the last to the first, flipping it against the height of the page and
scaling it along each axis.  All transforms are in force that stand in brackets still open, and none
that stands in one that is closed. -/
theorem place_transforms (raws : List RawOperator) :
    (∀ l m n : Matrix ℚ, (l.compose m).compose n = l.compose (m.compose n)) ∧
    (∀ m : Matrix ℚ, Matrix.identity.compose m = m ∧ m.compose .identity = m) ∧
    (∀ (transforms : List (Matrix ℚ)) (v : Viewport ℚ) (p q : Point ℚ),
      q = transforms.foldr Matrix.apply p →
        v.place (.stacked transforms) p = ⟨q.x * v.scaleX, (v.height - q.y) * v.scaleY⟩) ∧
    (∀ place, place = o.viewport.place (.stacked (inForce 0 raws)) →
      (∀ path step, (Path.add place path step).flatMap Segment.points =
        path.flatMap Segment.points ++ (step.takenPoint path ++ step.userPoints.map place)) ∧
      ((ofOperators o raws).state.inText = false → ∀ raw,
        (∀ step, Operator.decode raw = .ok (.step step) →
          (drawRaw o (ofOperators o raws) raw).state.path =
            Path.add place (ofOperators o raws).state.path step) ∧
        ∀ p numbers, Operator.decode raw = .ok (.batch (some p) numbers) →
          (drawRaw o (ofOperators o raws) raw).shapes = (ofOperators o raws).shapes ++
            shapesOf o (ofOperators o raws).state.pen p raw.index
              ((Batch.steps numbers).foldl (Path.add place) (ofOperators o raws).state.path ++
                if p.closes then [.close] else []))) ∧
    ((∀ raw ∈ raws, raw.isRestore = false) →
      inForce 0 raws = raws.filterMap RawOperator.matrix?) ∧
    ∀ save restore before inside after, save.isSave = true → restore.isRestore = true →
      IsBalanced 0 inside → raws = before ++ (save :: inside ++ restore :: after) →
        inForce 0 raws = inForce 0 (before ++ after) := by
  have hplace : o.viewport.place (.stacked (inForce 0 raws)) =
      place o (ofOperators o raws).state.pen := by
    rw [← matrix_ofOperators o raws]
    rfl
  refine ⟨Matrix.compose_assoc, fun m => ⟨m.identity_compose, m.compose_identity⟩, ?exact, ?run,
    fun h => inForce_of_forall_not_isRestore h 0, ?bracket⟩
  case exact =>
    rintro transforms v p _ rfl
    rw [Viewport.place_eq, Matrix.apply_stacked]
  case run =>
    rintro _ rfl
    rw [hplace]
    refine ⟨Path.points_add _, fun htext raw => ⟨fun step hstep => ?_, fun p numbers hbatch => ?_⟩⟩
    · exact path_drawRaw_of_step o htext hstep
    · exact shapes_drawRaw_of_batch o htext hbatch
  case bracket =>
    rintro save restore before inside after hsave hrestore hinside rfl
    exact inForce_bracket hsave hrestore hinside 0 before after

/-- A shift, a doubling in a closed bracket and a doubling in an open one: the end of the line at
`(10, 0)` is doubled once, then shifted and flipped. -/
theorem place_transforms_of_nested :
    let o := DrawingOptions.ofHeight 500
    let shift : RawOperator := ⟨12, [1, 0, 0, 1, 100, 50].map .integer, 0⟩
    let double : RawOperator := ⟨12, [2, 0, 0, 2, 0, 0].map .integer, 0⟩
    let nested : List RawOperator := [shift, ⟨10, [], 0⟩, double, ⟨11, [], 0⟩, ⟨10, [], 0⟩, double]
    (drawRaw o (ofOperators o nested) ⟨14, [.integer 10, .integer 0], 0⟩).state.path =
        [.line ⟨120, 450⟩] ∧
      inForce 0 nested = [⟨1, 0, 0, 1, 100, 50⟩, ⟨2, 0, 0, 2, 0, 0⟩] ∧
      (⟨500, 1, 1⟩ : Viewport ℚ).place (.stacked [⟨1, 0, 0, 1, 100, 50⟩, ⟨2, 0, 0, 2, 0, 0⟩])
        ⟨10, 0⟩ = ⟨120, 450⟩ := by
  intro o shift double nested
  obtain ⟨-, -, hexact, hrun, -, hbracket⟩ := place_transforms o nested
  obtain ⟨-, -, -, -, hopen, -⟩ := place_transforms o [shift, ⟨10, [], 0⟩, double]
  obtain ⟨-, hpath⟩ := hrun _ rfl
  obtain ⟨hstep, -⟩ := hpath (by decide +kernel) ⟨14, [.integer 10, .integer 0], 0⟩
  have hclosed := hbracket ⟨10, [], 0⟩ ⟨11, [], 0⟩ [shift] [double] [⟨10, [], 0⟩, double]
    (by decide +kernel) (by decide +kernel) (by decide +kernel) rfl
  refine ⟨?_, ?_, ?_⟩
  · exact (hstep (.line ⟨10, 0⟩) (by decide +kernel)).trans (by decide +kernel)
  · exact (hclosed.trans (hopen (by decide +kernel))).trans (by decide +kernel)
  · exact (hexact _ _ _ ⟨120, 50⟩ (by decide +kernel)).trans (by decide +kernel)

end Canvas
end PageContent
