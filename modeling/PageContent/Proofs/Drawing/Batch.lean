/-
# A batch is its expansion

A batch is a list of items, each a code with as many numbers as it takes,
and a tail that cannot be read on.

| code | item | numbers | step |
| ---: | --- | ---: | --- |
| 0 | `move` | 2 | a move |
| 1 | `line` | 2 | a line |
| 2 | `curve` | 6 | a curve |
| 3, 4 | `quadratic`, `otherCurve` | 4 | a line to the second point |
| 5 | `rectangle` | 4 | a rectangle |
| 6 | `close` | 0 | a close |

A code is read off the front before its numbers, and it says how many there are.
So a batch falls into items in one way (`prefix_of_flatMap_eq`), and reading it
yields the steps of the items (`steps_flatMap_append`).  Drawing adds these steps
one by one, which is what the operators of the same steps do (`draw_batch`).
-/

import PageContent.Drawing.Canvas
import PageContent.Proofs.Number.Unpacked

namespace PageContent
namespace Batch

/-! ## Codes -/

/-- What a code stands for. -/
inductive Kind where
  | move
  | line
  | curve
  | quadratic
  | otherCurve
  | rectangle
  | close
deriving DecidableEq, Repr

namespace Kind

/-- The kind of a code, if it is known. -/
def ofCode? (code : Float) : Option Kind :=
  if code == 0 then some .move
  else if code == 1 then some .line
  else if code == 2 then some .curve
  else if code == 3 then some .quadratic
  else if code == 4 then some .otherCurve
  else if code == 5 then some .rectangle
  else if code == 6 then some .close
  else none

/-- How many numbers follow the code. -/
def arity : Kind → Nat
  | .move | .line => 2
  | .curve => 6
  | .quadratic | .otherCurve | .rectangle => 4
  | .close => 0

/-- The step of a kind with its numbers. -/
def step (kind : Kind) (a : List Float) : PathStep :=
  match kind with
  | .move => .move ⟨a.getD 0 0, a.getD 1 0⟩
  | .line => .line ⟨a.getD 0 0, a.getD 1 0⟩
  | .curve => .curve ⟨a.getD 0 0, a.getD 1 0⟩ ⟨a.getD 2 0, a.getD 3 0⟩ ⟨a.getD 4 0, a.getD 5 0⟩
  | .quadratic | .otherCurve => .line ⟨a.getD 2 0, a.getD 3 0⟩
  | .rectangle => .rectangle ⟨a.getD 0 0, a.getD 1 0⟩ (a.getD 2 0) (a.getD 3 0)
  | .close => .close

end Kind

/-- A code that no step has: not finite, negative, above six or with a fraction. -/
def IsUnknown (code : Float) : Prop :=
  code.isFinite = false ∨ code < 0 ∨ 6 < code ∨ (Binary64.floor code == code) = false

instance (code : Float) : Decidable (IsUnknown code) :=
  inferInstanceAs (Decidable (_ ∨ _ ∨ _ ∨ _))

/-- A known code is one of seven numbers, the first with either sign. -/
theorem mem_of_ofCode?_eq_some {code : Float} {kind : Kind} (h : Kind.ofCode? code = some kind) :
    code ∈ [0, -0.0, 1, 2, 3, 4, 5, 6] := by
  have hcode : ∀ {x : Float}, (code == x) = true → x ∈ [0, 1, 2, 3, 4, 5, 6] →
      code ∈ [0, -0.0, 1, 2, 3, 4, 5, 6] := by
    intro x hx hmem
    rcases Binary64.eq_or_zero_of_beq hx with rfl | ⟨s, t, hs, -⟩
    · rcases List.mem_cons.1 hmem with hzero | hmem
      · exact List.mem_cons.2 (.inl hzero)
      · exact List.mem_cons_of_mem _ (List.mem_cons_of_mem _ hmem)
    · rcases Binary64.eq_of_unpacked_zero hs with rfl | rfl <;> simp
  unfold Kind.ofCode? at h
  split_ifs at h with h0 h1 h2 h3 h4 h5 h6
  · exact hcode h0 (by simp)
  · exact hcode h1 (by simp)
  · exact hcode h2 (by simp)
  · exact hcode h3 (by simp)
  · exact hcode h4 (by simp)
  · exact hcode h5 (by simp)
  · exact hcode h6 (by simp)

/-- The integer part of a double from zero to six is one too. -/
theorem floorInt_bounds {x : Float} (hfinite : x.isFinite = true) (hlo : ¬ x < 0) (hhi : ¬ 6 < x) :
    0 ≤ Binary64.floorInt x ∧ Binary64.floorInt x ≤ 6 := by
  have hsix : Binary64.unpacked 6 = .finite .positive 6755399441055744 (-50) (by decide) := rfl
  have hzero : Binary64.unpacked 0 = .zero .positive := rfl
  obtain ⟨hrounded, -⟩ := Binary64.rounded_unpacked x
  rw [Binary64.isFinite_eq] at hfinite
  rw [Binary64.lt_iff, hzero] at hlo
  rw [Binary64.lt_iff, hsix] at hhi
  cases hx : Binary64.unpacked x with
  | notANumber =>
    rw [hx] at hfinite
    exact absurd hfinite Bool.false_ne_true
  | infinity s =>
    rw [hx] at hfinite
    exact absurd hfinite Bool.false_ne_true
  | zero s =>
    simp [Binary64.floorInt, Binary64.mantissa_of_unpacked_zero hx]
  | finite s m e hm =>
    rw [hx] at hlo hhi hrounded
    cases s with
    | negative => exact absurd rfl hlo
    | positive =>
      obtain ⟨-, hm', -⟩ := hrounded
      simp only [Float.Model.UnpackedFloat.compare, Option.some.injEq] at hhi
      rw [Ordering.then_eq_lt, Int.compare_eq_lt, Int.compare_eq_eq, Nat.compare_eq_lt, not_or,
        not_and] at hhi
      obtain ⟨he, heq⟩ := hhi
      obtain ⟨n, hn⟩ : ∃ n, (-e).toNat = n := ⟨_, rfl⟩
      have hdiv : m / 2 ^ n ≤ 6 := by
        rcases Nat.lt_or_ge n 51 with hlt | hge
        · obtain rfl : n = 50 := by omega
          have := heq (by omega)
          omega
        · have hpow : 2 ^ 51 ≤ 2 ^ n := Nat.pow_le_pow_right (by decide) hge
          exact Nat.le_trans (Nat.div_le_div_left hpow (by decide)) (by omega)
      rw [Binary64.floorInt, Binary64.parts_of_unpacked hx]
      simp only [Binary64.isNegative, Bool.false_eq_true, if_false]
      rw [if_neg (by omega), hn]
      exact ⟨Int.natCast_nonneg (m / 2 ^ n), Int.ofNat_le.2 hdiv⟩

/-- **The codes without a kind are the unknown ones.** -/
theorem ofCode?_eq_none_iff (code : Float) : Kind.ofCode? code = none ↔ IsUnknown code := by
  constructor
  · intro h
    by_contra hknown
    rw [IsUnknown, not_or, not_or, not_or, Bool.not_eq_false, Bool.not_eq_false] at hknown
    obtain ⟨hfinite, hlo, hhi, hwhole⟩ := hknown
    obtain ⟨hlo, hhi⟩ := floorInt_bounds hfinite hlo hhi
    rw [Binary64.floor, if_pos hfinite] at hwhole
    have hcode := BEq.symm hwhole
    unfold Kind.ofCode? at h
    split_ifs at h with h0 h1 h2 h3 h4 h5 h6
    have hn : Binary64.floorInt code = 0 ∨ Binary64.floorInt code = 1 ∨
        Binary64.floorInt code = 2 ∨ Binary64.floorInt code = 3 ∨ Binary64.floorInt code = 4 ∨
        Binary64.floorInt code = 5 ∨ Binary64.floorInt code = 6 := by omega
    rcases hn with hn | hn | hn | hn | hn | hn | hn <;> rw [hn] at hcode
    · exact h0 hcode
    · exact h1 hcode
    · exact h2 hcode
    · exact h3 hcode
    · exact h4 hcode
    · exact h5 hcode
    · exact h6 hcode
  · intro h
    cases hkind : Kind.ofCode? code with
    | none => rfl
    | some kind =>
      have hmem := mem_of_ofCode?_eq_some hkind
      have hknown : ∀ x ∈ [0, -0.0, 1, 2, 3, 4, 5, 6], ¬ IsUnknown x := by decide +kernel
      exact absurd h (hknown code hmem)

/-! ## Reading the front -/

/-- The step of a kind from the front of some numbers, and the numbers behind it. -/
def Kind.read? : Kind → List Float → Option (PathStep × List Float)
  | .move, x :: y :: rest => some (.move ⟨x, y⟩, rest)
  | .line, x :: y :: rest => some (.line ⟨x, y⟩, rest)
  | .curve, x₁ :: y₁ :: x₂ :: y₂ :: x :: y :: rest => some (.curve ⟨x₁, y₁⟩ ⟨x₂, y₂⟩ ⟨x, y⟩, rest)
  | .quadratic, _ :: _ :: x :: y :: rest => some (.line ⟨x, y⟩, rest)
  | .otherCurve, _ :: _ :: x :: y :: rest => some (.line ⟨x, y⟩, rest)
  | .rectangle, x :: y :: w :: h :: rest => some (.rectangle ⟨x, y⟩ w h, rest)
  | .close, rest => some (.close, rest)
  | _, _ => none

/-- **A code is looked up, then its numbers are read.** -/
theorem first?_cons (code : Float) (numbers : List Float) :
    first? (code :: numbers) = (Kind.ofCode? code).bind (Kind.read? · numbers) := by
  rw [Kind.ofCode?]
  simp only [first?]
  by_cases h34 : (code == 3 || code == 4) = true
  · -- both curves are read alike
    rw [if_pos h34]
    rcases (Bool.or_eq_true _ _).mp h34 with h3 | h4
    · rw [if_pos h3]
      split_ifs <;>
        rcases numbers with _ | ⟨_, _ | ⟨_, _ | ⟨_, _ | ⟨_, _ | ⟨_, _ | ⟨_, _⟩⟩⟩⟩⟩⟩ <;> rfl
    · rw [if_pos h4]
      split_ifs <;>
        rcases numbers with _ | ⟨_, _ | ⟨_, _ | ⟨_, _ | ⟨_, _ | ⟨_, _ | ⟨_, _⟩⟩⟩⟩⟩⟩ <;> rfl
  · obtain ⟨h3, h4⟩ := not_or.1 (mt (Bool.or_eq_true _ _).mpr h34)
    rw [if_neg h34, if_neg h3, if_neg h4]
    split_ifs
    · rcases numbers with _ | ⟨_, _ | ⟨_, _⟩⟩ <;> rfl
    · rcases numbers with _ | ⟨_, _ | ⟨_, _⟩⟩ <;> rfl
    · rcases numbers with _ | ⟨_, _ | ⟨_, _ | ⟨_, _ | ⟨_, _ | ⟨_, _ | ⟨_, _⟩⟩⟩⟩⟩⟩ <;> rfl
    · rcases numbers with _ | ⟨_, _ | ⟨_, _ | ⟨_, _ | ⟨_, _⟩⟩⟩⟩ <;> rfl
    · rfl
    · rfl

/-- Too few numbers are not read. -/
theorem Kind.read?_of_length_lt {kind : Kind} {numbers : List Float}
    (h : numbers.length < kind.arity) : kind.read? numbers = none := by
  cases kind with
  | close => exact absurd h (Nat.not_lt_zero _)
  | curve =>
    rcases numbers with _ | ⟨_, _ | ⟨_, _ | ⟨_, _ | ⟨_, _ | ⟨_, _ | ⟨_, _⟩⟩⟩⟩⟩⟩
    all_goals first | rfl | exact absurd h (by simp [arity])
  | move =>
    rcases numbers with _ | ⟨_, _ | ⟨_, _⟩⟩
    all_goals first | rfl | exact absurd h (by simp [arity])
  | line =>
    rcases numbers with _ | ⟨_, _ | ⟨_, _⟩⟩
    all_goals first | rfl | exact absurd h (by simp [arity])
  | _ =>
    rcases numbers with _ | ⟨_, _ | ⟨_, _ | ⟨_, _ | ⟨_, _⟩⟩⟩⟩
    all_goals first | rfl | exact absurd h (by simp [arity])

/-- As many numbers as it takes make the step of a kind, whatever follows. -/
theorem Kind.read?_append {kind : Kind} {a : List Float} (h : a.length = kind.arity)
    (rest : List Float) : kind.read? (a ++ rest) = some (kind.step a, rest) := by
  cases kind with
  | close =>
    obtain rfl := List.length_eq_zero_iff.1 h
    rfl
  | curve =>
    rcases a with _ | ⟨_, _ | ⟨_, _ | ⟨_, _ | ⟨_, _ | ⟨_, _ | ⟨_, _ | ⟨_, _⟩⟩⟩⟩⟩⟩⟩
    all_goals first | rfl | exact absurd h (by simp [arity])
  | move =>
    rcases a with _ | ⟨_, _ | ⟨_, _ | ⟨_, _⟩⟩⟩
    all_goals first | rfl | exact absurd h (by simp [arity])
  | line =>
    rcases a with _ | ⟨_, _ | ⟨_, _ | ⟨_, _⟩⟩⟩
    all_goals first | rfl | exact absurd h (by simp [arity])
  | _ =>
    rcases a with _ | ⟨_, _ | ⟨_, _ | ⟨_, _ | ⟨_, _ | ⟨_, _⟩⟩⟩⟩⟩
    all_goals first | rfl | exact absurd h (by simp [arity])

/-! ## Items -/

/-- A known code with as many numbers as it takes. -/
structure Item where
  code : Float
  kind : Kind
  operands : List Float
  kind_eq : Kind.ofCode? code = some kind
  length_eq : operands.length = kind.arity

namespace Item

/-- The item as it stands in a batch. -/
def numbers (i : Item) : List Float := i.code :: i.operands

/-- The step of the item. -/
def step (i : Item) : PathStep := i.kind.step i.operands

/-- The item at the front of a batch can be told from what follows. -/
theorem numbers_append_inj {i j : Item} {s t : List Float}
    (h : i.numbers ++ s = j.numbers ++ t) : i = j ∧ s = t := by
  obtain ⟨code, kind, a, hkind, ha⟩ := i
  obtain ⟨code', kind', b, hkind', hb⟩ := j
  obtain ⟨rfl, h⟩ := List.cons_eq_cons.1 h
  obtain rfl : kind = kind' := Option.some.inj (hkind.symm.trans hkind')
  obtain ⟨rfl, rfl⟩ := List.append_inj h (ha.trans hb.symm)
  exact ⟨rfl, rfl⟩

end Item

/-- A batch that cannot be read on: at its end, at an unknown code, or at a code that lacks
numbers. -/
def Stops : List Float → Prop
  | [] => True
  | code :: numbers =>
    IsUnknown code ∨ ∃ kind, Kind.ofCode? code = some kind ∧ numbers.length < kind.arity

theorem first?_numbers_append (i : Item) (rest : List Float) :
    first? (i.numbers ++ rest) = some (i.step, rest) := by
  rw [Item.numbers, List.cons_append, first?_cons, i.kind_eq, Option.bind_some,
    Kind.read?_append i.length_eq]
  rfl

theorem first?_of_stops {tail : List Float} (h : Stops tail) : first? tail = none := by
  cases tail with
  | nil => rfl
  | cons code numbers =>
    rw [first?_cons]
    rcases h with h | ⟨kind, hkind, hlt⟩
    · rw [(ofCode?_eq_none_iff code).2 h, Option.bind_none]
    · rw [hkind, Option.bind_some, Kind.read?_of_length_lt hlt]

/-- A batch stops, or has an item at its front. -/
theorem stops_or_exists_item (data : List Float) :
    Stops data ∨ ∃ (i : Item) (rest : List Float), data = i.numbers ++ rest := by
  cases data with
  | nil => exact .inl trivial
  | cons code numbers =>
    cases hkind : Kind.ofCode? code with
    | none => exact .inl (.inl ((ofCode?_eq_none_iff code).1 hkind))
    | some kind =>
      rcases Nat.lt_or_ge numbers.length kind.arity with hlt | hge
      · exact .inl (.inr ⟨kind, hkind, hlt⟩)
      · refine .inr ⟨⟨code, kind, numbers.take kind.arity, hkind, ?_⟩, numbers.drop kind.arity, ?_⟩
        · rw [List.length_take, Nat.min_eq_left hge]
        · rw [Item.numbers, List.cons_append, List.take_append_drop]

/-- **Every batch is items and a tail that stops.** -/
theorem exists_items (data : List Float) :
    ∃ (items : List Item) (tail : List Float),
      data = items.flatMap Item.numbers ++ tail ∧ Stops tail := by
  induction hlength : data.length using Nat.strongRecOn generalizing data with
  | ind n ih =>
    rcases stops_or_exists_item data with h | ⟨i, rest, rfl⟩
    · exact ⟨[], data, rfl, h⟩
    · have hlt : rest.length < n := by
        rw [← hlength, List.length_append, Item.numbers, List.length_cons]
        omega
      obtain ⟨items, tail, rfl, h⟩ := ih rest.length hlt rest rfl
      exact ⟨i :: items, tail, by rw [List.flatMap_cons, List.append_assoc], h⟩

/-- An item at the front is no reason to stop. -/
theorem not_stops_numbers_append (i : Item) (rest : List Float) : ¬ Stops (i.numbers ++ rest) := by
  intro h
  have hnone := first?_of_stops h
  rw [first?_numbers_append] at hnone
  exact absurd hnone (Option.some_ne_none _)

/-- **The items before a tail that stops are the longest**: any others are the first of them. -/
theorem prefix_of_flatMap_eq {items items' : List Item} {tail tail' : List Float}
    (h : items'.flatMap Item.numbers ++ tail' = items.flatMap Item.numbers ++ tail)
    (hstops : Stops tail) :
    ∃ more, items = items' ++ more ∧ tail' = more.flatMap Item.numbers ++ tail := by
  induction items' generalizing items with
  | nil => exact ⟨items, rfl, h⟩
  | cons i items' ih =>
    rw [List.flatMap_cons, List.append_assoc] at h
    cases items with
    | nil =>
      rw [List.flatMap_nil, List.nil_append] at h
      rw [← h] at hstops
      exact absurd hstops (not_stops_numbers_append i _)
    | cons j items =>
      rw [List.flatMap_cons, List.append_assoc] at h
      obtain ⟨rfl, hrest⟩ := Item.numbers_append_inj h
      obtain ⟨more, rfl, htail⟩ := ih hrest
      exact ⟨more, rfl, htail⟩

/-- There is one way to read a batch to where it stops. -/
theorem eq_of_flatMap_eq {items items' : List Item} {tail tail' : List Float}
    (h : items'.flatMap Item.numbers ++ tail' = items.flatMap Item.numbers ++ tail)
    (hstops : Stops tail) (hstops' : Stops tail') : items' = items ∧ tail' = tail := by
  obtain ⟨more, rfl, rfl⟩ := prefix_of_flatMap_eq h hstops
  cases more with
  | nil => exact ⟨(List.append_nil items').symm, rfl⟩
  | cons i more =>
    rw [List.flatMap_cons, List.append_assoc] at hstops'
    exact absurd hstops' (not_stops_numbers_append i _)

theorem stepsWith_flatMap_append {items : List Item} {tail : List Float} (h : Stops tail)
    {fuel : Nat} (hfuel : (items.flatMap Item.numbers ++ tail).length ≤ fuel) :
    stepsWith fuel (items.flatMap Item.numbers ++ tail) = items.map Item.step := by
  induction items generalizing fuel with
  | nil =>
    cases fuel with
    | zero => rfl
    | succ fuel => rw [List.flatMap_nil, List.nil_append, stepsWith, first?_of_stops h]; rfl
  | cons i items ih =>
    rw [List.flatMap_cons, List.append_assoc] at hfuel ⊢
    rw [List.length_append, Item.numbers, List.length_cons] at hfuel
    cases fuel with
    | zero => omega
    | succ fuel =>
      have hrest : (items.flatMap Item.numbers ++ tail).length ≤ fuel := by omega
      rw [stepsWith, first?_numbers_append, List.map_cons, ← ih hrest]

/-- **Reading a batch yields the steps of its items.** -/
theorem steps_flatMap_append {items : List Item} {tail : List Float} (h : Stops tail) :
    steps (items.flatMap Item.numbers ++ tail) = items.map Item.step :=
  stepsWith_flatMap_append h (Nat.le_refl _)

end Batch

/-! ## Drawing -/

namespace Canvas

variable (o : DrawingOptions)

/-- A step is added to the path, and counted if it is a rectangle. -/
theorem addStep_eq (c : Canvas) (s : PathStep) :
    addStep o c s =
      { c with
        state := { c.state with path := Path.add (place o c.state.pen) c.state.path s }
        tally := { c.tally with
          rects := c.tally.rects + if s.isRectangle then 1 else 0 } } := by
  unfold addStep
  dsimp only
  split <;> rfl

theorem inText_addStep (c : Canvas) (s : PathStep) :
    (addStep o c s).state.inText = c.state.inText := by
  rw [addStep_eq]

theorem draw_step {c : Canvas} (h : c.state.inText = false) (s : PathStep) (index : UInt64) :
    draw o c (.step s) index = addStep o c s := by
  rw [draw, h, Bool.false_and, if_neg Bool.false_ne_true]

/-- Steps as operators of their own, each with some index. -/
def drawSteps (indices : Nat → UInt64) (c : Canvas) (steps : List PathStep) : Canvas :=
  steps.zipIdx.foldl (fun c p => draw o c (.step p.1) (indices p.2)) c

theorem drawSteps_eq_foldl (indices : Nat → UInt64) {c : Canvas} (h : c.state.inText = false)
    (steps : List PathStep) : drawSteps o indices c steps = steps.foldl (addStep o) c := by
  have hfrom : ∀ (n : Nat) (c : Canvas), c.state.inText = false →
      (steps.zipIdx n).foldl (fun c p => draw o c (.step p.1) (indices p.2)) c =
        steps.foldl (addStep o) c := by
    induction steps with
    | nil => exact fun _ _ _ => rfl
    | cons s steps ih =>
      intro n c h
      rw [List.zipIdx_cons, List.foldl_cons, List.foldl_cons, draw_step o h]
      exact ih (n + 1) _ ((inText_addStep o c s).trans h)
  exact hfrom 0 c h

/-- The operator behind the steps of a batch. -/
def finish : Option Paint → Operator
  | some p => .paint p
  | none => .endPath

theorem draw_paint (c : Canvas) (p : Paint) (index : UInt64) :
    draw o c (.paint p) index = paint o c p index := by
  have hpaint : (Operator.paint p).buildsPath = false := rfl
  rw [draw, hpaint, Bool.and_false, if_neg Bool.false_ne_true]

theorem draw_endPath (c : Canvas) (index : UInt64) : draw o c .endPath index = c.withPath [] := by
  have hend : Operator.endPath.buildsPath = false := rfl
  rw [draw, hend, Bool.and_false, if_neg Bool.false_ne_true]

/-- A close is added in every state. -/
theorem draw_close (c : Canvas) (index : UInt64) :
    draw o c (.step .close) index = addStep o c .close := by
  have hclose : (Operator.step .close).buildsPath = false := rfl
  rw [draw, hclose, Bool.and_false, if_neg Bool.false_ne_true]

theorem draw_batch_eq_foldl {c : Canvas} (h : c.state.inText = false) (p : Option Paint)
    (data : List Float) (index : UInt64) :
    draw o c (.batch p data) index =
      draw o ((Batch.steps data).foldl (addStep o) c) (finish p) index := by
  rw [draw, h, Bool.false_and, if_neg Bool.false_ne_true]
  cases p with
  | none => exact (draw_endPath o _ index).symm
  | some p => exact (draw_paint o _ p index).symm

/-- Painting that closes the path is closing it, then painting. -/
theorem paint_of_closes (c : Canvas) {p : Paint} (h : p.closes = true) (index : UInt64) :
    paint o c p index = paint o (addStep o c .close) p.unclosed index := by
  cases p with
  | closeStroke => rfl
  | closeFillStroke => rfl
  | closeEvenOddFillStroke => rfl
  | _ => exact absurd h Bool.false_ne_true

/-- A rectangle is four corners and a close, and is counted. -/
theorem addStep_rectangle (c : Canvas) (p : Point Float) (w h : Float) :
    addStep o c (.rectangle p w h) =
      let traced := [.move p, .line ⟨p.x + w, p.y⟩, .line ⟨p.x + w, p.y + h⟩,
        .line ⟨p.x, p.y + h⟩, .close].foldl (addStep o) c
      { traced with tally := { traced.tally with rects := traced.tally.rects + 1 } } := by
  simp [addStep, Path.add, Path.segmentsOf, PathStep.isRectangle, withPath, withState, place]

/-- **Batches and composite operators are their expansions.**  A batch is, in one way, the longest
list of items it starts with and a tail that stops, and outside text mode drawing it is drawing
the steps of the items and then painting, or ending, the path.  Painting that closes the path is
closing it and painting it in the form that does not.  Outside text mode a rectangle is its move,
three lines and close, and counts as one. -/
theorem draw_composite (data : List Float) :
    (∃ (items : List Batch.Item) (tail : List Float),
      (data = items.flatMap Batch.Item.numbers ++ tail ∧ Batch.Stops tail) ∧
      (∀ items' tail', data = items'.flatMap Batch.Item.numbers ++ tail' →
        items' <+: items ∧ (Batch.Stops tail' → items' = items ∧ tail' = tail)) ∧
      ∀ (c : Canvas) (p : Option Paint) (indices : Nat → UInt64) (index : UInt64),
        c.state.inText = false →
        draw o c (.batch p data) index =
          draw o (drawSteps o indices c (items.map Batch.Item.step)) (finish p) index) ∧
    (∀ (c : Canvas) (p : Paint) (index index' : UInt64), p.closes = true →
      draw o c (.paint p) index =
        draw o (draw o c (.step .close) index') (.paint p.unclosed) index) ∧
    ∀ (c : Canvas) (p : Point Float) (w h : Float) (indices : Nat → UInt64) (index : UInt64),
      c.state.inText = false →
      draw o c (.step (.rectangle p w h)) index =
        let traced := drawSteps o indices c
          [.move p, .line ⟨p.x + w, p.y⟩, .line ⟨p.x + w, p.y + h⟩, .line ⟨p.x, p.y + h⟩, .close]
        { traced with tally := { traced.tally with rects := traced.tally.rects + 1 } } := by
  obtain ⟨items, tail, rfl, hstops⟩ := Batch.exists_items data
  refine ⟨⟨items, tail, ⟨rfl, hstops⟩, ?_, ?_⟩, ?_, ?_⟩
  · intro items' tail' h
    constructor
    · obtain ⟨more, rfl, -⟩ := Batch.prefix_of_flatMap_eq h.symm hstops
      exact List.prefix_append items' more
    · intro hstops'
      exact Batch.eq_of_flatMap_eq h.symm hstops hstops'
  · intro c p indices index hc
    rw [draw_batch_eq_foldl o hc, Batch.steps_flatMap_append hstops,
      drawSteps_eq_foldl o indices hc]
  · intro c p index index' hp
    rw [draw_paint, draw_close, draw_paint, paint_of_closes o c hp]
  · intro c p w h indices index hc
    rw [draw_step o hc, addStep_rectangle, drawSteps_eq_foldl o indices hc]

/-- The empty canvas draws a batch of a line and a truncated curve, a closing stroke and a
rectangle. -/
theorem draw_composite_empty :
    (∃ (items : List Batch.Item) (tail : List Float),
      [1, 3, 4, 2, 9, 9] = items.flatMap Batch.Item.numbers ++ tail ∧
      draw {} {} (.batch (some .stroke) [1, 3, 4, 2, 9, 9]) 7 =
        draw {} (drawSteps {} (fun _ => 0) {} (items.map Batch.Item.step)) (.paint .stroke) 7) ∧
    draw {} {} (.paint .closeStroke) 7 = draw {} (draw {} {} (.step .close) 6) (.paint .stroke) 7 ∧
    (draw {} {} (.step (.rectangle ⟨1, 2⟩ 3 4)) 7).tally.rects =
      (drawSteps {} (fun _ => 0) {}
        [.move ⟨1, 2⟩, .line ⟨1 + 3, 2⟩, .line ⟨1 + 3, 2 + 4⟩, .line ⟨1, 2 + 4⟩,
          .close]).tally.rects + 1 := by
  obtain ⟨⟨items, tail, ⟨heq, -⟩, -, hbatch⟩, hclosing, hrectangle⟩ :=
    draw_composite {} [1, 3, 4, 2, 9, 9]
  refine ⟨⟨items, tail, heq, hbatch {} (some .stroke) (fun _ => 0) 7 rfl⟩,
    hclosing {} .closeStroke 7 6 rfl, ?_⟩
  rw [hrectangle {} ⟨1, 2⟩ 3 4 (fun _ => 0) 7 rfl]

end Canvas
end PageContent
