/-
# Unrelated text is merged apart

Two fragments are unrelated if neither stands for the other in one of the passes
over doubles and neither is near a group that the other opens.  A list that
interleaves two lists of fragments, all of one unrelated to all of the other,
goes through the stages of merging as the two lists would by themselves:

| stage | |
| --- | --- |
| `dedupeExact`, `dedupeOverlaps` | what is left of a part is that part of what is left |
| | (`filter_dedupeExact`, `filter_dedupeOverlaps`) |
| `groupByBaseline` | the groups interleave those of the parts (`interleaves_foldl_joinGroup`) |
| `cutGroup`, `sortLines` | the lines are those of the parts (`linesBy_perm_of_interleaves`) |

The overlap pass sorts what it gets and tells fragments by their places, and a
part of a list has other places in it than by itself.  What stays does not depend
on how the fragments are numbered, as long as no number comes twice
(`dedupeOverlaps_map_fst`).
-/

import PageContent.Proofs.Line.Survivors
import PageContent.Proofs.Order.Interleaving
import Mathlib.Data.List.Nodup

namespace PageContent
namespace Merge

/-- Neither fragment stands for the other among doubles, and the baseline of neither is near the
key of a group that the other opens. -/
structure Unrelated (o : MergeOptions) (f g : Fragment) : Prop where
  exactKey_ne : exactKey f ≠ exactKey g
  not_over : isOverlapOf o f g = false
  not_under : isOverlapOf o g f = false
  not_near : ¬ (groupKey f.baseline - g.baseline).abs < o.baselineTolerance
  not_near' : ¬ (groupKey g.baseline - f.baseline).abs < o.baselineTolerance

variable {o : MergeOptions}

instance (f g : Fragment) : Decidable (Unrelated o f g) :=
  decidable_of_iff
    (exactKey f ≠ exactKey g ∧ isOverlapOf o f g = false ∧ isOverlapOf o g f = false ∧
      ¬ (groupKey f.baseline - g.baseline).abs < o.baselineTolerance ∧
      ¬ (groupKey g.baseline - f.baseline).abs < o.baselineTolerance)
    ⟨fun ⟨hkey, hover, hunder, hnear, hnear'⟩ => ⟨hkey, hover, hunder, hnear, hnear'⟩,
      fun h => ⟨h.exactKey_ne, h.not_over, h.not_under, h.not_near, h.not_near'⟩⟩

/-! ## The exact pass -/

theorem filter_firstOfEachKey (p : String × Int × Int → Bool)
    {seen seen' : List (String × Int × Int)} {fs : List Fragment}
    (hseen : ∀ k, p k = true → (k ∈ seen ↔ k ∈ seen')) :
    (firstOfEachKey seen fs).filter (p <| exactKey ·) =
      firstOfEachKey seen' (fs.filter (p <| exactKey ·)) := by
  induction fs generalizing seen seen' with
  | nil => rfl
  | cons f fs ih =>
    rw [firstOfEachKey]
    by_cases hp : p (exactKey f) = true
    · have hsame : seen.contains (exactKey f) = seen'.contains (exactKey f) := by
        rw [Bool.eq_iff_iff, List.contains_iff_mem, List.contains_iff_mem]
        exact hseen (exactKey f) hp
      rw [List.filter_cons, if_pos hp, firstOfEachKey, hsame]
      split
      · exact ih hseen
      · have hseen' : ∀ k, p k = true → (k ∈ exactKey f :: seen ↔ k ∈ exactKey f :: seen') := by
          intro k hk
          rw [List.mem_cons, List.mem_cons, hseen k hk]
        rw [List.filter_cons, if_pos hp, ih hseen']
    · rw [List.filter_cons, if_neg hp]
      split
      · exact ih hseen
      · -- the key of a fragment of the other part is none that this part looks for
        have hseen' : ∀ k, p k = true → (k ∈ exactKey f :: seen ↔ k ∈ seen') := by
          intro k hk
          have hne : k ≠ exactKey f := fun h => hp (h ▸ hk)
          rw [List.mem_cons, hseen k hk]
          exact or_iff_right hne
        rw [List.filter_cons, if_neg hp, ih hseen']

/-- **The exact pass takes parts with different keys apart.** -/
theorem filter_dedupeExact (p : String × Int × Int → Bool) (fs : List Fragment) :
    (dedupeExact fs).filter (p <| exactKey ·) = dedupeExact (fs.filter (p <| exactKey ·)) :=
  filter_firstOfEachKey p fun _ _ => Iff.rfl

/-! ## The overlap pass -/

section Overlaps

variable {ordered kept ps : List (Fragment × Nat)}

/-- What only elements of a part have is found in the part. -/
theorem any_filter_of_forall {α : Type} {p q : α → Bool} {l : List α}
    (h : ∀ a ∈ l, q a = true → p a = true) : (l.filter p).any q = l.any q := by
  rw [Bool.eq_iff_iff, List.any_eq_true, List.any_eq_true]
  constructor
  · rintro ⟨a, ha, hq⟩
    exact ⟨a, (List.mem_filter.1 ha).1, hq⟩
  · rintro ⟨a, ha, hq⟩
    exact ⟨a, List.mem_filter.2 ⟨ha, h a ha hq⟩, hq⟩

section Step

variable {f : Fragment × Nat} {p : Fragment → Bool}

/-- A fragment of the part meets what is kept of the part. -/
theorem filter_keepUncovered_of_pos (hp : p f.1 = true)
    (hcross : ∀ g ∈ kept, p g.1 = false → isOverlapOf o f.1 g.1 = false) :
    (keepUncovered o kept f).filter (p ·.1) = keepUncovered o (kept.filter (p ·.1)) f := by
  have hany : (kept.filter (p ·.1)).any (isOverlapOf o f.1 ·.1) =
      kept.any (isOverlapOf o f.1 ·.1) := by
    refine any_filter_of_forall fun g hg hover => ?_
    by_contra hpg
    have hapart := hcross g hg (eq_false_of_ne_true hpg)
    exact absurd hover (ne_true_of_eq_false hapart)
  unfold keepUncovered
  rw [hany]
  split
  · rfl
  · rw [List.filter_append, List.filter_cons, if_pos hp, List.filter_nil]

/-- A fragment outside the part changes nothing of what is kept of it. -/
theorem filter_keepUncovered_of_neg (hp : ¬ p f.1 = true) :
    (keepUncovered o kept f).filter (p ·.1) = kept.filter (p ·.1) := by
  unfold keepUncovered
  split
  · rfl
  · rw [List.filter_append, List.filter_cons, if_neg hp, List.filter_nil, List.append_nil]

/-- What is kept may be told by other numbers: the overlap pass looks at the fragments. -/
theorem keepUncovered_map (number : Nat → Nat) :
    keepUncovered o (kept.map (Prod.map id number)) (Prod.map id number f) =
      (keepUncovered o kept f).map (Prod.map id number) := by
  unfold keepUncovered
  rw [List.any_map]
  show (if kept.any (isOverlapOf o f.1 ·.1) = true then _ else _) = _
  split
  · rfl
  · rw [List.map_append, List.map_singleton]

end Step

theorem filter_foldl_keepUncovered {p : Fragment → Bool}
    (hcross : ∀ f ∈ ordered, ∀ g ∈ kept ++ ordered, p f.1 = true → p g.1 = false →
      isOverlapOf o f.1 g.1 = false) :
    (ordered.foldl (keepUncovered o) kept).filter (p ·.1) =
      (ordered.filter (p ·.1)).foldl (keepUncovered o) (kept.filter (p ·.1)) := by
  induction ordered generalizing kept with
  | nil => rfl
  | cons f ordered ih =>
    have hrest : ∀ f' ∈ ordered, ∀ g ∈ keepUncovered o kept f ++ ordered, p f'.1 = true →
        p g.1 = false → isOverlapOf o f'.1 g.1 = false := by
      intro f' hf' g hg
      refine hcross f' (List.mem_cons_of_mem f hf') g ?_
      rcases List.mem_append.1 hg with hg | hg
      · rcases (keepUncovered_spec o kept f).2.1 g hg with hg | rfl
        · exact List.mem_append_left _ hg
        · exact List.mem_append_right _ List.mem_cons_self
      · exact List.mem_append_right _ (List.mem_cons_of_mem f hg)
    rw [List.foldl_cons, ih hrest, List.filter_cons]
    split
    · rename_i hp
      have hkept : ∀ g ∈ kept, p g.1 = false → isOverlapOf o f.1 g.1 = false := fun g hg =>
        hcross f List.mem_cons_self g (List.mem_append_left _ hg) hp
      rw [List.foldl_cons, filter_keepUncovered_of_pos hp hkept]
    · rename_i hp
      rw [filter_keepUncovered_of_neg hp]

/-- **A part that the rest is not painted over is uncovered by itself.** -/
theorem filter_uncovered {p : Fragment → Bool}
    (hcross : ∀ f ∈ ordered, ∀ g ∈ ordered, p f.1 = true → p g.1 = false →
      isOverlapOf o f.1 g.1 = false) :
    (uncovered o ordered).filter (p ·.1) = uncovered o (ordered.filter (p ·.1)) :=
  @filter_foldl_keepUncovered o ordered [] p hcross

theorem uncovered_map (o : MergeOptions) (number : Nat → Nat) (ordered : List (Fragment × Nat)) :
    uncovered o (ordered.map (Prod.map id number)) =
      (uncovered o ordered).map (Prod.map id number) := by
  have hfold : ∀ kept : List (Fragment × Nat),
      (ordered.map (Prod.map id number)).foldl (keepUncovered o)
          (kept.map (Prod.map id number)) =
        (ordered.foldl (keepUncovered o) kept).map (Prod.map id number) := by
    induction ordered with
    | nil => exact fun _ => rfl
    | cons f ordered ih =>
      intro kept
      rw [List.map_cons, List.foldl_cons, keepUncovered_map, ih, List.foldl_cons]
  exact hfold []

/-- The order in which the overlap pass takes the fragments: longer ones first. -/
def isLonger (f g : Fragment × Nat) : Bool := decide (g.1.chars.length ≤ f.1.chars.length)

theorem isLonger_total (f g : Fragment × Nat) : (isLonger f g || isLonger g f) = true := by
  rw [isLonger, isLonger, Bool.or_eq_true, decide_eq_true_iff, decide_eq_true_iff]
  exact Nat.le_total _ _

theorem isLonger_trans (f g h : Fragment × Nat) (hfg : isLonger f g = true)
    (hgh : isLonger g h = true) : isLonger f h = true :=
  decide_eq_true ((of_decide_eq_true hgh).trans (of_decide_eq_true hfg))

/-- What the overlap pass leaves of fragments that are numbered in some way. -/
def leftUncovered (o : MergeOptions) (ps : List (Fragment × Nat)) : List (Fragment × Nat) :=
  ps.filter fun f => (uncovered o (stableSort isLonger ps)).any (·.2 == f.2)

theorem dedupeOverlaps_eq (fs : List Fragment) :
    dedupeOverlaps o fs = (leftUncovered o fs.zipIdx).map Prod.fst := rfl

theorem mem_of_mem_uncovered_stableSort {g : Fragment × Nat}
    (h : g ∈ uncovered o (stableSort isLonger ps)) : g ∈ ps :=
  (stableSort_perm isLonger ps).mem_iff.1 ((uncovered_spec o _).1 g h)

/-- A part is left as it is by itself under the numbers it has in the whole. -/
theorem filter_leftUncovered {p : Fragment → Bool} (hps : (ps.map Prod.snd).Nodup)
    (hcross : ∀ f ∈ ps, ∀ g ∈ ps, p f.1 = true → p g.1 = false →
      isOverlapOf o f.1 g.1 = false) :
    (leftUncovered o ps).filter (p ·.1) = leftUncovered o (ps.filter (p ·.1)) := by
  have hsorted : uncovered o (stableSort isLonger (ps.filter (p ·.1))) =
      (uncovered o (stableSort isLonger ps)).filter (p ·.1) := by
    have hmem : ∀ {f}, f ∈ stableSort isLonger ps → f ∈ ps := (stableSort_perm _ _).mem_iff.1
    rw [← filter_stableSort isLonger_total isLonger_trans]
    exact (filter_uncovered fun f hf g hg => hcross f (hmem hf) g (hmem hg)).symm
  unfold leftUncovered
  rw [hsorted, List.filter_filter, List.filter_filter]
  refine List.filter_congr fun f hf => ?_
  cases hp : p f.1 with
  | false => rw [Bool.false_and, Bool.and_false]
  | true =>
    rw [Bool.true_and, Bool.and_true]
    refine (any_filter_of_forall fun g hg hplace => ?_).symm
    -- places are distinct, so what has the place of `f` is `f`
    have hgf : g = f := List.inj_on_of_nodup_map hps (mem_of_mem_uncovered_stableSort hg) hf
      (beq_iff_eq.1 hplace)
    rw [hgf, hp]

/-- Other numbers, if they are distinct, leave the same fragments. -/
theorem leftUncovered_map {number : Nat → Nat}
    (hinj : ∀ f ∈ ps, ∀ g ∈ ps, number f.2 = number g.2 → f.2 = g.2) :
    leftUncovered o (ps.map (Prod.map id number)) =
      (leftUncovered o ps).map (Prod.map id number) := by
  have hsorted : stableSort isLonger (ps.map (Prod.map id number)) =
      (stableSort isLonger ps).map (Prod.map id number) :=
    stableSort_map (f := Prod.map id number) (fun _ _ => rfl) ps
  unfold leftUncovered
  rw [hsorted, uncovered_map, List.filter_map]
  refine congrArg (List.map _) (List.filter_congr fun f hf => ?_)
  show ((uncovered o (stableSort isLonger ps)).map (Prod.map id number)).any
    (·.2 == number f.2) = _
  rw [List.any_map, Bool.eq_iff_iff, List.any_eq_true, List.any_eq_true]
  refine exists_congr fun g => and_congr_right fun hg => ?_
  have hsame : number g.2 = number f.2 ↔ g.2 = f.2 :=
    ⟨hinj g (mem_of_mem_uncovered_stableSort hg) f hf, congrArg number⟩
  exact beq_iff_eq.trans (hsame.trans beq_iff_eq.symm)

/-- **The overlap pass does not look at the numbers of the fragments**, if they are distinct. -/
theorem dedupeOverlaps_map_fst (o : MergeOptions) (hps : (ps.map Prod.snd).Nodup) :
    dedupeOverlaps o (ps.map Prod.fst) = (leftUncovered o ps).map Prod.fst := by
  let number (i : Nat) : Nat := ((ps.map Prod.snd)[i]?).getD 0
  have hplaces : (ps.map Prod.fst).zipIdx.map (Prod.map id number) = ps := by
    refine List.ext_getElem (by simp) fun i h h' => ?_
    simp [number, h']
  have hinj : ∀ f ∈ (ps.map Prod.fst).zipIdx, ∀ g ∈ (ps.map Prod.fst).zipIdx,
      number f.2 = number g.2 → f.2 = g.2 := by
    intro f hf g hg hsame
    have hlt : ∀ {f}, f ∈ (ps.map Prod.fst).zipIdx → f.2 < (ps.map Prod.snd).length :=
      fun hf => by simpa using List.snd_lt_of_mem_zipIdx hf
    simp only [number, List.getElem?_eq_getElem (hlt hf), List.getElem?_eq_getElem (hlt hg),
      Option.getD_some] at hsame
    exact (List.Nodup.getElem_inj_iff hps).1 hsame
  have hnumbered := leftUncovered_map (o := o) hinj
  rw [hplaces] at hnumbered
  rw [hnumbered, List.map_map, dedupeOverlaps_eq]
  rfl

/-- **The overlap pass takes parts apart that do not paint over each other.** -/
theorem filter_dedupeOverlaps {p : Fragment → Bool} {fs : List Fragment}
    (hcross : ∀ f ∈ fs, ∀ g ∈ fs, p f = true → p g = false → isOverlapOf o f g = false) :
    (dedupeOverlaps o fs).filter p = dedupeOverlaps o (fs.filter p) := by
  have hmem : ∀ {f : Fragment × Nat}, f ∈ fs.zipIdx → f.1 ∈ fs := fun hf => by
    rw [← List.zipIdx_map_fst 0 fs]
    exact List.mem_map_of_mem hf
  have hplaces : (fs.zipIdx.map Prod.snd).Nodup := by
    rw [List.zipIdx_map_snd]
    exact List.nodup_range'
  have hpart : ((fs.zipIdx.filter (p ·.1)).map Prod.snd).Nodup :=
    hplaces.sublist (List.filter_sublist.map Prod.snd)
  calc (dedupeOverlaps o fs).filter p
      = ((leftUncovered o fs.zipIdx).filter (p ·.1)).map Prod.fst := by
        rw [dedupeOverlaps_eq, List.filter_map]; rfl
    _ = (leftUncovered o (fs.zipIdx.filter (p ·.1))).map Prod.fst := by
        rw [filter_leftUncovered hplaces fun f hf g hg => hcross f.1 (hmem hf) g.1 (hmem hg)]
    _ = dedupeOverlaps o ((fs.zipIdx.filter (p ·.1)).map Prod.fst) :=
        (dedupeOverlaps_map_fst o hpart).symm
    _ = dedupeOverlaps o (fs.filter p) := by
        have hfst : (fs.zipIdx.filter (p ·.1)).map Prod.fst =
            (fs.zipIdx.map Prod.fst).filter p := List.filter_map.symm
        rw [hfst, List.zipIdx_map_fst]

end Overlaps

/-! ## Both passes -/

variable {as bs fs : List Fragment}

/-- What is left of a part with keys of its own, none of which is painted over by the rest. -/
theorem filter_dedupe {p : String × Int × Int → Bool} (h : Interleaves as bs fs)
    (has : ∀ a ∈ as, p (exactKey a) = true) (hbs : ∀ b ∈ bs, p (exactKey b) = false)
    (hover : ∀ a ∈ as, ∀ b ∈ bs, isOverlapOf o a b = false) :
    (dedupe o fs).filter (p <| exactKey ·) = dedupe o as := by
  have hexact : (dedupeExact fs).filter (p <| exactKey ·) = dedupeExact as := by
    rw [filter_dedupeExact, h.filter_eq_left has hbs]
  have hpart : ∀ {f}, f ∈ dedupeExact fs → f ∈ as ∨ f ∈ bs := fun hf =>
    List.mem_append.1 (h.perm.mem_iff.1 ((firstOfEachKey_sublist [] fs).mem hf))
  have hcross : ∀ f ∈ dedupeExact fs, ∀ g ∈ dedupeExact fs, p (exactKey f) = true →
      p (exactKey g) = false → isOverlapOf o f g = false := by
    intro f hf g hg hpf hpg
    rcases hpart hf with hf | hf
    · rcases hpart hg with hg | hg
      · exact absurd (has g hg) (ne_true_of_eq_false hpg)
      · exact hover f hf g hg
    · exact absurd hpf (ne_true_of_eq_false (hbs f hf))
  unfold dedupe
  split
  · rw [filter_dedupeOverlaps hcross, hexact]
  · exact hexact

/-- **What is left of an interleaving interleaves what is left of its parts.** -/
theorem interleaves_dedupe (h : Interleaves as bs fs)
    (hcross : ∀ a ∈ as, ∀ b ∈ bs, Unrelated o a b) :
    Interleaves (dedupe o as) (dedupe o bs) (dedupe o fs) := by
  -- the keys tell the two lists apart
  let p (k : String × Int × Int) : Bool := (as.map exactKey).contains k
  have has : ∀ a ∈ as, p (exactKey a) = true := fun a ha =>
    List.contains_iff_mem.2 (List.mem_map_of_mem ha)
  have hbs : ∀ b ∈ bs, p (exactKey b) = false := by
    intro b hb
    refine eq_false_of_ne_true fun hp => ?_
    obtain ⟨a, ha, hkey⟩ := List.mem_map.1 (List.contains_iff_mem.1 hp)
    exact (hcross a ha b hb).exactKey_ne hkey
  have hleft : (dedupe o fs).filter (p <| exactKey ·) = dedupe o as :=
    filter_dedupe h has hbs fun a ha b hb => (hcross a ha b hb).not_over
  have hright : (dedupe o fs).filter (fun f => !p (exactKey f)) = dedupe o bs :=
    filter_dedupe (p := (!p ·)) h.symm (fun b hb => by rw [hbs b hb, Bool.not_false])
      (fun a ha => by rw [has a ha, Bool.not_true])
      fun b hb a ha => (hcross a ha b hb).not_under
  have hparts := interleaves_filter (p <| exactKey ·) (dedupe o fs)
  rwa [hleft, hright] at hparts

/-! ## Groups -/

section Groups

variable {gs gs' groups : List Group}

/-- A fragment does not see the groups that do not admit it. -/
theorem interleaves_joinGroup {f : Fragment} (h : Interleaves gs gs' groups)
    (hgs' : ∀ g ∈ gs', g.admits o f.baseline = false) :
    Interleaves (joinGroup o f gs) gs' (joinGroup o f groups) := by
  induction h with
  | nil => exact .left _ .nil
  | left g h ih =>
    unfold joinGroup
    split
    · exact .left _ h
    · exact .left g (ih hgs')
  | right g h ih =>
    obtain ⟨hg, hgs'⟩ := List.forall_mem_cons.1 hgs'
    rw [joinGroup, if_neg (ne_true_of_eq_false hg)]
    exact .right g (ih hgs')

/-- A fragment that joins or opens a group makes none that admits an unrelated one. -/
theorem not_admits_joinGroup {f : Fragment} {y : Float}
    (hnear : ¬ (groupKey f.baseline - y).abs < o.baselineTolerance)
    (hgs : ∀ g ∈ gs, g.admits o y = false) : ∀ g ∈ joinGroup o f gs, g.admits o y = false := by
  induction gs with
  | nil =>
    intro g hg
    rw [List.mem_singleton.1 hg]
    exact decide_eq_false hnear
  | cons e gs ih =>
    obtain ⟨he, hgs⟩ := List.forall_mem_cons.1 hgs
    unfold joinGroup
    split
    · exact List.forall_mem_cons.2 ⟨he, hgs⟩
    · exact List.forall_mem_cons.2 ⟨he, ih hgs⟩

/-- **The groups of an interleaving interleave those of its parts**, from groups on that admit
no fragment of the other part. -/
theorem interleaves_foldl_joinGroup (h : Interleaves as bs fs)
    (hcross : ∀ a ∈ as, ∀ b ∈ bs, Unrelated o a b) (hgroups : Interleaves gs gs' groups)
    (hgs : ∀ b ∈ bs, ∀ g ∈ gs, g.admits o b.baseline = false)
    (hgs' : ∀ a ∈ as, ∀ g ∈ gs', g.admits o a.baseline = false) :
    Interleaves (as.foldl (fun gs f => joinGroup o f gs) gs)
      (bs.foldl (fun gs f => joinGroup o f gs) gs')
      (fs.foldl (fun gs f => joinGroup o f gs) groups) := by
  induction h generalizing gs gs' groups with
  | nil => exact hgroups
  | left a _ ih =>
    obtain ⟨ha, hcross⟩ := List.forall_mem_cons.1 hcross
    obtain ⟨hags', hgs'⟩ := List.forall_mem_cons.1 hgs'
    refine ih hcross (interleaves_joinGroup hgroups hags') ?_ hgs'
    intro b hb
    exact not_admits_joinGroup (ha b hb).not_near (hgs b hb)
  | right b _ ih =>
    obtain ⟨hbgs, hgs⟩ := List.forall_mem_cons.1 hgs
    refine ih (fun a ha b' hb' => hcross a ha b' (List.mem_cons_of_mem b hb'))
      (interleaves_joinGroup hgroups.symm hbgs).symm hgs ?_
    intro a ha
    exact not_admits_joinGroup (hcross a ha b List.mem_cons_self).not_near' (hgs' a ha)

end Groups

/-! ## Lines -/

/-- **Unrelated text is merged apart.**  The lines of an interleaving of two lists of fragments,
all of one unrelated to all of the other, are those of the one and those of the other. -/
theorem linesBy_perm_of_interleaves (origins : NaNOrigins)
    (h : Interleaves as bs fs) (hcross : ∀ a ∈ as, ∀ b ∈ bs, Unrelated o a b) :
    (linesBy origins o fs).Perm (linesBy origins o as ++ linesBy origins o bs) := by
  have hgroups : Interleaves (groupByBaseline o (dedupe o as)) (groupByBaseline o (dedupe o bs))
      (groupByBaseline o (dedupe o fs)) := by
    refine interleaves_foldl_joinGroup (interleaves_dedupe h hcross) ?_ .nil ?_ ?_
    · intro a ha b hb
      exact hcross a ((dedupe_sublist o as).mem ha) b ((dedupe_sublist o bs).mem hb)
    · exact fun _ _ _ hg => absurd hg List.not_mem_nil
    · exact fun _ _ _ hg => absurd hg List.not_mem_nil
  have hlines := hgroups.perm.flatMap_right fun g => cutGroup origins o g.items
  rw [List.flatMap_append] at hlines
  have hsorted : ∀ fs, (linesBy origins o fs).Perm
      ((groupByBaseline o (dedupe o fs)).flatMap fun g => cutGroup origins o g.items) :=
    fun fs => sortLines_perm origins o.order _
  exact (hsorted fs).trans (hlines.trans ((hsorted as).append (hsorted bs)).symm)

/-- Two lines painted in turns: the upper one is wide enough for two, and a piece of the lower one
is painted twice. -/
theorem linesBy_perm_of_interleaves_two :
    ((linesBy .computed {}
      [{ id := "a", content := "left", bbox := ⟨0, 50, 20, 60⟩, size := 10 },
        { id := "c", content := "to", bbox := ⟨0, 10, 10, 20⟩, size := 10 },
        { id := "d", content := "gether", bbox := ⟨10, 10, 40, 20⟩, size := 10 },
        { id := "b", content := "right", bbox := ⟨80, 50, 100, 60⟩, size := 10 },
        { id := "e", content := "get", bbox := ⟨12, 10, 25, 20⟩, size := 10 }]).map
          Line.content).Perm ["left", "right", "together"] := by
  have h := linesBy_perm_of_interleaves (o := {}) .computed
    (.left { id := "a", content := "left", bbox := ⟨0, 50, 20, 60⟩, size := 10 }
      (.right { id := "c", content := "to", bbox := ⟨0, 10, 10, 20⟩, size := 10 }
        (.right { id := "d", content := "gether", bbox := ⟨10, 10, 40, 20⟩, size := 10 }
          (.left { id := "b", content := "right", bbox := ⟨80, 50, 100, 60⟩, size := 10 }
            (.right { id := "e", content := "get", bbox := ⟨12, 10, 25, 20⟩, size := 10 }
              .nil))))) (by decide +kernel)
  have hapart : (linesBy .computed {}
        [{ id := "a", content := "left", bbox := ⟨0, 50, 20, 60⟩, size := 10 },
          { id := "b", content := "right", bbox := ⟨80, 50, 100, 60⟩, size := 10 }] ++
      linesBy .computed {}
        [{ id := "c", content := "to", bbox := ⟨0, 10, 10, 20⟩, size := 10 },
          { id := "d", content := "gether", bbox := ⟨10, 10, 40, 20⟩, size := 10 },
          { id := "e", content := "get", bbox := ⟨12, 10, 25, 20⟩, size := 10 }]).map
      Line.content = ["left", "right", "together"] := by decide +kernel
  exact hapart ▸ h.map Line.content

end Merge
end PageContent
