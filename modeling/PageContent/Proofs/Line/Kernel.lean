/-
# The kernel that the overlap pass leaves

The overlap pass decides longer fragments first, and of fragments that are as long the one
further up in the input.  In this order painting over is neither symmetric nor transitive, so
a fragment goes only for one that stays, and one that goes holds back no other:

| part of the rule | statement |
| --- | --- |
| no survivor is painted over by a survivor before it | `IsKernel.apart` |
| what goes is painted over by a survivor before it | `IsKernel.covered` |

There is one such sublist of the input (`IsKernel.unique`): of the first fragment on which two
of them differ, both have the same survivors before it.  What a kernel keeps is a kernel of
itself, so the pass done twice is the pass done once.
-/

import PageContent.Proofs.Line.Unrelated
import Mathlib.Data.List.Induction
import Mathlib.Data.List.Pairwise

namespace PageContent
namespace Merge

variable {o : MergeOptions}

/-! ## The exact pass -/

/-- What is left has keys of its own, and none that were seen before. -/
theorem nodup_exactKey_firstOfEachKey (seen : List (String × Int × Int)) (fs : List Fragment) :
    ((firstOfEachKey seen fs).map exactKey).Nodup ∧
      ∀ f ∈ firstOfEachKey seen fs, exactKey f ∉ seen := by
  induction fs generalizing seen with
  | nil => exact ⟨.nil, fun _ h => absurd h List.not_mem_nil⟩
  | cons f fs ih =>
    rw [firstOfEachKey]
    split
    · exact ih seen
    · rename_i hf
      obtain ⟨hnodup, hnew⟩ := ih (exactKey f :: seen)
      refine ⟨List.nodup_cons.2 ⟨fun hmem => ?_, hnodup⟩, List.forall_mem_cons.2 ⟨?_, ?_⟩⟩
      · obtain ⟨g, hg, hkey⟩ := List.mem_map.1 hmem
        exact hnew g hg (hkey ▸ List.mem_cons_self)
      · exact mt List.contains_iff_mem.2 hf
      · exact fun g hg hmem => hnew g hg (List.mem_cons_of_mem _ hmem)

/-- Fragments with keys of their own are left as they are. -/
theorem firstOfEachKey_eq_self {seen : List (String × Int × Int)} {fs : List Fragment}
    (hnodup : (fs.map exactKey).Nodup) (hnew : ∀ f ∈ fs, exactKey f ∉ seen) :
    firstOfEachKey seen fs = fs := by
  induction fs generalizing seen with
  | nil => rfl
  | cons f fs ih =>
    obtain ⟨hf, hnodup⟩ := List.nodup_cons.1 hnodup
    obtain ⟨hfseen, hnew⟩ := List.forall_mem_cons.1 hnew
    rw [firstOfEachKey, if_neg (mt List.contains_iff_mem.1 hfseen), ih hnodup]
    intro g hg hmem
    rcases List.mem_cons.1 hmem with hkey | hmem
    · exact hf (hkey ▸ List.mem_map_of_mem hg)
    · exact hnew g hg hmem

/-- **The exact pass done twice is the exact pass done once.** -/
theorem dedupeExact_dedupeExact (fs : List Fragment) :
    dedupeExact (dedupeExact fs) = dedupeExact fs :=
  firstOfEachKey_eq_self (nodup_exactKey_firstOfEachKey [] fs).1 fun _ _ => List.not_mem_nil

/-! ## Kernels -/

/-- The first fragment is decided before the second one: it is longer, or as long and further up
in the input. -/
def IsBefore (g f : Fragment × Nat) : Prop :=
  f.1.chars.length < g.1.chars.length ∨ f.1.chars.length = g.1.chars.length ∧ g.2 < f.2

theorem IsBefore.irrefl (f : Fragment × Nat) : ¬ IsBefore f f := by
  rintro (h | ⟨-, h⟩) <;> exact lt_irrefl _ h

theorem IsBefore.asymm {f g : Fragment × Nat} (h : IsBefore g f) : ¬ IsBefore f g := by
  unfold IsBefore at *
  omega

/-- A part of numbered fragments, in their order, of which none is painted over by one before it,
while what is not in it is painted over by one of it before it. -/
structure IsKernel (o : MergeOptions) (ps ks : List (Fragment × Nat)) : Prop where
  sublist : ks.Sublist ps
  apart : ∀ f ∈ ks, ∀ g ∈ ks, IsBefore g f → isOverlapOf o f.1 g.1 = false
  covered : ∀ f ∈ ps, f ∉ ks → ∃ g ∈ ks, IsBefore g f ∧ isOverlapOf o f.1 g.1 = true

section Kernels

variable {ps ks ks' ordered : List (Fragment × Nat)}

/-- What a kernel keeps is a kernel of itself. -/
theorem IsKernel.self (h : IsKernel o ps ks) : IsKernel o ks ks :=
  ⟨.refl ks, h.apart, fun _ hf hnot => absurd hf hnot⟩

/-- A survivor of one kernel survives in another that has the same survivors before it. -/
theorem IsKernel.mem_of_mem (h : IsKernel o ps ks) (h' : IsKernel o ps ks')
    {f : Fragment × Nat} (hbefore : ∀ g ∈ ps, IsBefore g f → g ∈ ks' → g ∈ ks) (hf : f ∈ ks) :
    f ∈ ks' := by
  by_contra hnot
  obtain ⟨g, hg, hgf, hover⟩ := h'.covered f (h.sublist.mem hf) hnot
  have hapart := h.apart f hf g (hbefore g (h'.sublist.mem hg) hgf hg) hgf
  exact absurd hover (ne_true_of_eq_false hapart)

/-- Two kernels have the same survivors, from the first decided to the last. -/
theorem IsKernel.mem_iff (h : IsKernel o ps ks) (h' : IsKernel o ps ks')
    {before after : List (Fragment × Nat)} (hsorted : (before ++ after).Pairwise IsBefore)
    (hmem : ∀ f, f ∈ before ++ after ↔ f ∈ ps) : ∀ f ∈ before, f ∈ ks ↔ f ∈ ks' := by
  induction before using List.reverseRecOn generalizing after with
  | nil => exact fun _ hf => absurd hf List.not_mem_nil
  | append_singleton before f ih =>
    rw [List.append_assoc, List.singleton_append] at hsorted hmem
    have hsame := ih hsorted hmem
    have hbefore : ∀ g ∈ ps, IsBefore g f → g ∈ before := by
      intro g hg hgf
      rcases List.mem_append.1 ((hmem g).2 hg) with hg | hg
      · exact hg
      · rcases List.mem_cons.1 hg with rfl | hg
        · exact absurd hgf (IsBefore.irrefl g)
        · have hafter := (List.pairwise_cons.1 (List.pairwise_append.1 hsorted).2.1).1
          exact absurd hgf (hafter g hg).asymm
    intro e he
    rcases List.mem_append.1 he with he | he
    · exact hsame e he
    · obtain rfl := List.mem_singleton.1 he
      constructor
      · exact h.mem_of_mem h' fun g hg hge => (hsame g (hbefore g hg hge)).2
      · exact h'.mem_of_mem h fun g hg hge => (hsame g (hbefore g hg hge)).1

theorem nodup_of_pairwise_snd (hps : ps.Pairwise (·.2 < ·.2)) : (ps.map Prod.snd).Nodup :=
  List.pairwise_map.2 (hps.imp ne_of_lt)

/-- The order of the pass: longer ones first, and those as long in the order of the input. -/
theorem pairwise_isBefore_stableSort (hps : ps.Pairwise (·.2 < ·.2)) :
    (stableSort isLonger ps).Pairwise IsBefore := by
  refine (pairwise_stableSort_of_pairwise isLonger_total isLonger_trans hps).imp ?_
  rintro g f ⟨hlonger, hlevel⟩
  rcases (of_decide_eq_true hlonger).lt_or_eq with hlt | heq
  · exact .inl hlt
  · exact .inr ⟨heq, hlevel (decide_eq_true heq.ge)⟩

/-- **There is one kernel.** -/
theorem IsKernel.unique (hps : ps.Pairwise (·.2 < ·.2)) (h : IsKernel o ps ks)
    (h' : IsKernel o ps ks') : ks = ks' := by
  have hsame : ∀ f ∈ ps, f ∈ ks ↔ f ∈ ks' := by
    have hperm := stableSort_perm isLonger ps
    have hsorted : (stableSort isLonger ps ++ []).Pairwise IsBefore := by
      rw [List.append_nil]
      exact pairwise_isBefore_stableSort hps
    have hmem : ∀ f, f ∈ stableSort isLonger ps ++ [] ↔ f ∈ ps := by
      intro f
      rw [List.append_nil]
      exact hperm.mem_iff
    exact fun f hf => h.mem_iff h' hsorted hmem f (hperm.mem_iff.2 hf)
  have hnodup : ps.Nodup := .of_map Prod.snd (nodup_of_pairwise_snd hps)
  have hperm : ks.Perm ks' := by
    refine (List.perm_ext_iff_of_nodup (h.sublist.nodup hnodup) (h'.sublist.nodup hnodup)).2 ?_
    intro f
    constructor
    · exact fun hf => (hsame f (h.sublist.mem hf)).1 hf
    · exact fun hf => (hsame f (h'.sublist.mem hf)).2 hf
  exact hperm.eq_of_pairwise (fun _ _ _ _ hfg hgf => absurd hfg hgf.asymm)
    (hps.sublist h.sublist) (hps.sublist h'.sublist)

/-! ## The overlap pass -/

theorem uncovered_concat (ordered : List (Fragment × Nat)) (f : Fragment × Nat) :
    uncovered o (ordered ++ [f]) = keepUncovered o (uncovered o ordered) f :=
  List.foldl_append

/-- What is uncovered keeps the order in which it was decided. -/
theorem uncovered_sublist (o : MergeOptions) (ordered : List (Fragment × Nat)) :
    (uncovered o ordered).Sublist ordered := by
  induction ordered using List.reverseRecOn with
  | nil => exact .slnil
  | append_singleton ordered f ih =>
    rw [uncovered_concat, keepUncovered]
    split
    · exact ih.trans (List.sublist_append_left _ _)
    · exact ih.append (.refl [f])

/-- Nothing that is uncovered is painted over by what was decided before it. -/
theorem pairwise_uncovered (o : MergeOptions) (ordered : List (Fragment × Nat)) :
    (uncovered o ordered).Pairwise fun g f => isOverlapOf o f.1 g.1 = false := by
  induction ordered using List.reverseRecOn with
  | nil => exact .nil
  | append_singleton ordered f ih =>
    rw [uncovered_concat, keepUncovered]
    split
    · exact ih
    · rename_i hnone
      refine List.pairwise_append.2 ⟨ih, List.pairwise_singleton _ f, fun g hg e he => ?_⟩
      obtain rfl := List.mem_singleton.1 he
      exact eq_false_of_ne_true fun hover => hnone (List.any_eq_true.2 ⟨g, hg, hover⟩)

/-- So of two that stay the later one is not painted over by the earlier one. -/
theorem apart_of_mem_uncovered (hordered : ordered.Pairwise IsBefore) :
    ∀ g ∈ uncovered o ordered, ∀ f ∈ uncovered o ordered, IsBefore g f →
      isOverlapOf o f.1 g.1 = false := by
  have hpairs : (uncovered o ordered).Pairwise fun g f =>
      IsBefore g f → isOverlapOf o f.1 g.1 = false := by
    refine (pairwise_uncovered o ordered).imp ?_
    exact fun hover _ => hover
  have hflipped : (uncovered o ordered).Pairwise fun f g =>
      IsBefore g f → isOverlapOf o f.1 g.1 = false := by
    refine (hordered.sublist (uncovered_sublist o ordered)).imp ?_
    exact fun hfg hgf => absurd hgf hfg.asymm
  have hall := List.Pairwise.forall_of_forall_of_flip
    (fun f _ hff => absurd hff (IsBefore.irrefl f)) hpairs hflipped
  exact fun g hg f hf => hall hg hf

/-- What goes is painted over by what was decided before it and stays. -/
theorem exists_before_of_not_mem_uncovered (hordered : ordered.Pairwise IsBefore) :
    ∀ f ∈ ordered, f ∉ uncovered o ordered →
      ∃ g ∈ uncovered o ordered, IsBefore g f ∧ isOverlapOf o f.1 g.1 = true := by
  induction ordered using List.reverseRecOn with
  | nil => exact fun _ hf => absurd hf List.not_mem_nil
  | append_singleton ordered f ih =>
    obtain ⟨hordered, -, hbefore⟩ := List.pairwise_append.1 hordered
    have hstay := (keepUncovered_spec o (uncovered o ordered) f).1
    rw [uncovered_concat]
    intro e he hnot
    rcases List.mem_append.1 he with he | he
    · obtain ⟨g, hg, hge, hover⟩ := ih hordered e he fun hmem => hnot (hstay e hmem)
      exact ⟨g, hstay g hg, hge, hover⟩
    · obtain rfl := List.mem_singleton.1 he
      have hany : (uncovered o ordered).any (isOverlapOf o e.1 ·.1) = true := by
        by_contra hnone
        refine hnot ?_
        rw [keepUncovered, if_neg hnone]
        exact List.mem_append_right _ List.mem_cons_self
      obtain ⟨g, hg, hover⟩ := List.any_eq_true.1 hany
      have hge := hbefore g ((uncovered_sublist o ordered).mem hg) e List.mem_cons_self
      exact ⟨g, hstay g hg, hge, hover⟩

/-- The pass picks the fragments by their numbers out of the input. -/
theorem mem_leftUncovered_iff (hps : (ps.map Prod.snd).Nodup) {f : Fragment × Nat} (hf : f ∈ ps) :
    f ∈ leftUncovered o ps ↔ f ∈ uncovered o (stableSort isLonger ps) := by
  rw [leftUncovered, List.mem_filter, List.any_eq_true]
  constructor
  · rintro ⟨-, g, hg, hnumber⟩
    have hgf := List.inj_on_of_nodup_map hps (mem_of_mem_uncovered_stableSort hg) hf
      (beq_iff_eq.1 hnumber)
    exact hgf ▸ hg
  · exact fun hmem => ⟨hf, f, hmem, beq_self_eq_true f.2⟩

/-- **The overlap pass leaves a kernel.** -/
theorem isKernel_leftUncovered (hps : ps.Pairwise (·.2 < ·.2)) :
    IsKernel o ps (leftUncovered o ps) := by
  have hsublist : (leftUncovered o ps).Sublist ps := List.filter_sublist
  have hmem : ∀ {f}, f ∈ ps → (f ∈ leftUncovered o ps ↔ _) :=
    mem_leftUncovered_iff (nodup_of_pairwise_snd hps)
  have hperm := stableSort_perm isLonger ps
  have hordered := pairwise_isBefore_stableSort hps
  refine ⟨hsublist, fun f hf g hg hgf => ?_, fun f hf hnot => ?_⟩
  · exact apart_of_mem_uncovered hordered g ((hmem (hsublist.mem hg)).1 hg) f
      ((hmem (hsublist.mem hf)).1 hf) hgf
  · obtain ⟨g, hg, hgf, hover⟩ := exists_before_of_not_mem_uncovered hordered f
      (hperm.mem_iff.2 hf) (mt (hmem hf).2 hnot)
    have hgps := mem_of_mem_uncovered_stableSort hg
    exact ⟨g, (hmem hgps).2 hg, hgf, hover⟩

end Kernels

/-- **The overlap pass leaves the one kernel of its input, and is done once and for all.**  Of the
fragments in their order, no survivor is painted over by a survivor decided before it, and every
other fragment is; no other part of the input is like that.  The exact pass leaves the fragments
that have no earlier one with their key.  Neither pass changes what it left. -/
theorem dedupe_leaves_kernel (o : MergeOptions) (fs : List Fragment) :
    (∃ ks, IsKernel o fs.zipIdx ks ∧ dedupeOverlaps o fs = ks.map Prod.fst ∧
      ∀ ks', IsKernel o fs.zipIdx ks' → ks' = ks) ∧
    dedupeOverlaps o (dedupeOverlaps o fs) = dedupeOverlaps o fs ∧
    dedupeExact fs = (fs.zipIdx.filter fun p => !isRepeated fs p).map Prod.fst ∧
    dedupeExact (dedupeExact fs) = dedupeExact fs := by
  have hps := pairwise_snd_zipIdx fs
  have hkernel := isKernel_leftUncovered (o := o) hps
  refine ⟨⟨_, hkernel, dedupeOverlaps_eq fs, fun _ h => h.unique hps hkernel⟩, ?_,
    dedupeExact_eq_filter fs, dedupeExact_dedupeExact fs⟩
  have hks := hps.sublist hkernel.sublist
  have hagain : leftUncovered o (leftUncovered o fs.zipIdx) = leftUncovered o fs.zipIdx :=
    (isKernel_leftUncovered hks).unique hks hkernel.self
  rw [dedupeOverlaps_eq fs, dedupeOverlaps_map_fst o (nodup_of_pairwise_snd hks), hagain]

/-- A fragment painted over only by one that goes itself stays. -/
example : (dedupeOverlaps {}
    [{ id := "low", content := "el", bbox := ⟨0, 4, 20, 14⟩ },
      { id := "middle", content := "hell", bbox := ⟨0, 2, 40, 12⟩ },
      { id := "high", content := "hello", bbox := ⟨0, 0, 50, 10⟩ }]).map Fragment.id =
    ["low", "high"] := by
  decide +kernel

end Merge
end PageContent
