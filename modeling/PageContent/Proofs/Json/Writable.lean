/-
# Values that a text can spell

A value is writable at a depth if it has no unusable part, its numbers fit and
its arrays and objects nest no deeper.  A value is writable just if its parts
are, one level less deep.

An operand is kept with its objects merged: of several fields of a name the last
one stands.  Merging leaves a writable value writable, and merging again
changes nothing more.
-/

import PageContent.Proofs.Json.Parsed

namespace PageContent

theorem lastOfEach_sublist {α : Type} (entries : List (String × α)) :
    (lastOfEach entries).Sublist entries := by
  induction entries with
  | nil => exact .slnil
  | cons e rest ih =>
    rw [lastOfEach_cons]
    split
    · exact ih.cons e
    · exact ih.cons_cons e

namespace Json

/-- A text can spell the value, its arrays and objects nested up to `n` deep. -/
structure Writable (n : Nat) (j : Json) : Prop where
  usable : j.isUsable = true
  fits : j.Fits
  depth_le : j.depth ≤ n

theorem Writable.mono {n m : Nat} {j : Json} (h : j.Writable n) (hnm : n ≤ m) : j.Writable m :=
  ⟨h.usable, h.fits, h.depth_le.trans hnm⟩

/-! ## The parts of a value -/

theorem itemsUsable_iff {xs : List Json} :
    itemsUsable xs = true ↔ ∀ x ∈ xs, x.isUsable = true := by
  induction xs with
  | nil => simp [itemsUsable]
  | cons x xs ih => rw [itemsUsable, Bool.and_eq_true, ih, List.forall_mem_cons]

theorem fieldsUsable_iff {fs : List (String × Json)} :
    fieldsUsable fs = true ↔ ∀ f ∈ fs, f.2.isUsable = true := by
  induction fs with
  | nil => simp [fieldsUsable]
  | cons f fs ih => rw [fieldsUsable, Bool.and_eq_true, ih, List.forall_mem_cons]

theorem itemsFit_iff {xs : List Json} : ItemsFit xs ↔ ∀ x ∈ xs, x.Fits := by
  induction xs with
  | nil => simp [ItemsFit]
  | cons x xs ih => rw [ItemsFit, ih, List.forall_mem_cons]

theorem fieldsFit_iff {fs : List (String × Json)} : FieldsFit fs ↔ ∀ f ∈ fs, f.2.Fits := by
  induction fs with
  | nil => simp [FieldsFit]
  | cons f fs ih => rw [FieldsFit, ih, List.forall_mem_cons]

theorem itemsDepth_le_iff {xs : List Json} {n : Nat} :
    itemsDepth xs ≤ n ↔ ∀ x ∈ xs, x.depth ≤ n := by
  induction xs with
  | nil => simp [itemsDepth]
  | cons x xs ih => rw [itemsDepth, max_le_iff, ih, List.forall_mem_cons]

theorem fieldsDepth_le_iff {fs : List (String × Json)} {n : Nat} :
    fieldsDepth fs ≤ n ↔ ∀ f ∈ fs, f.2.depth ≤ n := by
  induction fs with
  | nil => simp [fieldsDepth]
  | cons f fs ih => rw [fieldsDepth, max_le_iff, ih, List.forall_mem_cons]

theorem mergedItems_eq_map (xs : List Json) : mergedItems xs = xs.map merged := by
  induction xs with
  | nil => rfl
  | cons x xs ih => rw [mergedItems, ih, List.map_cons]

theorem mergedFields_eq_map (fs : List (String × Json)) :
    mergedFields fs = fs.map fun f => (f.1, f.2.merged) := by
  induction fs with
  | nil => rfl
  | cons f fs ih => rw [mergedFields, ih, List.map_cons]

/-- The items of an array, or the values of the fields of an object. -/
def parts : Json → List Json
  | .array xs => xs
  | .object fs => fs.map Prod.snd
  | _ => []

theorem fits_of_mem_parts {j part : Json} (hj : j.Fits) (h : part ∈ j.parts) : part.Fits := by
  cases j with
  | array xs => exact itemsFit_iff.1 hj part h
  | object fs =>
    obtain ⟨f, hf, rfl⟩ := List.mem_map.1 h
    exact fieldsFit_iff.1 hj f hf
  | _ => exact absurd h List.not_mem_nil

theorem depth_lt_of_mem_parts {j part : Json} (h : part ∈ j.parts) : part.depth < j.depth := by
  cases j with
  | array xs => exact Nat.lt_succ_of_le (itemsDepth_le_iff.1 le_rfl part h)
  | object fs =>
    obtain ⟨f, hf, rfl⟩ := List.mem_map.1 h
    exact Nat.lt_succ_of_le (fieldsDepth_le_iff.1 le_rfl f hf)
  | _ => exact absurd h List.not_mem_nil

/-- **An array is writable just if its items are**, one level less deep. -/
theorem writable_array {n : Nat} {xs : List Json} :
    (array xs).Writable (n + 1) ↔ ∀ x ∈ xs, x.Writable n := by
  constructor
  · intro h x hx
    exact ⟨itemsUsable_iff.1 h.usable x hx, itemsFit_iff.1 h.fits x hx,
      itemsDepth_le_iff.1 (Nat.le_of_succ_le_succ h.depth_le) x hx⟩
  · intro h
    exact ⟨itemsUsable_iff.2 fun x hx => (h x hx).usable, itemsFit_iff.2 fun x hx => (h x hx).fits,
      Nat.succ_le_succ (itemsDepth_le_iff.2 fun x hx => (h x hx).depth_le)⟩

/-- **An object is writable just if the values of its fields are**, one level less deep. -/
theorem writable_object {n : Nat} {fs : List (String × Json)} :
    (object fs).Writable (n + 1) ↔ ∀ f ∈ fs, f.2.Writable n := by
  constructor
  · intro h f hf
    exact ⟨fieldsUsable_iff.1 h.usable f hf, fieldsFit_iff.1 h.fits f hf,
      fieldsDepth_le_iff.1 (Nat.le_of_succ_le_succ h.depth_le) f hf⟩
  · intro h
    exact ⟨fieldsUsable_iff.2 fun f hf => (h f hf).usable,
      fieldsFit_iff.2 fun f hf => (h f hf).fits,
      Nat.succ_le_succ (fieldsDepth_le_iff.2 fun f hf => (h f hf).depth_le)⟩

/-- **What is written of a writable value is read back** if the reading gives its doubles back. -/
theorem Writable.parseWith?_write {read : Numeral → Option Float} (f : Format) {j : Json}
    (h : j.Writable maxDepth) (hread : ∀ y ∈ j.doubles, Numeral.GivesBack read y) :
    parseWith? read (j.write f) = some j :=
  Json.parseWith?_write f h.usable h.fits h.depth_le hread

/-! ## Merging -/

/-- **Merging leaves a writable value writable.** -/
theorem Writable.merged {n : Nat} {j : Json} (h : j.Writable n) : j.merged.Writable n := by
  induction n generalizing j with
  | zero =>
    cases j with
    | array xs => exact absurd h.depth_le (Nat.not_succ_le_zero _)
    | object fs => exact absurd h.depth_le (Nat.not_succ_le_zero _)
    | _ => exact h
  | succ n ih =>
    cases j with
    | array xs =>
      rw [Json.merged, mergedItems_eq_map]
      exact writable_array.2 (List.forall_mem_map.2 fun x hx => ih (writable_array.1 h x hx))
    | object fs =>
      rw [Json.merged, mergedFields_eq_map]
      have hmerged : ∀ f ∈ fs.map fun f => (f.1, f.2.merged), f.2.Writable n :=
        List.forall_mem_map.2 fun f hf => ih (writable_object.1 h f hf)
      exact writable_object.2 fun f hf => hmerged f ((lastOfEach_sublist _).mem hf)
    | _ => exact h

/-- **Merging again changes nothing.** -/
theorem merged_merged (j : Json) : j.merged.merged = j.merged := by
  -- on how deep the value nests, so that the fields that merging leaves are within reach
  suffices h : ∀ n, ∀ j : Json, j.depth ≤ n → j.merged.merged = j.merged from h _ j le_rfl
  intro n
  induction n with
  | zero =>
    intro j h
    cases j with
    | array xs => exact absurd h (Nat.not_succ_le_zero _)
    | object fs => exact absurd h (Nat.not_succ_le_zero _)
    | _ => rfl
  | succ n ih =>
    intro j h
    cases j with
    | array xs =>
      have hitems := itemsDepth_le_iff.1 (Nat.le_of_succ_le_succ h)
      simp only [merged, mergedItems_eq_map, List.map_map]
      exact congrArg array (List.map_congr_left fun x hx => ih x (hitems x hx))
    | object fs =>
      have hfields := fieldsDepth_le_iff.1 (Nat.le_of_succ_le_succ h)
      have hmerged : ∀ f ∈ mergedFields fs, (f.1, f.2.merged) = f := by
        rw [mergedFields_eq_map]
        exact List.forall_mem_map.2 fun f hf => Prod.ext rfl (ih f.2 (hfields f hf))
      have hleft : mergedFields (lastOfEach (mergedFields fs)) = lastOfEach (mergedFields fs) := by
        rw [mergedFields_eq_map (lastOfEach _), List.map_congr_left fun f hf =>
          hmerged f ((lastOfEach_sublist _).mem hf)]
        exact List.map_id' _
      rw [merged, merged, hleft, lastOfEach_of_nodup (nodup_lastOfEach _)]
    | _ => rfl

end Json
end PageContent
