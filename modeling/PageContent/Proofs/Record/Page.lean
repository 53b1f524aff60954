/-
# Operators and pages read back

An operator holds operands, which nest as deep as they please, and a page holds
operators.  So how deep the form of one nests depends on the value.  But what is
read from a form nests no deeper than the form does, a few levels aside that the
fields of the record itself take.
-/

import PageContent.Proofs.Record.Scene

namespace PageContent

open Json
open Durable (ofJson?_toJson isFinite_of_ofJson?)

instance {α : Type} [Recorded α] : Present (List α) := ⟨rfl⟩

instance : Durable RawOperator where
  ofJson?_toJson {o} ho := by
    have hoperands : Json.orElse none (some (toJson o.operands)) = some (some o.operands) :=
      orElse_toJson (a := some o.operands) (isFinite_some.2 ho)
    show (some [some (toJson o.code), some (toJson o.operands), some (toJson o.index)]).bind _ = _
    simp only [Option.bind_some, need_toJson, orElse_toJson, isFinite_code, isFinite_index,
      hoperands]
    rfl
  isFinite_of_ofJson? hj := isFinite_of_fields? hj fun given hgiven h => by
    split at h
    · simp only [↓bind_eq_some] at h
      obtain ⟨code, -, operands, hoperands, index, -, h⟩ := h
      obtain rfl := Option.some.inj h
      have hfinite : IsFinite operands := hgiven.orElse (by simp) isFinite_none hoperands
      cases operands with
      | none => exact show IsFinite [] from isFinite_nil
      | some xs => exact show IsFinite xs from isFinite_some.1 hfinite
    · contradiction

instance : Durable Page where
  ofJson?_toJson {p} hp := by
    obtain ⟨hoperators, hruns, hstyles⟩ := hp
    show (some [some (toJson p.operators), some (toJson p.runs),
      some (toJson p.styles)]).bind _ = _
    simp only [Option.bind_some, orElse_toJson, hoperators, hruns, hstyles]
    rfl
  isFinite_of_ofJson? hj := isFinite_of_fields? hj fun given hgiven h => by
    split at h
    · simp only [↓bind_eq_some] at h
      obtain ⟨operators, hoperators, runs, hruns, styles, hstyles, h⟩ := h
      obtain rfl := Option.some.inj h
      exact ⟨hgiven.orElse (by simp) isFinite_nil hoperators,
        hgiven.orElse (by simp) isFinite_nil hruns,
        hgiven.orElse (by simp) isFinite_empty hstyles⟩
    · contradiction

/-! ## How deep the operands nest -/

/-- The operands of the operator nest no deeper than `n`. -/
def RawOperator.Nests (n : Nat) (o : RawOperator) : Prop := ∀ j ∈ o.operands, j.depth ≤ n

/-- The operands of the operators of the page nest no deeper than `n`. -/
def Page.Nests (n : Nat) (p : Page) : Prop := ∀ o ∈ p.operators, o.Nests n

theorem RawOperator.writable_toJson {n : Nat} {o : RawOperator} (h : IsFinite o)
    (hnests : o.Nests n) : (toJson o).Writable (n + 2) := by
  have hoperands : (toJson o.operands).Writable (n + 1) :=
    writable_array.2 (List.forall_mem_map.2 fun j hj => ⟨(h j hj).1, (h j hj).2.1, hnests j hj⟩)
  exact .field trivial (.cons hoperands (.field trivial .fieldless (Nat.zero_le _)))
    (Nat.zero_le _)

theorem Page.writable_toJson {n : Nat} {p : Page} (h : IsFinite p) (hnests : p.Nests n) :
    (toJson p).Writable (n + 4) := by
  obtain ⟨hoperators, hruns, hstyles⟩ := h
  have hlist : (toJson p.operators).Writable (n + 3) :=
    writable_array.2 (List.forall_mem_map.2 fun o ho =>
      RawOperator.writable_toJson (hoperators o ho) (hnests o ho))
  exact .cons hlist (.field hruns (.field hstyles .fieldless (by omega)) (by omega))

/-- The operands that are read from the items of an array nest less deep than the array. -/
theorem depth_lt_of_operands {j : Json} {operands : List Json} (hj : j.Fits)
    (h : ofJson? j = some operands) : ∀ a ∈ operands, a.depth < j.depth := by
  obtain ⟨items, hitems, h⟩ := Option.bind_eq_some_iff.1 h
  cases j with
  | array xs =>
    obtain rfl := Option.some.inj hitems
    refine forall_of_mapM (fun x hx a ha => ?_) h
    replace ha : (if x.isUsable then some x.merged else none) = some a := ha
    split at ha
    · rename_i husable
      obtain rfl := Option.some.inj ha
      have hmerged : x.merged.Writable x.depth :=
        Writable.merged ⟨husable, itemsFit_iff.1 hj x hx, le_rfl⟩
      exact hmerged.depth_le.trans_lt (depth_lt_of_mem_parts hx)
    · contradiction
  | _ => contradiction

/-- **An operator that is read nests no deeper than what it is read from.** -/
theorem RawOperator.nests_of_ofJson? {n : Nat} {j : Json} {o : RawOperator} (hj : j.Fits)
    (hdepth : j.depth ≤ n + 2) (h : ofJson? j = some o) : o.Nests n := by
  obtain ⟨given, hgiven, h⟩ := Option.bind_eq_some_iff.1 h
  have hparts := mem_of_fields? hgiven
  split at h
  · rename_i code operands index
    simp only [↓bind_eq_some] at h
    obtain ⟨code, -, xs, hxs, index, -, h⟩ := h
    obtain rfl := Option.some.inj h
    cases xs with
    | none => exact nofun
    | some xs =>
      cases operands with
      | none => exact absurd hxs nofun
      | some part =>
        have hpart : part ∈ j.parts := hparts (some part) (by simp) part rfl
        have hlist : ofJson? part = some xs := ofJson?_of_some hxs
        intro a ha
        have := depth_lt_of_operands (fits_of_mem_parts hj hpart) hlist a ha
        have := depth_lt_of_mem_parts hpart
        omega
  · contradiction

/-- **So does a page.** -/
theorem Page.nests_of_ofJson? {n : Nat} {j : Json} {p : Page} (hj : j.Fits)
    (hdepth : j.depth ≤ n + 4) (h : ofJson? j = some p) : p.Nests n := by
  obtain ⟨given, hgiven, h⟩ := Option.bind_eq_some_iff.1 h
  have hparts := mem_of_fields? hgiven
  split at h
  · rename_i operators runs styles
    simp only [↓bind_eq_some] at h
    obtain ⟨os, hos, runs, -, styles, -, h⟩ := h
    obtain rfl := Option.some.inj h
    cases operators with
    | none =>
      obtain rfl := Option.some.inj hos
      exact nofun
    | some part =>
      have hpart : part ∈ j.parts := hparts (some part) (by simp) part rfl
      have hfits := fits_of_mem_parts hj hpart
      have hlt := depth_lt_of_mem_parts hpart
      obtain ⟨items, hitems, hlist⟩ := Option.bind_eq_some_iff.1 hos
      cases part with
      | array xs =>
        obtain rfl := Option.some.inj hitems
        refine forall_of_mapM (fun x hx o ho => ?_) hlist
        have hlt' := depth_lt_of_mem_parts (j := array xs) hx
        exact RawOperator.nests_of_ofJson? (itemsFit_iff.1 hfits x hx) (by omega) ho
      | _ => contradiction
  · contradiction

end PageContent
