/-
# Text inside text

`occursIn s t` says that `s` stands somewhere in `t` without a break.  The empty
text occurs in every text.
-/

namespace PageContent
namespace Text

/-- `s` stands somewhere in `t`. -/
def occursIn (s : List Char) : (t : List Char) → Bool
  | [] => s.isEmpty
  | c :: t => s.isPrefixOf (c :: t) || occursIn s t

/-- **Occurring is being an infix.** -/
theorem occursIn_iff {s t : List Char} : occursIn s t = true ↔ s <:+: t := by
  induction t with
  | nil => simp [occursIn]
  | cons c t ih =>
    simp only [occursIn, Bool.or_eq_true, List.isPrefixOf_iff_prefix, ih, List.infix_cons_iff]

end Text
end PageContent
