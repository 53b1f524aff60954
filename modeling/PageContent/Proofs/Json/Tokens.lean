/-
# The tokens of a written value

The text of a value is cut into the tokens that spell it, in either format.

| part of the text | tokens |
| --- | --- |
| blanks of a line break or behind a colon | none |
| string | its text, since every escape is scanned as the character it stands for |
| number | the literal of that number, if it `Fits` and the reading gives it back |
| array, object | those of the parts, with the structural characters between them |

`Scans` says what a text is cut into without the bound on the steps that the
scanner counts down, so that it can be put together from left to right: a token,
then the blanks in front of the next.
-/

import PageContent.Json.Reader
import PageContent.Json.Writer
import PageContent.Proofs.Number.Written

namespace PageContent
namespace Json

open Numeral (Ends GivesBack)

mutual

/-- The numbers of the value are what a text can spell: integers of 64 bits, with or without a
sign, and finite doubles. -/
def Fits : Json → Prop
  | .integer n => -0x8000000000000000 ≤ n ∧ n < 0x10000000000000000
  | .number x => x.isFinite = true
  | .array xs => ItemsFit xs
  | .object fs => FieldsFit fs
  | _ => True

/-- `Fits` of each item. -/
def ItemsFit : List Json → Prop
  | [] => True
  | x :: xs => Fits x ∧ ItemsFit xs

/-- `Fits` of the value of each field. -/
def FieldsFit : List (String × Json) → Prop
  | [] => True
  | (_, x) :: fs => Fits x ∧ FieldsFit fs

end

mutual

/-- The doubles in the value, in the order in which they are written. -/
def doubles : Json → List Float
  | .number x => [x]
  | .array xs => itemDoubles xs
  | .object fs => fieldDoubles fs
  | _ => []

/-- The doubles in the items. -/
def itemDoubles : List Json → List Float
  | [] => []
  | x :: xs => doubles x ++ itemDoubles xs

/-- The doubles in the values of the fields. -/
def fieldDoubles : List (String × Json) → List Float
  | [] => []
  | (_, x) :: fs => doubles x ++ fieldDoubles fs

end

mutual

/-- The doubles in a value that fits are finite. -/
theorem isFinite_of_mem_doubles {y : Float} : ∀ j : Json, j.Fits → y ∈ j.doubles →
    y.isFinite = true
  | .number _, hfits, hy => List.mem_singleton.1 hy ▸ hfits
  | .array xs, hfits, hy => isFinite_of_mem_itemDoubles xs hfits hy
  | .object fs, hfits, hy => isFinite_of_mem_fieldDoubles fs hfits hy
  | .null, _, hy | .bool _, _, hy | .integer _, _, hy | .string _, _, hy | .unusable, _, hy =>
    absurd hy List.not_mem_nil

/-- So are those in items that fit. -/
theorem isFinite_of_mem_itemDoubles {y : Float} : ∀ xs : List Json, ItemsFit xs →
    y ∈ itemDoubles xs → y.isFinite = true
  | [], _, hy => absurd hy List.not_mem_nil
  | x :: xs, hfits, hy => (List.mem_append.1 hy).elim (isFinite_of_mem_doubles x hfits.1)
      (isFinite_of_mem_itemDoubles xs hfits.2)

/-- So are those in fields that fit. -/
theorem isFinite_of_mem_fieldDoubles {y : Float} : ∀ fs : List (String × Json), FieldsFit fs →
    y ∈ fieldDoubles fs → y.isFinite = true
  | [], _, hy => absurd hy List.not_mem_nil
  | (_, x) :: fs, hfits, hy => (List.mem_append.1 hy).elim (isFinite_of_mem_doubles x hfits.1)
      (isFinite_of_mem_fieldDoubles fs hfits.2)

end

mutual

/-- The tokens of the text of a value. -/
def tokens : Json → List Token
  | .string s => [.text (some s)]
  | .array [] => [.mark '[', .mark ']']
  | .array (x :: xs) => .mark '[' :: (tokens x ++ itemTokens xs)
  | .object [] => [.mark '\x7b', .mark '\x7d']
  | .object ((name, x) :: fs) =>
    .mark '\x7b' :: .text (some name) :: .mark ':' :: (tokens x ++ fieldTokens fs)
  | j => [.literal j]

/-- The tokens of further items, up to the bracket behind them. -/
def itemTokens : List Json → List Token
  | [] => [.mark ']']
  | x :: xs => .mark ',' :: (tokens x ++ itemTokens xs)

/-- The tokens of further fields, up to the brace behind them. -/
def fieldTokens : List (String × Json) → List Token
  | [] => [.mark '\x7d']
  | (name, x) :: fs =>
    .mark ',' :: .text (some name) :: .mark ':' :: (tokens x ++ fieldTokens fs)

end

/-- The text is cut into the tokens. -/
inductive Scans (read : Numeral → Option Float) : List Char → List Token → Prop
  | done {s : List Char} : s.dropWhile isGap = [] → Scans read s []
  | token {s rest : List Char} {t : Token} {ts : List Token} :
    Token.scanOne read (s.dropWhile isGap) = some (t, rest) → Scans read rest ts →
      Scans read s (t :: ts)

variable {read : Numeral → Option Float}

theorem scanWith_of_scans {s : List Char} {ts : List Token} (h : Scans read s ts) {fuel : Nat}
    (hfuel : ts.length ≤ fuel) : Token.scanWith read fuel s = some ts := by
  induction h generalizing fuel with
  | done h =>
    unfold Token.scanWith
    dsimp only
    rw [h]
  | @token s rest t ts ht _ ih =>
    obtain ⟨fuel, rfl⟩ : ∃ n, fuel = n + 1 := ⟨fuel - 1, by simp at hfuel; omega⟩
    have hrest := ih (show ts.length ≤ fuel by simpa using hfuel)
    unfold Token.scanWith
    dsimp only
    cases hs : s.dropWhile isGap with
    | nil =>
      rw [hs] at ht
      exact absurd ht nofun
    | cons c cs =>
      rw [hs] at ht
      simp [ht, hrest]

/-- Blanks in front make no token. -/
theorem Scans.gap {g s : List Char} {ts : List Token} (hg : ∀ c ∈ g, isGap c = true)
    (h : Scans read s ts) : Scans read (g ++ s) ts := by
  cases h with
  | done h => exact .done (by rwa [List.dropWhile_append_of_pos hg])
  | token ht h => exact .token (by rwa [List.dropWhile_append_of_pos hg]) h

/-- A token that starts with no blank. -/
theorem Scans.cons {c : Char} {w rest : List Char} {t : Token} {ts : List Token}
    (hc : isGap c = false) (ht : Token.scanOne read (c :: w) = some (t, rest))
    (h : Scans read rest ts) : Scans read (c :: w) (t :: ts) :=
  .token (by rwa [List.dropWhile_cons_of_neg (by rw [hc]; exact Bool.false_ne_true)]) h

theorem Scans.mark {c : Char} {s : List Char} {ts : List Token} (hc : isMark c = true)
    (h : Scans read s ts) : Scans read (c :: s) (.mark c :: ts) := by
  have hcases : c = '[' ∨ c = ']' ∨ c = ',' ∨ c = ':' ∨ c = '\x7b' ∨ c = '\x7d' := by
    simpa [isMark, or_assoc] using hc
  refine .cons ?_ ?_ h
  · rcases hcases with rfl | rfl | rfl | rfl | rfl | rfl <;> rfl
  · rcases hcases with rfl | rfl | rfl | rfl | rfl | rfl <;> rfl

/-! ## Strings -/

theorem hexValue_hexDigit : ∀ n : Fin 16, hexValue (hexDigit n) = some n.val := by decide

theorem isChar_unit (c : Char) (h : c.toNat < 0x20) :
    unitPiece '0' '0' (hexDigit (c.toNat / 16)) (hexDigit (c.toNat % 16)) = some (.char c) := by
  have hhigh := hexValue_hexDigit ⟨c.toNat / 16, by omega⟩
  have hlow := hexValue_hexDigit ⟨c.toNat % 16, by omega⟩
  have hzero : hexValue '0' = some 0 := rfl
  have hunit : 4096 * 0 + 256 * 0 + 16 * (c.toNat / 16) + c.toNat % 16 = c.toNat := by omega
  simp only at hhigh hlow
  simp only [unitPiece, hhigh, hlow, hzero]
  show some (if _ then _ else _) = _
  rw [hunit, if_neg (by omega), Char.ofNat_toNat]

/-- An escape is scanned as the character it stands for. -/
theorem scanString_escape (c : Char) (s : List Char) :
    scanString (escape c ++ s) = (scanString s).map fun p => (.char c :: p.1, p.2) := by
  have hbind : ∀ d, (do let p ← scanString s; return (Piece.char d :: p.1, p.2)) =
      (scanString s).map fun p => (.char d :: p.1, p.2) := by
    intro d
    cases scanString s <;> rfl
  unfold escape
  split
  all_goals try exact hbind _
  · split
    · rename_i h
      show (do
        let piece ← unitPiece '0' '0' (hexDigit (c.toNat / 16)) (hexDigit (c.toNat % 16))
        let p ← scanString s
        return (piece :: p.1, p.2)) = _
      rw [isChar_unit c h]
      exact hbind c
    · rename_i hquote hslash _ _ _ _ _ hlarge
      rw [List.singleton_append, scanString.eq_def]
      split
      · rename_i heq
        exact absurd heq (List.cons_ne_nil c s)
      · rename_i heq
        exact absurd (List.cons.inj heq).1 hquote
      · rename_i heq
        exact absurd (List.cons.inj heq).1 hslash
      · rename_i heq
        exact absurd (List.cons.inj heq).1 hslash
      · rename_i heq
        obtain ⟨rfl, rfl⟩ := List.cons.inj heq
        have hguard : (guard (c ≠ '\\' ∧ 0x20 ≤ c.toNat) : Option Unit) = some () :=
          if_pos ⟨hslash, by omega⟩
        rw [hguard]
        exact hbind c

theorem scanString_escaped (cs s : List Char) :
    scanString (cs.flatMap escape ++ '"' :: s) = some (cs.map .char, s) := by
  induction cs with
  | nil => rfl
  | cons c cs ih => rw [List.flatMap_cons, List.append_assoc, scanString_escape, ih]; rfl

theorem joinHalves_chars (cs : List Char) : joinHalves (cs.map .char) = some cs := by
  induction cs with
  | nil => rfl
  | cons c cs ih =>
    show (joinHalves (cs.map .char)).map (c :: ·) = _
    rw [ih]
    rfl

/-- **A string is scanned as its text.** -/
theorem Scans.quoted (t : String) {s : List Char} {ts : List Token} (h : Scans read s ts) :
    Scans read (Json.quoted t ++ s) (.text (some t) :: ts) := by
  refine .cons (c := '"') rfl ?_ h
  show (do
    let p ← scanString (t.toList.flatMap escape ++ ['"'] ++ s)
    return (Token.text ((joinHalves p.1).map String.ofList), p.2)) = _
  rw [List.append_assoc, List.singleton_append, scanString_escaped]
  show some (Token.text ((joinHalves (t.toList.map .char)).map String.ofList), s) = _
  rw [joinHalves_chars, Option.map_some, String.ofList_toList]

/-! ## Numbers -/

theorem beq_eq_false_of_isDigit {c d : Char} (hc : c.isDigit = true) (hd : d.isDigit = false) :
    (c == d) = false := by
  rw [beq_eq_false_iff_ne]
  rintro rfl
  exact absurd hc (ne_true_of_eq_false hd)

/-- A digit is neither a structural character nor a blank. -/
theorem isMark_of_isDigit {c : Char} (hc : c.isDigit = true) :
    isMark c = false ∧ isGap c = false := by
  have hne : ∀ {d : Char}, d.isDigit = false → (c == d) = false := beq_eq_false_of_isDigit hc
  rw [isMark, isGap, hne rfl, hne rfl, hne rfl, hne rfl, hne rfl, hne rfl, hne rfl, hne rfl,
    hne rfl, hne rfl]
  exact ⟨rfl, rfl⟩

/-- What starts with a digit or a minus is taken for a number. -/
theorem scanOne_number {c : Char} {w : List Char} (hc : c = '-' ∨ c.isDigit = true) :
    Token.scanOne read (c :: w) =
      (scanNumber read (c :: w)).map fun p => (.literal p.1, p.2) := by
  have hne : c ≠ 't' ∧ c ≠ 'f' ∧ c ≠ 'n' ∧ c ≠ '"' ∧ isMark c = false := by
    rcases hc with rfl | hc
    · decide
    · have hne : ∀ {d : Char}, d.isDigit = false → c ≠ d := fun hd =>
        beq_eq_false_iff_ne.1 (beq_eq_false_of_isDigit hc hd)
      exact ⟨hne rfl, hne rfl, hne rfl, hne rfl, (isMark_of_isDigit hc).1⟩
  rw [Token.scanOne.eq_def]
  split
  · rename_i heq
    exact absurd (List.cons.inj heq).1 hne.1
  · rename_i heq
    exact absurd (List.cons.inj heq).1 hne.2.1
  · rename_i heq
    exact absurd (List.cons.inj heq).1 hne.2.2.1
  · rename_i heq
    exact absurd (List.cons.inj heq).1 hne.2.2.2.1
  · rename_i heq
    obtain ⟨rfl, rfl⟩ := List.cons.inj heq
    rw [hne.2.2.2.2]
    rfl
  · rename_i heq
    exact absurd heq (List.cons_ne_nil c w)

theorem scanNumber_minus (w : List Char) : scanNumber read ('-' :: w) =
    (Numeral.scanUnsigned w).bind fun p =>
      if admits p.1 then some (ofNumeral read { p.1 with negative := true }, p.2) else none := by
  show (Numeral.scanUnsigned w).bind _ = _
  congr 1
  funext p
  by_cases h : admits p.1 = true
  · simp [h, guard]
  · simp [h, guard]

theorem scanNumber_unsigned {c : Char} (hc : c.isDigit = true) (w : List Char) :
    scanNumber read (c :: w) = (Numeral.scanUnsigned (c :: w)).bind fun p =>
      if admits p.1 then some (ofNumeral read { p.1 with negative := false }, p.2) else none := by
  have hminus : c ≠ '-' := beq_eq_false_iff_ne.1 (beq_eq_false_of_isDigit hc rfl)
  unfold scanNumber
  split
  rename_i negative body heq
  split at heq
  · rename_i h
    exact absurd (List.cons.inj h).1 hminus
  · obtain ⟨rfl, rfl⟩ := Prod.mk.inj heq
    show (Numeral.scanUnsigned (c :: w)).bind _ = _
    congr 1
    funext p
    by_cases h : admits p.1 = true
    · simp [h, guard]
    · simp [h, guard]

/-- A numeral that JSON admits is a token. -/
theorem Scans.numeral {n : Numeral} (hn : n.HasDigits) (hadmits : admits n = true)
    {s : List Char} {ts : List Token} (hs : Ends s) (h : Scans read s ts) :
    Scans read ((if n.negative then ['-'] else []) ++ n.unsignedChars ++ s)
      (.literal (ofNumeral read n) :: ts) := by
  have hne : n.whole ≠ [] := by
    intro hnil
    rw [admits, hnil] at hadmits
    exact absurd hadmits (by simp)
  obtain ⟨c, w, hw, hc⟩ := Numeral.head_unsignedChars hne hn
  have hscan : Numeral.scanUnsigned (n.unsignedChars ++ s) =
      some ({ n with negative := false }, s) :=
    Numeral.scanUnsigned_unsignedChars (n := { n with negative := false }) hn rfl hs
  have hadmits' : admits { n with negative := false } = true := hadmits
  by_cases hsign : n.negative = true
  · rw [if_pos hsign]
    refine .cons (c := '-') (w := n.unsignedChars ++ s) rfl ?_ h
    rw [scanOne_number (.inl rfl), scanNumber_minus, hscan, Option.bind_some,
      if_pos hadmits', ← hsign]
    rfl
  · rw [if_neg hsign, List.nil_append]
    rw [hw, List.cons_append] at hscan ⊢
    refine .cons (isMark_of_isDigit hc).2 ?_ h
    rw [scanOne_number (.inr hc), scanNumber_unsigned hc, hscan, Option.bind_some,
      if_pos hadmits', ← eq_false_of_ne_true hsign]
    rfl

theorem admits_toDigits (n : Nat) :
    admits ⟨false, Nat.toDigits 10 n, none, none⟩ = true := by
  rcases Nat.eq_zero_or_pos n with rfl | hn
  · rw [Nat.toDigits_zero]
    rfl
  · exact Decimal.admits_of_head Nat.toDigits_ne_nil (Decimal.head?_toDigits hn.ne') rfl

/-- **An integer of 64 bits is scanned as itself.** -/
theorem Scans.integer {n : Int} (hn : (integer n).Fits) {s : List Char} {ts : List Token}
    (hs : Ends s) (h : Scans read s ts) :
    Scans read (integerChars n ++ s) (.literal (.integer n) :: ts) := by
  obtain ⟨hlo, hhi⟩ : -0x8000000000000000 ≤ n ∧ n < 0x10000000000000000 := hn
  have hchars : integerChars n = (if decide (n < 0) then ['-'] else []) ++
      (Numeral.mk (decide (n < 0)) (Nat.toDigits 10 n.natAbs) none none).unsignedChars := by
    have hdigits : (Numeral.mk (decide (n < 0)) (Nat.toDigits 10 n.natAbs) none
        none).unsignedChars = Nat.toDigits 10 n.natAbs := by simp [Numeral.unsignedChars]
    rw [hdigits, integerChars]
    by_cases hneg : n < 0
    · rw [if_pos hneg, if_pos (decide_eq_true hneg)]
      rfl
    · rw [if_neg hneg, if_neg (by simpa using hneg)]
      rfl
  have hvalue : ofNumeral read ⟨decide (n < 0), Nat.toDigits 10 n.natAbs, none, none⟩ =
      .integer n := by
    have hsigned : (if decide (n < 0) = true then -(n.natAbs : Int) else n.natAbs) = n := by
      by_cases hneg : n < 0
      · rw [if_pos (decide_eq_true hneg)]
        omega
      · rw [if_neg (by simpa using hneg)]
        omega
    have hzero : (!(decide (n < 0) && (n.natAbs : Int) == 0)) = true := by
      by_cases hneg : n < 0 <;> simp [hneg]
      omega
    simp only [ofNumeral, Numeral.natOf_toDigits, hsigned, hzero, Option.isNone_none, hlo, hhi,
      decide_true, Bool.and_self, if_true]
  rw [hchars, ← hvalue]
  refine .numeral (n := ⟨decide (n < 0), Nat.toDigits 10 n.natAbs, none, none⟩) ?_ ?_ hs h
  · exact ⟨fun c hc => Numeral.isDigit_of_mem_toDigits hc, fun c hc => absurd hc List.not_mem_nil⟩
  · exact admits_toDigits n.natAbs

/-- **A finite double is scanned as itself** by a reading that gives it back. -/
theorem Scans.number {x : Float} (hx : x.isFinite = true) (hread : GivesBack read x) {s : List Char}
    {ts : List Token} (hs : Ends s) (h : Scans read s ts) :
    Scans read (numberChars x ++ s) (.literal (.number x) :: ts) := by
  have hvalue : ofNumeral read (Numeral.written x) = .number x := by
    have hwhole : ((Numeral.written x).fraction.isNone && (Numeral.written x).exponent.isNone) =
        false := Decimal.isSome_numeral _
    rw [GivesBack] at hread
    simp only [ofNumeral, hwhole, Bool.false_and, hread]
    rfl
  rw [numberChars, if_pos hx, Numeral.toList_write hx, ← hvalue]
  refine .numeral (n := Numeral.written x) ?_ ?_ hs h
  · exact Decimal.hasDigits_numeral _
  · exact Decimal.admits_numeral (Decimal.digits_shortest_eq_zero .even hx)

/-! ## Values -/

theorem ends_mark {c : Char} {s : List Char} (hc : isMark c = true) : Ends (c :: s) := by
  intro d hd
  obtain rfl : c = d := Option.some.inj hd
  have hcases : c = '[' ∨ c = ']' ∨ c = ',' ∨ c = ':' ∨ c = '\x7b' ∨ c = '\x7d' := by
    simpa [isMark, or_assoc] using hc
  rcases hcases with rfl | rfl | rfl | rfl | rfl | rfl <;> decide

theorem ends_lineBreak (f : Format) (depth : Nat) {s : List Char} (hs : Ends s) :
    Ends (f.lineBreak depth ++ s) := by
  cases f with
  | compact => exact hs
  | pretty =>
    intro c hc
    obtain rfl : '\n' = c := Option.some.inj hc
    decide

theorem isGap_of_mem_lineBreak {f : Format} {depth : Nat} {c : Char}
    (hc : c ∈ f.lineBreak depth) : isGap c = true := by
  cases f with
  | compact => exact absurd hc List.not_mem_nil
  | pretty =>
    rcases List.mem_cons.1 hc with rfl | hc
    · rfl
    · rw [List.eq_of_mem_replicate hc]
      rfl

theorem Scans.lineBreak (f : Format) (depth : Nat) {s : List Char} {ts : List Token}
    (h : Scans read s ts) : Scans read (f.lineBreak depth ++ s) ts :=
  h.gap fun _ => isGap_of_mem_lineBreak

theorem Scans.colon (f : Format) {s : List Char} {ts : List Token} (h : Scans read s ts) :
    Scans read (f.colon ++ s) (.mark ':' :: ts) := by
  cases f with
  | compact => exact h.mark rfl
  | pretty => exact .mark rfl (h.gap (g := [' ']) (by simp [isGap]))

theorem ends_itemChars (f : Format) (depth : Nat) (xs : List Json) {s : List Char} (hs : Ends s) :
    Ends (itemChars f depth xs ++ s) := by
  cases xs with
  | nil => exact hs
  | cons x xs => exact ends_mark (c := ',') rfl

theorem ends_fieldChars (f : Format) (depth : Nat) (fs : List (String × Json)) {s : List Char}
    (hs : Ends s) : Ends (fieldChars f depth fs ++ s) := by
  cases fs with
  | nil => exact hs
  | cons e fs => exact ends_mark (c := ',') rfl

mutual

/-- **The text of a value is cut into its tokens** if the reading gives its doubles back. -/
theorem Scans.chars (f : Format) (depth : Nat) {s : List Char} {ts : List Token} (hs : Ends s)
    (h : Scans read s ts) : ∀ j : Json, j.isUsable = true → j.Fits →
      (∀ y ∈ j.doubles, GivesBack read y) → Scans read (chars f depth j ++ s) (tokens j ++ ts)
  | .null, _, _, _ => .cons rfl rfl h
  | .bool true, _, _, _ => .cons rfl rfl h
  | .bool false, _, _, _ => .cons rfl rfl h
  | .integer _, _, hfits, _ => .integer hfits hs h
  | .number y, _, hfits, hread => .number hfits (hread y List.mem_cons_self) hs h
  | .string t, _, _, _ => .quoted t h
  | .array [], _, _, _ => .mark rfl (.mark rfl h)
  | .array (x :: xs), husable, hfits, hread => by
    obtain ⟨hx, hxs⟩ := Bool.and_eq_true_iff.1 husable
    obtain ⟨hread, hread'⟩ := List.forall_mem_append.1 hread
    have hclose : Ends (f.lineBreak depth ++ ']' :: s) := ends_lineBreak f depth (ends_mark rfl)
    have hitems := Scans.itemChars f (depth + 1) depth h xs hxs hfits.2 hread'
    have hvalue := Scans.chars f (depth + 1) (ends_itemChars f (depth + 1) xs hclose) hitems
      x hx hfits.1 hread
    simpa [Json.chars, tokens] using Scans.mark (c := '[') rfl (hvalue.lineBreak f (depth + 1))
  | .object [], _, _, _ => .mark rfl (.mark rfl h)
  | .object ((name, x) :: fs), husable, hfits, hread => by
    obtain ⟨hx, hfs⟩ := Bool.and_eq_true_iff.1 husable
    obtain ⟨hread, hread'⟩ := List.forall_mem_append.1 hread
    have hclose : Ends (f.lineBreak depth ++ '\x7d' :: s) := ends_lineBreak f depth (ends_mark rfl)
    have hfields := Scans.fieldChars f (depth + 1) depth h fs hfs hfits.2 hread'
    have hvalue := Scans.chars f (depth + 1) (ends_fieldChars f (depth + 1) fs hclose) hfields
      x hx hfits.1 hread
    have hfield := Scans.quoted name (hvalue.colon f)
    simpa [Json.chars, tokens] using
      Scans.mark (c := '\x7b') rfl (hfield.lineBreak f (depth + 1))
  | .unusable, husable, _, _ => absurd husable Bool.false_ne_true

/-- So is the text of further items. -/
theorem Scans.itemChars (f : Format) (depth outer : Nat) {s : List Char} {ts : List Token}
    (h : Scans read s ts) : ∀ xs : List Json, itemsUsable xs = true → ItemsFit xs →
      (∀ y ∈ itemDoubles xs, GivesBack read y) →
      Scans read (itemChars f depth xs ++ (f.lineBreak outer ++ ']' :: s)) (itemTokens xs ++ ts)
  | [], _, _, _ => Scans.lineBreak f outer (.mark rfl h)
  | x :: xs, husable, hfits, hread => by
    obtain ⟨hx, hxs⟩ := Bool.and_eq_true_iff.1 husable
    obtain ⟨hread, hread'⟩ := List.forall_mem_append.1 hread
    have hclose : Ends (f.lineBreak outer ++ ']' :: s) := ends_lineBreak f outer (ends_mark rfl)
    have hitems := Scans.itemChars f depth outer h xs hxs hfits.2 hread'
    have hvalue := Scans.chars f depth (ends_itemChars f depth xs hclose) hitems x hx hfits.1 hread
    simpa [Json.itemChars, itemTokens] using
      Scans.mark (c := ',') rfl (hvalue.lineBreak f depth)

/-- So is the text of further fields. -/
theorem Scans.fieldChars (f : Format) (depth outer : Nat) {s : List Char} {ts : List Token}
    (h : Scans read s ts) : ∀ fs : List (String × Json), fieldsUsable fs = true → FieldsFit fs →
      (∀ y ∈ fieldDoubles fs, GivesBack read y) →
      Scans read (fieldChars f depth fs ++ (f.lineBreak outer ++ '\x7d' :: s))
        (fieldTokens fs ++ ts)
  | [], _, _, _ => Scans.lineBreak f outer (.mark rfl h)
  | (name, x) :: fs, husable, hfits, hread => by
    obtain ⟨hx, hfs⟩ := Bool.and_eq_true_iff.1 husable
    obtain ⟨hread, hread'⟩ := List.forall_mem_append.1 hread
    have hclose : Ends (f.lineBreak outer ++ '\x7d' :: s) := ends_lineBreak f outer (ends_mark rfl)
    have hfields := Scans.fieldChars f depth outer h fs hfs hfits.2 hread'
    have hvalue := Scans.chars f depth (ends_fieldChars f depth fs hclose) hfields x hx hfits.1
      hread
    have hfield := Scans.quoted name (hvalue.colon f)
    simpa [Json.fieldChars, fieldTokens] using
      Scans.mark (c := ',') rfl (hfield.lineBreak f depth)

end

end Json
end PageContent
