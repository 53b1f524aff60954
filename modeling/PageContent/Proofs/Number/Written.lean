/-
# Written doubles read back

A numeral is written as its digits, with a point if it has a fraction and with an `e` and
a sign if it has an exponent, and it is scanned back if what follows does not go on
with it (`scanUnsigned_unsignedChars`).  Scene files write a double as the numeral of
its shortest decimal:

| first digit | numeral |
| --- | --- |
| behind the point | `0`, and a fraction that starts with zeros |
| in front of it, with others behind it | the digits, cut in two |
| in front of it, as all the others | the digits, some zeros, and the fraction `0` |
| too far from the point | one digit, the others as its fraction, an exponent |

Each stands for the number of the decimal (`value_numeral`), is one that JSON admits
(`admits_numeral`) and is not written as a whole number (`isSome_numeral`).  So
the nearest reading of what is written of a double is the double (`faithful_nearest`).
-/

import PageContent.Json.Token
import PageContent.Proofs.Number.Decimals

namespace PageContent
namespace Numeral

/-- No numeral goes on with such a text. -/
def Ends (rest : List Char) : Prop :=
  ∀ c ∈ rest.head?, c.isDigit = false ∧ c ≠ '.' ∧ c ≠ 'e' ∧ c ≠ 'E'

theorem ends_nil : Ends [] := nofun

theorem natOf_eq (ds : List Char) : natOf ds = Nat.ofDigitChars 10 ds 0 :=
  Nat.ofDigitChars_eq_foldl.symm

/-- The text of an exponent, with its sign. -/
def exponentChars (e : Int) : List Char :=
  'e' :: (if e < 0 then '-' else '+') :: Nat.toDigits 10 e.natAbs

/-- The text of a numeral, its sign aside. -/
def unsignedChars (n : Numeral) : List Char :=
  n.whole ++ n.fraction.elim [] ('.' :: ·) ++ n.exponent.elim [] exponentChars

/-- The places before and behind the point hold digits. -/
def HasDigits (n : Numeral) : Prop :=
  (∀ c ∈ n.whole, c.isDigit = true) ∧ ∀ c ∈ n.fraction.getD [], c.isDigit = true

theorem span_digits {ds rest : List Char} (hds : ∀ c ∈ ds, c.isDigit = true)
    (hrest : ∀ c ∈ rest.head?, c.isDigit = false) :
    (ds ++ rest).span Char.isDigit = (ds, rest) := by
  rw [List.span_eq_takeWhile_dropWhile, List.takeWhile_append_of_pos hds,
    List.dropWhile_append_of_pos hds]
  cases rest with
  | nil => simp
  | cons c rest => simp [hrest c rfl]

theorem isDigit_of_mem_toDigits {n : Nat} {c : Char} (hc : c ∈ Nat.toDigits 10 n) :
    c.isDigit = true :=
  Nat.isDigit_of_mem_toDigits (by decide) (by decide) hc

theorem natOf_toDigits (n : Nat) : natOf (Nat.toDigits 10 n) = n := by
  rw [natOf_eq, Nat.ofDigitChars_ten_toDigits]

theorem scanExponent_exponentChars (e : Int) {rest : List Char} (hrest : Ends rest) :
    scanExponent ((exponentChars e).tail ++ rest) = some (e, rest) := by
  have hspan : (Nat.toDigits 10 e.natAbs ++ rest).span Char.isDigit =
      (Nat.toDigits 10 e.natAbs, rest) :=
    span_digits (fun _ => isDigit_of_mem_toDigits) fun c hc => (hrest c hc).1
  have hne : Nat.toDigits 10 e.natAbs ≠ [] := Nat.toDigits_ne_nil
  have hvalue := natOf_toDigits e.natAbs
  unfold exponentChars scanExponent
  generalize Nat.toDigits 10 e.natAbs = ds at hspan hne hvalue
  by_cases he : e < 0
  · simp only [he, if_true, List.tail_cons, List.cons_append, hspan]
    cases ds with
    | nil => exact absurd rfl hne
    | cons d ds => simp only [hvalue]; congr 2; omega
  · simp only [he, if_false, List.tail_cons, List.cons_append, hspan]
    cases ds with
    | nil => exact absurd rfl hne
    | cons d ds => simp only [hvalue, Bool.false_eq_true, if_false]; congr 2; omega

/-- The digits behind a point, if there is one. -/
def scanFraction : List Char → Option (List Char) × List Char
  | '.' :: r => (some (r.span Char.isDigit).1, (r.span Char.isDigit).2)
  | r => (none, r)

/-- The exponent, if there is one. -/
def scanPower : List Char → Option (Option Int × List Char)
  | 'e' :: r | 'E' :: r => (scanExponent r).map fun p => (some p.1, p.2)
  | r => some (none, r)

theorem scanUnsigned_eq (s : List Char) : scanUnsigned s =
    (scanPower (scanFraction (s.span Char.isDigit).2).2).map fun p =>
      (⟨false, (s.span Char.isDigit).1, (scanFraction (s.span Char.isDigit).2).1, p.1⟩, p.2) := by
  rw [scanUnsigned]
  obtain ⟨whole, s⟩ := s.span Char.isDigit
  obtain ⟨fraction, r, h⟩ : ∃ fraction r, scanFraction s = (fraction, r) := ⟨_, _, rfl⟩
  -- the two matches of the scan, one after the other
  change (match (scanFraction s).2 with
    | 'e' :: r | 'E' :: r =>
      ((scanExponent r).map fun p : Int × List Char => (some p.1, p.2)).bind fun p =>
        some (Numeral.mk false whole (scanFraction s).1 p.1, p.2)
    | r => some (Numeral.mk false whole (scanFraction s).1 none, r)) = _
  rw [h, scanPower.eq_def]
  dsimp only
  split
  · cases scanExponent _ <;> rfl
  · cases scanExponent _ <;> rfl
  · rfl

theorem scanPower_append (e : Option Int) {rest : List Char} (hrest : Ends rest) :
    scanPower (e.elim [] exponentChars ++ rest) = some (e, rest) := by
  cases e with
  | none =>
    rw [Option.elim_none, List.nil_append, scanPower.eq_def]
    split
    · exact absurd rfl (hrest _ rfl).2.2.1
    · exact absurd rfl (hrest _ rfl).2.2.2
    · rfl
  | some e =>
    show (scanExponent ((exponentChars e).tail ++ rest)).map _ = _
    rw [scanExponent_exponentChars e hrest]
    rfl

/-- **The text of a numeral is scanned as the numeral.** -/
theorem scanUnsigned_unsignedChars {n : Numeral} (hn : n.HasDigits) (hsign : n.negative = false)
    {rest : List Char} (hrest : Ends rest) :
    scanUnsigned (n.unsignedChars ++ rest) = some (n, rest) := by
  obtain ⟨negative, whole, fraction, exponent⟩ := n
  obtain rfl : negative = false := hsign
  obtain ⟨hwhole, hfraction⟩ := hn
  have hends : ∀ c ∈ (exponent.elim [] exponentChars ++ rest).head?,
      c.isDigit = false ∧ c ≠ '.' := by
    intro c hc
    cases exponent with
    | none => exact ⟨(hrest c hc).1, (hrest c hc).2.1⟩
    | some e =>
      obtain rfl : c = 'e' := (Option.some.inj hc).symm
      decide
  rw [scanUnsigned_eq, unsignedChars, List.append_assoc, List.append_assoc]
  cases fraction with
  | none =>
    have hfraction : scanFraction (exponent.elim [] exponentChars ++ rest) =
        (none, exponent.elim [] exponentChars ++ rest) := by
      rw [scanFraction.eq_def]
      split
      · rename_i heq
        exact absurd rfl (hends _ (by rw [heq]; rfl)).2
      · rfl
    rw [Option.elim_none, List.nil_append, span_digits hwhole fun c hc => (hends c hc).1]
    rw [hfraction, scanPower_append exponent hrest]
    rfl
  | some ds =>
    have hspan : (ds ++ (exponent.elim [] exponentChars ++ rest)).span Char.isDigit =
        (ds, exponent.elim [] exponentChars ++ rest) :=
      span_digits hfraction fun c hc => (hends c hc).1
    rw [Option.elim_some, span_digits hwhole, List.cons_append, scanFraction]
    · dsimp only
      rw [hspan, scanPower_append exponent hrest]
      rfl
    · intro c hc
      obtain rfl : c = '.' := (Option.some.inj hc).symm
      rfl

end Numeral

namespace Decimal

open Numeral (natOf natOf_eq)

/-- The numeral that a decimal is written as in scene files. -/
def numeral (d : Decimal) : Numeral :=
  let ds := d.digitChars
  let p := ds.length + d.exponent
  if p ≤ 16 ∧ -5 < p then
    if p ≤ 0 then ⟨false, ['0'], some (List.replicate (-p).toNat '0' ++ ds), none⟩
    else if p < ds.length then ⟨false, ds.take p.toNat, some (ds.drop p.toNat), none⟩
    else ⟨false, ds ++ List.replicate (p.toNat - ds.length) '0', some ['0'], none⟩
  else ⟨false, ds.take 1, if (ds.drop 1).isEmpty then none else some (ds.drop 1), some (p - 1)⟩

theorem chars_scene (d : Decimal) : d.chars Layout.scene = d.numeral.unsignedChars := by
  have hwidth : ∀ p : Int, (Layout.scene.widest.all (p ≤ ·) &&
      Layout.scene.zeros.all (fun z => decide (-z < p))) = decide (p ≤ 16 ∧ -5 < p) := by
    intro p
    rw [Bool.decide_and]
    rfl
  unfold chars numeral
  simp only [hwidth, decide_eq_true_iff]
  split
  · unfold positional
    split
    · simp [Numeral.unsignedChars]
    · split
      · simp [Numeral.unsignedChars]
      · simp [Numeral.unsignedChars, Layout.scene]
  · have hexponent : ∀ e : Int, (if e < 0 then ['e', '-'] else ['e', '+']) ++
        Nat.toDigits 10 e.natAbs = Numeral.exponentChars e := by
      intro e
      unfold Numeral.exponentChars
      split <;> rfl
    simp only [scientific, Numeral.unsignedChars, List.append_assoc, hexponent, Option.elim_some]
    split <;> rfl

theorem isDigit_of_mem_digitChars {d : Decimal} {c : Char} (h : c ∈ d.digitChars) :
    c.isDigit = true :=
  Numeral.isDigit_of_mem_toDigits h

theorem isDigit_of_mem_replicate {n : Nat} {c : Char} (h : c ∈ List.replicate n '0') :
    c.isDigit = true := by
  rw [List.eq_of_mem_replicate h]
  rfl

theorem hasDigits_numeral (d : Decimal) : d.numeral.HasDigits := by
  have hds : ∀ c ∈ d.digitChars, c.isDigit = true := fun c => isDigit_of_mem_digitChars
  unfold numeral
  simp only
  split
  · split
    · refine ⟨by simp, ?_⟩
      intro c hc
      rcases List.mem_append.1 hc with hc | hc
      · exact isDigit_of_mem_replicate hc
      · exact hds c hc
    · split
      · exact ⟨fun c hc => hds c (List.mem_of_mem_take hc),
          fun c hc => hds c (List.mem_of_mem_drop hc)⟩
      · refine ⟨?_, by simp⟩
        intro c hc
        rcases List.mem_append.1 hc with hc | hc
        · exact hds c hc
        · exact isDigit_of_mem_replicate hc
  · refine ⟨fun c hc => hds c (List.mem_of_mem_take hc), ?_⟩
    split
    · exact fun c hc => absurd hc List.not_mem_nil
    · exact fun c hc => hds c (List.mem_of_mem_drop hc)

theorem natOf_append_replicate (ds : List Char) (n : Nat) :
    natOf (ds ++ List.replicate n '0') = 10 ^ n * natOf ds := by
  rw [natOf_eq, natOf_eq, Nat.ofDigitChars_append, Nat.ofDigitChars_replicate_zero]

theorem natOf_digitChars (d : Decimal) : natOf d.digitChars = d.digits := Numeral.natOf_toDigits _

/-- **A decimal is written as a numeral of its number.** -/
theorem value_numeral (d : Decimal) : d.numeral.decimal.value = d.value := by
  have hpos : 0 < d.digitChars.length := Nat.length_toDigits_pos
  have hvalue : d.value = natOf d.digitChars * 10 ^ d.exponent := by rw [natOf_digitChars]; rfl
  rw [hvalue]
  unfold numeral
  generalize d.digitChars = ds at hpos
  simp only
  split
  · split
    · have hzeros : natOf ('0' :: (List.replicate (-(ds.length + d.exponent)).toNat '0' ++ ds)) =
          natOf ds := by
        show natOf (List.replicate ((-(ds.length + d.exponent)).toNat + 1) '0' ++ ds) = _
        rw [natOf_eq, Nat.ofDigitChars_append, Nat.ofDigitChars_replicate_zero, natOf_eq,
          Nat.mul_zero]
      simp only [value, Numeral.decimal, Option.getD_some, Option.getD_none, List.cons_append,
        List.nil_append, hzeros]
      congr 2
      simp
      omega
    · split
      · simp only [value, Numeral.decimal, Option.getD_some, Option.getD_none,
          List.take_append_drop]
        congr 2
        simp
        omega
      · simp only [value, Numeral.decimal, Option.getD_some, Option.getD_none, List.append_assoc]
        obtain ⟨k, hk⟩ : ∃ k : Nat, d.exponent = k := ⟨d.exponent.toNat, by omega⟩
        have hlen : (ds.length + d.exponent).toNat - ds.length = k := by omega
        have hzeros : List.replicate k '0' ++ ['0'] = List.replicate (k + 1) '0' :=
          List.replicate_succ'.symm
        rw [hlen, hk, hzeros, natOf_append_replicate, Nat.cast_mul, Nat.cast_pow, Nat.cast_ofNat,
          zpow_natCast, List.length_singleton, Nat.cast_one, zero_sub, zpow_neg_one, pow_succ]
        field_simp
  · have hrest : (if (ds.drop 1).isEmpty then none else some (ds.drop 1)).getD [] = ds.drop 1 := by
      split
      · rename_i h
        exact (List.isEmpty_iff.1 h).symm
      · rfl
    simp only [value, Numeral.decimal, hrest, Option.getD_some, List.take_append_drop]
    congr 2
    simp
    omega

/-- A number is written without zeros in front. -/
theorem head?_toDigits {n : Nat} (h : n ≠ 0) : (Nat.toDigits 10 n).head? ≠ some '0' := by
  induction n using Nat.strongRecOn with
  | _ n ih =>
    rw [Nat.toDigits_eq_if (by decide)]
    split
    · rename_i hlt
      interval_cases n <;> first | exact absurd rfl h | decide
    · rename_i hle
      rw [List.head?_append, Option.or_of_isSome (by simp [Nat.toDigits_ne_nil])]
      exact ih (n / 10) (by omega) (by omega)

theorem admits_of_head {n : Numeral} (hne : n.whole ≠ []) (hhead : n.whole.head? ≠ some '0')
    (hfraction : n.fraction.all (!·.isEmpty) = true) : Json.admits n = true := by
  rw [Json.admits, hfraction, Bool.and_true, Bool.or_eq_true, Bool.and_eq_true]
  exact .inr ⟨by simpa using hne, bne_iff_ne.2 hhead⟩

/-- A decimal is written without zeros in front of others, and with digits on both sides of a
point. -/
theorem admits_numeral {d : Decimal} (h : d.digits = 0 → d.exponent = 0) :
    Json.admits d.numeral = true := by
  have hhead : d.digits ≠ 0 → d.digitChars.head? ≠ some '0' := head?_toDigits
  have hzero : d.digits = 0 → d.digitChars = ['0'] := fun h => by
    rw [digitChars, h, Nat.toDigits_zero]
  have hne : d.digitChars ≠ [] := Nat.toDigits_ne_nil
  have hpos : 0 < d.digitChars.length := List.length_pos_iff.2 hne
  -- a zero has its one digit in front of the point
  have hplace : d.digits = 0 → d.digitChars.length + d.exponent = 1 := by
    intro hd
    rw [hzero hd, h hd]
    rfl
  have htake : ∀ n : Nat, 0 < n → (d.digitChars.take n).head? = d.digitChars.head? := by
    intro n hn
    rw [List.head?_take, if_neg hn.ne']
  unfold numeral
  simp only
  split
  · split
    · simp [Json.admits, hne]
    · rename_i hp
      split
      · rename_i hlt
        have hd : d.digits ≠ 0 := fun hd => by
          have := hplace hd
          rw [hzero hd, List.length_singleton] at hlt
          omega
        refine admits_of_head ?_ ?_ ?_
        · simp [hne]
          omega
        · rw [htake _ (by omega)]
          exact hhead hd
        · simp
          omega
      · by_cases hd : d.digits = 0
        · rw [hplace hd, hzero hd]
          rfl
        · refine admits_of_head (by simp [hne]) ?_ rfl
          rw [List.head?_append_of_ne_nil _ hne]
          exact hhead hd
  · rename_i hp
    have hd : d.digits ≠ 0 := fun hd => by
      have := hplace hd
      omega
    refine admits_of_head (by simp [hne]) ?_ ?_
    · rw [htake 1 one_pos]
      exact hhead hd
    · split
      · rfl
      · rename_i hrest
        simpa using hrest

theorem negative_numeral (d : Decimal) : d.numeral.negative = false := by
  unfold numeral
  simp only
  split
  · split
    · rfl
    · split <;> rfl
  · rfl

/-- It is not written as a whole number. -/
theorem isSome_numeral (d : Decimal) :
    (d.numeral.fraction.isNone && d.numeral.exponent.isNone) = false := by
  unfold numeral
  simp only
  split
  · split
    · rfl
    · split <;> rfl
  · exact Bool.and_false _

theorem digits_shortest_eq_zero (tie : Tie) {x : Float} (h : x.isFinite = true)
    (hd : (shortest tie x).digits = 0) : (shortest tie x).exponent = 0 := by
  have hvalue : (shortest tie x).value = (Decimal.mk 0 0).value := by
    rw [value, value, hd, Nat.cast_zero, zero_mul, zero_mul]
  have habs : x.abs = 0 := (toFloat_shortest tie h).symm.trans (toFloat_congr hvalue)
  have hmantissa : (Binary64.parts x).mantissa = 0 := by
    have hzero := (Binary64.unpacked_abs x).symm.trans (congrArg Binary64.unpacked habs)
    obtain ⟨s, hu⟩ | ⟨s, m, e, hm, hu⟩ := Binary64.zero_or_finite (u := Binary64.unpacked x) h
    · exact Binary64.mantissa_of_unpacked_zero hu
    · rw [hu] at hzero
      exact Float.Model.UnpackedFloat.noConfusion hzero
  simp only [shortest, hmantissa, if_true]

end Decimal

namespace Numeral

open Decimal (shortest)
open Binary64 (parts)

/-- The numeral that a double is written as in scene files. -/
def written (x : Float) : Numeral :=
  { (shortest .even x).numeral with negative := (parts x).negative }

theorem toList_write {x : Float} (h : x.isFinite = true) :
    (Decimal.Layout.scene.write x).toList =
      (if (parts x).negative then ['-'] else []) ++ (written x).unsignedChars := by
  have hnan : x.isNaN = false := Binary64.isNaN_of_isFinite h
  unfold Decimal.Layout.write
  rw [if_neg (by rw [hnan]; exact Bool.false_ne_true), if_pos h, String.toList_ofList]
  exact congrArg _ (Decimal.chars_scene _)

theorem whole_written_ne_nil {x : Float} (h : x.isFinite = true) : (written x).whole ≠ [] := by
  have hadmits : Json.admits (shortest .even x).numeral = true :=
    Decimal.admits_numeral (Decimal.digits_shortest_eq_zero .even h)
  intro hnil
  change (shortest .even x).numeral.whole = [] at hnil
  rw [Json.admits, hnil] at hadmits
  exact absurd hadmits (by simp)

/-- A text that starts with a digit has no sign in front. -/
theorem head_unsignedChars {n : Numeral} (hne : n.whole ≠ []) (hn : n.HasDigits) :
    ∃ c s, n.unsignedChars = c :: s ∧ c.isDigit = true := by
  obtain ⟨negative, whole, fraction, exponent⟩ := n
  cases whole with
  | nil => exact absurd rfl hne
  | cons c ds => exact ⟨c, _, rfl, hn.1 c List.mem_cons_self⟩

theorem ofChars?_minus {body : List Char} {n : Numeral} (hscan : scanUnsigned body = some (n, []))
    (hne : n.whole ≠ []) : ofChars? ('-' :: body) = some { n with negative := true } := by
  simp [ofChars?, hscan, hne]

theorem ofChars?_unsigned {c : Char} {s : List Char} {n : Numeral} (hc : c.isDigit = true)
    (hscan : scanUnsigned (c :: s) = some (n, [])) (hne : n.whole ≠ []) :
    ofChars? (c :: s) = some { n with negative := false } := by
  have hsign : ofChars? (c :: s) = (do
      let p ← scanUnsigned (c :: s)
      guard (p.2.isEmpty && !(p.1.whole.isEmpty && (p.1.fraction.getD []).isEmpty))
      return { p.1 with negative := false }) := by
    unfold ofChars?
    split
    · rename_i heq
      split at heq
      · rename_i h
        exact absurd hc (by rw [(List.cons.inj h).1]; decide)
      · rename_i h
        exact absurd hc (by rw [(List.cons.inj h).1]; decide)
      · cases heq
        rfl
  rw [hsign]
  simp [hscan, hne]

/-- **The text of a double is the numeral that it is written as.** -/
theorem ofChars?_write {x : Float} (h : x.isFinite = true) :
    ofChars? (Decimal.Layout.scene.write x).toList = some (written x) := by
  have hne := whole_written_ne_nil h
  have hscan : scanUnsigned (written x).unsignedChars = some ((shortest .even x).numeral, []) := by
    have := scanUnsigned_unsignedChars (Decimal.hasDigits_numeral (shortest .even x))
      (Decimal.negative_numeral _) ends_nil
    rwa [List.append_nil] at this
  rw [toList_write h]
  by_cases hsign : (parts x).negative = true
  · rw [if_pos hsign, List.singleton_append, ofChars?_minus hscan hne, written, hsign]
  · obtain ⟨c, s, hs, hc⟩ := head_unsignedChars hne (Decimal.hasDigits_numeral (shortest .even x))
    rw [hs] at hscan
    rw [if_neg hsign, List.nil_append, hs, ofChars?_unsigned hc hscan hne, written,
      eq_false_of_ne_true hsign]

/-- **What is read by scaling is finite**, for the digits that are clipped fit in 64 bits. -/
theorem isFinite_of_scaled? {n : Numeral} {x : Float} (h : n.scaled? = some x) :
    x.isFinite = true := by
  obtain ⟨y, hy, rfl⟩ := Option.map_eq_some_iff.1 h
  have hdigits : n.clipped.digits < 2 ^ 64 :=
    gather_lt (gather_lt (by decide) n.whole) (n.fraction.getD [])
  have hfinite := Decimal.isFinite_of_scaled? hdigits.le hy
  unfold signed
  split
  · rwa [Binary64.isFinite_neg]
  · exact hfinite

/-- The reading gives the double back from what is written of it. -/
def GivesBack (read : Numeral → Option Float) (x : Float) : Prop := read (written x) = some x

instance (read : Numeral → Option Float) (x : Float) : Decidable (GivesBack read x) :=
  inferInstanceAs (Decidable (_ = _))

/-- A reading of numerals that gives finite numbers only, and that gives a double back from what
is written of it in scene files. -/
structure Faithful (read : Numeral → Option Float) : Prop where
  isFinite : ∀ {n x}, read n = some x → x.isFinite = true
  read_write : ∀ {x : Float}, x.isFinite = true →
    (ofChars? (Decimal.Layout.scene.write x).toList).bind read = some x

theorem Faithful.givesBack {read : Numeral → Option Float} (h : Faithful read) {x : Float}
    (hx : x.isFinite = true) : GivesBack read x := by
  have hread := h.read_write hx
  rwa [ofChars?_write hx] at hread

/-- **The nearest reading is faithful.** -/
theorem faithful_nearest : Faithful nearest? where
  isFinite h := (Option.filter_eq_some_iff.1 h).2
  read_write {x} hx := by
    have hdecimal : (written x).decimal.toFloat = x.abs :=
      (Decimal.toFloat_congr (Decimal.value_numeral _)).trans (Decimal.toFloat_shortest .even hx)
    rw [ofChars?_write hx]
    show (some ((written x).signed (written x).decimal.toFloat)).filter Float.isFinite = some x
    rw [hdecimal, signed]
    show (some (if (parts x).negative then -x.abs else x.abs)).filter Float.isFinite = some x
    rw [Binary64.signed_abs hx, Option.filter_some, if_pos hx]

end Numeral
end PageContent
