/-
# Reading a written value

The tokens of a value are read as the value, so that what is written can be read
again.  Two things bound what the reader takes: the nesting of arrays and
objects, which must stay within `maxDepth`, and the number of its steps, which is
twice the number of the tokens and always enough.

In the other direction a text spells only values that can be written: its
numbers fit, and its arrays and objects nest no deeper than `maxDepth`.
-/

import PageContent.Proofs.Json.Tokens

namespace PageContent
namespace Json

mutual

/-- How deep arrays and objects nest in a value. -/
def depth : Json → Nat
  | .array xs => itemsDepth xs + 1
  | .object fs => fieldsDepth fs + 1
  | _ => 0

/-- How deep they nest in the items. -/
def itemsDepth : List Json → Nat
  | [] => 0
  | x :: xs => max (depth x) (itemsDepth xs)

/-- How deep they nest in the values of the fields. -/
def fieldsDepth : List (String × Json) → Nat
  | [] => 0
  | (_, x) :: fs => max (depth x) (fieldsDepth fs)

end

/-! ## Reading the tokens -/

theorem length_numberChars_pos {x : Float} (hx : x.isFinite = true) :
    0 < (numberChars x).length := by
  have hne := Numeral.whole_written_ne_nil hx
  rw [numberChars, if_pos hx, Numeral.toList_write hx, Numeral.unsignedChars]
  have := List.length_pos_iff.2 hne
  simp only [List.length_append]
  omega

theorem length_integerChars_pos (n : Int) : 0 < (integerChars n).length := by
  have : 0 < (Nat.toDigits 10 n.natAbs).length := Nat.length_toDigits_pos
  unfold integerChars
  split
  · exact Nat.succ_pos _
  · exact this

mutual

theorem length_tokens_le (f : Format) (depth : Nat) : ∀ j : Json, j.Fits →
    (tokens j).length ≤ (chars f depth j).length
  | .null, _ => by simp [tokens, chars]
  | .bool true, _ => by simp [tokens, chars]
  | .bool false, _ => by simp [tokens, chars]
  | .integer n, _ => length_integerChars_pos n
  | .number _, hfits => length_numberChars_pos hfits
  | .string _, _ => Nat.succ_pos _
  | .array [], _ => by simp [tokens, chars]
  | .array (x :: xs), hfits => by
    have hx := length_tokens_le f (depth + 1) x hfits.1
    have hxs := length_itemTokens_le f (depth + 1) xs hfits.2
    simp [tokens, chars]
    omega
  | .object [], _ => by simp [tokens, chars]
  | .object ((name, x) :: fs), hfits => by
    have hx := length_tokens_le f (depth + 1) x hfits.1
    have hfs := length_fieldTokens_le f (depth + 1) fs hfits.2
    have hcolon : 0 < f.colon.length := by cases f <;> decide
    simp [tokens, chars, quoted]
    omega
  | .unusable, _ => by simp [tokens, chars]

theorem length_itemTokens_le (f : Format) (depth : Nat) : ∀ xs : List Json, ItemsFit xs →
    (itemTokens xs).length ≤ (itemChars f depth xs).length + 1
  | [], _ => by simp [itemTokens]
  | x :: xs, hfits => by
    have hx := length_tokens_le f depth x hfits.1
    have hxs := length_itemTokens_le f depth xs hfits.2
    simp [itemTokens, itemChars]
    omega

theorem length_fieldTokens_le (f : Format) (depth : Nat) : ∀ fs : List (String × Json),
    FieldsFit fs → (fieldTokens fs).length ≤ (fieldChars f depth fs).length + 1
  | [], _ => by simp [fieldTokens]
  | (name, x) :: fs, hfits => by
    have hx := length_tokens_le f depth x hfits.1
    have hfs := length_fieldTokens_le f depth fs hfits.2
    have hcolon : 0 < f.colon.length := by cases f <;> decide
    simp [fieldTokens, fieldChars, quoted]
    omega

end

/-- The first token of a value does not close a bracket or a brace. -/
theorem exists_tokens_eq (j : Json) :
    ∃ t ts, tokens j = t :: ts ∧ t ≠ .mark ']' ∧ t ≠ .mark '\x7d' := by
  rcases j with _ | _ | _ | _ | _ | (_ | ⟨x, xs⟩) | (_ | ⟨⟨name, x⟩, fs⟩) | _
  all_goals exact ⟨_, _, rfl, by simp, by simp⟩

theorem length_tokens_pos (j : Json) : 0 < (tokens j).length := by
  obtain ⟨t, ts, h, -⟩ := exists_tokens_eq j
  rw [h]
  exact Nat.succ_pos _

theorem readValue_bracket {fuel n : Nat} {t : Token} {ts : List Token} (ht : t ≠ .mark ']') :
    readValue (fuel + 1) n (.mark '[' :: t :: ts) =
      (readItems fuel (n - 1) (t :: ts)).map fun p =>
        (if n = 0 then .unusable else .array p.1, p.2) := by
  rw [readValue]
  · cases readItems fuel (n - 1) (t :: ts) <;> rfl
  · rintro rest h
    exact ht (List.cons.inj h).1

theorem readValue_brace {fuel n : Nat} {t : Token} {ts : List Token} (ht : t ≠ .mark '\x7d') :
    readValue (fuel + 1) n (.mark '\x7b' :: t :: ts) =
      (readFields fuel (n - 1) (t :: ts)).map fun p =>
        (if n = 0 then .unusable else p.1.elim .unusable .object, p.2) := by
  rw [readValue]
  · cases readFields fuel (n - 1) (t :: ts) <;> rfl
  · rintro rest h
    exact ht (List.cons.inj h).1

mutual

/-- **The tokens of a value are read as the value.** -/
theorem readValue_tokens (fuel n : Nat) (ts : List Token) : ∀ j : Json, j.isUsable = true →
    2 * (tokens j).length ≤ fuel + 2 → j.depth ≤ n →
      readValue (fuel + 1) n (tokens j ++ ts) = some (j, ts)
  | .null, _, _, _ | .bool _, _, _, _ | .integer _, _, _, _ | .number _, _, _, _
  | .string _, _, _, _ => rfl
  | .array [], _, _, hdepth => by
    have hn : n ≠ 0 := by simp [depth] at hdepth; omega
    show some (if n = 0 then Json.unusable else .array [], ts) = _
    rw [if_neg hn]
  | .array (x :: xs), husable, hfuel, hdepth => by
    simp only [tokens, List.length_cons, List.length_append, depth] at hfuel hdepth
    have hpos := length_tokens_pos x
    obtain ⟨fuel, rfl⟩ : ∃ k, fuel = k + 2 := ⟨fuel - 2, by omega⟩
    have hitems := readItems_tokens fuel (n - 1) ts x xs husable (by omega) (by omega)
    obtain ⟨t, rest, htokens, ht, -⟩ := exists_tokens_eq x
    simp only [tokens, List.cons_append, List.append_assoc, htokens] at hitems ⊢
    rw [readValue_bracket ht, hitems, Option.map_some, if_neg (by omega)]
  | .object [], _, _, hdepth => by
    have hn : n ≠ 0 := by simp [depth] at hdepth; omega
    show some (if n = 0 then Json.unusable else .object [], ts) = _
    rw [if_neg hn]
  | .object ((name, x) :: fs), husable, hfuel, hdepth => by
    simp only [tokens, List.length_cons, List.length_append, depth] at hfuel hdepth
    have hpos := length_tokens_pos x
    obtain ⟨fuel, rfl⟩ : ∃ k, fuel = k + 2 := ⟨fuel - 2, by omega⟩
    have hfields := readFields_tokens fuel (n - 1) ts name x fs husable (by omega) (by omega)
    simp only [tokens, List.cons_append, List.append_assoc] at hfields ⊢
    rw [readValue_brace (by simp), hfields, Option.map_some, if_neg (by omega)]
    rfl
  | .unusable, husable, _, _ => absurd husable Bool.false_ne_true

/-- Those of some items, up to the bracket behind them, as the items. -/
theorem readItems_tokens (fuel n : Nat) (ts : List Token) : ∀ (x : Json) (xs : List Json),
    (x.isUsable && itemsUsable xs) = true →
    2 * ((tokens x).length + (itemTokens xs).length) ≤ fuel + 2 → itemsDepth (x :: xs) ≤ n →
      readItems (fuel + 2) n (tokens x ++ (itemTokens xs ++ ts)) = some (x :: xs, ts)
  | x, xs, husable, hfuel, hdepth => by
    obtain ⟨hx, hxs⟩ := Bool.and_eq_true_iff.1 husable
    rw [itemsDepth] at hdepth
    have hvalue := readValue_tokens fuel n (itemTokens xs ++ ts) x hx (by omega) (by omega)
    rw [readItems, hvalue]
    cases xs with
    | nil => rfl
    | cons y ys =>
      simp only [itemTokens, List.length_cons, List.length_append] at hfuel
      have hpos := length_tokens_pos x
      obtain ⟨fuel, rfl⟩ : ∃ k, fuel = k + 1 := ⟨fuel - 1, by omega⟩
      have hitems := readItems_tokens fuel n ts y ys hxs (by omega) (by omega)
      show (readItems (fuel + 2) n (tokens y ++ itemTokens ys ++ ts)).bind _ = _
      rw [List.append_assoc, hitems]
      rfl

/-- Those of some fields, up to the brace behind them, as the fields. -/
theorem readFields_tokens (fuel n : Nat) (ts : List Token) :
    ∀ (name : String) (x : Json) (fs : List (String × Json)),
    (x.isUsable && fieldsUsable fs) = true →
    2 * ((tokens x).length + (fieldTokens fs).length) ≤ fuel + 2 →
    fieldsDepth ((name, x) :: fs) ≤ n →
      readFields (fuel + 2) n
        (.text (some name) :: .mark ':' :: (tokens x ++ (fieldTokens fs ++ ts))) =
        some (some ((name, x) :: fs), ts)
  | name, x, fs, husable, hfuel, hdepth => by
    obtain ⟨hx, hfs⟩ := Bool.and_eq_true_iff.1 husable
    rw [fieldsDepth] at hdepth
    have hvalue := readValue_tokens fuel n (fieldTokens fs ++ ts) x hx (by omega) (by omega)
    rw [readFields, hvalue]
    cases fs with
    | nil => rfl
    | cons e fs =>
      obtain ⟨name', y⟩ := e
      simp only [fieldTokens, List.length_cons, List.length_append] at hfuel
      have hpos := length_tokens_pos x
      obtain ⟨fuel, rfl⟩ : ∃ k, fuel = k + 1 := ⟨fuel - 1, by omega⟩
      have hfields := readFields_tokens fuel n ts name' y fs hfs (by omega) (by omega)
      show (readFields (fuel + 2) n (.text (some name') :: .mark ':' ::
        (tokens y ++ fieldTokens fs ++ ts))).bind _ = _
      rw [List.append_assoc, hfields]
      rfl

end

/-- **What is written of a usable value is read back**, if its numbers fit, the reading gives its
doubles back, and it nests no deeper than a text may. -/
theorem parseWith?_write {read : Numeral → Option Float} (f : Format) {j : Json}
    (husable : j.isUsable = true) (hfits : j.Fits) (hdepth : j.depth ≤ maxDepth)
    (hread : ∀ y ∈ j.doubles, Numeral.GivesBack read y) :
    parseWith? read (j.write f) = some j := by
  have hscans : Scans read (chars f 0 j) (tokens j) := by
    have hend : Scans read [] [] := .done rfl
    have := Scans.chars f 0 Numeral.ends_nil hend j husable hfits hread
    rwa [List.append_nil, List.append_nil] at this
  have hscan : Token.scan read (j.write f).toList = some (tokens j) := by
    rw [write, String.toList_ofList]
    exact scanWith_of_scans hscans (length_tokens_le f 0 j hfits)
  have hvalue : readValue (2 * (tokens j).length) maxDepth (tokens j) = some (j, []) := by
    have hpos := length_tokens_pos j
    obtain ⟨fuel, hfuel⟩ : ∃ k, 2 * (tokens j).length = k + 1 :=
      ⟨2 * (tokens j).length - 1, by omega⟩
    have := readValue_tokens fuel maxDepth [] j husable (by omega) hdepth
    rwa [← hfuel, List.append_nil] at this
  show (Token.scan read (j.write f).toList).bind _ = _
  rw [hscan, Option.bind_some, hvalue]
  rfl

/-! ## What a text can spell -/

/-- A literal token is a number that fits or no number at all. -/
def Token.Fits : Token → Prop
  | .literal j => j.Fits ∧ j.depth = 0
  | _ => True

theorem fits_ofNumeral {read : Numeral → Option Float}
    (hread : ∀ {n x}, read n = some x → x.isFinite = true)
    (n : Numeral) : (Token.literal (ofNumeral read n)).Fits := by
  unfold ofNumeral
  extract_lets magnitude value
  split
  · rename_i h
    simp only [Bool.and_eq_true, decide_eq_true_eq] at h
    exact ⟨⟨h.1.2, h.2⟩, rfl⟩
  · cases hx : read n with
    | none => exact ⟨trivial, rfl⟩
    | some x => exact ⟨hread hx, rfl⟩

theorem fits_of_scanNumber {read : Numeral → Option Float}
    (hread : ∀ {n x}, read n = some x → x.isFinite = true)
    {s rest : List Char} {j : Json} (h : scanNumber read s = some (j, rest)) :
    (Token.literal j).Fits := by
  unfold scanNumber at h
  dsimp only at h
  obtain ⟨⟨n, r⟩, -, h⟩ := Option.bind_eq_some_iff.1 h
  obtain ⟨-, -, h⟩ := Option.bind_eq_some_iff.1 h
  obtain ⟨rfl, -⟩ := Prod.mk.inj (Option.some.inj h)
  exact fits_ofNumeral hread _

theorem fits_of_scanOne {read : Numeral → Option Float}
    (hread : ∀ {n x}, read n = some x → x.isFinite = true)
    {s rest : List Char} {t : Token} (h : Token.scanOne read s = some (t, rest)) : t.Fits := by
  rw [Token.scanOne.eq_def] at h
  split at h
  · obtain ⟨rfl, -⟩ := Prod.mk.inj (Option.some.inj h)
    exact ⟨trivial, rfl⟩
  · obtain ⟨rfl, -⟩ := Prod.mk.inj (Option.some.inj h)
    exact ⟨trivial, rfl⟩
  · obtain ⟨rfl, -⟩ := Prod.mk.inj (Option.some.inj h)
    exact ⟨trivial, rfl⟩
  · obtain ⟨p, -, h⟩ := Option.bind_eq_some_iff.1 h
    obtain ⟨rfl, -⟩ := Prod.mk.inj (Option.some.inj h)
    trivial
  · split at h
    · obtain ⟨rfl, -⟩ := Prod.mk.inj (Option.some.inj h)
      trivial
    · obtain ⟨⟨j, r⟩, hj, h⟩ := Option.map_eq_some_iff.1 h
      obtain ⟨rfl, -⟩ := Prod.mk.inj h
      exact fits_of_scanNumber hread hj
  · exact absurd h (Option.some_ne_none _).symm

theorem fits_of_scanWith {read : Numeral → Option Float}
    (hread : ∀ {n x}, read n = some x → x.isFinite = true)
    {fuel : Nat} {s : List Char} {ts : List Token} (h : Token.scanWith read fuel s = some ts) :
    ∀ t ∈ ts, t.Fits := by
  induction fuel generalizing s ts with
  | zero =>
    unfold Token.scanWith at h
    dsimp only at h
    split at h
    · obtain rfl := Option.some.inj h
      exact fun _ ht => absurd ht List.not_mem_nil
    · exact absurd h nofun
    · contradiction
  | succ fuel ih =>
    unfold Token.scanWith at h
    dsimp only at h
    split at h
    · obtain rfl := Option.some.inj h
      exact fun _ ht => absurd ht List.not_mem_nil
    · contradiction
    · rename_i heq _
      obtain rfl := Nat.succ.inj heq
      obtain ⟨⟨t, rest⟩, ht, h⟩ := Option.bind_eq_some_iff.1 h
      obtain ⟨ts, hts, h⟩ := Option.bind_eq_some_iff.1 h
      obtain rfl := Option.some.inj h
      exact List.forall_mem_cons.2 ⟨fits_of_scanOne hread ht, ih hts⟩

/-- Every token of the list fits. -/
def AllFit (ts : List Token) : Prop := ∀ t ∈ ts, t.Fits

theorem AllFit.tail {t : Token} {ts : List Token} (h : AllFit (t :: ts)) : AllFit ts :=
  (List.forall_mem_cons.1 h).2

/-- An array or object that stands too deep is unusable, and so nests in no case deeper than it
may. -/
theorem fits_of_nested {n d : Nat} {j : Json} (hfits : j.Fits) (hdepth : j.depth ≤ d + 1)
    (hd : d ≤ n - 1) : (if n = 0 then unusable else j).Fits ∧
      (if n = 0 then unusable else j).depth ≤ n := by
  split
  · exact ⟨trivial, Nat.zero_le n⟩
  · exact ⟨hfits, by omega⟩

/-- What the readers take in so many steps from fitting tokens fits, and nests no deeper than it
may; the tokens that they leave fit too. -/
structure ReadsFit (fuel : Nat) : Prop where
  value : ∀ {n ts j rest}, AllFit ts → readValue fuel n ts = some (j, rest) →
    (j.Fits ∧ j.depth ≤ n) ∧ AllFit rest
  items : ∀ {n ts xs rest}, AllFit ts → readItems fuel n ts = some (xs, rest) →
    (ItemsFit xs ∧ itemsDepth xs ≤ n) ∧ AllFit rest
  fields : ∀ {n ts given rest}, AllFit ts → readFields fuel n ts = some (given, rest) →
    (∀ fs ∈ given, FieldsFit fs ∧ fieldsDepth fs ≤ n) ∧ AllFit rest

variable {fuel : Nat}

theorem ReadsFit.readValue_succ (ih : ReadsFit fuel) {n : Nat} {ts rest : List Token} {j : Json}
    (hts : AllFit ts) (h : readValue (fuel + 1) n ts = some (j, rest)) :
    (j.Fits ∧ j.depth ≤ n) ∧ AllFit rest := by
  rw [readValue.eq_def] at h
  split at h
  · contradiction
  · obtain ⟨rfl, rfl⟩ := Prod.mk.inj (Option.some.inj h)
    obtain ⟨⟨hfits, hdepth⟩, hrest⟩ := List.forall_mem_cons.1 hts
    exact ⟨⟨hfits, by omega⟩, hrest⟩
  · rename_i s _ _
    obtain ⟨rfl, rfl⟩ := Prod.mk.inj (Option.some.inj h)
    refine ⟨?_, hts.tail⟩
    cases s with
    | none => exact ⟨trivial, Nat.zero_le _⟩
    | some t => exact ⟨trivial, Nat.zero_le _⟩
  · obtain ⟨rfl, rfl⟩ := Prod.mk.inj (Option.some.inj h)
    exact ⟨fits_of_nested (d := 0) trivial le_rfl (Nat.zero_le _), hts.tail.tail⟩
  · rename_i heq
    obtain rfl := Nat.succ.inj heq
    obtain ⟨⟨items, rest'⟩, hitems, h⟩ := Option.bind_eq_some_iff.1 h
    obtain ⟨rfl, rfl⟩ := Prod.mk.inj (Option.some.inj h)
    obtain ⟨⟨hfits, hdepth⟩, hrest⟩ := ih.items hts.tail hitems
    exact ⟨fits_of_nested hfits le_rfl hdepth, hrest⟩
  · obtain ⟨rfl, rfl⟩ := Prod.mk.inj (Option.some.inj h)
    exact ⟨fits_of_nested (d := 0) trivial le_rfl (Nat.zero_le _), hts.tail.tail⟩
  · rename_i heq
    obtain rfl := Nat.succ.inj heq
    obtain ⟨⟨given, rest'⟩, hfields, h⟩ := Option.bind_eq_some_iff.1 h
    obtain ⟨rfl, rfl⟩ := Prod.mk.inj (Option.some.inj h)
    obtain ⟨hgiven, hrest⟩ := ih.fields hts.tail hfields
    refine ⟨?_, hrest⟩
    cases given with
    | none => exact fits_of_nested (d := 0) trivial (Nat.zero_le _) (Nat.zero_le _)
    | some fs =>
      obtain ⟨hfits, hdepth⟩ := hgiven fs rfl
      exact fits_of_nested hfits le_rfl hdepth
  · contradiction

theorem ReadsFit.readItems_succ (ih : ReadsFit fuel) {n : Nat} {ts rest : List Token}
    {xs : List Json} (hts : AllFit ts) (h : readItems (fuel + 1) n ts = some (xs, rest)) :
    (ItemsFit xs ∧ itemsDepth xs ≤ n) ∧ AllFit rest := by
  rw [readItems] at h
  obtain ⟨⟨x, rest'⟩, hvalue, h⟩ := Option.bind_eq_some_iff.1 h
  obtain ⟨⟨hfits, hdepth⟩, hrest⟩ := ih.value hts hvalue
  dsimp only at h
  split at h
  · obtain ⟨rfl, rfl⟩ := Prod.mk.inj (Option.some.inj h)
    exact ⟨⟨⟨hfits, trivial⟩, max_le hdepth (Nat.zero_le _)⟩, hrest.tail⟩
  · obtain ⟨⟨items, rest''⟩, hitems, h⟩ := Option.bind_eq_some_iff.1 h
    obtain ⟨rfl, rfl⟩ := Prod.mk.inj (Option.some.inj h)
    obtain ⟨⟨hfits', hdepth'⟩, hrest'⟩ := ih.items hrest.tail hitems
    exact ⟨⟨⟨hfits, hfits'⟩, max_le hdepth hdepth'⟩, hrest'⟩
  · contradiction

theorem ReadsFit.readFields_succ (ih : ReadsFit fuel) {n : Nat} {ts rest : List Token}
    {given : Option (List (String × Json))} (hts : AllFit ts)
    (h : readFields (fuel + 1) n ts = some (given, rest)) :
    (∀ fs ∈ given, FieldsFit fs ∧ fieldsDepth fs ≤ n) ∧ AllFit rest := by
  rw [readFields.eq_def] at h
  split at h
  · rename_i heq
    obtain rfl := Nat.succ.inj heq
    obtain ⟨⟨x, rest'⟩, hvalue, h⟩ := Option.bind_eq_some_iff.1 h
    obtain ⟨⟨hfits, hdepth⟩, hrest⟩ := ih.value hts.tail.tail hvalue
    dsimp only at h
    split at h
    · obtain ⟨rfl, rfl⟩ := Prod.mk.inj (Option.some.inj h)
      refine ⟨?_, hrest.tail⟩
      simp only [Option.mem_def, Option.map_eq_some_iff]
      rintro _ ⟨_, ⟨name, -, rfl⟩, rfl⟩
      exact ⟨⟨hfits, trivial⟩, max_le hdepth (Nat.zero_le _)⟩
    · obtain ⟨⟨given', rest''⟩, hfields, h⟩ := Option.bind_eq_some_iff.1 h
      obtain ⟨rfl, rfl⟩ := Prod.mk.inj (Option.some.inj h)
      obtain ⟨hgiven, hrest'⟩ := ih.fields hrest.tail hfields
      refine ⟨?_, hrest'⟩
      simp only [Option.mem_def, Option.bind_eq_some_iff, Option.map_eq_some_iff]
      rintro _ ⟨_, ⟨name, -, rfl⟩, fs, rfl, rfl⟩
      obtain ⟨hfits', hdepth'⟩ := hgiven fs rfl
      exact ⟨⟨hfits, hfits'⟩, max_le hdepth hdepth'⟩
    · contradiction
  · contradiction

/-- **What the readers take from fitting tokens fits.** -/
theorem readsFit (fuel : Nat) : ReadsFit fuel := by
  induction fuel with
  | zero =>
    refine ⟨fun _ h => ?_, fun _ h => ?_, fun _ h => ?_⟩
    · exact absurd h (by rw [readValue]; exact nofun)
    · exact absurd h (by rw [readItems]; exact nofun)
    · exact absurd h (by rw [readFields.eq_def]; exact nofun)
  | succ fuel ih => exact ⟨ih.readValue_succ, ih.readItems_succ, ih.readFields_succ⟩

/-- **A text spells only values that can be written**: its numbers fit, and its arrays and objects
nest within the limit. -/
theorem fits_of_parseWith? {read : Numeral → Option Float}
    (hread : ∀ {n x}, read n = some x → x.isFinite = true)
    {s : String} {j : Json} (h : parseWith? read s = some j) : j.Fits ∧ j.depth ≤ maxDepth := by
  obtain ⟨ts, hscan, h⟩ := Option.bind_eq_some_iff.1 h
  obtain ⟨⟨value, rest⟩, hvalue, h⟩ := Option.bind_eq_some_iff.1 h
  obtain ⟨hfits, -⟩ := (readsFit _).value (fits_of_scanWith hread hscan) hvalue
  cases rest with
  | nil =>
    obtain rfl := Option.some.inj h
    exact hfits
  | cons t rest => contradiction

end Json
end PageContent
