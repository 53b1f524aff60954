/-
# What a graphics-state dictionary says

A dictionary is an object or a list, and each holds entries of a key and a value:

| dictionary | its entries |
| --- | --- |
| object | its fields |
| list | its items, those that are an array of a string and something behind it |
| anything else | none |

A key stands for the number of the last of its entries that has a usable one
(`IsLastUsable`), and the opacities are those of the first keys that stand for a number
(`ofDictionary_eq`).  If no key has two entries, it does not matter where they stand
(`isLastUsable_iff_of_nodup`), so an object and its fields as pairs say the same, in any order
and among items that are no entries.
-/

import PageContent.Drawing.Operator
import PageContent.Proofs.Order.Interleaving

namespace PageContent

namespace Operand

/-- The number that a value is read as, finite or not. -/
inductive Denotes : Json → Float → Prop where
  | integer (n : Int) : Denotes (.integer n) (.ofInt n)
  | number (x : Float) : Denotes (.number x) x
  | string {s : String} {x : Float} : numeral? s = some x → Denotes (.string s) x
  | bool (b : Bool) : Denotes (.bool b) (if b then 1 else 0)

/-- **A usable number is the one denoted, if it is finite.** -/
theorem number?_eq_some_iff {value : Json} {x : Float} :
    number? value = some x ↔ Denotes value x ∧ x.isFinite = true := by
  unfold number?
  rw [Option.filter_eq_some_iff]
  refine and_congr_left' ⟨fun h => ?_, fun h => ?_⟩
  · cases value with
    | integer n => exact Option.some.inj h ▸ .integer n
    | number y => exact Option.some.inj h ▸ .number y
    | string s => exact .string h
    | bool b => exact Option.some.inj h ▸ .bool b
    | _ => exact absurd h nofun
  · cases h with
    | string h => exact h
    | _ => rfl

end Operand

namespace OpacityChange

/-! ## Entries -/

/-- The entry that an item of a list is read as. -/
def entryOf? : Json → Option (String × Json)
  | .array (.string key :: value :: _) => some (key, value)
  | _ => none

/-- A field as an item of a list. -/
def pair (field : String × Json) : Json := .array [.string field.1, field.2]

/-- A key stands for a number: that of an entry of the key, none behind it having a usable one. -/
def IsLastUsable (entries : List (String × Json)) (key : String) (x : Float) : Prop :=
  ∃ before value after, entries = before ++ (key, value) :: after ∧
    Operand.number? value = some x ∧ ∀ e ∈ after, e.1 = key → Operand.number? e.2 = none

variable {fields entries : List (String × Json)} {items pairs noise : List Json} {key : String}
  {x : Float}

theorem entryOf?_eq_none {item : Json}
    (h : ∀ key value rest, item = .array (.string key :: value :: rest) → False) :
    entryOf? item = none := by
  unfold entryOf?
  split
  · exact (h _ _ _ rfl).elim
  · rfl

/-- The pairs of some fields are read as the fields. -/
theorem filterMap_entryOf?_pair (fields : List (String × Json)) :
    (fields.map pair).filterMap entryOf? = fields := by
  have hpair : entryOf? ∘ pair = some := rfl
  rw [List.filterMap_map, hpair, List.filterMap_some]

/-- **The order of entries with distinct keys does not matter.** -/
theorem isLastUsable_iff_of_nodup (h : (entries.map Prod.fst).Nodup) :
    IsLastUsable entries key x ↔
      ∃ value, (key, value) ∈ entries ∧ Operand.number? value = some x := by
  constructor
  · rintro ⟨before, value, after, rfl, hx, -⟩
    exact ⟨value, List.mem_append_right _ List.mem_cons_self, hx⟩
  · rintro ⟨value, hvalue, hx⟩
    obtain ⟨before, after, rfl⟩ := List.append_of_mem hvalue
    refine ⟨before, value, after, rfl, hx, fun e he hkey => ?_⟩
    -- another entry of the key would be a second one
    rw [List.map_append, List.map_cons] at h
    have hnot := (List.nodup_cons.1 (List.nodup_append.1 h).2.1).1
    exact absurd (List.mem_map.2 ⟨e, he, hkey⟩) hnot

/-! ## The number of a key -/

theorem field?_eq_some_iff (h : (fields.map Prod.fst).Nodup) {value : Json} :
    Json.field? fields key = some value ↔ (key, value) ∈ fields := by
  have hfound : ∀ {e}, fields.reverse.find? (·.1 == key) = some e → e ∈ fields ∧ e.1 = key :=
    fun hfind => ⟨List.mem_reverse.1 (List.mem_of_find?_eq_some hfind),
      by simpa using List.find?_some hfind⟩
  unfold Json.field?
  rw [Option.map_eq_some_iff]
  constructor
  · rintro ⟨e, hfind, rfl⟩
    obtain ⟨he, hkey⟩ := hfound hfind
    exact hkey ▸ he
  · intro hmem
    obtain ⟨e, hfind⟩ : ∃ e, fields.reverse.find? (·.1 == key) = some e :=
      Option.isSome_iff_exists.1 (List.find?_isSome.2
        ⟨(key, value), List.mem_reverse.2 hmem, by simp⟩)
    obtain ⟨he, hkey⟩ := hfound hfind
    exact ⟨e, hfind, congrArg Prod.snd (List.inj_on_of_nodup_map h he hmem hkey)⟩

/-- In an object a key stands for the number of its field. -/
theorem lookup?_object (h : (fields.map Prod.fst).Nodup) :
    lookup? (.object fields) key = some x ↔
      ∃ value, (key, value) ∈ fields ∧ Operand.number? value = some x := by
  rw [lookup?, Option.bind_eq_some_iff]
  simp only [field?_eq_some_iff h]

/-- What an item says of a key is what its entry says. -/
theorem lookup?_array_eq (items : List Json) (key : String) :
    lookup? (.array items) key = (items.filterMap entryOf?).reverse.findSome? fun e =>
      if e.1 = key then Operand.number? e.2 else none := by
  calc lookup? (.array items) key
      = items.reverse.findSome? fun item => (entryOf? item).bind fun e =>
          if e.1 = key then Operand.number? e.2 else none := by
        refine congrArg items.reverse.findSome? (funext fun item => ?_)
        split
        · rfl
        · rename_i hnot
          rw [entryOf?_eq_none hnot]
          rfl
    _ = _ := by
        rw [← List.filterMap_reverse, ← List.head?_filterMap, ← List.head?_filterMap,
          List.filterMap_filterMap]

/-- In a list a key stands for the number of its last entry that has a usable one. -/
theorem lookup?_array :
    lookup? (.array items) key = some x ↔ IsLastUsable (items.filterMap entryOf?) key x := by
  rw [lookup?_array_eq, List.findSome?_eq_some_iff]
  constructor
  · rintro ⟨after, ⟨k, value⟩, before, hentries, hx, hafter⟩
    obtain ⟨rfl, hvalue⟩ : k = key ∧ Operand.number? value = some x :=
      Option.ite_none_right_eq_some.1 hx
    refine ⟨before.reverse, value, after.reverse, ?_, hvalue, fun e he hkey => ?_⟩
    · rw [← List.reverse_inj, hentries]
      simp
    · simpa [hkey] using hafter e (List.mem_reverse.1 he)
  · rintro ⟨before, value, after, hentries, hx, hafter⟩
    refine ⟨after.reverse, (key, value), before.reverse, ?_, ?_, fun e he => ?_⟩
    · rw [hentries]
      simp
    · rw [if_pos rfl, hx]
    · split
      · rename_i hkey
        exact hafter e (List.mem_reverse.1 he) hkey
      · rfl

/-- An object and its fields as pairs, in any order and among other items, say the same of a
key. -/
theorem lookup?_pairs (h : (fields.map Prod.fst).Nodup) (hpairs : pairs.Perm (fields.map pair))
    (hnoise : ∀ item ∈ noise, entryOf? item = none) (hitems : Interleaves pairs noise items)
    (key : String) : lookup? (.array items) key = lookup? (.object fields) key := by
  have hperm : (items.filterMap entryOf?).Perm fields := by
    rw [hitems.filterMap_left hnoise]
    have hentries := hpairs.filterMap entryOf?
    rwa [filterMap_entryOf?_pair] at hentries
  have hnodup : ((items.filterMap entryOf?).map Prod.fst).Nodup :=
    (hperm.map Prod.fst).nodup_iff.2 h
  refine Option.ext fun x => ?_
  rw [lookup?_array, isLastUsable_iff_of_nodup hnodup, lookup?_object h]
  simp only [hperm.mem_iff]

/-! ## Opacities -/

/-- The first key that stands for a number decides. -/
theorem ofDictionary_eq (dictionary : Json) : ofDictionary dictionary =
    { opacity := ["CA_m", "CA", "ca_m", "ca"].findSome? (lookup? dictionary)
      fillOpacity := ["ca_m", "ca"].findSome? (lookup? dictionary) } := by
  unfold ofDictionary
  simp only [List.findSome?_cons, List.findSome?_nil]
  cases lookup? dictionary "CA_m" <;> cases lookup? dictionary "CA" <;>
    cases lookup? dictionary "ca_m" <;> cases lookup? dictionary "ca" <;> rfl

/-- **An object and a list of pairs say the same.**  In either the opacity is that of the first of
`CA_m`, `CA`, `ca_m`, `ca` that stands for a number, and the fill opacity that of the first of
`ca_m`, `ca`.  In an object of distinct keys a key stands for the number of its field, if that is
usable; in any list for that of its last entry that has a usable one; and the usable numbers are
those that are finite.  So the fields as pairs, in any order and among any items that are no
entries, set what the object sets. -/
theorem dictionary_encodings :
    (∀ value x, Operand.number? value = some x ↔ Operand.Denotes value x ∧ x.isFinite = true) ∧
    (∀ dictionary, ofDictionary dictionary =
      { opacity := ["CA_m", "CA", "ca_m", "ca"].findSome? (lookup? dictionary)
        fillOpacity := ["ca_m", "ca"].findSome? (lookup? dictionary) }) ∧
    (∀ items key x, lookup? (.array items) key = some x ↔
      IsLastUsable (items.filterMap entryOf?) key x) ∧
    ∀ fields : List (String × Json), (fields.map Prod.fst).Nodup →
      (∀ key x, lookup? (.object fields) key = some x ↔
        ∃ value, (key, value) ∈ fields ∧ Operand.number? value = some x) ∧
      ∀ pairs noise items, pairs.Perm (fields.map pair) →
        (∀ item ∈ noise, entryOf? item = none) → Interleaves pairs noise items →
        ofDictionary (.array items) = ofDictionary (.object fields) := by
  refine ⟨fun value x => Operand.number?_eq_some_iff, ofDictionary_eq,
    fun items key x => lookup?_array, fun fields h => ⟨?_, ?_⟩⟩
  · exact fun key x => lookup?_object h
  · intro pairs noise items hpairs hnoise hitems
    have hlookup := funext (lookup?_pairs h hpairs hnoise hitems)
    rw [ofDictionary_eq, ofDictionary_eq, hlookup]

/-- A dictionary with a text for a number, and an unusable value in front of it. -/
def sampleFields : List (String × Json) :=
  [("CA_m", .null), ("CA", .string " 0.5 "), ("LW", .integer 2), ("ca", .number 0.25)]

/-- Its pairs the other way round, among items that are no entries. -/
def sampleItems : List Json :=
  .null :: pair ("ca", .number 0.25) :: pair ("LW", .integer 2) :: .array [.string "CA"] ::
    pair ("CA", .string " 0.5 ") :: pair ("CA_m", .null) :: [.array [.integer 1, .integer 1]]

/-- The object and the list set the same opacities. -/
theorem dictionary_encodings_sample :
    ofDictionary (.array sampleItems) = ofDictionary (.object sampleFields) ∧
      ofDictionary (.object sampleFields) = { opacity := some 0.5, fillOpacity := some 0.25 } := by
  obtain ⟨-, -, -, hobjects⟩ := dictionary_encodings
  obtain ⟨-, hpairs⟩ := hobjects sampleFields (by decide)
  refine ⟨?_, by decide +kernel⟩
  refine hpairs (sampleFields.map pair).reverse
    [.null, .array [.string "CA"], .array [.integer 1, .integer 1]] sampleItems
    (List.reverse_perm _) ?_ ?_
  · intro item hitem
    simp only [List.mem_cons, List.not_mem_nil, or_false] at hitem
    rcases hitem with rfl | rfl | rfl <;> rfl
  · exact .right _ <| .left _ <| .left _ <| .right _ <| .left _ <| .left _ <| .right _ .nil

/-- An item of three elements is no pair, but it is an entry, and decides. -/
theorem entry_of_three :
    ¬ ∀ (fields : List (String × Json)) (pairs noise items : List Json),
      (fields.map Prod.fst).Nodup → pairs.Perm (fields.map pair) →
      (∀ item ∈ noise, ∀ key value, item ≠ .array [.string key, value]) →
      Interleaves pairs noise items →
      ofDictionary (.array items) = ofDictionary (.object fields) := by
  intro h
  have heq := h [("CA", .number 0.3)] [pair ("CA", .number 0.3)]
    [.array [.string "CA", .number 0.5, .integer 7]]
    [pair ("CA", .number 0.3), .array [.string "CA", .number 0.5, .integer 7]]
    (by decide) (.refl _) ?_ (.left _ (.right _ .nil))
  · exact absurd heq (by decide +kernel)
  · intro item hitem key value
    obtain rfl := List.mem_singleton.1 hitem
    simp

end OpacityChange
end PageContent
