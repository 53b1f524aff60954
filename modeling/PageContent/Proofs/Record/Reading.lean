/-
# Reading a record back

A type is `Durable` if its finite values are read back from their JSON forms, and
if nothing but finite values is read from forms whose numbers fit.  The laws of a
record follow from those of its fields:

| reader | of what is written | of a form that fits |
| --- | --- | --- |
| `need`, `orElse` | gives the value back | gives a finite value |
| `list?`, table | gives the values back | gives finite values |
| `fields?`, `tagged?` | finds every field | leaves parts that fit |

An optional value is written as `null` when there is none, so its type must not
read `null` itself: it is `Present`.
-/

import PageContent.Proofs.Record.Finite

namespace PageContent

/-- Finite values are read back from their JSON forms, and only such values are read. -/
class Durable (α : Type) [Recorded α] [Finitary α] : Prop where
  ofJson?_toJson : ∀ {a : α}, IsFinite a → ofJson? (toJson a) = some a
  isFinite_of_ofJson? : ∀ {j : Json} {a : α}, j.Fits → ofJson? j = some a → IsFinite a

/-- No value is read from `null`. -/
class Present (α : Type) [Recorded α] : Prop where
  ofJson?_null : ofJson? .null = (none : Option α)

/-- Finite values are written in forms that nest no deeper than `n`. -/
class Shallow (α : Type) (n : outParam Nat) [Recorded α] [Finitary α] : Prop where
  writable : ∀ {a : α}, IsFinite a → (toJson a).Writable n

open Durable (ofJson?_toJson isFinite_of_ofJson?)

variable {α : Type} [Recorded α] [Finitary α]

theorem toJson_ne_null [Durable α] [Present α] {a : α} (ha : IsFinite a) : toJson a ≠ .null := by
  intro hnull
  have hread := ofJson?_toJson ha
  rw [hnull, Present.ofJson?_null] at hread
  contradiction

namespace Json

/-! ## Values of fields -/

instance : Durable Float where
  ofJson?_toJson {x} hx := by
    show float? (if x.isFinite then .number x else .null) = some x
    rw [if_pos (show x.isFinite = true from hx)]
    rfl
  isFinite_of_ofJson? {j x} hj h := by
    cases j with
    | integer n =>
      obtain rfl := Option.some.inj h
      obtain ⟨hlo, hhi⟩ := hj
      exact Decimal.isFinite_ofInt (by omega)
    | number y =>
      obtain rfl := Option.some.inj h
      exact hj
    | _ => contradiction

instance : Durable Bool where
  ofJson?_toJson _ := rfl
  isFinite_of_ofJson? _ _ := trivial

instance : Durable String where
  ofJson?_toJson _ := rfl
  isFinite_of_ofJson? _ _ := trivial

instance : Durable Char where
  ofJson?_toJson {c} _ := by
    show (match (String.ofList [c]).toList with | [c] => some c | _ => none) = some c
    rw [String.toList_ofList]
  isFinite_of_ofJson? _ _ := trivial

instance : Durable UInt32 where
  ofJson?_toJson {n} _ := by
    have hn := n.toNat_lt
    show (if 0 ≤ (n.toNat : Int) ∧ (n.toNat : Int).toNat < UInt32.size then
      some (UInt32.ofNat (n.toNat : Int).toNat) else none) = some n
    rw [Int.toNat_natCast, if_pos ⟨Int.natCast_nonneg _, hn⟩, UInt32.ofNat_toNat]
  isFinite_of_ofJson? _ _ := trivial

instance : Durable UInt64 where
  ofJson?_toJson {n} _ := by
    have hn := n.toNat_lt
    show (if 0 ≤ (n.toNat : Int) ∧ (n.toNat : Int).toNat < UInt64.size then
      some (UInt64.ofNat (n.toNat : Int).toNat) else none) = some n
    rw [Int.toNat_natCast, if_pos ⟨Int.natCast_nonneg _, hn⟩, UInt64.ofNat_toNat]
  isFinite_of_ofJson? _ _ := trivial

/-- **An operand is kept as a value that reads back as itself.** -/
instance : Durable Json where
  ofJson?_toJson {j} hj := by
    show (if j.isUsable then some j.merged else none) = some j
    rw [if_pos hj.1, hj.2.2]
  isFinite_of_ofJson? {j a} hj h := by
    replace h : (if j.isUsable then some j.merged else none) = some a := h
    split at h
    · rename_i husable
      obtain rfl := Option.some.inj h
      have hmerged : j.merged.Writable j.depth := Writable.merged ⟨husable, hj, le_rfl⟩
      exact ⟨hmerged.usable, hmerged.fits, merged_merged j⟩
    · contradiction

instance : Durable FontWeight where
  ofJson?_toJson {w} _ := FontWeight.ofName?_name w
  isFinite_of_ofJson? _ _ := trivial

instance : Durable ParagraphKind where
  ofJson?_toJson {k} _ := by cases k <;> rfl
  isFinite_of_ofJson? _ _ := trivial

/-! ## Lists -/

theorem mapM_map {β γ : Type} {write : β → γ} {read : γ → Option β} {bs : List β}
    (h : ∀ b ∈ bs, read (write b) = some b) : (bs.map write).mapM read = some bs := by
  induction bs with
  | nil => rfl
  | cons b bs ih =>
    obtain ⟨hb, hbs⟩ := List.forall_mem_cons.1 h
    rw [List.map_cons, List.mapM_cons, hb, ih hbs]
    rfl

theorem forall_of_mapM {β γ : Type} {read : γ → Option β} {P : β → Prop} {cs : List γ}
    {bs : List β} (hread : ∀ c ∈ cs, ∀ b, read c = some b → P b) (h : cs.mapM read = some bs) :
    ∀ b ∈ bs, P b := by
  induction cs generalizing bs with
  | nil =>
    obtain rfl := Option.some.inj h
    exact nofun
  | cons c cs ih =>
    obtain ⟨hc, hcs⟩ := List.forall_mem_cons.1 hread
    rw [List.mapM_cons] at h
    obtain ⟨b, hb, h⟩ := Option.bind_eq_some_iff.1 h
    obtain ⟨rest, hrest, h⟩ := Option.bind_eq_some_iff.1 h
    obtain rfl := Option.some.inj h
    exact List.forall_mem_cons.2 ⟨hc b hb, ih hcs hrest⟩

omit [Finitary α] in
/-- **A list is read back if its items are.** -/
theorem list?_toJson {read : Json → Option α} {xs : List α}
    (h : ∀ a ∈ xs, read (toJson a) = some a) : list? read (toJson xs) = some xs :=
  mapM_map h

omit [Recorded α] in
theorem isFinite_of_list? {read : Json → Option α} {j : Json} {xs : List α} (hj : j.Fits)
    (hread : ∀ {j a}, j.Fits → read j = some a → IsFinite a) (h : list? read j = some xs) :
    IsFinite xs := by
  obtain ⟨items, hitems, h⟩ := Option.bind_eq_some_iff.1 h
  cases j with
  | array js =>
    obtain rfl := Option.some.inj hitems
    exact forall_of_mapM (fun j hmem _ => hread (itemsFit_iff.1 hj j hmem)) h
  | _ => contradiction

instance [Durable α] : Durable (List α) where
  ofJson?_toJson h := list?_toJson fun _ ha => ofJson?_toJson (h _ ha)
  isFinite_of_ofJson? hj h := isFinite_of_list? hj isFinite_of_ofJson? h

omit [Finitary α] in
theorem ofJson?_of_some {j : Json} {a : α} (h : ofJson? j = some (some a)) :
    ofJson? j = some a := by
  cases j with
  | null => exact absurd h nofun
  | _ =>
    obtain ⟨b, hb, hba⟩ := Option.map_eq_some_iff.1 h
    rw [hb, Option.some.inj hba]

instance [Durable α] [Present α] : Durable (Option α) where
  ofJson?_toJson {o} h := by
    cases o with
    | none => rfl
    | some a =>
      have ha : IsFinite a := isFinite_some.1 h
      have hread : (ofJson? (toJson a) : Option α).map some = some (some a) := by
        rw [ofJson?_toJson ha]
        rfl
      refine Eq.trans ?_ hread
      show (match toJson a with
        | .null => some none
        | j => (ofJson? j).map some) = _
      split
      · rename_i hnull
        exact absurd hnull (toJson_ne_null ha)
      · rfl
  isFinite_of_ofJson? {j o} hj h := by
    cases o with
    | none => exact isFinite_none
    | some a => exact isFinite_some.2 (isFinite_of_ofJson? hj (ofJson?_of_some h))

instance [Durable α] : Durable (Table α) where
  ofJson?_toJson {t} h := by
    have hentries : (t.entries.map fun e => (e.1, toJson e.2)).mapM
        (fun f => (ofJson? f.2).map fun (a : α) => (f.1, a)) = some t.entries :=
      mapM_map fun e he => by rw [ofJson?_toJson (h e he)]; rfl
    show Option.map Table.ofList (List.mapM _ _) = some t
    rw [hentries, Option.map_some, Table.ofList_entries]
  isFinite_of_ofJson? {j t} hj h := by
    cases j with
    | object fs =>
      obtain ⟨entries, hentries, rfl⟩ := Option.map_eq_some_iff.1 h
      have hfinite : ∀ e ∈ entries, IsFinite e.2 := by
        refine forall_of_mapM (fun f hf e he => ?_) hentries
        obtain ⟨a, ha, rfl⟩ := Option.map_eq_some_iff.1 he
        exact isFinite_of_ofJson? (fieldsFit_iff.1 hj f hf) ha
      exact fun e he => hfinite e ((lastOfEach_sublist _).mem he)
    | _ => contradiction

/-! ## Fields -/

theorem bind_eq_some {β γ : Type} {o : Option β} {f : β → Option γ} {c : γ} :
    (o >>= f) = some c ↔ ∃ b, o = some b ∧ f b = some c :=
  Option.bind_eq_some_iff

theorem some_bind {β γ : Type} (b : β) (f : β → Option γ) : (some b >>= f) = f b := rfl

theorem need_toJson [Durable α] {a : α} (ha : IsFinite a) : need (some (toJson a)) = some a :=
  ofJson?_toJson ha

theorem orElse_toJson [Durable α] {default a : α} (ha : IsFinite a) :
    orElse default (some (toJson a)) = some a :=
  ofJson?_toJson ha

/-- An optional field that is left out where there is no value is found again. -/
theorem orElse_map_toJson [Durable α] [Present α] {o : Option α} (ho : IsFinite o) :
    orElse none (o.map toJson) = some o := by
  cases o with
  | none => rfl
  | some a => exact ofJson?_toJson ho

/-- The values given for some fields fit. -/
def GivenFit (given : List (Option Json)) : Prop := ∀ o ∈ given, ∀ j ∈ o, j.Fits

theorem GivenFit.need [Durable α] {given : List (Option Json)} {o : Option Json} {a : α}
    (h : GivenFit given) (ho : o ∈ given) (ha : need o = some a) : IsFinite a := by
  obtain ⟨j, rfl, hj⟩ := Option.bind_eq_some_iff.1 ha
  exact isFinite_of_ofJson? (h _ ho j rfl) hj

theorem GivenFit.orElse [Durable α] {given : List (Option Json)} {o : Option Json} {default a : α}
    (h : GivenFit given) (ho : o ∈ given) (hdefault : IsFinite default)
    (ha : orElse default o = some a) : IsFinite a := by
  cases o with
  | none =>
    obtain rfl := Option.some.inj ha
    exact hdefault
  | some j => exact isFinite_of_ofJson? (h _ ho j rfl) ha

theorem mem_of_sole? {fs : List (String × Json)} {names : List String} {o : Option Json}
    (h : sole? fs names = some o) : ∀ j ∈ o, j ∈ (object fs).parts := by
  unfold sole? at h
  split at h
  · obtain rfl := Option.some.inj h
    exact nofun
  · rename_i name j hfilter
    obtain rfl := Option.some.inj h
    have hmem : (name, j) ∈ fs := List.mem_of_mem_filter (hfilter ▸ List.mem_singleton_self _)
    exact fun _ hj => Option.some.inj hj ▸ List.mem_map.2 ⟨_, hmem, rfl⟩
  · contradiction

/-- **The values that are found for the fields of a record are parts of it.** -/
theorem mem_of_fields? {declared : List (List String)} {least : Nat} {j : Json}
    {given : List (Option Json)} (h : fields? declared least j = some given) :
    ∀ o ∈ given, ∀ part ∈ o, part ∈ j.parts := by
  cases j with
  | object fs => exact forall_of_mapM (fun _ _ _ => mem_of_sole?) h
  | array xs =>
    unfold fields? at h
    dsimp only at h
    split at h
    · obtain rfl := Option.some.inj h
      intro o ho
      rcases List.mem_append.1 ho with ho | ho
      · obtain ⟨x, hx, rfl⟩ := List.mem_map.1 ho
        exact fun _ hv => Option.some.inj hv ▸ hx
      · rw [List.eq_of_mem_replicate ho]
        exact nofun
    · contradiction
  | _ => contradiction

theorem givenFit_of_fields? {declared : List (List String)} {least : Nat} {j : Json}
    {given : List (Option Json)} (hj : j.Fits) (h : fields? declared least j = some given) :
    GivenFit given :=
  fun o ho part hpart => fits_of_mem_parts hj (mem_of_fields? h o ho part hpart)

omit [Recorded α] in
/-- **What is read from the fields of a record that fits is finite**, if it is whenever the fields
fit. -/
theorem isFinite_of_fields? {declared : List (List String)} {least : Nat} {j : Json} {a : α}
    {build : List (Option Json) → Option α} (hj : j.Fits)
    (hbuild : ∀ given, GivenFit given → build given = some a → IsFinite a)
    (h : (fields? declared least j).bind build = some a) : IsFinite a := by
  obtain ⟨given, hgiven, h⟩ := Option.bind_eq_some_iff.1 h
  exact hbuild given (givenFit_of_fields? hj hgiven) h

/-! ## Tags -/

/-- The value is a record without a field that could be taken for a tag. -/
def Untagged : Json → Prop
  | .object fs => ∀ f ∈ fs, f.1 ≠ "type"
  | _ => False

/-- **The tag in front of a record is found**, and the record behind it. -/
theorem tagged?_withTag {site : Site} {tags : List String} (tag : String) {j : Json}
    (husable : j.isUsable = true) (hj : j.Untagged) :
    (withTag tag j).tagged? site tags = some (tag, j) := by
  cases j with
  | object fs =>
    have hsole : sole? (("type", .string tag) :: fs) ["type"] = some (some (.string tag)) := by
      have hnone : fs.filter (["type"].contains ·.1) = [] :=
        List.filter_eq_nil_iff.2 fun f hf => by simpa using hj f hf
      rw [sole?, List.filter_cons_of_pos rfl, hnone]
    have hrest : (("type", Json.string tag) :: fs).filter (·.1 != "type") = fs := by
      rw [List.filter_cons_of_neg (by simp)]
      exact List.filter_eq_self.2 fun f hf => by simpa using hj f hf
    have hall : (object (("type", .string tag) :: fs)).isUsable = true := husable
    unfold withTag tagged?
    simp [hall, hsole, hrest, tagName?]
  | _ => exact hj.elim

theorem fits_of_tagged? {site : Site} {tags : List String} {j body : Json} {tag : String}
    (hj : j.Fits) (h : j.tagged? site tags = some (tag, body)) : body.Fits := by
  unfold tagged? at h
  split at h
  · contradiction
  · split at h
    · obtain ⟨o, -, h⟩ := Option.bind_eq_some_iff.1 h
      obtain ⟨tag', -, h⟩ := Option.bind_eq_some_iff.1 h
      obtain ⟨-, rfl⟩ := Prod.mk.inj (Option.some.inj h)
      exact fieldsFit_iff.2 fun f hf => fieldsFit_iff.1 hj f (List.mem_of_mem_filter hf)
    · obtain ⟨tag', -, h⟩ := Option.bind_eq_some_iff.1 h
      obtain ⟨-, rfl⟩ := Prod.mk.inj (Option.some.inj h)
      exact hj.2
    · contradiction

end Json

/-! ## Forms of little depth -/

namespace Shallow

open Json

instance : Shallow Float 0 where
  writable {x} hx := by
    show (if x.isFinite then Json.number x else .null).Writable 0
    rw [if_pos (show x.isFinite = true from hx)]
    exact ⟨rfl, hx, le_rfl⟩

instance : Shallow Bool 0 where
  writable _ := ⟨rfl, trivial, le_rfl⟩

instance : Shallow String 0 where
  writable _ := ⟨rfl, trivial, le_rfl⟩

instance : Shallow Char 0 where
  writable _ := ⟨rfl, trivial, le_rfl⟩

instance : Shallow UInt32 0 where
  writable {n} _ := by
    have := n.toNat_lt
    exact ⟨rfl, show -0x8000000000000000 ≤ (n.toNat : Int) ∧ _ by omega, le_rfl⟩

instance : Shallow UInt64 0 where
  writable {n} _ := by
    have := n.toNat_lt
    exact ⟨rfl, show -0x8000000000000000 ≤ (n.toNat : Int) ∧ _ by omega, le_rfl⟩

instance : Shallow FontWeight 0 where
  writable _ := ⟨rfl, trivial, le_rfl⟩

instance : Shallow ParagraphKind 0 where
  writable _ := ⟨rfl, trivial, le_rfl⟩

variable {n : Nat} [Shallow α n]

instance : Shallow (Option α) n where
  writable {o} h := by
    cases o with
    | none => exact ⟨rfl, trivial, Nat.zero_le n⟩
    | some a => exact Shallow.writable (a := a) (isFinite_some.1 h)

instance : Shallow (List α) (n + 1) where
  writable h := writable_array.2 (List.forall_mem_map.2 fun a ha => writable (h a ha))

instance : Shallow (Table α) (n + 1) where
  writable h := writable_object.2 (List.forall_mem_map.2 fun e he => writable (h e he))

end Shallow

namespace Json

/-- A record without fields. -/
theorem Writable.fieldless {n : Nat} : (object []).Writable (n + 1) :=
  writable_object.2 nofun

theorem Writable.cons {n : Nat} {name : String} {j : Json} {fs : List (String × Json)}
    (hj : j.Writable n) (hfs : (object fs).Writable (n + 1)) :
    (object ((name, j) :: fs)).Writable (n + 1) :=
  writable_object.2 (List.forall_mem_cons.2 ⟨hj, writable_object.1 hfs⟩)

/-- A field in front of a record. -/
theorem Writable.field {k n : Nat} [Shallow α k] {name : String} {a : α}
    {fs : List (String × Json)} (ha : IsFinite a) (hfs : (object fs).Writable (n + 1))
    (hk : k ≤ n := by decide) : (object ((name, toJson a) :: fs)).Writable (n + 1) :=
  .cons ((Shallow.writable ha).mono hk) hfs

/-- A tag in front of a record. -/
theorem Writable.withTag {n : Nat} {tag : String} {j : Json} (hj : j.Writable (n + 1)) :
    (j.withTag tag).Writable (n + 1) := by
  cases j with
  | object fs => exact .field (a := tag) trivial hj (Nat.zero_le n)
  | _ => exact hj

/-- A field in front of a record that is left out where it has no value. -/
theorem Writable.optionalField {k n : Nat} [Shallow α k] {name : String} {o : Option α}
    {fs : List (String × Json)} (ho : IsFinite o) (hfs : (object fs).Writable (n + 1))
    (hk : k ≤ n := by decide) :
    (object (Json.optionalField name o ++ fs)).Writable (n + 1) := by
  cases o with
  | none => exact hfs
  | some a => exact .field (isFinite_some.1 ho) hfs hk

end Json
end PageContent
