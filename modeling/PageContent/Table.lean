/-
# Tables

A table holds values by distinct names.  Built from a list in which names
repeat, it keeps the last value of each name.
-/

namespace PageContent

variable {α : Type}

/-- The entries without those whose name comes again later. -/
def lastOfEach (entries : List (String × α)) : List (String × α) :=
  entries.foldr (fun e rest => if rest.any (·.1 == e.1) then rest else e :: rest) []

theorem lastOfEach_cons (e : String × α) (rest : List (String × α)) :
    lastOfEach (e :: rest) =
      if (lastOfEach rest).any (·.1 == e.1) then lastOfEach rest else e :: lastOfEach rest :=
  rfl

/-- No name is left twice. -/
theorem nodup_lastOfEach (entries : List (String × α)) :
    ((lastOfEach entries).map Prod.fst).Nodup := by
  induction entries with
  | nil => exact .nil
  | cons e rest ih =>
    rw [lastOfEach_cons]
    split
    · exact ih
    · rename_i h
      refine List.nodup_cons.2 ⟨fun hmem => h ?_, ih⟩
      obtain ⟨f, hf, hname⟩ := List.mem_map.1 hmem
      exact List.any_eq_true.2 ⟨f, hf, by simp [hname]⟩

/-- Where no name repeats, nothing is dropped. -/
theorem lastOfEach_of_nodup {entries : List (String × α)}
    (h : (entries.map Prod.fst).Nodup) : lastOfEach entries = entries := by
  induction entries with
  | nil => rfl
  | cons e rest ih =>
    obtain ⟨hmem, hrest⟩ := List.nodup_cons.1 h
    rw [lastOfEach_cons, ih hrest, if_neg]
    intro hany
    obtain ⟨f, hf, hname⟩ := List.any_eq_true.1 hany
    exact hmem (List.mem_map.2 ⟨f, hf, by simpa using hname⟩)

/-- Values by distinct names. -/
structure Table (α : Type) where
  entries : List (String × α)
  distinct : (entries.map Prod.fst).Nodup
deriving DecidableEq, Repr

namespace Table

/-- The table without entries. -/
def empty : Table α := ⟨[], .nil⟩

instance : Inhabited (Table α) := ⟨empty⟩

/-- The table that keeps the last value of each name. -/
def ofList (entries : List (String × α)) : Table α := ⟨lastOfEach entries, nodup_lastOfEach entries⟩

/-- The value of a name. -/
def get? (t : Table α) (name : String) : Option α := t.entries.lookup name

/-- A table is made again from its entries. -/
@[simp] theorem ofList_entries (t : Table α) : ofList t.entries = t := by
  cases t with | mk entries h => simp [ofList, lastOfEach_of_nodup h]

end Table
end PageContent
