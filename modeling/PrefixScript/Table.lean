/-!
# Tables

A table is a finite map from names to values, stored in strictly ascending order of the names.
The order is part of the type, so two tables with the same look-ups are equal.
-/

namespace PrefixScript

/-- A finite map from names, listed in ascending order of the names. -/
structure Table (α : Type) where
  entries : List (String × α)
  ascending : entries.Pairwise (fun a b => a.1 < b.1)

namespace Table

variable {α : Type}

/-- Puts a value at its place in an ascending list, in place of an older value of that name. -/
def place (name : String) (value : α) : List (String × α) → List (String × α)
  | [] => [(name, value)]
  | (key, old) :: rest =>
    if name < key then (name, value) :: (key, old) :: rest
    else if name = key then (name, value) :: rest
    else (key, old) :: place name value rest

theorem fst_of_mem_place {name : String} {value : α} {entries : List (String × α)}
    {entry : String × α} (h : entry ∈ place name value entries) :
    entry.1 = name ∨ entry ∈ entries := by
  induction entries with
  | nil =>
    simp only [place, List.mem_singleton] at h
    exact .inl (by rw [h])
  | cons head rest ih =>
    obtain ⟨key, old⟩ := head
    simp only [place] at h
    split at h
    · cases List.mem_cons.1 h with
      | inl h => exact .inl (by rw [h])
      | inr h => exact .inr h
    · split at h
      · cases List.mem_cons.1 h with
        | inl h => exact .inl (by rw [h])
        | inr h => exact .inr (List.mem_cons_of_mem _ h)
      · cases List.mem_cons.1 h with
        | inl h => exact .inr (by rw [h]; exact List.mem_cons_self)
        | inr h => exact (ih h).imp_right (List.mem_cons_of_mem _)

theorem pairwise_place {name : String} {value : α} {entries : List (String × α)}
    (h : entries.Pairwise (fun a b => a.1 < b.1)) :
    (place name value entries).Pairwise (fun a b => a.1 < b.1) := by
  induction entries with
  | nil => simp [place]
  | cons head rest ih =>
    obtain ⟨key, old⟩ := head
    obtain ⟨below, tail⟩ := List.pairwise_cons.1 h
    simp only [place]
    split
    · rename_i less
      refine List.pairwise_cons.2 ⟨fun entry mem => ?_, h⟩
      cases List.mem_cons.1 mem with
      | inl eq => rw [eq]; exact less
      | inr mem => exact String.lt_trans less (below entry mem)
    · split
      · rename_i eq
        exact List.pairwise_cons.2 ⟨fun entry mem => by simpa [eq] using below entry mem, tail⟩
      · rename_i notLess ne
        refine List.pairwise_cons.2 ⟨fun entry mem => ?_, ih tail⟩
        cases fst_of_mem_place mem with
        | inl eq =>
          rw [eq]
          exact Decidable.byContradiction fun not =>
            ne (String.le_antisymm (String.not_lt.1 not) (String.not_lt.1 notLess))
        | inr mem => exact below entry mem

/-- The table without entries. -/
def empty : Table α := ⟨[], .nil⟩

instance : Inhabited (Table α) := ⟨empty⟩

/-- The first value under a name in a list of pairs. -/
def seek (name : String) : List (String × α) → Option α
  | [] => none
  | (key, value) :: rest => if name = key then some value else seek name rest

/-- The value under a name, if there is one. -/
def find? (table : Table α) (name : String) : Option α := seek name table.entries

/-- Sets the value under a name. -/
def insert (table : Table α) (name : String) (value : α) : Table α :=
  ⟨place name value table.entries, pairwise_place table.ascending⟩

/-- Whether there is a value under a name. -/
def contains (table : Table α) (name : String) : Bool := (table.find? name).isSome

/-- The table of a list of pairs; of two values under one name the later one counts. -/
def ofList (pairs : List (String × α)) : Table α :=
  pairs.foldl (fun table pair => table.insert pair.1 pair.2) empty

@[simp] theorem find?_empty (name : String) : (empty : Table α).find? name = none := rfl

theorem seek_place (name key : String) (value : α) (entries : List (String × α)) :
    seek key (place name value entries) = if key = name then some value else seek key entries := by
  induction entries with
  | nil => simp [place, seek]
  | cons head rest ih =>
    obtain ⟨first, old⟩ := head
    simp only [place]
    split
    · simp [seek]
    · split
      · rename_i same
        by_cases eq : key = name <;> simp [seek, eq, ← same]
      · rename_i ne
        by_cases eq : key = first
        · have : ¬ first = name := fun h => ne h.symm
          simp [seek, eq, this]
        · simp [seek, eq, ih]

/-- A set value is found again, and no other name notices. -/
theorem find?_insert (table : Table α) (name key : String) (value : α) :
    (table.insert name value).find? key = if key = name then some value else table.find? key :=
  seek_place name key value table.entries

/-- Of several values set under one name the last one is found. -/
theorem find?_foldl_insert (table : Table α) (pairs : List (String × α)) (name : String) :
    (pairs.foldl (fun table pair => table.insert pair.1 pair.2) table).find? name =
      ((pairs.reverse.find? (·.1 = name)).map (·.2)).or (table.find? name) := by
  induction pairs generalizing table with
  | nil => simp
  | cons pair rest ih =>
    rw [List.foldl_cons, ih, find?_insert, List.reverse_cons, List.find?_append]
    cases rest.reverse.find? (·.1 = name) with
    | some later => simp
    | none =>
      by_cases h : name = pair.1
      · simp [h]
      · have h' : ¬ pair.1 = name := fun he => h he.symm
        simp [h, h']

/-- Nothing is found under a name below all names of the list. -/
theorem seek_eq_none {name : String} {entries : List (String × α)}
    (h : ∀ entry ∈ entries, name < entry.1) : seek name entries = none := by
  induction entries with
  | nil => rfl
  | cons head rest ih =>
    obtain ⟨key, value⟩ := head
    have ne : ¬ name = key := String.ne_of_lt (h (key, value) List.mem_cons_self)
    rw [seek, if_neg ne]
    exact ih fun entry mem => h entry (List.mem_cons_of_mem _ mem)

/-- The least names of two ascending lists with the same look-ups agree. -/
theorem not_lt_of_seek_eq {first second : String} {a b : α} {xs ys : List (String × α)}
    (hy : ((second, b) :: ys).Pairwise (fun a b => a.1 < b.1))
    (same : seek first ((first, a) :: xs) = seek first ((second, b) :: ys)) :
    ¬ first < second := by
  intro less
  have above : ∀ entry ∈ (second, b) :: ys, first < entry.1 := by
    intro entry mem
    cases List.mem_cons.1 mem with
    | inl eq => rw [eq]; exact less
    | inr mem => exact String.lt_trans less ((List.pairwise_cons.1 hy).1 entry mem)
  rw [seek_eq_none above] at same
  simp [seek] at same

theorem eq_of_seek_eq {xs ys : List (String × α)} (hx : xs.Pairwise (fun a b => a.1 < b.1))
    (hy : ys.Pairwise (fun a b => a.1 < b.1)) (same : ∀ name, seek name xs = seek name ys) :
    xs = ys := by
  induction xs generalizing ys with
  | nil =>
    cases ys with
    | nil => rfl
    | cons head rest => have := same head.1; simp [seek] at this
  | cons head rest ih =>
    obtain ⟨first, a⟩ := head
    cases ys with
    | nil => have := same first; simp [seek] at this
    | cons other others =>
      obtain ⟨second, b⟩ := other
      have eq : first = second := String.le_antisymm
        (String.not_lt.1 (not_lt_of_seek_eq hx (same second).symm))
        (String.not_lt.1 (not_lt_of_seek_eq hy (same first)))
      subst eq
      obtain ⟨belowX, tailX⟩ := List.pairwise_cons.1 hx
      obtain ⟨belowY, tailY⟩ := List.pairwise_cons.1 hy
      have value : a = b := by have := same first; simpa [seek] using this
      have tails : rest = others := by
        refine ih tailX tailY fun name => ?_
        by_cases eq : name = first
        · rw [eq, seek_eq_none belowX, seek_eq_none belowY]
        · have := same name
          simpa [seek, eq] using this
      rw [value, tails]

/-- Tables with the same look-ups are equal. -/
theorem ext_find? {first second : Table α} (same : ∀ name, first.find? name = second.find? name) :
    first = second := by
  obtain ⟨xs, hx⟩ := first
  obtain ⟨ys, hy⟩ := second
  have : xs = ys := eq_of_seek_eq hx hy same
  subst this
  rfl

/-- Something holds of all entries of a table. -/
def Holds (P : String → α → Prop) (table : Table α) : Prop :=
  ∀ name value, table.find? name = some value → P name value

section Holds
variable {P : String → α → Prop} {table : Table α}

theorem Holds.empty : (empty : Table α).Holds P := fun name value h => by simp at h

theorem Holds.insert (h : table.Holds P) {name : String} {value : α} (hv : P name value) :
    (table.insert name value).Holds P := by
  intro key found hf
  rw [find?_insert] at hf
  by_cases hk : key = name
  · rw [if_pos hk] at hf
    cases hf
    exact hk ▸ hv
  · rw [if_neg hk] at hf
    exact h key found hf

theorem Holds.ofList {pairs : List (String × α)} (h : ∀ pair ∈ pairs, P pair.1 pair.2) :
    (Table.ofList pairs).Holds P := by
  intro name value hv
  rw [Table.ofList, find?_foldl_insert, find?_empty, Option.or_none, Option.map_eq_some_iff] at hv
  obtain ⟨pair, hp, rfl⟩ := hv
  have hname : pair.1 = name := by simpa using List.find?_some hp
  exact hname ▸ h pair (List.mem_reverse.1 (List.mem_of_find?_eq_some hp))

end Holds

end Table

end PrefixScript
