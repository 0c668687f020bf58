/-
# Tables

A table holds entries by name in the order in which the names first came in.
Writing to a name that is there changes its entry in place.

The rows are kept with the latest name first, so that a table and the one it
grew from share all rows of the older one.

Key definitions: `Table`, `Table.get?`, `Table.insert`, `Table.names`.
Key theorems: `Table.get?_insert_self`, `Table.get?_insert_of_ne`,
`Table.names_insert`, `Table.mem_entries_insert`.
-/
import SpliceLisp.Expr.Render

namespace SpliceLisp

/-- Expressions by name, in the order in which the names came in. The latest name has
the first row. -/
structure Table where
  rows : List (Text × Expr)

namespace Table

def empty : Table := ⟨[]⟩

instance : EmptyCollection Table := ⟨empty⟩

/-- The entry of a name among the rows. -/
def find? (name : Text) : List (Text × Expr) → Option Expr
  | [] => none
  | (n, e) :: rest => if Text.same n name then some e else find? name rest

/-- The rows with the entry of a name changed, if it has one. -/
def change (name : Text) (value : Expr) : List (Text × Expr) → List (Text × Expr)
  | [] => []
  | (n, e) :: rest =>
    if Text.same n name then (n, value) :: rest else (n, e) :: change name value rest

def get? (t : Table) (name : Text) : Option Expr := find? name t.rows

def contains (t : Table) (name : Text) : Bool := (t.get? name).isSome

/-- The table with the entry of a name set. -/
def insert (t : Table) (name : Text) (value : Expr) : Table :=
  if t.contains name then ⟨change name value t.rows⟩ else ⟨(name, value) :: t.rows⟩

/-- The table with the entries of all pairs set, in order. -/
def insertAll (t : Table) (pairs : List (Text × Expr)) : Table :=
  pairs.foldl (fun t p => t.insert p.1 p.2) t

/-- The names with their entries, in the order in which the names came in. -/
def entries (t : Table) : List (Text × Expr) := t.rows.reverse

/-- The names, in the order in which they came in. -/
def names (t : Table) : List Text := t.entries.map Prod.fst

/-- The entries between braces, each as its name, a colon and its text. -/
def render (t : Table) : Text :=
  '\x7b' :: List.intercalate ", ".toList (t.entries.map fun p => p.1 ++ ": " ++ p.2.render) ++ ['\x7d']

@[simp] theorem get?_empty (name : Text) : empty.get? name = none := rfl

@[simp] theorem entries_empty : (∅ : Table).entries = [] := rfl

theorem isSome_find? {name : Text} :
    ∀ rows : List (Text × Expr), (find? name rows).isSome = true ↔ name ∈ rows.map Prod.fst
  | [] => by simp [find?]
  | (n, e) :: rest => by
    by_cases h : n = name
    · simp [find?, h]
    · simp [find?, h, Ne.symm h, isSome_find? rest]

theorem contains_iff {t : Table} {name : Text} : t.contains name = true ↔ name ∈ t.names := by
  simp only [contains, get?, isSome_find?, names, entries, List.map_reverse, List.mem_reverse]

theorem find?_change_self {name : Text} (value : Expr) : ∀ {rows : List (Text × Expr)},
    (find? name rows).isSome = true → find? name (change name value rows) = some value
  | [], h => by simp [find?] at h
  | (n, e) :: rest, h => by
    by_cases hn : n = name
    · simp [change, find?, hn]
    · have hrest : (find? name rest).isSome = true := by simpa [find?, hn] using h
      simp [change, find?, hn, find?_change_self value hrest]

theorem find?_change_of_ne {name other : Text} (value : Expr) (h : other ≠ name) :
    ∀ rows : List (Text × Expr), find? other (change name value rows) = find? other rows
  | [] => rfl
  | (n, e) :: rest => by
    by_cases hn : n = name
    · subst hn; simp [change, find?, Ne.symm h]
    · simp [change, hn, find?, find?_change_of_ne value h rest]

theorem map_fst_change (name : Text) (value : Expr) :
    ∀ rows : List (Text × Expr), (change name value rows).map Prod.fst = rows.map Prod.fst
  | [] => rfl
  | (n, e) :: rest => by
    by_cases hn : n = name <;> simp [change, hn, map_fst_change name value rest]

/-- A name reads back what was written to it. -/
@[simp] theorem get?_insert_self (t : Table) (name : Text) (value : Expr) :
    (t.insert name value).get? name = some value := by
  simp only [insert]
  split
  · next h => exact find?_change_self value h
  · simp [get?, find?]

/-- Writing to one name leaves the others alone. -/
theorem get?_insert_of_ne (t : Table) {name other : Text} (value : Expr) (h : other ≠ name) :
    (t.insert name value).get? other = t.get? other := by
  simp only [insert]
  split
  · exact find?_change_of_ne value h t.rows
  · simp [get?, find?, Ne.symm h]

theorem mem_of_find? {name : Text} {e : Expr} : ∀ {rows : List (Text × Expr)},
    find? name rows = some e → (name, e) ∈ rows
  | [], h => by cases h
  | (n, d) :: rest, h => by
    by_cases hn : n = name
    · have hd : d = e := by simpa [find?, hn] using h
      simp [hn, hd]
    · have hrest : find? name rest = some e := by simpa [find?, hn] using h
      simp [mem_of_find? hrest]

theorem mem_of_mem_change {name : Text} {value : Expr} {p : Text × Expr} :
    ∀ {rows : List (Text × Expr)}, p ∈ change name value rows → p = (name, value) ∨ p ∈ rows
  | [], h => by cases h
  | (n, d) :: rest, h => by
    by_cases hn : n = name
    · rw [change, if_pos (Text.same_iff.2 hn), List.mem_cons] at h
      exact h.imp (fun hp => by rw [hp, hn]) (List.mem_cons_of_mem _)
    · rw [change, if_neg fun hs => hn (Text.same_iff.1 hs), List.mem_cons] at h
      rcases h with h | h
      · exact Or.inr (by simp [h])
      · exact (mem_of_mem_change h).imp_right (List.mem_cons_of_mem _)

theorem mem_entries_of_get? {t : Table} {name : Text} {e : Expr} (h : t.get? name = some e) :
    (name, e) ∈ t.entries :=
  List.mem_reverse.2 (mem_of_find? h)

/-- Writing brings in what is written and nothing else. -/
theorem mem_entries_insert {t : Table} {name : Text} {value : Expr} {p : Text × Expr}
    (h : p ∈ (t.insert name value).entries) : p = (name, value) ∨ p ∈ t.entries := by
  simp only [insert, entries, List.mem_reverse] at h ⊢
  split at h
  · exact mem_of_mem_change h
  · exact List.mem_cons.1 h

theorem mem_entries_insertAll {p : Text × Expr} : ∀ {pairs : List (Text × Expr)} {t : Table},
    p ∈ (t.insertAll pairs).entries → p ∈ pairs ∨ p ∈ t.entries
  | [], _, h => Or.inr h
  | q :: pairs, t, h => by
    rcases mem_entries_insertAll (show p ∈ ((t.insert q.1 q.2).insertAll pairs).entries from h)
      with h | h
    · exact Or.inl (List.mem_cons_of_mem q h)
    · exact (mem_entries_insert h).imp_left fun hp => by simp [hp]

theorem change_of_find? {name : Text} {value : Expr} : ∀ {rows : List (Text × Expr)},
    find? name rows = some value → change name value rows = rows
  | [], h => by cases h
  | (n, e) :: rest, h => by
    by_cases hn : n = name
    · have he : e = value := by simpa [find?, hn] using h
      simp [change, hn, he]
    · have hrest : find? name rest = some value := by simpa [find?, hn] using h
      simp [change, hn, change_of_find? hrest]

/-- Writing what is there already changes nothing. -/
theorem insert_of_get? {t : Table} {name : Text} {value : Expr} (h : t.get? name = some value) :
    t.insert name value = t := by
  have hcontains : t.contains name = true := by rw [contains, h]; rfl
  rw [insert, if_pos hcontains, change_of_find? h]

/-- A name that is new comes last, and one that is there keeps its place. -/
theorem names_insert (t : Table) (name : Text) (value : Expr) :
    (t.insert name value).names = if name ∈ t.names then t.names else t.names ++ [name] := by
  simp only [insert, contains_iff]
  split <;> simp [names, entries, map_fst_change]

end Table

end SpliceLisp
