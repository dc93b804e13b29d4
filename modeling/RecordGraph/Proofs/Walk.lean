import RecordGraph.Proofs.Descent
import RecordGraph.Path.Parser
import RecordGraph.Store.Backend

/-!
# Walking a row store

What a path reads from a row store, one row after the other: each join reads
the foreign key of the row at hand, and the next row is looked up by it. There
is no row behind a blank key, and everything there is null.
-/
namespace RecordGraph

/-- A row as a condition names it. -/
structure RowName where
  table : String
  key : KeyMatch
  deriving DecidableEq

/-- No row at all. -/
def RowName.IsBlank (row : RowName) : Prop := row.key.value.IsBlank

instance : DecidablePred RowName.IsBlank :=
  fun row => inferInstanceAs (Decidable row.key.value.IsBlank)

/-- The row that a join leads to by a value of its foreign key. -/
def Hop.row (h : Hop) (v : Value) : RowName := ⟨h.table, ⟨h.childColumn, v⟩⟩

namespace Store

variable (store : Store)

/-- A value of a row. There is none in an unknown table, in a missing row, and where the
text of the selection cannot be read. -/
def cell? (row : RowName) (column : String) : Option Value :=
  if row.IsBlank then some .null
  else if IsReadable (.select row.table row.key [column]) then
    (store.table? row.table).bind fun t => (t.find? row.key).map fun r => t.get r column
  else none

/-- A value behind joins. -/
def walk? (row : RowName) (column : String) : List Hop → Option Value
  | [] => store.cell? row column
  | h :: hops => (store.cell? row h.foreignKey).bind fun v => walk? (h.row v) column hops

/-- The value that the text of a path denotes relative to a row. -/
def valueAt? (row : RowName) (path : String) : Option Value :=
  (ColumnPath.parse path).toOption.bind fun p => store.walk? row p.flatten.2 p.flatten.1

section
variable {store : Store} {row row' : RowName} {column : String} {hops hops' : List Hop}

theorem cell?_of_blank (h : row.IsBlank) : store.cell? row column = some .null := if_pos h

theorem walk?_of_blank (h : row.IsBlank) : store.walk? row column hops = some .null := by
  induction hops generalizing row with
  | nil => exact cell?_of_blank h
  | cons j hops ih =>
    rw [walk?, cell?_of_blank h]
    exact ih trivial

theorem valueAt?_of_parse {path : String} {p : ColumnPath} (hp : ColumnPath.parse path = .ok p) :
    store.valueAt? row path = store.walk? row p.target p.hops := by
  rw [valueAt?, hp]
  change store.walk? row p.flatten.2 p.flatten.1 = _
  rw [ColumnPath.flatten_eq]

end

/-! ## Selections -/

section
variable {t : Table} {r : StoredRow} {column : String} {columns : List String}

/-- A selected row gives each column what the table has for it. -/
theorem get_select (hc : column ∈ columns) :
    Row.get ((columns.filter (· ∈ t.allColumns)).map fun c => (c, t.get r c)) column =
      t.get r column := by
  rw [Row.get, lookup_map_self]
  by_cases hknown : column ∈ t.allColumns
  · simp [hc, hknown]
  · have hnull : t.get r column = .null := by
      simp only [Table.allColumns, List.mem_append, Option.mem_toList, not_or] at hknown
      rw [Table.get, if_neg hknown.1, if_neg hknown.2]
    simp [hknown, hnull]

theorem mem_intercalate {c : Char} {separator : String} {texts : List String}
    (hc : c ∉ separator.toList) :
    c ∈ (separator.intercalate texts).toList ↔ ∃ s ∈ texts, c ∈ s.toList := by
  induction texts with
  | nil => simp
  | cons s texts ih =>
    cases texts with
    | nil => simp
    | cons s' texts =>
      rw [String.intercalate_cons_cons, String.toList_append, String.toList_append,
        List.mem_append, List.mem_append, ih]
      simp [hc]

/-- A selection can be read if the selection of each column alone can. -/
theorem isReadable_select {table : String} {key : KeyMatch} (hcolumns : columns ≠ []) :
    IsReadable (.select table key columns) ↔
      ∀ c ∈ columns, IsReadable (.select table key [c]) := by
  have hc : '\x00' ∉ (", " : String).toList := by decide
  obtain ⟨c, hmem⟩ := List.exists_mem_of_ne_nil _ hcolumns
  simp only [IsReadable, Statement.render, String.toList_append, List.mem_append,
    mem_intercalate hc, List.map_cons, List.map_nil, List.mem_map, List.mem_singleton]
  grind

end

theorem query_of_readable {store : Store} {table : String} {key : KeyMatch}
    {columns : List String} (h : IsReadable (.select table key columns)) :
    backend.query (.select table key columns) store =
      ((store.table? table).elim
        (.error (failure (.select table key columns) (.unknownTable table)))
          fun t => .ok (t.select key columns), store) := by
  simp only [backend, if_pos h, Store.query, Store.table]
  cases store.table? table <;> rfl

/-- A selection finds the value of each of its columns, or one of them has none. -/
theorem query_select {store : Store} {row : RowName} {columns : List String}
    (hrow : ¬ row.IsBlank) (hcolumns : columns ≠ []) :
    (∃ found, backend.query (.select row.table row.key columns) store = (.ok (some found), store) ∧
      ∀ c ∈ columns, store.cell? row c = some (found.get c)) ∨
    ((∃ c ∈ columns, store.cell? row c = none) ∧
      ∃ answer, backend.query (.select row.table row.key columns) store = (answer, store) ∧
        ∀ found, answer ≠ .ok (some found)) := by
  by_cases hread : IsReadable (.select row.table row.key columns)
  · have hcell {c} (hc : c ∈ columns) : store.cell? row c =
        (store.table? row.table).bind fun t => (t.find? row.key).map fun r => t.get r c := by
      rw [cell?, if_neg hrow, if_pos ((isReadable_select hcolumns).1 hread c hc)]
    obtain ⟨c₀, hc₀⟩ := List.exists_mem_of_ne_nil _ hcolumns
    rw [query_of_readable hread]
    cases ht : store.table? row.table with
    | none => exact .inr ⟨⟨c₀, hc₀, by rw [hcell hc₀, ht]; rfl⟩, _, rfl, by simp⟩
    | some t =>
      rw [Option.elim_some, Table.select]
      cases hr : t.find? row.key with
      | none => exact .inr ⟨⟨c₀, hc₀, by rw [hcell hc₀, ht, Option.bind_some, hr]; rfl⟩, _, rfl,
          by simp⟩
      | some r =>
        refine .inl ⟨_, rfl, fun c hc => ?_⟩
        rw [get_select hc, hcell hc, ht, Option.bind_some, hr, Option.map_some]
  · obtain ⟨c, hc, hunread⟩ : ∃ c ∈ columns, ¬ IsReadable (.select row.table row.key [c]) := by
      simpa using mt (isReadable_select hcolumns).2 hread
    refine .inr ⟨⟨c, hc, by rw [cell?, if_neg hrow, if_neg hunread]⟩, ?_⟩
    simp only [backend, if_neg hread]
    exact ⟨_, rfl, by simp⟩

end Store
end RecordGraph
