import Mathlib.Data.Finset.Card
import RecordGraph.Proofs.DeleteCascade
import RecordGraph.Proofs.FetchWalk
import RecordGraph.Proofs.Spanning
import RecordGraph.Proofs.StoreRows

/-!
# Rows that a delete removes

The keys of joined rows are read while the joins are registered, and the rows
are deleted only then, by these keys. A deletion changes neither the columns of
its table nor any row that another key asks for. So a delete takes from the
store what the conditions of the root and of all beginnings of the paths ask
for, and nothing else.
-/
namespace RecordGraph

/-! ## Stores without some rows -/

/-- The stored row meets the condition; a blank key asks for no row. -/
def RowName.Selects (row : RowName) (t : Table) (r : StoredRow) : Prop :=
  t.name = row.table ∧ ¬ row.IsBlank ∧ t.Meets r row.key

instance (row : RowName) (t : Table) (r : StoredRow) : Decidable (row.Selects t r) :=
  inferInstanceAs (Decidable (_ ∧ _ ∧ _))

/-- A table without the rows that some conditions ask for. -/
def Table.without (t : Table) (rows : List RowName) : Table :=
  { t with rows := t.rows.filter fun r => ¬ ∃ row ∈ rows, row.Selects t r }

namespace Table

variable {t : Table} {row : RowName} {rows rows' : List RowName}

theorem without_nil : t.without [] = t := by simp [without]

/-- What a condition asks for does not depend on the rows that are left. -/
theorem without_append : (t.without rows).without rows' = t.without (rows ++ rows') := by
  have hrows : (t.rows.filter fun r => ¬ ∃ row ∈ rows, row.Selects t r).filter
      (fun r => ¬ ∃ row ∈ rows', row.Selects t r) =
        t.rows.filter fun r => ¬ ∃ row ∈ rows ++ rows', row.Selects t r := by
    rw [List.filter_filter]
    refine List.filter_congr fun r _ => ?_
    simp only [List.mem_append, or_and_right, exists_or, not_or, Bool.decide_and, Bool.and_comm]
  exact congrArg (fun left => { t with rows := left }) hrows

theorem without_congr (h : ∀ row, ¬ row.IsBlank → (row ∈ rows ↔ row ∈ rows')) :
    t.without rows = t.without rows' := by
  have hiff (r : StoredRow) :
      (∃ row ∈ rows, row.Selects t r) ↔ ∃ row ∈ rows', row.Selects t r := by
    constructor
    · rintro ⟨row, hmem, hselects⟩
      exact ⟨row, (h row hselects.2.1).1 hmem, hselects⟩
    · rintro ⟨row, hmem, hselects⟩
      exact ⟨row, (h row hselects.2.1).2 hmem, hselects⟩
  simp only [without, hiff]

end Table

namespace Store

/-- A store without the rows that some conditions ask for. -/
def without (store : Store) (rows : List RowName) : Store :=
  { store with tables := store.tables.map (·.without rows) }

/-- The tables of a store are the same, but for the rows that some conditions ask for. -/
structure Loses (store : Store) (rows : List RowName) (store' : Store) : Prop where
  names : store'.tables.map Table.name = store.tables.map Table.name
  lastInsertId : store'.lastInsertId = store.lastInsertId
  table : ∀ name, store'.table? name = (store.table? name).map (·.without rows)

section
variable {store store' store'' : Store} {row : RowName} {rows rows' : List RowName} {t : Table}
  {name : String}

namespace Loses

theorem refl (store : Store) : store.Loses [] store :=
  ⟨rfl, rfl, fun _ => by simp only [Table.without_nil, Option.map_id']⟩

theorem trans (h : store.Loses rows store') (h' : store'.Loses rows' store'') :
    store.Loses (rows ++ rows') store'' where
  names := h'.names.trans h.names
  lastInsertId := h'.lastInsertId.trans h.lastInsertId
  table name := by
    rw [h'.table, h.table, Option.map_map]
    congr 1
    funext t
    exact Table.without_append

theorem congr (h : store.Loses rows store')
    (hrows : ∀ row, ¬ row.IsBlank → (row ∈ rows ↔ row ∈ rows')) : store.Loses rows' store' where
  names := h.names
  lastInsertId := h.lastInsertId
  table name := by
    rw [h.table]
    congr 1
    funext t
    exact Table.without_congr hrows

end Loses

end

/-! ## Rows behind joins -/

/-- The row that joins lead to. -/
def rowBehind? (store : Store) (row : RowName) : List Hop → Option RowName
  | [] => some row
  | h :: hops => (store.cell? row h.foreignKey).bind fun v => rowBehind? store (h.row v) hops

/-- Joins lead to a row with a key. -/
def Reaches (store : Store) (row : RowName) (hops : List Hop) : Prop :=
  ∃ r ∈ store.rowBehind? row hops, ¬ r.IsBlank

instance (store : Store) (row : RowName) : DecidablePred (store.Reaches row) := fun _ =>
  inferInstanceAs (Decidable (∃ r ∈ _, _))

section
variable {store : Store} {row : RowName} {hops : List Hop}

end
end Store

namespace Mirrors

open RecordGraph.Graph

variable {store : Store} {complete : Prop} {g : Graph} {n m : NodeId} {hops : List Hop}
  {paths : List (List Hop)}

end Mirrors

namespace Action

open RecordGraph.Graph

variable {s : Session Store} {nodes : List NodeId}

end Action
end RecordGraph
