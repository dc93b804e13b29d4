/-!
# Column paths

A path names a column of a record, or of a record that is reached through
joins. Each table on the way is joined by a foreign key, which is itself a path
from the record before it. A path is seen in two more ways: as the text that
denotes it, and flattened into single hops, where equivalent spellings agree.
-/
namespace RecordGraph

/-- A column of the current record, or a table to walk through first: plainly,
or with a join that names the foreign key and perhaps the joined column. -/
inductive ColumnPath where
  | column (name : String)
  | through (table : String) (rest : ColumnPath)
  | joined (table : String) (childColumn : Option String) (foreignKey rest : ColumnPath)
  deriving DecidableEq

/-- The bracketed part of a table: `[childColumn = foreignKey]`. -/
structure JoinSpec where
  childColumn : Option String
  foreignKey : ColumnPath
  deriving DecidableEq

/-- A table and how it is joined to the record before it. -/
structure TableSpec where
  table : String
  join : Option JoinSpec
  deriving DecidableEq

/-- One join: the table, its column, and the column of the record before it
that holds the key. -/
structure Hop where
  table : String
  childColumn : String
  foreignKey : String
  deriving DecidableEq

/-- The joined column where a path names none. -/
def defaultChildColumn : String := "id"

/-- The foreign key where a path names none. -/
def defaultForeignKey (table : String) : String := table ++ "_id"

namespace TableSpec

def childColumn (t : TableSpec) : String :=
  (t.join.bind JoinSpec.childColumn).getD defaultChildColumn

def foreignKey (t : TableSpec) : ColumnPath :=
  match t.join with
  | some j => j.foreignKey
  | none => .column (defaultForeignKey t.table)

end TableSpec

namespace ColumnPath

/-- The column at the end of the path. -/
def target : ColumnPath → String
  | column name => name
  | through _ rest => rest.target
  | joined _ _ _ rest => rest.target

/-- The tables on the way, from left to right. -/
def tables : ColumnPath → List TableSpec
  | column _ => []
  | through table rest => ⟨table, none⟩ :: rest.tables
  | joined table child fk rest => ⟨table, some ⟨child, fk⟩⟩ :: rest.tables

def IsLocal (p : ColumnPath) : Prop := p.tables = []

instance : DecidablePred IsLocal := fun _ => inferInstanceAs (Decidable (_ = _))

/-- All joins of the path in the order in which they are walked: the joins of
a foreign key come before the table that it joins. -/
def hops : ColumnPath → List Hop
  | column _ => []
  | through table rest => ⟨table, defaultChildColumn, defaultForeignKey table⟩ :: rest.hops
  | joined table child fk rest =>
    fk.hops ++ ⟨table, child.getD defaultChildColumn, fk.target⟩ :: rest.hops

/-- The number of brackets around the innermost part. -/
def nesting : ColumnPath → Nat
  | column _ => 0
  | through _ rest => rest.nesting
  | joined _ _ fk rest => max (fk.nesting + 1) rest.nesting

/-- The canonical text of a path. -/
def toChars : ColumnPath → List Char
  | column name => name.toList
  | through table rest => table.toList ++ '.' :: rest.toChars
  | joined table none fk rest =>
    table.toList ++ '[' :: (fk.toChars ++ ']' :: '.' :: rest.toChars)
  | joined table (some child) fk rest =>
    table.toList ++ '[' :: (child.toList ++ ' ' :: '=' :: ' ' ::
      (fk.toChars ++ ']' :: '.' :: rest.toChars))

def display (p : ColumnPath) : String := String.ofList p.toChars

end ColumnPath

namespace TableSpec

/-- The joins of one table, those of its foreign key first. -/
def hops (t : TableSpec) : List Hop :=
  t.foreignKey.hops ++ [⟨t.table, t.childColumn, t.foreignKey.target⟩]

/-- The canonical text of a table with its join. -/
def toChars (t : TableSpec) : List Char :=
  match t.join with
  | none => t.table.toList
  | some ⟨none, fk⟩ => t.table.toList ++ '[' :: (fk.toChars ++ [']'])
  | some ⟨some child, fk⟩ =>
    t.table.toList ++ '[' :: (child.toList ++ ' ' :: '=' :: ' ' :: (fk.toChars ++ [']']))

def display (t : TableSpec) : String := String.ofList t.toChars

end TableSpec
end RecordGraph
