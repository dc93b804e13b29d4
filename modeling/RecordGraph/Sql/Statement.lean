import RecordGraph.Sql.Literal

/-!
# Statements

The four statements of the record graph, as data. All but the insertion name
one key column and its value. Their text depends on a dialect, which says how
names and values are quoted and how a row of defaults is inserted.
-/
namespace RecordGraph

/-- How a database wants names, values and blank rows to be written. -/
structure Dialect where
  quoteIdentifier : String → String
  quoteValue : Value → String
  blankInsert : String → String

/-- Names in double quotes, values as literals. -/
def Dialect.standard : Dialect where
  quoteIdentifier := Sql.quoteIdentifier
  quoteValue := Sql.quoteLiteral
  blankInsert table := "insert into " ++ Sql.quoteIdentifier table ++ " default values"

/-- The condition that a column has a value. -/
structure KeyMatch where
  column : String
  value : Value
  deriving DecidableEq

/-- A column and the value to be written to it. -/
abbrev Assignment := String × Value

inductive Statement where
  | select (table : String) (key : KeyMatch) (columns : List String)
  | insert (table : String) (assignments : List Assignment)
  | update (table : String) (key : KeyMatch) (assignments : List Assignment)
  | delete (table : String) (key : KeyMatch)
  deriving DecidableEq

namespace Dialect

variable (d : Dialect)

/-- `name = value`, both quoted. -/
def equation (column : String) (value : Value) : String :=
  d.quoteIdentifier column ++ " = " ++ d.quoteValue value

def condition (key : KeyMatch) : String := " where " ++ d.equation key.column key.value

end Dialect

/-- The text of a statement. -/
def Statement.render (d : Dialect) : Statement → String
  | select table key columns =>
    "select " ++ ", ".intercalate (columns.map d.quoteIdentifier) ++ " from " ++
      d.quoteIdentifier table ++ d.condition key
  | insert table [] => d.blankInsert table
  | insert table assignments =>
    "insert into " ++ d.quoteIdentifier table ++
      "(" ++ ", ".intercalate (assignments.map fun a => d.quoteIdentifier a.1) ++ ") values(" ++
      ", ".intercalate (assignments.map fun a => d.quoteValue a.2) ++ ")"
  | update table key assignments =>
    "update " ++ d.quoteIdentifier table ++ " set " ++
      ", ".intercalate (assignments.map fun a => d.equation a.1 a.2) ++ d.condition key
  | delete table key => "delete from " ++ d.quoteIdentifier table ++ d.condition key

end RecordGraph
