import RecordGraph.Sql.Statement

/-!
# Backends

What executes statements. A backend is a state with three requests: a query for
one row, the execution of a statement without rows, and the key that the last
insertion generated. It may fail at any of them.
-/
namespace RecordGraph

/-- A request that failed, with the text that was sent. -/
structure Failure where
  sql : String
  message : String
  deriving DecidableEq

/-- A result row, by column name. -/
abbrev Row := List (String × Value)

/-- The value of a column, null where the row has none. -/
def Row.get (row : Row) (name : String) : Value := (row.lookup name).getD .null

/-- A database as the record graph sees it, with states of type `σ`. -/
structure Backend (σ : Type) where
  dialect : Dialect
  query : Statement → σ → Except Failure (Option Row) × σ
  exec : Statement → σ → Except Failure Unit × σ
  lastInsertId : σ → Except Failure Value × σ

/-- A backend that refuses every request. -/
def Backend.refusing (message : String) : Backend Unit where
  dialect := .standard
  query s _ := (.error ⟨s.render .standard, message⟩, ())
  exec s _ := (.error ⟨s.render .standard, message⟩, ())
  lastInsertId _ := (.error ⟨"last_insert_id", message⟩, ())

/-- One request to a backend, with its answer. -/
inductive Call where
  | query (s : Statement) (answer : Except Failure (Option Row))
  | exec (s : Statement) (answer : Except Failure Unit)
  | lastInsertId (answer : Except Failure Value)

end RecordGraph
