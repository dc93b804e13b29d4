import RecordGraph.Backend.Basic

/-!
# Scripted backends

A backend that gives prepared answers, one after the other, whatever the
statement is.
-/
namespace RecordGraph

/-- A prepared answer to a query. -/
inductive ScriptedAnswer where
  | row (cells : Row)
  | noRow
  | failure (message : String)
  deriving DecidableEq

/-- A prepared answer to the question for the generated key. -/
inductive ScriptedKey where
  | key (v : Value)
  | failure (message : String)
  deriving DecidableEq

/-- The answers still to be given. Queries beyond the list get `fallback`,
executions beyond it succeed, and keys beyond it count the requests. -/
structure Script where
  queries : List ScriptedAnswer
  fallback : ScriptedAnswer
  execs : List (Option String)
  keys : List ScriptedKey
  keyRequests : Nat
  deriving DecidableEq

namespace Script

def answer (sql : String) : ScriptedAnswer → Except Failure (Option Row)
  | .row cells => .ok (some cells)
  | .noRow => .ok none
  | .failure message => .error ⟨sql, message⟩

/-- The backend that plays a script. -/
def backend (d : Dialect) : Backend Script where
  dialect := d
  query s script :=
    (answer (s.render d) (script.queries.headD script.fallback),
      { script with queries := script.queries.tail })
  exec s script :=
    (match script.execs.headD none with
      | some message => .error ⟨s.render d, message⟩
      | none => .ok (),
      { script with execs := script.execs.tail })
  lastInsertId script :=
    (match script.keys.headD (.key (.integer (Int64.ofNat (script.keyRequests + 1)))) with
      | .key v => .ok v
      | .failure message => .error ⟨"last_insert_id", message⟩,
      { script with keys := script.keys.tail, keyRequests := script.keyRequests + 1 })

end Script

/-- Names in angle brackets and values as they are displayed, without escapes. -/
def Dialect.tagged : Dialect where
  quoteIdentifier name := "<" ++ name ++ ">"
  quoteValue v := "\x7b" ++ v.display ++ "\x7d"
  blankInsert table := "blank <" ++ table ++ ">"

end RecordGraph
