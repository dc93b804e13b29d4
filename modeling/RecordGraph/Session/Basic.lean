import RecordGraph.Graph.Basic
import RecordGraph.Path.Parser

/-!
# Sessions

A record graph together with the state of its backend and the calls made so
far. Actions on a session may fail, and a failed action keeps the session that
it has reached: nothing is rolled back.
-/
namespace RecordGraph

/-- Why an action failed. -/
inductive Error where
  | path (e : PathError)
  | statement (f : Failure)
  | missingRow (table : String) (key : KeyMatch) (sql : String)
  | unknownNode (n : NodeId)
  | unknownColumn (c : ColumnId)
  | invalidValue (column table : String) (value : Value)
  | keyReset (column table : String)
  deriving DecidableEq

namespace Error

def message : Error → String
  | path e => e.message
  | statement f => "Statement failed: " ++ f.message ++ " [" ++ f.sql ++ "]"
  | missingRow table key sql =>
    "No row in `" ++ table ++ "` for " ++ key.column ++ " = " ++ key.value.display ++
      " (record was deleted outside this graph?) [" ++ sql ++ "]"
  | unknownNode n => "Unknown record node: " ++ toString n.index
  | unknownColumn c => "Unknown column: " ++ toString c.index
  | invalidValue column table value =>
    "Invalid value: `" ++ column ++ "` of `" ++ table ++ "` cannot be stored as " ++ value.display
  | keyReset column table => "Primary key `" ++ column ++ "` of `" ++ table ++ "` cannot be reset"

end Error

/-- A graph, a backend, and the calls in order, each with the node that it was
made for. -/
structure Session (σ : Type) where
  graph : Graph
  backend : σ
  calls : List (NodeId × Call)

/-- An action on a session. -/
abbrev Action (σ : Type) := EStateM Error (Session σ)

namespace Session

variable {σ : Type}

/-- A session on one record. A blank key stands for a row that does not exist yet. -/
def start (table : String) (keyName : String) (key : Value) (state : σ) : Session σ :=
  ⟨.single table keyName key, state, []⟩

end Session

namespace Action

variable {σ : Type}

def graph : Action σ Graph := return (← get).graph

def updateGraph (f : Graph → Graph) : Action σ Unit :=
  modify fun s => { s with graph := f s.graph }

/-- Runs a change of the graph that has a result. -/
def register {α : Type} (f : Graph → α × Graph) : Action σ α :=
  modifyGet fun s => ((f s.graph).1, { s with graph := (f s.graph).2 })

def requireNode (n : NodeId) : Action σ Node := do
  match (← graph).node? n with
  | some node => return node
  | none => throw (.unknownNode n)

def requireColumn (c : ColumnId) : Action σ Column := do
  match (← graph).column? c with
  | some column => return column
  | none => throw (.unknownColumn c)

/-- Makes a request to the backend for a node, and records it. -/
def send {α : Type} (n : NodeId) (call : Except Failure α → Call)
    (request : σ → Except Failure α × σ) : Action σ α := do
  let s ← get
  let (answer, state) := request s.backend
  set { s with backend := state, calls := s.calls ++ [(n, call answer)] }
  match answer with
  | .ok a => return a
  | .error f => throw (.statement f)

variable (b : Backend σ)

def query (n : NodeId) (s : Statement) : Action σ (Option Row) := send n (.query s) (b.query s)

def exec (n : NodeId) (s : Statement) : Action σ Unit := send n (.exec s) (b.exec s)

def lastInsertId (n : NodeId) : Action σ Value := send n .lastInsertId b.lastInsertId

end Action
end RecordGraph
