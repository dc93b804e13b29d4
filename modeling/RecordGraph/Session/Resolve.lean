import RecordGraph.Session.Read

/-!
# Resolving paths

Walking a path registers what is missing of it. The foreign key of a join is
registered first; the join belongs to the node that owns the foreign key, and
the joined row is named by the value of the foreign key at that moment. A join
that is already there is taken again.
-/
namespace RecordGraph.Action

variable {σ : Type} (b : Backend σ)

def addColumn (n : NodeId) (name : String) : Action σ ColumnId := register (·.addColumn n name)

/-- The node that the foreign key `fk` leads to in the given table. -/
def joinFrom (fk : ColumnId) (table childColumn : String) : Action σ NodeId := do
  let column ← requireColumn fk
  match (← graph).findChild? column.node ⟨table, childColumn, column.name⟩ with
  | some child => return child
  | none =>
    let key ← value b fk
    register (·.addChild column.node fk table childColumn key)

/-- The column that a path leads to from the node `n`. -/
def registerColumn (n : NodeId) : ColumnPath → Action σ ColumnId
  | .column name => addColumn n name
  | .through table rest => do
    let fk ← addColumn n (defaultForeignKey table)
    let child ← joinFrom b fk table defaultChildColumn
    registerColumn child rest
  | .joined table childColumn foreignKey rest => do
    let fk ← registerColumn n foreignKey
    let child ← joinFrom b fk table (childColumn.getD defaultChildColumn)
    registerColumn child rest

/-- The node that a table leads to from the node `n`. -/
def registerTable (n : NodeId) (t : TableSpec) : Action σ NodeId := do
  let fk ← registerColumn b n t.foreignKey
  joinFrom b fk t.table t.childColumn

/-- A syntax error as the failure of an action. -/
def ofParse {α : Type} : Except PathError α → Action σ α
  | .ok a => return a
  | .error e => throw (.path e)

/-- The column that the text of a path denotes relative to `n`. -/
def resolveColumn (n : NodeId) (path : String) : Action σ ColumnId := do
  let _ ← requireNode n
  registerColumn b n (← ofParse (ColumnPath.parse path))

/-- The node that the text of a table path denotes relative to `n`. -/
def resolveTable (n : NodeId) (path : String) : Action σ NodeId := do
  let _ ← requireNode n
  (← ofParse (TableSpec.parsePath path)).foldlM (registerTable b) n

/-- Reads columns by path: all paths are resolved before the first value is asked for. -/
def fetchAt (n : NodeId) (paths : List String) : Action σ (List Value) := do
  let _ ← requireNode n
  let columns ← paths.mapM (resolveColumn b n)
  columns.mapM (value b)

/-- Reads columns of the root by path. -/
def fetch (paths : List String) : Action σ (List Value) := fetchAt b Graph.root paths

end RecordGraph.Action
