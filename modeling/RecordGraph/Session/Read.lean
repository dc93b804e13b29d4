import RecordGraph.Session.Basic

/-!
# Reading

The clean columns of a node are read together by one statement, when a value is
asked for that the node does not know any more. Pending values are never read.
-/
namespace RecordGraph.Action

variable {σ : Type} (b : Backend σ)

/-- Reads every clean column of a node from its row. A new node has no row, and
a node without clean columns needs none. -/
def fetchNode (n : NodeId) : Action σ Unit := do
  let node ← requireNode n
  let g ← graph
  unless g.IsNew n do
    let columns := g.cleanColumns n
    unless columns = [] do
      let s := Statement.select node.table (g.keyMatch n) (columns.map g.name)
      match ← query b n s with
      | none => throw (.missingRow node.table (g.keyMatch n) (s.render b.dialect))
      | some row => updateGraph (·.settleRow columns row)
  updateGraph (·.setFresh n true)

/-- The value of a column: what waits to be written, else what the database
holds. -/
def value (c : ColumnId) : Action σ Value := do
  let column ← requireColumn c
  unless column.IsDirty do
    unless (← graph).IsFresh column.node do
      fetchNode b column.node
  return (← graph).current c

/-- The key of a node as far as it is known. -/
def key (n : NodeId) : Action σ Value := do
  let _ ← requireNode n
  return (← graph).key n

end RecordGraph.Action
