import RecordGraph.Session.Resolve

/-!
# Writing

Saving writes the rows below a node before the row of the node, and puts the
key of every written row into the foreign key that names it. A new row is
inserted, an existing one is updated if anything waits to be written. Deleting
goes the same way, and leaves out rows that do not exist.
-/
namespace RecordGraph

namespace Graph

variable (g : Graph)

/-- Columns with the values that wait for them. -/
def assignments (columns : List ColumnId) : List Assignment :=
  columns.map fun c => (g.name c, g.current c)

/-- Assigns a value to the key of a node. -/
def assignKey (n : NodeId) (v : Value) : Graph :=
  (g.keyColumn? n).elim g fun c => g.assign c v

/-- After a write: the written columns are clean, and a written column that
carries the name of the key moves the key too. -/
def settleWritten (n : NodeId) (columns : List ColumnId) : Graph :=
  let keyName := g.keyName n
  columns.foldl (fun g c =>
    let written := g.current c
    let g := if g.name c = keyName then g.assignKey n written else g
    g.settle c written) g

/-- Lets the foreign key of a join name the row of the child. -/
def link (e : Edge) : Graph := g.assign e.foreignKey (g.key e.child)

end Graph

namespace Action

variable {σ : Type} (b : Backend σ)

/-- Assigns a pending value to a column; it waits even if nothing changes by it. -/
def setValue (c : ColumnId) (v : Value) : Action σ Unit := do
  let _ ← requireColumn c
  updateGraph (·.assign c v)

/-- Forgets all about a column until the next read. The key of a node cannot be
forgotten. -/
def resetColumn (c : ColumnId) : Action σ Unit := do
  let column ← requireColumn c
  let g ← graph
  if g.keyColumn? column.node = some c then
    throw (.keyReset column.name (g.table column.node))
  updateGraph fun g => (g.updateColumn c .forget).setFresh column.node false

/-- Writes the pending values of one node. A value without an exact literal is
refused before anything is sent. -/
def writeNode (n : NodeId) : Action σ Unit := do
  let g ← graph
  let dirty := g.dirtyColumns n
  let assignments := g.assignments dirty
  match assignments.find? fun a => ¬ a.2.IsWritable with
  | some (name, v) => throw (.invalidValue name (g.table n) v)
  | none =>
    if g.IsNew n then
      exec b n (.insert (g.table n) assignments)
      let key ← lastInsertId b n
      updateGraph fun g => ((g.assignKey n key).settleWritten n dirty).setFresh n true
    else if dirty ≠ [] then
      exec b n (.update (g.table n) (g.keyMatch n) assignments)
      updateGraph fun g => (g.settleWritten n dirty).setFresh n true

/-- Writes the child of a join, and then its key into the foreign key. -/
def writeEdge (e : Edge) : Action σ Unit := do
  writeNode b e.child
  updateGraph (·.link e)

/-- Saves a node and everything joined to it. -/
def saveNode (n : NodeId) : Action σ Unit := do
  let _ ← requireNode n
  ((← graph).edgesBelow n).forM (writeEdge b)
  writeNode b n

/-- Assigns values by path, and then saves. -/
def saveAt (n : NodeId) (values : List (String × Value)) : Action σ Unit := do
  let _ ← requireNode n
  values.forM fun (path, v) => do
    let c ← resolveColumn b n path
    updateGraph (·.assign c v)
  saveNode b n

/-- Assigns values of the root by path, and then saves it. -/
def save (values : List (String × Value)) : Action σ Unit := saveAt b Graph.root values

/-- Deletes the row of one node, if it has one; gives the number of rows. -/
def eraseNode (n : NodeId) : Action σ Nat := do
  let g ← graph
  let isNew := g.IsNew n
  unless isNew do exec b n (.delete (g.table n) (g.keyMatch n))
  updateGraph (·.setFresh n true)
  return if isNew then 0 else 1

/-- Deletes the rows of a node and of everything joined to it; gives the number
of rows. -/
def deleteNode (n : NodeId) : Action σ Nat := do
  let _ ← requireNode n
  ((← graph).postOrder n).foldlM (fun count m => return count + (← eraseNode b m)) 0

/-- Joins tables by path, and then deletes. -/
def deleteAt (n : NodeId) (tables : List String) : Action σ Nat := do
  let _ ← requireNode n
  tables.forM fun path => discard (resolveTable b n path)
  deleteNode b n

/-- Joins tables to the root by path, and then deletes it. -/
def delete (tables : List String) : Action σ Nat := deleteAt b Graph.root tables

end Action
end RecordGraph
