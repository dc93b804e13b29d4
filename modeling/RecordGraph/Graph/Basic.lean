import RecordGraph.Path.Basic
import RecordGraph.Backend.Basic

/-!
# Record graphs

A graph of database rows. A node stands for one row, a column for one value of
it, and an edge for a join from a foreign key to the row that it names. Ids are
positions in order of registration; nothing is ever removed. They have no bound
here, and are those of 32 bits while a graph has at most 2 ^ 32 nodes, columns
and edges each. Look-ups by name ask the indexes of a node, which each
registration extends.
-/
namespace RecordGraph

structure NodeId where
  index : Nat
  deriving DecidableEq

structure ColumnId where
  index : Nat
  deriving DecidableEq

structure EdgeId where
  index : Nat
  deriving DecidableEq

/-- A value of a row: what the database is known to hold, and what waits to be
written. A column with a pending value is dirty. -/
structure Column where
  node : NodeId
  name : String
  clean : Option Value
  pending : Option Value
  deriving DecidableEq

namespace Column

def blank (node : NodeId) (name : String) : Column := ⟨node, name, none, none⟩

def IsDirty (c : Column) : Prop := c.pending.isSome = true

instance (c : Column) : Decidable c.IsDirty := inferInstanceAs (Decidable (_ = _))

/-- The pending value, else the clean one, else null. -/
def current (c : Column) : Value := (c.pending.or c.clean).getD .null

/-- Waits to write `v`. -/
def assign (v : Value) (c : Column) : Column := { c with pending := some v }

/-- The database holds `v`, and nothing waits. -/
def settle (v : Value) (c : Column) : Column := { c with clean := some v, pending := none }

/-- Nothing is known and nothing waits. -/
def forget (c : Column) : Column := { c with clean := none, pending := none }

end Column

/-- A row: its table, its key column, its other columns and its joins, in order
of registration. The columns are indexed by name and the joins by how they join,
the newest entry first. A row is fresh while its clean values need no further read. -/
structure Node where
  table : String
  key : ColumnId
  columns : List ColumnId
  columnIndex : List (String × ColumnId)
  edges : List EdgeId
  edgeIndex : List (Hop × EdgeId)
  fresh : Bool
  deriving DecidableEq

/-- A join: the foreign key of the parent names the row of the child. -/
structure Edge where
  parent : NodeId
  foreignKey : ColumnId
  child : NodeId
  deriving DecidableEq

structure Graph where
  nodes : Array Node
  columns : Array Column
  edges : Array Edge
  deriving DecidableEq

namespace Graph

def empty : Graph := ⟨#[], #[], #[]⟩

def root : NodeId := ⟨0⟩

/-! ## Look-ups -/

section
variable (g : Graph)

def node? (n : NodeId) : Option Node := g.nodes[n.index]?
def column? (c : ColumnId) : Option Column := g.columns[c.index]?
def edge? (e : EdgeId) : Option Edge := g.edges[e.index]?

/-- The name of a column, empty for an unknown one. -/
def name (c : ColumnId) : String := (g.column? c).elim "" Column.name

/-- The current value of a column, null for an unknown one. -/
def current (c : ColumnId) : Value := (g.column? c).elim .null Column.current

def IsDirty (c : ColumnId) : Prop := (g.column? c).any (fun c => c.IsDirty) = true

instance (c : ColumnId) : Decidable (g.IsDirty c) := inferInstanceAs (Decidable (_ = _))

/-- The table of a node, empty for an unknown one. -/
def table (n : NodeId) : String := (g.node? n).elim "" Node.table

/-- The registered columns of a node, without its key. -/
def columnsOf (n : NodeId) : List ColumnId := (g.node? n).elim [] Node.columns

/-- The joins of a node. -/
def edgesOf (n : NodeId) : List Edge := (g.node? n).elim [] (·.edges.filterMap g.edge?)

/-- The key column of a node. -/
def keyColumn? (n : NodeId) : Option ColumnId := (g.node? n).map Node.key

def keyName (n : NodeId) : String := (g.keyColumn? n).elim "" g.name

/-- The key of a node as far as it is known; null for a new one. -/
def key (n : NodeId) : Value := (g.keyColumn? n).elim .null g.current

/-- A node is new while its key was never assigned; an unknown node is not. -/
def IsNew (n : NodeId) : Prop :=
  ((g.keyColumn? n).bind g.column?).any (fun c => ¬ c.IsDirty) = true

instance (n : NodeId) : Decidable (g.IsNew n) := inferInstanceAs (Decidable (_ = _))

def IsFresh (n : NodeId) : Prop := (g.node? n).any Node.fresh = true

instance (n : NodeId) : Decidable (g.IsFresh n) := inferInstanceAs (Decidable (_ = _))

def dirtyColumns (n : NodeId) : List ColumnId := (g.columnsOf n).filter fun c => g.IsDirty c

def cleanColumns (n : NodeId) : List ColumnId := (g.columnsOf n).filter fun c => ¬ g.IsDirty c

/-- The condition that finds the row of a node. -/
def keyMatch (n : NodeId) : KeyMatch := ⟨g.keyName n, g.key n⟩

/-- The index of the columns of a node. -/
def columnIndexOf (n : NodeId) : List (String × ColumnId) := (g.node? n).elim [] Node.columnIndex

/-- The index of the joins of a node. -/
def edgeIndexOf (n : NodeId) : List (Hop × EdgeId) := (g.node? n).elim [] Node.edgeIndex

/-- The registered column of a name; the key is not among them. -/
def findColumn? (n : NodeId) (name : String) : Option ColumnId := (g.columnIndexOf n).lookup name

/-- How an edge joins, as a path says it. -/
def hop (e : Edge) : Hop := ⟨g.table e.child, g.keyName e.child, g.name e.foreignKey⟩

/-- The node that a join of `n` leads to. -/
def findChild? (n : NodeId) (hop : Hop) : Option NodeId :=
  ((g.edgeIndexOf n).lookup hop).bind fun e => (g.edge? e).map Edge.child

/-- The joins below a node in the order in which their rows are written: all
joins below a child come before the join of that child. A child is registered
after its parent, which bounds the walk. -/
def edgesBelow (n : NodeId) : List Edge :=
  (g.edgesOf n).flatMap fun e =>
    if _h : n.index < e.child.index ∧ e.child.index < g.nodes.size then
      edgesBelow e.child ++ [e]
    else [e]
termination_by g.nodes.size - n.index

/-- A node and all below it, children before their parent. -/
def postOrder (n : NodeId) : List NodeId := (g.edgesBelow n).map Edge.child ++ [n]

end

/-! ## Changes -/

section
variable (g : Graph)

def updateColumn (c : ColumnId) (f : Column → Column) : Graph :=
  { g with columns := g.columns.modify c.index f }

def updateNode (n : NodeId) (f : Node → Node) : Graph :=
  { g with nodes := g.nodes.modify n.index f }

def assign (c : ColumnId) (v : Value) : Graph := g.updateColumn c (.assign v)

def settle (c : ColumnId) (v : Value) : Graph := g.updateColumn c (.settle v)

def setFresh (n : NodeId) (fresh : Bool) : Graph := g.updateNode n ({ · with fresh })

/-- Adds a node with its key column. A key that is not blank is assigned, and
then the node has a row whose values are not known yet. -/
def addNode (table keyName : String) (key : Value) : NodeId × Graph :=
  let n : NodeId := ⟨g.nodes.size⟩
  let c : ColumnId := ⟨g.columns.size⟩
  let column := Column.blank n keyName
  (n, { g with
    columns := g.columns.push (if key.IsBlank then column else column.assign key)
    nodes := g.nodes.push ⟨table, c, [], [], [], [], decide key.IsBlank⟩ })

/-- The column of a name, registered if it was not; the values of the node are
then to be read again. -/
def addColumn (n : NodeId) (name : String) : ColumnId × Graph :=
  match g.findColumn? n name with
  | some c => (c, g)
  | none =>
    let c : ColumnId := ⟨g.columns.size⟩
    (c, { g with
      columns := g.columns.push (.blank n name)
      nodes := g.nodes.modify n.index fun node =>
        { node with
          columns := node.columns ++ [c]
          columnIndex := (name, c) :: node.columnIndex
          fresh := false } })

/-- Joins a new node, found by `key`, to the node `parent`. -/
def addChild (parent : NodeId) (foreignKey : ColumnId) (table childColumn : String)
    (key : Value) : NodeId × Graph :=
  let hop : Hop := ⟨table, childColumn, g.name foreignKey⟩
  let (child, g) := g.addNode table childColumn key
  let e : EdgeId := ⟨g.edges.size⟩
  (child, { g with
    edges := g.edges.push ⟨parent, foreignKey, child⟩
    nodes := g.nodes.modify parent.index fun node =>
      { node with edges := node.edges ++ [e], edgeIndex := (hop, e) :: node.edgeIndex } })

/-- Takes over the values that a row gives to clean columns. The columns of a
node have different names, so each cell is asked for once and may as well be
left in the row. -/
def settleRow (columns : List ColumnId) (row : Row) : Graph :=
  columns.foldl (fun g c => g.settle c (row.get (g.name c))) g

end

/-- A graph of one node. -/
def single (table keyName : String) (key : Value) : Graph := (empty.addNode table keyName key).2

end Graph
end RecordGraph
