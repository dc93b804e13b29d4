import RecordGraph.Proofs.Lists
import RecordGraph.Session.Write

/-!
# The shape of a graph

The shape is all of a graph but its values: tables, names, owners, lists of
columns and joins. Look-ups by name read the shape only, and changes of values
keep it. A registration extends it at the end.
-/
namespace RecordGraph

namespace Graph

section
variable (g : Graph)

def IsNode (n : NodeId) : Prop := n.index < g.nodes.size

/-- The node that a column belongs to, as its key or otherwise. -/
def owner? (c : ColumnId) : Option NodeId := (g.column? c).map Column.node

/-- The ids of the joins of a node. -/
def edgeIds (n : NodeId) : List EdgeId := (g.node? n).elim [] Node.edges

/-- A graph without its values. -/
def shape : Graph where
  nodes := g.nodes.map fun node => { node with fresh := false }
  columns := g.columns.map fun c => .blank c.node c.name
  edges := g.edges

end

/-! ## Look-ups -/

section
variable {g : Graph} {n : NodeId} {c : ColumnId} {e : EdgeId}

theorem node?_isSome : (g.node? n).isSome ↔ g.IsNode n := by
  simp [node?, IsNode]

theorem node?_eq_some {node : Node} (h : g.node? n = some node) : g.IsNode n :=
  node?_isSome.1 (by simp [h])

theorem IsNode.exists (h : g.IsNode n) : ∃ node, g.node? n = some node :=
  Option.isSome_iff_exists.1 (node?_isSome.2 h)

theorem node?_eq_none : g.node? n = none ↔ ¬ g.IsNode n := by
  simp [node?, IsNode]

theorem column?_of_owner (h : g.owner? c = some n) :
    ∃ col, g.column? c = some col ∧ col.node = n := by
  simpa [owner?] using h

theorem lt_of_owner (h : g.owner? c = some n) : c.index < g.columns.size := by
  obtain ⟨col, hcol, -⟩ := column?_of_owner h
  exact (Array.getElem?_eq_some_iff.1 hcol).1

theorem lt_of_edge {x : Edge} (h : g.edge? e = some x) : e.index < g.edges.size :=
  (Array.getElem?_eq_some_iff.1 h).1

theorem edgesOf_eq : g.edgesOf n = (g.edgeIds n).filterMap g.edge? := by
  unfold edgesOf edgeIds
  cases g.node? n <;> rfl

theorem keyName_eq {k : ColumnId} (h : g.keyColumn? n = some k) : g.keyName n = g.name k := by
  simp [keyName, h]

theorem key_eq {k : ColumnId} (h : g.keyColumn? n = some k) : g.key n = g.current k := by
  simp [key, h]

theorem isNode_of_keyColumn? {k : ColumnId} (h : g.keyColumn? n = some k) : g.IsNode n := by
  obtain ⟨node, hnode, -⟩ := Option.map_eq_some_iff.1 h
  exact node?_eq_some hnode

theorem isNew_iff {k : ColumnId} (h : g.keyColumn? n = some k) :
    g.IsNew n ↔ ∃ col, g.column? k = some col ∧ ¬ col.IsDirty := by
  simp [IsNew, h, Option.any_eq_true]

end

/-! ## What the shape knows -/

section
variable (g : Graph) (n : NodeId) (c : ColumnId) (e : EdgeId)

@[simp] theorem isNode_shape : g.shape.IsNode n ↔ g.IsNode n := by simp [IsNode, shape]

theorem node?_shape :
    g.shape.node? n = (g.node? n).map fun node => { node with fresh := false } := by
  simp [node?, shape]

theorem column?_shape :
    g.shape.column? c = (g.column? c).map fun c => .blank c.node c.name := by
  simp [column?, shape]

@[simp] theorem edge?_shape : g.shape.edge? e = g.edge? e := rfl

@[simp] theorem owner?_shape : g.shape.owner? c = g.owner? c := by
  rw [owner?, column?_shape, owner?]
  cases g.column? c <;> rfl

@[simp] theorem name_shape : g.shape.name c = g.name c := by
  rw [name, column?_shape, name]
  cases g.column? c <;> rfl

@[simp] theorem table_shape : g.shape.table n = g.table n := by
  rw [table, node?_shape, table]
  cases g.node? n <;> rfl

@[simp] theorem columnsOf_shape : g.shape.columnsOf n = g.columnsOf n := by
  rw [columnsOf, node?_shape, columnsOf]
  cases g.node? n <;> rfl

@[simp] theorem edgeIds_shape : g.shape.edgeIds n = g.edgeIds n := by
  rw [edgeIds, node?_shape, edgeIds]
  cases g.node? n <;> rfl

@[simp] theorem keyColumn?_shape : g.shape.keyColumn? n = g.keyColumn? n := by
  rw [keyColumn?, node?_shape, keyColumn?]
  cases g.node? n <;> rfl

@[simp] theorem edgesOf_shape : g.shape.edgesOf n = g.edgesOf n := by
  rw [edgesOf_eq, edgesOf_eq, edgeIds_shape]
  rfl

@[simp] theorem keyName_shape : g.shape.keyName n = g.keyName n := by
  rw [keyName, keyColumn?_shape, keyName]
  cases g.keyColumn? n <;> simp

@[simp] theorem hop_shape (x : Edge) : g.shape.hop x = g.hop x := by simp [hop]

@[simp] theorem columnIndexOf_shape : g.shape.columnIndexOf n = g.columnIndexOf n := by
  rw [columnIndexOf, node?_shape, columnIndexOf]
  cases g.node? n <;> rfl

@[simp] theorem edgeIndexOf_shape : g.shape.edgeIndexOf n = g.edgeIndexOf n := by
  rw [edgeIndexOf, node?_shape, edgeIndexOf]
  cases g.node? n <;> rfl

@[simp] theorem findChild?_shape (h : Hop) : g.shape.findChild? n h = g.findChild? n h := by
  simp [findChild?]

end

/-! ## Graphs of one shape -/

section
variable {g g' : Graph} (h : g'.shape = g.shape)

include h

theorem isNode_of_shape_eq (n : NodeId) : g'.IsNode n ↔ g.IsNode n := by
  rw [← isNode_shape, h, isNode_shape]

theorem table_of_shape_eq (n : NodeId) : g'.table n = g.table n := by
  rw [← table_shape, h, table_shape]

theorem keyColumn?_of_shape_eq (n : NodeId) : g'.keyColumn? n = g.keyColumn? n := by
  rw [← keyColumn?_shape, h, keyColumn?_shape]

theorem keyName_of_shape_eq (n : NodeId) : g'.keyName n = g.keyName n := by
  rw [← keyName_shape, h, keyName_shape]

theorem columnsOf_of_shape_eq (n : NodeId) : g'.columnsOf n = g.columnsOf n := by
  rw [← columnsOf_shape, h, columnsOf_shape]

theorem edgeIds_of_shape_eq (n : NodeId) : g'.edgeIds n = g.edgeIds n := by
  rw [← edgeIds_shape, h, edgeIds_shape]

theorem edgesOf_of_shape_eq (n : NodeId) : g'.edgesOf n = g.edgesOf n := by
  rw [← edgesOf_shape, h, edgesOf_shape]

theorem name_of_shape_eq (c : ColumnId) : g'.name c = g.name c := by
  rw [← name_shape, h, name_shape]

theorem owner?_of_shape_eq (c : ColumnId) : g'.owner? c = g.owner? c := by
  rw [← owner?_shape, h, owner?_shape]

theorem edges_of_shape_eq : g'.edges = g.edges := congrArg (fun g => g.edges) h

theorem edge?_of_shape_eq (e : EdgeId) : g'.edge? e = g.edge? e := by
  rw [← edge?_shape, h, edge?_shape]

theorem hop_of_shape_eq (x : Edge) : g'.hop x = g.hop x := by
  rw [← hop_shape, h, hop_shape]

theorem columnIndexOf_of_shape_eq (n : NodeId) : g'.columnIndexOf n = g.columnIndexOf n := by
  rw [← columnIndexOf_shape, h, columnIndexOf_shape]

theorem edgeIndexOf_of_shape_eq (n : NodeId) : g'.edgeIndexOf n = g.edgeIndexOf n := by
  rw [← edgeIndexOf_shape, h, edgeIndexOf_shape]

theorem findChild?_of_shape_eq (n : NodeId) (hop : Hop) :
    g'.findChild? n hop = g.findChild? n hop := by
  rw [← findChild?_shape, h, findChild?_shape]

end

/-! ## Changes of values -/

section
variable (g : Graph) (n m : NodeId) (c d : ColumnId) (e : EdgeId)

theorem column?_updateColumn (f : Column → Column) :
    (g.updateColumn c f).column? d = if c = d then (g.column? d).map f else g.column? d := by
  have hcd : c = d ↔ c.index = d.index := by cases c; cases d; simp
  simp [column?, updateColumn, Array.getElem?_modify, hcd]

theorem column?_assign (v : Value) : (g.assign c v).column? d =
    if c = d then (g.column? d).map (.assign v) else g.column? d := g.column?_updateColumn c d _

theorem column?_settle (v : Value) : (g.settle c v).column? d =
    if c = d then (g.column? d).map (.settle v) else g.column? d := g.column?_updateColumn c d _

theorem node?_updateNode (f : Node → Node) :
    (g.updateNode n f).node? m = if n = m then (g.node? m).map f else g.node? m := by
  have hnm : n = m ↔ n.index = m.index := by cases n; cases m; simp
  simp [node?, updateNode, Array.getElem?_modify, hnm]

/-- A change that keeps the owner and the name of a column keeps the shape. -/
theorem shape_updateColumn {f : Column → Column}
    (hf : ∀ c, (f c).node = c.node ∧ (f c).name = c.name) :
    (g.updateColumn c f).shape = g.shape := by
  have hcolumns : (g.columns.modify c.index f).map (fun c => Column.blank c.node c.name) =
      g.columns.map fun c => Column.blank c.node c.name := by
    apply Array.ext_getElem?
    intro i
    simp only [Array.getElem?_map, Array.getElem?_modify]
    split
    · cases g.columns[i]? <;> simp [hf]
    · rfl
  simp only [shape, updateColumn, hcolumns]

@[simp] theorem shape_assign (v : Value) : (g.assign c v).shape = g.shape :=
  g.shape_updateColumn c fun _ => ⟨rfl, rfl⟩

@[simp] theorem shape_settle (v : Value) : (g.settle c v).shape = g.shape :=
  g.shape_updateColumn c fun _ => ⟨rfl, rfl⟩

@[simp] theorem shape_forget : (g.updateColumn c .forget).shape = g.shape :=
  g.shape_updateColumn c fun _ => ⟨rfl, rfl⟩

@[simp] theorem shape_setFresh (fresh : Bool) : (g.setFresh n fresh).shape = g.shape := by
  have hnodes : (g.nodes.modify n.index ({ · with fresh })).map
      (fun node => { node with fresh := false }) =
        g.nodes.map fun node => { node with fresh := false } := by
    apply Array.ext_getElem?
    intro i
    simp only [Array.getElem?_map, Array.getElem?_modify]
    split
    · cases g.nodes[i]? <;> simp
    · rfl
  simp only [shape, setFresh, updateNode, hnodes]

end

/-! ## Registrations -/

section
variable (g : Graph)

/-- A graph with one more column. -/
def withColumn (n : NodeId) (name : String) : Graph :=
  { g with
    columns := g.columns.push (.blank n name)
    nodes := g.nodes.modify n.index fun node =>
      { node with
        columns := node.columns ++ [⟨g.columns.size⟩]
        columnIndex := (name, ⟨g.columns.size⟩) :: node.columnIndex
        fresh := false } }

/-- A graph with one more node, joined to `parent`. -/
def withChild (parent : NodeId) (fk : ColumnId) (table childColumn : String) (key : Value) :
    Graph :=
  (g.addChild parent fk table childColumn key).2

end

section
variable {g : Graph} {n m : NodeId} {c d : ColumnId} {e : EdgeId} {name : String}

theorem addColumn_of_some (h : g.findColumn? n name = some c) : g.addColumn n name = (c, g) := by
  simp [addColumn, h]

theorem addColumn_of_none (h : g.findColumn? n name = none) :
    g.addColumn n name = (⟨g.columns.size⟩, g.withColumn n name) := by
  simp [addColumn, h, withColumn]

@[simp] theorem isNode_withColumn : (g.withColumn n name).IsNode m ↔ g.IsNode m := by
  simp [IsNode, withColumn]

theorem node?_withColumn : (g.withColumn n name).node? m =
    if n = m then (g.node? m).map fun node =>
      { node with
        columns := node.columns ++ [⟨g.columns.size⟩]
        columnIndex := (name, ⟨g.columns.size⟩) :: node.columnIndex
        fresh := false }
    else g.node? m := by
  have hnm : n = m ↔ n.index = m.index := by cases n; cases m; simp
  simp [node?, withColumn, Array.getElem?_modify, hnm]

theorem column?_withColumn : (g.withColumn n name).column? d =
    if d = ⟨g.columns.size⟩ then some (.blank n name) else g.column? d := by
  have hd : d = ⟨g.columns.size⟩ ↔ d.index = g.columns.size := by cases d; simp
  simp [column?, withColumn, Array.getElem?_push, hd]

theorem owner?_withColumn : (g.withColumn n name).owner? d =
    if d = ⟨g.columns.size⟩ then some n else g.owner? d := by
  rw [owner?, column?_withColumn]
  split <;> rfl

theorem name_withColumn : (g.withColumn n name).name d =
    if d = ⟨g.columns.size⟩ then name else g.name d := by
  rw [Graph.name, column?_withColumn]
  split <;> rfl

@[simp] theorem table_withColumn : (g.withColumn n name).table m = g.table m := by
  rw [table, node?_withColumn, table]
  split
  · cases g.node? m <;> rfl
  · rfl

@[simp] theorem edgeIds_withColumn : (g.withColumn n name).edgeIds m = g.edgeIds m := by
  rw [edgeIds, node?_withColumn, edgeIds]
  split
  · cases g.node? m <;> rfl
  · rfl

@[simp] theorem edgeIndexOf_withColumn :
    (g.withColumn n name).edgeIndexOf m = g.edgeIndexOf m := by
  rw [edgeIndexOf, node?_withColumn, edgeIndexOf]
  split
  · cases g.node? m <;> rfl
  · rfl

@[simp] theorem keyColumn?_withColumn : (g.withColumn n name).keyColumn? m = g.keyColumn? m := by
  rw [keyColumn?, node?_withColumn, keyColumn?]
  split
  · cases g.node? m <;> rfl
  · rfl

theorem columnsOf_withColumn (hn : g.IsNode n) : (g.withColumn n name).columnsOf m =
    if n = m then g.columnsOf m ++ [⟨g.columns.size⟩] else g.columnsOf m := by
  rw [columnsOf, node?_withColumn, columnsOf]
  split
  · next h =>
    subst h
    obtain ⟨node, hnode⟩ := hn.exists
    simp [hnode]
  · rfl

theorem columnIndexOf_withColumn (hn : g.IsNode n) : (g.withColumn n name).columnIndexOf m =
    if n = m then (name, ⟨g.columns.size⟩) :: g.columnIndexOf m else g.columnIndexOf m := by
  rw [columnIndexOf, node?_withColumn, columnIndexOf]
  split
  · next h =>
    subst h
    obtain ⟨node, hnode⟩ := hn.exists
    simp [hnode]
  · rfl

variable {table childColumn : String} {key : Value} {parent : NodeId} {fk : ColumnId}

theorem addChild_eq : g.addChild parent fk table childColumn key =
    (⟨g.nodes.size⟩, g.withChild parent fk table childColumn key) := rfl

@[simp] theorem isNode_withChild :
    (g.withChild parent fk table childColumn key).IsNode m ↔ g.IsNode m ∨ m = ⟨g.nodes.size⟩ := by
  have hm : m = ⟨g.nodes.size⟩ ↔ m.index = g.nodes.size := by cases m; simp
  simp only [IsNode, withChild, addChild, addNode, Array.size_modify, Array.size_push, hm]
  omega

theorem node?_withChild (hp : g.IsNode parent) :
    (g.withChild parent fk table childColumn key).node? m =
      if m = ⟨g.nodes.size⟩ then some ⟨table, ⟨g.columns.size⟩, [], [], [], [], decide key.IsBlank⟩
      else if parent = m then
        (g.node? m).map fun node =>
          { node with
            edges := node.edges ++ [⟨g.edges.size⟩]
            edgeIndex := (⟨table, childColumn, g.name fk⟩, ⟨g.edges.size⟩) :: node.edgeIndex }
      else g.node? m := by
  have hm : m = ⟨g.nodes.size⟩ ↔ m.index = g.nodes.size := by cases m; simp
  have hpm : parent = m ↔ parent.index = m.index := by cases parent; cases m; simp
  simp only [IsNode] at hp
  simp only [node?, withChild, addChild, addNode, Array.getElem?_modify, Array.getElem?_push,
    hm, hpm]
  split
  · split
    · omega
    · rfl
  · split <;> rfl

theorem column?_withChild : (g.withChild parent fk table childColumn key).column? d =
    if d = ⟨g.columns.size⟩ then
      some (if key.IsBlank then .blank ⟨g.nodes.size⟩ childColumn
        else (Column.blank ⟨g.nodes.size⟩ childColumn).assign key)
    else g.column? d := by
  have hd : d = ⟨g.columns.size⟩ ↔ d.index = g.columns.size := by cases d; simp
  simp only [column?, withChild, addChild, addNode, Array.getElem?_push, hd]

theorem edge?_withChild : (g.withChild parent fk table childColumn key).edge? e =
    if e = ⟨g.edges.size⟩ then some ⟨parent, fk, ⟨g.nodes.size⟩⟩ else g.edge? e := by
  have he : e = ⟨g.edges.size⟩ ↔ e.index = g.edges.size := by cases e; simp
  simp only [edge?, withChild, addChild, addNode, Array.getElem?_push, he]

theorem owner?_withChild : (g.withChild parent fk table childColumn key).owner? d =
    if d = ⟨g.columns.size⟩ then some ⟨g.nodes.size⟩ else g.owner? d := by
  rw [owner?, column?_withChild]
  split
  · split <;> rfl
  · rfl

theorem name_withChild : (g.withChild parent fk table childColumn key).name d =
    if d = ⟨g.columns.size⟩ then childColumn else g.name d := by
  rw [Graph.name, column?_withChild]
  split
  · split <;> rfl
  · rfl

theorem node?_size : g.node? ⟨g.nodes.size⟩ = none := by simp [node?]

theorem table_withChild (hp : g.IsNode parent) :
    (g.withChild parent fk table childColumn key).table m =
      if m = ⟨g.nodes.size⟩ then table else g.table m := by
  rw [Graph.table, node?_withChild hp, Graph.table]
  split
  · rfl
  · split
    · cases g.node? m <;> rfl
    · rfl

theorem keyColumn?_withChild (hp : g.IsNode parent) :
    (g.withChild parent fk table childColumn key).keyColumn? m =
      if m = ⟨g.nodes.size⟩ then some ⟨g.columns.size⟩ else g.keyColumn? m := by
  rw [keyColumn?, node?_withChild hp, keyColumn?]
  split
  · rfl
  · split
    · cases g.node? m <;> rfl
    · rfl

theorem columnsOf_withChild (hp : g.IsNode parent) :
    (g.withChild parent fk table childColumn key).columnsOf m = g.columnsOf m := by
  rw [columnsOf, node?_withChild hp, columnsOf]
  split
  · next h => rw [h, node?_size]; rfl
  · split
    · cases g.node? m <;> rfl
    · rfl

theorem edgeIds_withChild (hp : g.IsNode parent) :
    (g.withChild parent fk table childColumn key).edgeIds m =
      if parent = m then g.edgeIds m ++ [⟨g.edges.size⟩] else g.edgeIds m := by
  rw [edgeIds, node?_withChild hp, edgeIds]
  split
  · next h =>
    rw [h, node?_size, if_neg (by rintro rfl; simp [IsNode] at hp)]
    rfl
  · split
    · next h =>
      subst h
      obtain ⟨node, hnode⟩ := hp.exists
      simp [hnode]
    · rfl

theorem columnIndexOf_withChild (hp : g.IsNode parent) :
    (g.withChild parent fk table childColumn key).columnIndexOf m = g.columnIndexOf m := by
  rw [columnIndexOf, node?_withChild hp, columnIndexOf]
  split
  · next h => rw [h, node?_size]; rfl
  · split
    · cases g.node? m <;> rfl
    · rfl

theorem edgeIndexOf_withChild (hp : g.IsNode parent) :
    (g.withChild parent fk table childColumn key).edgeIndexOf m =
      if parent = m then
        (⟨table, childColumn, g.name fk⟩, ⟨g.edges.size⟩) :: g.edgeIndexOf m
      else g.edgeIndexOf m := by
  rw [edgeIndexOf, node?_withChild hp, edgeIndexOf]
  split
  · next h =>
    rw [h, node?_size, if_neg (by rintro rfl; simp [IsNode] at hp)]
    rfl
  · split
    · next h =>
      subst h
      obtain ⟨node, hnode⟩ := hp.exists
      simp [hnode]
    · rfl

end
end Graph
end RecordGraph
