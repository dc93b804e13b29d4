import RecordGraph.Proofs.PostOrder

/-!
# Graphs are trees

What the lists of a well-formed graph say of each other: every id is the id of
something, a column is held in one place and a join too, an index holds what its
list holds, and every node but the root hangs on one join.
-/
namespace RecordGraph.Graph

section
variable (g : Graph)

def IsColumn (c : ColumnId) : Prop := c.index < g.columns.size

def IsEdge (e : EdgeId) : Prop := e.index < g.edges.size

/-- How often a node holds a column, as its key or in its list. -/
def timesHeld (n : NodeId) (c : ColumnId) : ℕ :=
  (g.keyColumn? n).toList.count c + (g.columnsOf n).count c

/-- Whatever id is stored, something has it. -/
structure InRange : Prop where
  root : g.IsNode root
  key : ∀ node ∈ g.nodes, g.IsColumn node.key
  columns : ∀ node ∈ g.nodes, ∀ c ∈ node.columns, g.IsColumn c
  columnIndex : ∀ node ∈ g.nodes, ∀ entry ∈ node.columnIndex, g.IsColumn entry.2
  edges : ∀ node ∈ g.nodes, ∀ e ∈ node.edges, g.IsEdge e
  edgeIndex : ∀ node ∈ g.nodes, ∀ entry ∈ node.edgeIndex, g.IsEdge entry.2
  owner : ∀ col ∈ g.columns, g.IsNode col.node
  ends : ∀ x ∈ g.edges, g.IsNode x.parent ∧ g.IsColumn x.foreignKey ∧ g.IsNode x.child

/-- The lists of a graph make it a tree. The key of a column in an index is its name, the key
of a join is the table and the key name of its child with the name of its foreign key. -/
structure IsTree : Prop where
  inRange : g.InRange
  held : ∀ c col, g.column? c = some col → ∀ n, g.timesHeld n c = if n = col.node then 1 else 0
  names : ∀ n, ((g.columnsOf n).map g.name).Nodup
  columnKeys : ∀ n, ((g.columnIndexOf n).map Prod.fst).Nodup
  columnIndex : ∀ n name c, g.findColumn? n name = some c ↔ c ∈ g.columnsOf n ∧ g.name c = name
  listed : ∀ e x, g.edge? e = some x → ∀ n, (g.edgeIds n).count e = if n = x.parent then 1 else 0
  foreignKey : ∀ e x, g.edge? e = some x →
    x.foreignKey ∈ g.columnsOf x.parent ∧ g.keyColumn? x.parent ≠ some x.foreignKey
  edgeKeys : ∀ n, ((g.edgeIndexOf n).map Prod.fst).Nodup
  edgeEntries : ∀ n, ((g.edgeIndexOf n).map Prod.snd).Perm (g.edgeIds n)
  edgeIndex : ∀ e x, g.edge? e = some x → (g.edgeIndexOf x.parent).lookup
    ⟨g.table x.child, g.keyName x.child, g.name x.foreignKey⟩ = some e
  joined : ∀ n, g.IsNode n → n ≠ root → ∃! e, ∃ x, g.edge? e = some x ∧ x.child = n
  order : ∀ e x, g.edge? e = some x → x.parent.index < x.child.index

end

/-! ## Ids -/

section
variable {g : Graph} {n : NodeId} {c : ColumnId} {e : EdgeId} {x : Edge}

theorem exists_node?_of_mem {node : Node} (h : node ∈ g.nodes) : ∃ n, g.node? n = some node := by
  obtain ⟨i, hi, rfl⟩ := Array.mem_iff_getElem.1 h
  exact ⟨⟨i⟩, Array.getElem?_eq_getElem hi⟩

theorem exists_column?_of_mem {col : Column} (h : col ∈ g.columns) :
    ∃ c, g.column? c = some col := by
  obtain ⟨i, hi, rfl⟩ := Array.mem_iff_getElem.1 h
  exact ⟨⟨i⟩, Array.getElem?_eq_getElem hi⟩

theorem exists_edge?_of_mem (h : x ∈ g.edges) : ∃ e, g.edge? e = some x := by
  obtain ⟨i, hi, rfl⟩ := Array.mem_iff_getElem.1 h
  exact ⟨⟨i⟩, Array.getElem?_eq_getElem hi⟩

namespace WellFormed

variable (hg : g.WellFormed)

include hg

theorem inRange : g.InRange where
  root := hg.root
  key node hnode := by
    obtain ⟨n, hn⟩ := exists_node?_of_mem hnode
    have hk : g.keyColumn? n = some node.key := by rw [keyColumn?, hn, Option.map_some]
    exact lt_of_owner (hg.owner_of_keyColumn? hk)
  columns node hnode c hc := by
    obtain ⟨n, hn⟩ := exists_node?_of_mem hnode
    have hmem : c ∈ g.columnsOf n := by rwa [columnsOf, hn]
    exact lt_of_owner (hg.column hmem).1
  columnIndex node hnode entry hentry := by
    obtain ⟨n, hn⟩ := exists_node?_of_mem hnode
    have hmem : (entry.1, entry.2) ∈ g.columnIndexOf n := by rwa [columnIndexOf, hn]
    exact lt_of_owner (hg.column (hg.mem_columnIndexOf.1 hmem).1).1
  edges node hnode e he := by
    obtain ⟨n, hn⟩ := exists_node?_of_mem hnode
    have hmem : e ∈ g.edgeIds n := by rwa [edgeIds, hn]
    obtain ⟨x, hx, -⟩ := hg.edge hmem
    exact lt_of_edge hx
  edgeIndex node hnode entry hentry := by
    obtain ⟨n, hn⟩ := exists_node?_of_mem hnode
    have hmem : (entry.1, entry.2) ∈ g.edgeIndexOf n := by rwa [edgeIndexOf, hn]
    obtain ⟨-, x, hx, -⟩ := hg.mem_edgeIndexOf.1 hmem
    exact lt_of_edge hx
  owner col hcol := by
    obtain ⟨c, hc⟩ := exists_column?_of_mem hcol
    have howner : g.owner? c = some col.node := by rw [owner?, hc, Option.map_some]
    exact (hg.owner howner).1
  ends x hx := by
    obtain ⟨e, he⟩ := exists_edge?_of_mem hx
    have hfk := (hg.listed he).2
    exact ⟨hg.isNode_of_column hfk, lt_of_owner (hg.column hfk).1, (hg.child he).1⟩

/-! ## Places -/

theorem timesHeld_eq {m : NodeId} (hc : g.owner? c = some m) (n : NodeId) :
    g.timesHeld n c = if n = m then 1 else 0 := by
  have hlist : (g.columnsOf n).count c = if c ∈ g.columnsOf n then 1 else 0 :=
    (hg.columns_nodup n).count
  have hkey : (g.keyColumn? n).toList.count c = if g.keyColumn? n = some c then 1 else 0 := by
    cases g.keyColumn? n with
    | none => simp
    | some k => simp [List.count_singleton]
  rw [timesHeld, hlist, hkey]
  by_cases hn : n = m
  · subst hn
    obtain ⟨-, hk | hmem⟩ := hg.owner hc
    · rw [if_pos hk, if_neg (hg.notMem_columnsOf hk), if_pos rfl]
    · rw [if_neg (hg.column hmem).2, if_pos hmem, if_pos rfl]
  · have hk : g.keyColumn? n ≠ some c := by
      intro hk
      have howner := hg.owner_of_keyColumn? hk
      exact hn (Option.some.inj (howner.symm.trans hc))
    have hmem : c ∉ g.columnsOf n := fun hmem =>
      hn (Option.some.inj ((hg.column hmem).1.symm.trans hc))
    rw [if_neg hk, if_neg hmem, if_neg hn]

theorem count_edgeIds (hx : g.edge? e = some x) (n : NodeId) :
    (g.edgeIds n).count e = if n = x.parent then 1 else 0 := by
  rw [(hg.edges_nodup n).count]
  by_cases hn : n = x.parent
  · rw [if_pos (hn ▸ (hg.listed hx).1), if_pos hn]
  · have hmem : e ∉ g.edgeIds n := by
      intro hmem
      obtain ⟨y, hy, rfl⟩ := hg.edge hmem
      obtain rfl := Option.some.inj (hx.symm.trans hy)
      exact hn rfl
    rw [if_neg hmem, if_neg hn]

/-! ## Indexes -/

theorem names_nodup (n : NodeId) : ((g.columnsOf n).map g.name).Nodup := by
  rw [List.nodup_map_iff_inj_on (hg.columns_nodup n)]
  intro c hc d hd hname
  exact hg.names hc hd hname

theorem columnKeys_nodup (n : NodeId) : ((g.columnIndexOf n).map Prod.fst).Nodup := by
  rw [hg.columnIndex, List.map_reverse, List.nodup_reverse, List.map_map]
  exact hg.names_nodup n

theorem findColumn?_eq_some {name : String} :
    g.findColumn? n name = some c ↔ c ∈ g.columnsOf n ∧ g.name c = name := by
  constructor
  · exact hg.findColumn?_mem
  · rintro ⟨hc, rfl⟩
    exact hg.findColumn?_eq hc

/-- The joins of a node with their keys, in order of registration. -/
theorem reverse_edgeIndexOf (n : NodeId) : (g.edgeIndexOf n).reverse =
    (g.edgeIds n).filterMap fun e => (g.edge? e).map fun x => (g.hop x, e) := by
  rw [hg.edgeIndex, List.reverse_reverse]

theorem edgeEntries_perm (n : NodeId) :
    ((g.edgeIndexOf n).map Prod.snd).Perm (g.edgeIds n) := by
  have hentries : ((g.edgeIndexOf n).map Prod.snd).reverse = g.edgeIds n := by
    rw [← List.map_reverse, hg.reverse_edgeIndexOf, List.map_filterMap]
    have hsome : ∀ e ∈ g.edgeIds n,
        ((g.edge? e).map fun x => (g.hop x, e)).map Prod.snd = some e := by
      intro e he
      obtain ⟨x, hx, -⟩ := hg.edge he
      rw [hx, Option.map_some, Option.map_some]
    rw [List.filterMap_congr hsome]
    exact List.filterMap_some
  rw [← hentries]
  exact (List.reverse_perm _).symm

theorem edgeKeys_nodup (n : NodeId) : ((g.edgeIndexOf n).map Prod.fst).Nodup := by
  have hkeys : ((g.edgeIndexOf n).map Prod.fst).reverse = (g.edgesOf n).map g.hop := by
    rw [← List.map_reverse, hg.reverse_edgeIndexOf, edgesOf_eq, List.map_filterMap,
      List.map_filterMap]
    simp only [Option.map_map, Function.comp_def]
  rw [← List.nodup_reverse, hkeys, List.nodup_map_iff_inj_on (hg.edgesOf_nodup n)]
  intro x hx y hy hhop
  obtain ⟨e, he, hxn, -⟩ := hg.edge_of_mem hx
  obtain ⟨f, hf, hyn, -⟩ := hg.edge_of_mem hy
  obtain rfl := hg.hops he hf (hxn.trans hyn.symm) hhop
  exact Option.some.inj (he.symm.trans hf)

theorem isTree : g.IsTree where
  inRange := hg.inRange
  held c col hc n := hg.timesHeld_eq (by rw [owner?, hc, Option.map_some]) n
  names := hg.names_nodup
  columnKeys := hg.columnKeys_nodup
  columnIndex _ _ _ := hg.findColumn?_eq_some
  listed _ _ hx n := hg.count_edgeIds hx n
  foreignKey _ _ hx := ⟨(hg.listed hx).2, (hg.column (hg.listed hx).2).2⟩
  edgeKeys := hg.edgeKeys_nodup
  edgeEntries := hg.edgeEntries_perm
  edgeIndex _ _ hx := hg.lookup_edgeIndexOf hx
  joined n hn hroot := by
    obtain ⟨e, x, hx, hchild⟩ := hg.joined hn hroot
    refine ⟨e, ⟨x, hx, hchild⟩, ?_⟩
    rintro f ⟨y, hy, hychild⟩
    exact hg.children hy hx (hychild.trans hchild.symm)
  order _ _ hx := (hg.child hx).2

end WellFormed
end
end RecordGraph.Graph
