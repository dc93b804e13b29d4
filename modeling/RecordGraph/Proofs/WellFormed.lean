import Mathlib.Data.List.Infix
import Mathlib.Data.Nat.Basic
import Mathlib.Logic.Relation
import Mathlib.Order.Basic
import RecordGraph.Proofs.Shape

/-!
# Well-formed graphs

A graph is a tree of rows: each column belongs to one node, and each node but
the root is joined to one parent, which was registered before it. Graphs change
by six kinds of steps; each keeps this, and none takes anything back.
-/
namespace RecordGraph.Graph

structure WellFormed (g : Graph) : Prop where
  root : g.IsNode root
  key : ∀ {n}, g.IsNode n → ∃ c, g.keyColumn? n = some c ∧ g.owner? c = some n
  column : ∀ {n c}, c ∈ g.columnsOf n → g.owner? c = some n ∧ g.keyColumn? n ≠ some c
  columns_sorted : ∀ n, (g.columnsOf n).Pairwise fun c d => c.index < d.index
  names : ∀ {n c d}, c ∈ g.columnsOf n → d ∈ g.columnsOf n → g.name c = g.name d → c = d
  owner : ∀ {c n}, g.owner? c = some n →
    g.IsNode n ∧ (g.keyColumn? n = some c ∨ c ∈ g.columnsOf n)
  edge : ∀ {n e}, e ∈ g.edgeIds n → ∃ x, g.edge? e = some x ∧ x.parent = n
  edges_sorted : ∀ n, (g.edgeIds n).Pairwise fun e f => e.index < f.index
  listed : ∀ {e x}, g.edge? e = some x → e ∈ g.edgeIds x.parent ∧
    x.foreignKey ∈ g.columnsOf x.parent
  child : ∀ {e x}, g.edge? e = some x → g.IsNode x.child ∧ x.parent.index < x.child.index
  hops : ∀ {e f x y}, g.edge? e = some x → g.edge? f = some y → x.parent = y.parent →
    g.hop x = g.hop y → e = f
  children : ∀ {e f x y}, g.edge? e = some x → g.edge? f = some y → x.child = y.child → e = f
  joined : ∀ {n}, g.IsNode n → n ≠ Graph.root → ∃ e x, g.edge? e = some x ∧ x.child = n
  columnIndex : ∀ n, g.columnIndexOf n = ((g.columnsOf n).map fun c => (g.name c, c)).reverse
  edgeIndex : ∀ n, g.edgeIndexOf n =
    ((g.edgeIds n).filterMap fun e => (g.edge? e).map fun x => (g.hop x, e)).reverse

/-- One change of a graph. The key of a node is never settled or forgotten. -/
inductive Step : Graph → Graph → Prop
  | column {g : Graph} {n : NodeId} {name : String} (hn : g.IsNode n)
      (hnew : g.findColumn? n name = none) : Step g (g.withColumn n name)
  | child {g : Graph} {n : NodeId} {fk : ColumnId} {table childColumn : String} (key : Value)
      (hfk : fk ∈ g.columnsOf n)
      (hnew : g.findChild? n ⟨table, childColumn, g.name fk⟩ = none) :
      Step g (g.withChild n fk table childColumn key)
  | assign (g : Graph) (c : ColumnId) (v : Value) : Step g (g.assign c v)
  | settle {g : Graph} {n : NodeId} {c : ColumnId} (v : Value) (hc : c ∈ g.columnsOf n) :
      Step g (g.settle c v)
  | forget {g : Graph} {n : NodeId} {c : ColumnId} (hc : c ∈ g.columnsOf n) :
      Step g (g.updateColumn c .forget)
  | setFresh (g : Graph) (n : NodeId) (fresh : Bool) : Step g (g.setFresh n fresh)

/-- Changes one after the other. -/
def Evolves : Graph → Graph → Prop := Relation.ReflTransGen Step

/-- Nothing of `g` was taken back: `g'` is `g` with more at the end of its lists. -/
structure Grows (g g' : Graph) : Prop where
  node : ∀ {n}, g.IsNode n → g'.IsNode n ∧ g'.table n = g.table n ∧
    g'.keyColumn? n = g.keyColumn? n
  column : ∀ {c n}, g.owner? c = some n → g'.owner? c = some n ∧ g'.name c = g.name c
  columns : ∀ n, g.columnsOf n <+: g'.columnsOf n
  edges : ∀ n, g.edgeIds n <+: g'.edgeIds n
  edge : ∀ {e x}, g.edge? e = some x → g'.edge? e = some x

/-! ## Consequences of the invariant -/

section
variable {g : Graph} {n : NodeId} {c : ColumnId} {x : Edge}

theorem mem_edgesOf : x ∈ g.edgesOf n ↔ ∃ e ∈ g.edgeIds n, g.edge? e = some x := by
  rw [edgesOf_eq, List.mem_filterMap]

namespace WellFormed

theorem mem_columnIndexOf (hg : g.WellFormed) {name : String} :
    (name, c) ∈ g.columnIndexOf n ↔ c ∈ g.columnsOf n ∧ g.name c = name := by
  rw [hg.columnIndex, List.mem_reverse, List.mem_map]
  constructor
  · rintro ⟨d, hd, heq⟩
    cases heq
    exact ⟨hd, rfl⟩
  · rintro ⟨hc, rfl⟩
    exact ⟨c, hc, rfl⟩

theorem mem_edgeIndexOf (hg : g.WellFormed) {h : Hop} {e : EdgeId} :
    (h, e) ∈ g.edgeIndexOf n ↔ e ∈ g.edgeIds n ∧ ∃ x, g.edge? e = some x ∧ g.hop x = h := by
  rw [hg.edgeIndex, List.mem_reverse, List.mem_filterMap]
  constructor
  · rintro ⟨f, hf, heq⟩
    obtain ⟨x, hx, heq⟩ := Option.map_eq_some_iff.1 heq
    cases heq
    exact ⟨hf, x, hx, rfl⟩
  · rintro ⟨he, x, hx, rfl⟩
    exact ⟨e, he, by rw [hx, Option.map_some]⟩

theorem findColumn?_eq_none (hg : g.WellFormed) {name : String} :
    g.findColumn? n name = none ↔ ∀ c ∈ g.columnsOf n, g.name c ≠ name := by
  rw [findColumn?, List.lookup_eq_none_iff]
  constructor
  · intro h c hc hname
    have hne := h (name, c) (hg.mem_columnIndexOf.2 ⟨hc, hname⟩)
    simp at hne
  · rintro h ⟨name', c⟩ hmem
    obtain ⟨hc, rfl⟩ := hg.mem_columnIndexOf.1 hmem
    simpa using (h c hc).symm

theorem findColumn?_mem (hg : g.WellFormed) {name : String} (h : g.findColumn? n name = some c) :
    c ∈ g.columnsOf n ∧ g.name c = name := by
  exact hg.mem_columnIndexOf.1 (mem_of_lookup h)

theorem findChild?_mem (hg : g.WellFormed) {h : Hop} {m : NodeId}
    (hm : g.findChild? n h = some m) : ∃ x ∈ g.edgesOf n, g.hop x = h ∧ x.child = m := by
  obtain ⟨e, he, hm⟩ := Option.bind_eq_some_iff.1 hm
  obtain ⟨x, hx, rfl⟩ := Option.map_eq_some_iff.1 hm
  obtain ⟨hmem, y, hy, hhop⟩ := hg.mem_edgeIndexOf.1 (mem_of_lookup he)
  obtain rfl := Option.some.inj (hx.symm.trans hy)
  exact ⟨x, mem_edgesOf.2 ⟨e, hmem, hx⟩, hhop, rfl⟩

theorem findColumn?_eq (hg : g.WellFormed) (hc : c ∈ g.columnsOf n) :
    g.findColumn? n (g.name c) = some c := by
  cases h : g.findColumn? n (g.name c) with
  | none => exact absurd rfl (hg.findColumn?_eq_none.1 h c hc)
  | some d =>
    obtain ⟨hd, hname⟩ := hg.findColumn?_mem h
    rw [hg.names hd hc hname]

theorem columns_nodup (hg : g.WellFormed) (n : NodeId) : (g.columnsOf n).Nodup :=
  (hg.columns_sorted n).imp fun h hcd => by simp [hcd] at h

theorem edges_nodup (hg : g.WellFormed) (n : NodeId) : (g.edgeIds n).Nodup :=
  (hg.edges_sorted n).imp fun h hef => by simp [hef] at h

theorem isNode_of_column (hg : g.WellFormed) (hc : c ∈ g.columnsOf n) : g.IsNode n :=
  (hg.owner (hg.column hc).1).1

theorem eq_of_mem_columnsOf (hg : g.WellFormed) {m : NodeId} (hc : c ∈ g.columnsOf n)
    (hc' : c ∈ g.columnsOf m) : n = m :=
  Option.some.inj ((hg.column hc).1.symm.trans (hg.column hc').1)

theorem owner_of_keyColumn? (hg : g.WellFormed) {k : ColumnId} (hk : g.keyColumn? n = some k) :
    g.owner? k = some n := by
  obtain ⟨k', hk', hn⟩ := hg.key (isNode_of_keyColumn? hk)
  rwa [Option.some.inj (hk.symm.trans hk')]

theorem notMem_columnsOf (hg : g.WellFormed) {m : NodeId} {k : ColumnId}
    (hk : g.keyColumn? n = some k) : k ∉ g.columnsOf m := by
  intro hmem
  obtain ⟨hm, hne⟩ := hg.column hmem
  obtain rfl := Option.some.inj ((hg.owner_of_keyColumn? hk).symm.trans hm)
  exact hne hk

theorem edge_of_mem (hg : g.WellFormed) (hx : x ∈ g.edgesOf n) :
    ∃ e, g.edge? e = some x ∧ x.parent = n ∧ x.foreignKey ∈ g.columnsOf n ∧
      g.IsNode x.child ∧ n.index < x.child.index := by
  obtain ⟨e, he, hex⟩ := mem_edgesOf.1 hx
  obtain ⟨y, hy, rfl⟩ := hg.edge he
  obtain rfl : x = y := Option.some.inj (hex.symm.trans hy)
  exact ⟨e, hex, rfl, (hg.listed hex).2, hg.child hex⟩

theorem mem_edgesOf_parent (hg : g.WellFormed) {e : EdgeId} (hx : g.edge? e = some x) :
    x ∈ g.edgesOf x.parent :=
  mem_edgesOf.2 ⟨e, (hg.listed hx).1, hx⟩

/-- A join is indexed by how it joins, and by nothing else. -/
theorem lookup_edgeIndexOf (hg : g.WellFormed) {e : EdgeId} (hx : g.edge? e = some x) :
    (g.edgeIndexOf x.parent).lookup (g.hop x) = some e := by
  have hmem := hg.mem_edgeIndexOf.2 ⟨(hg.listed hx).1, x, hx, rfl⟩
  cases hlookup : (g.edgeIndexOf x.parent).lookup (g.hop x) with
  | none =>
    have hne := List.lookup_eq_none_iff.1 hlookup _ hmem
    simp at hne
  | some f =>
    obtain ⟨hf, y, hy, hhop⟩ := hg.mem_edgeIndexOf.1 (mem_of_lookup hlookup)
    obtain ⟨y', hy', hparent⟩ := hg.edge hf
    obtain rfl := Option.some.inj (hy.symm.trans hy')
    rw [hg.hops hy hx hparent hhop]

theorem findChild?_eq (hg : g.WellFormed) (hx : x ∈ g.edgesOf n) :
    g.findChild? n (g.hop x) = some x.child := by
  obtain ⟨e, he, rfl, -⟩ := hg.edge_of_mem hx
  rw [findChild?, hg.lookup_edgeIndexOf he, Option.bind_some, he, Option.map_some]

theorem findChild?_eq_none (hg : g.WellFormed) {h : Hop} :
    g.findChild? n h = none ↔ ∀ x ∈ g.edgesOf n, g.hop x ≠ h := by
  constructor
  · rintro hnone x hx rfl
    rw [hg.findChild?_eq hx] at hnone
    cases hnone
  · intro h
    cases hfind : g.findChild? n _ with
    | none => rfl
    | some m =>
      obtain ⟨x, hx, hhop, -⟩ := hg.findChild?_mem hfind
      exact absurd hhop (h x hx)

/-- The shape decides. -/
theorem of_shape_eq {g' : Graph} (hg : g.WellFormed) (h : g'.shape = g.shape) :
    g'.WellFormed := by
  have hnode (n) : g'.IsNode n ↔ g.IsNode n := isNode_of_shape_eq h _
  have hkey (n) : g'.keyColumn? n = g.keyColumn? n := keyColumn?_of_shape_eq h _
  have howner (c) : g'.owner? c = g.owner? c := owner?_of_shape_eq h _
  have hcolumns (n) : g'.columnsOf n = g.columnsOf n := columnsOf_of_shape_eq h _
  have hname (c) : g'.name c = g.name c := name_of_shape_eq h _
  have hedges (n) : g'.edgeIds n = g.edgeIds n := edgeIds_of_shape_eq h _
  have hedge (e) : g'.edge? e = g.edge? e := edge?_of_shape_eq h _
  have hhop (x) : g'.hop x = g.hop x := hop_of_shape_eq h _
  have hcolumnIndex (n) : g'.columnIndexOf n = g.columnIndexOf n := columnIndexOf_of_shape_eq h _
  have hedgeIndex (n) : g'.edgeIndexOf n = g.edgeIndexOf n := edgeIndexOf_of_shape_eq h _
  exact {
    root := (hnode _).2 hg.root
    key := fun hn => by simpa only [hkey, howner] using hg.key ((hnode _).1 hn)
    column := fun hc => by
      rw [hcolumns] at hc
      simpa only [hkey, howner] using hg.column hc
    columns_sorted := fun n => (hcolumns n).symm ▸ hg.columns_sorted n
    names := fun hc hd hcd => by
      rw [hcolumns] at hc hd
      rw [hname, hname] at hcd
      exact hg.names hc hd hcd
    owner := fun hc => by
      rw [howner] at hc
      simpa only [hnode, hkey, hcolumns] using hg.owner hc
    edge := fun he => by
      rw [hedges] at he
      simpa only [hedge] using hg.edge he
    edges_sorted := fun n => (hedges n).symm ▸ hg.edges_sorted n
    listed := fun he => by
      rw [hedge] at he
      simpa only [hedges, hcolumns] using hg.listed he
    child := fun he => by
      rw [hedge] at he
      simpa only [hnode] using hg.child he
    hops := fun he hf hp hh => by
      rw [hedge] at he hf
      rw [hhop, hhop] at hh
      exact hg.hops he hf hp hh
    children := fun he hf hxy => by
      rw [hedge] at he hf
      exact hg.children he hf hxy
    joined := fun hn hr => by simpa only [hedge] using hg.joined ((hnode _).1 hn) hr
    columnIndex := fun n => by simpa only [hcolumnIndex, hcolumns, hname] using hg.columnIndex n
    edgeIndex := fun n => by simpa only [hedgeIndex, hedges, hedge, hhop] using hg.edgeIndex n }

end WellFormed
end

/-! ## Growth -/

section
variable {g g' g'' : Graph} {n : NodeId} {c : ColumnId}

theorem Grows.refl (g : Graph) : Grows g g where
  node h := ⟨h, rfl, rfl⟩
  column h := ⟨h, rfl⟩
  columns _ := List.prefix_refl _
  edges _ := List.prefix_refl _
  edge h := h

theorem Grows.trans (h : Grows g g') (h' : Grows g' g'') : Grows g g'' where
  node hn := by
    obtain ⟨hn', ht, hk⟩ := h.node hn
    obtain ⟨hn'', ht', hk'⟩ := h'.node hn'
    exact ⟨hn'', ht'.trans ht, hk'.trans hk⟩
  column hc := by
    obtain ⟨hc', hname⟩ := h.column hc
    obtain ⟨hc'', hname'⟩ := h'.column hc'
    exact ⟨hc'', hname'.trans hname⟩
  columns n := (h.columns n).trans (h'.columns n)
  edges n := (h.edges n).trans (h'.edges n)
  edge he := h'.edge (h.edge he)

theorem Grows.of_shape_eq (h : g'.shape = g.shape) : Grows g g' where
  node {n} hn := by
    refine ⟨?_, ?_, ?_⟩
    · rwa [isNode_of_shape_eq h]
    · rw [table_of_shape_eq h]
    · rw [keyColumn?_of_shape_eq h]
  column {c n} hc := by
    refine ⟨?_, ?_⟩
    · rwa [owner?_of_shape_eq h]
    · rw [name_of_shape_eq h]
  columns n := by rw [columnsOf_of_shape_eq h n]
  edges n := by rw [edgeIds_of_shape_eq h n]
  edge {e x} he := by rwa [edge?_of_shape_eq h]

theorem ne_size_of_owner (h : g.owner? c = some n) : c ≠ ⟨g.columns.size⟩ := by
  rintro rfl
  exact absurd (lt_of_owner h) (lt_irrefl _)

theorem ne_size_of_edge {e : EdgeId} {x : Edge} (h : g.edge? e = some x) :
    e ≠ ⟨g.edges.size⟩ := by
  rintro rfl
  exact absurd (lt_of_edge h) (lt_irrefl _)

theorem IsNode.ne_size (h : g.IsNode n) : n ≠ ⟨g.nodes.size⟩ := by
  rintro rfl
  exact absurd h (lt_irrefl _)

theorem grows_withColumn {name : String} (hn : g.IsNode n) : Grows g (g.withColumn n name) where
  node hm := ⟨isNode_withColumn.2 hm, table_withColumn, keyColumn?_withColumn⟩
  column hc := by
    rw [owner?_withColumn, name_withColumn, if_neg (ne_size_of_owner hc),
      if_neg (ne_size_of_owner hc)]
    exact ⟨hc, rfl⟩
  columns m := by
    rw [columnsOf_withColumn hn]
    split
    · exact List.prefix_append _ _
    · exact List.prefix_refl _
  edges m := by rw [edgeIds_withColumn]
  edge he := he

theorem grows_withChild {fk : ColumnId} {table childColumn : String} {key : Value}
    (hn : g.IsNode n) : Grows g (g.withChild n fk table childColumn key) where
  node hm := by
    rw [table_withChild hn, keyColumn?_withChild hn, if_neg hm.ne_size, if_neg hm.ne_size]
    exact ⟨isNode_withChild.2 (.inl hm), rfl, rfl⟩
  column hc := by
    rw [owner?_withChild, name_withChild, if_neg (ne_size_of_owner hc),
      if_neg (ne_size_of_owner hc)]
    exact ⟨hc, rfl⟩
  columns m := by rw [columnsOf_withChild hn]
  edges m := by
    rw [edgeIds_withChild hn]
    split
    · exact List.prefix_append _ _
    · exact List.prefix_refl _
  edge he := by rwa [edge?_withChild, if_neg (ne_size_of_edge he)]

/-- A step that registers nothing keeps the shape. -/
theorem Step.grows (hg : g.WellFormed) (h : Step g g') : Grows g g' := by
  cases h with
  | column hn _ => exact grows_withColumn hn
  | child key hfk _ => exact grows_withChild (hg.isNode_of_column hfk)
  | assign c v => exact .of_shape_eq (by simp)
  | settle v _ => exact .of_shape_eq (by simp)
  | forget _ => exact .of_shape_eq (by simp)
  | setFresh n fresh => exact .of_shape_eq (by simp)

namespace Grows

theorem keyName (hg : g.WellFormed) (h : Grows g g') (hn : g.IsNode n) :
    g'.keyName n = g.keyName n := by
  obtain ⟨k, hk, hkn⟩ := hg.key hn
  rw [keyName_eq ((h.node hn).2.2.trans hk), keyName_eq hk, (h.column hkn).2]

theorem hop (hg : g.WellFormed) (h : Grows g g') {e : EdgeId} {x : Edge}
    (hx : g.edge? e = some x) : g'.hop x = g.hop x := by
  have hchild := (hg.child hx).1
  have hfk := (hg.column (hg.listed hx).2).1
  simp only [Graph.hop, (h.node hchild).2.1, h.keyName hg hchild, (h.column hfk).2]

/-- What is indexed keeps its entry. -/
theorem map_columnsOf (hg : g.WellFormed) (h : Grows g g') (n : NodeId) :
    ((g.columnsOf n).map fun c => (g'.name c, c)) = (g.columnsOf n).map fun c => (g.name c, c) :=
  List.map_congr_left fun c hc => by rw [(h.column (hg.column hc).1).2]

theorem filterMap_edgeIds (hg : g.WellFormed) (h : Grows g g') (n : NodeId) :
    ((g.edgeIds n).filterMap fun e => (g'.edge? e).map fun x => (g'.hop x, e)) =
      (g.edgeIds n).filterMap fun e => (g.edge? e).map fun x => (g.hop x, e) := by
  refine List.filterMap_congr fun e he => ?_
  obtain ⟨x, hx, -⟩ := hg.edge he
  rw [hx, h.edge hx, Option.map_some, Option.map_some, h.hop hg hx]

end Grows

/-! ## Steps keep the invariant -/

theorem WellFormed.withColumn {name : String} (hg : g.WellFormed) (hn : g.IsNode n)
    (hnew : g.findColumn? n name = none) : (g.withColumn n name).WellFormed := by
  have hgrow : Grows g (g.withColumn n name) := grows_withColumn hn
  have hmem {m d} : d ∈ (g.withColumn n name).columnsOf m ↔
      d ∈ g.columnsOf m ∨ (n = m ∧ d = ⟨g.columns.size⟩) := by
    rw [columnsOf_withColumn hn]
    split
    · next h => simp [h]
    · next h => simp [h]
  have hold {m d} (h : d ∈ g.columnsOf m) : d ≠ ⟨g.columns.size⟩ :=
    ne_size_of_owner (hg.column h).1
  exact {
    root := isNode_withColumn.2 hg.root
    key := fun {m} hm => by
      obtain ⟨k, hk, hkm⟩ := hg.key (isNode_withColumn.1 hm)
      exact ⟨k, keyColumn?_withColumn.trans hk, (hgrow.column hkm).1⟩
    column := fun {m d} hd => by
      rw [keyColumn?_withColumn]
      rcases hmem.1 hd with hd | ⟨rfl, rfl⟩
      · exact ⟨(hgrow.column (hg.column hd).1).1, (hg.column hd).2⟩
      · refine ⟨by rw [owner?_withColumn, if_pos rfl], fun hk => ?_⟩
        obtain ⟨k, hk', hkn⟩ := hg.key hn
        obtain rfl := Option.some.inj (hk'.symm.trans hk)
        exact ne_size_of_owner hkn rfl
    columns_sorted := fun m => by
      rw [columnsOf_withColumn hn]
      split
      · refine List.pairwise_append.2 ⟨hg.columns_sorted m, List.pairwise_singleton .., ?_⟩
        intro d hd d' hd'
        rw [List.mem_singleton.1 hd']
        exact lt_of_owner (hg.column hd).1
      · exact hg.columns_sorted m
    names := fun {m d d'} hd hd' hname => by
      rw [name_withColumn, name_withColumn] at hname
      have hfree := hg.findColumn?_eq_none.1 hnew
      rcases hmem.1 hd with hd | ⟨rfl, rfl⟩ <;> rcases hmem.1 hd' with hd' | ⟨hm, rfl⟩
      · rw [if_neg (hold hd), if_neg (hold hd')] at hname
        exact hg.names hd hd' hname
      · subst hm
        rw [if_neg (hold hd), if_pos rfl] at hname
        exact absurd hname (hfree d hd)
      · rw [if_pos rfl, if_neg (hold hd')] at hname
        exact absurd hname.symm (hfree d' hd')
      · rfl
    owner := fun {d m} hd => by
      rw [owner?_withColumn] at hd
      rw [isNode_withColumn, keyColumn?_withColumn, hmem]
      split at hd
      · next h =>
        obtain rfl := Option.some.inj hd
        exact ⟨hn, .inr (.inr ⟨rfl, h⟩)⟩
      · exact ⟨(hg.owner hd).1, (hg.owner hd).2.imp_right .inl⟩
    edge := fun he => by
      rw [edgeIds_withColumn] at he
      exact hg.edge he
    edges_sorted := fun m => by
      rw [edgeIds_withColumn]
      exact hg.edges_sorted m
    listed := fun {e x} he => by
      rw [edgeIds_withColumn]
      exact ⟨(hg.listed he).1, hmem.2 (.inl (hg.listed he).2)⟩
    child := fun he => ⟨isNode_withColumn.2 (hg.child he).1, (hg.child he).2⟩
    hops := fun {e f x y} he hf hp hh => by
      rw [hgrow.hop hg he, hgrow.hop hg hf] at hh
      exact hg.hops he hf hp hh
    children := hg.children
    joined := fun hm hr => hg.joined (isNode_withColumn.1 hm) hr
    columnIndex := fun m => by
      rw [columnIndexOf_withColumn hn, columnsOf_withColumn hn, hg.columnIndex]
      split
      · rw [List.map_append, hgrow.map_columnsOf hg, List.reverse_append, List.map_singleton,
          name_withColumn, if_pos rfl, List.reverse_singleton, List.singleton_append]
      · rw [hgrow.map_columnsOf hg]
    edgeIndex := fun m => by
      rw [edgeIndexOf_withColumn, edgeIds_withColumn, hg.edgeIndex, hgrow.filterMap_edgeIds hg] }

theorem WellFormed.hop_withChild {fk : ColumnId} {table childColumn : String} {key : Value}
    (hg : g.WellFormed) (hfk : fk ∈ g.columnsOf n) :
    (g.withChild n fk table childColumn key).hop ⟨n, fk, ⟨g.nodes.size⟩⟩ =
      ⟨table, childColumn, g.name fk⟩ := by
  have hn := hg.isNode_of_column hfk
  have hk : (g.withChild n fk table childColumn key).keyColumn? ⟨g.nodes.size⟩ =
      some ⟨g.columns.size⟩ := by rw [keyColumn?_withChild hn, if_pos rfl]
  simp only [Graph.hop, table_withChild hn, keyName_eq hk, name_withChild, if_pos,
    if_neg (ne_size_of_owner (hg.column hfk).1)]

theorem WellFormed.withChild {fk : ColumnId} {table childColumn : String} {key : Value}
    (hg : g.WellFormed) (hfk : fk ∈ g.columnsOf n)
    (hnew : g.findChild? n ⟨table, childColumn, g.name fk⟩ = none) :
    (g.withChild n fk table childColumn key).WellFormed := by
  have hn := hg.isNode_of_column hfk
  have hgrow : Grows g (g.withChild n fk table childColumn key) := grows_withChild hn
  have hmem {m e} : e ∈ (g.withChild n fk table childColumn key).edgeIds m ↔
      e ∈ g.edgeIds m ∨ (n = m ∧ e = ⟨g.edges.size⟩) := by
    rw [edgeIds_withChild hn]
    split
    · next h => simp [h]
    · next h => simp [h]
  have hedge {e x} : (g.withChild n fk table childColumn key).edge? e = some x ↔
      g.edge? e = some x ∨ (e = ⟨g.edges.size⟩ ∧ x = ⟨n, fk, ⟨g.nodes.size⟩⟩) := by
    rw [edge?_withChild]
    split
    · next h =>
      rw [Option.some.injEq, eq_comm]
      exact ⟨fun hx => .inr ⟨h, hx⟩, fun hx => hx.elim (absurd h <| ne_size_of_edge ·) And.right⟩
    · next h => simp [h]
  have hfresh {f y} (hf : g.edge? f = some y) (hy : y.parent = n) :
      (g.withChild n fk table childColumn key).hop y ≠
        (g.withChild n fk table childColumn key).hop ⟨n, fk, ⟨g.nodes.size⟩⟩ := by
    subst hy
    rw [hgrow.hop hg hf, hg.hop_withChild hfk]
    exact hg.findChild?_eq_none.1 hnew y (hg.mem_edgesOf_parent hf)
  exact {
    root := isNode_withChild.2 (.inl hg.root)
    key := fun {m} hm => by
      rw [keyColumn?_withChild hn]
      rcases isNode_withChild.1 hm with hm | rfl
      · obtain ⟨k, hk, hkm⟩ := hg.key hm
        exact ⟨k, by rwa [if_neg hm.ne_size], (hgrow.column hkm).1⟩
      · exact ⟨⟨g.columns.size⟩, if_pos rfl, by rw [owner?_withChild, if_pos rfl]⟩
    column := fun {m d} hd => by
      rw [columnsOf_withChild hn] at hd
      rw [keyColumn?_withChild hn, if_neg (hg.isNode_of_column hd).ne_size]
      exact ⟨(hgrow.column (hg.column hd).1).1, (hg.column hd).2⟩
    columns_sorted := fun m => by
      rw [columnsOf_withChild hn]
      exact hg.columns_sorted m
    names := fun {m d d'} hd hd' hname => by
      rw [columnsOf_withChild hn] at hd hd'
      rw [(hgrow.column (hg.column hd).1).2, (hgrow.column (hg.column hd').1).2] at hname
      exact hg.names hd hd' hname
    owner := fun {d m} hd => by
      rw [owner?_withChild] at hd
      rw [isNode_withChild, keyColumn?_withChild hn, columnsOf_withChild hn]
      split at hd
      · next h =>
        obtain rfl := Option.some.inj hd
        exact ⟨.inr rfl, .inl (by rw [if_pos rfl, h])⟩
      · obtain ⟨hm, hd⟩ := hg.owner hd
        rw [if_neg hm.ne_size]
        exact ⟨.inl hm, hd⟩
    edge := fun {m e} he => by
      rcases hmem.1 he with he | ⟨rfl, rfl⟩
      · obtain ⟨x, hx, hxm⟩ := hg.edge he
        exact ⟨x, hgrow.edge hx, hxm⟩
      · exact ⟨_, hedge.2 (.inr ⟨rfl, rfl⟩), rfl⟩
    edges_sorted := fun m => by
      rw [edgeIds_withChild hn]
      split
      · refine List.pairwise_append.2 ⟨hg.edges_sorted m, List.pairwise_singleton .., ?_⟩
        intro e he e' he'
        rw [List.mem_singleton.1 he']
        obtain ⟨x, hx, -⟩ := hg.edge he
        exact lt_of_edge hx
      · exact hg.edges_sorted m
    listed := fun {e x} he => by
      rw [hmem, columnsOf_withChild hn]
      rcases hedge.1 he with he | ⟨rfl, rfl⟩
      · exact ⟨.inl (hg.listed he).1, (hg.listed he).2⟩
      · exact ⟨.inr ⟨rfl, rfl⟩, hfk⟩
    child := fun {e x} he => by
      rcases hedge.1 he with he | ⟨rfl, rfl⟩
      · exact ⟨isNode_withChild.2 (.inl (hg.child he).1), (hg.child he).2⟩
      · exact ⟨isNode_withChild.2 (.inr rfl), hn⟩
    hops := fun {e f x y} he hf hp hh => by
      rcases hedge.1 he with he | ⟨rfl, rfl⟩ <;> rcases hedge.1 hf with hf | ⟨rfl, rfl⟩
      · rw [hgrow.hop hg he, hgrow.hop hg hf] at hh
        exact hg.hops he hf hp hh
      · exact absurd hh (hfresh he hp)
      · exact absurd hh.symm (hfresh hf hp.symm)
      · rfl
    children := fun {e f x y} he hf hxy => by
      rcases hedge.1 he with he | ⟨rfl, rfl⟩ <;> rcases hedge.1 hf with hf | ⟨rfl, rfl⟩
      · exact hg.children he hf hxy
      · exact absurd hxy (hg.child he).1.ne_size
      · exact absurd hxy.symm (hg.child hf).1.ne_size
      · rfl
    joined := fun {m} hm hr => by
      rcases isNode_withChild.1 hm with hm | rfl
      · obtain ⟨e, x, he, hx⟩ := hg.joined hm hr
        exact ⟨e, x, hgrow.edge he, hx⟩
      · exact ⟨_, _, hedge.2 (.inr ⟨rfl, rfl⟩), rfl⟩
    columnIndex := fun m => by
      rw [columnIndexOf_withChild hn, columnsOf_withChild hn, hg.columnIndex,
        hgrow.map_columnsOf hg]
    edgeIndex := fun m => by
      rw [edgeIndexOf_withChild hn, edgeIds_withChild hn, hg.edgeIndex]
      split
      · have hlast : (g.withChild n fk table childColumn key).edge? ⟨g.edges.size⟩ =
            some ⟨n, fk, ⟨g.nodes.size⟩⟩ := hedge.2 (.inr ⟨rfl, rfl⟩)
        rw [List.filterMap_append, hgrow.filterMap_edgeIds hg, List.reverse_append,
          List.filterMap_cons, hlast, Option.map_some, hg.hop_withChild hfk]
        rfl
      · rw [hgrow.filterMap_edgeIds hg] }

theorem WellFormed.findChild?_withChild {fk : ColumnId} {table childColumn : String} {key : Value}
    (hg : g.WellFormed) (hfk : fk ∈ g.columnsOf n)
    (hnew : g.findChild? n ⟨table, childColumn, g.name fk⟩ = none) :
    (g.withChild n fk table childColumn key).findChild? n ⟨table, childColumn, g.name fk⟩ =
      some ⟨g.nodes.size⟩ := by
  have hedge : (g.withChild n fk table childColumn key).edge? ⟨g.edges.size⟩ =
      some ⟨n, fk, ⟨g.nodes.size⟩⟩ := by rw [edge?_withChild, if_pos rfl]
  have hg' : (g.withChild n fk table childColumn key).WellFormed := hg.withChild hfk hnew
  have hhop : (g.withChild n fk table childColumn key).hop ⟨n, fk, ⟨g.nodes.size⟩⟩ =
      ⟨table, childColumn, g.name fk⟩ := hg.hop_withChild hfk
  rw [← hhop]
  exact hg'.findChild?_eq (hg'.mem_edgesOf_parent hedge)

theorem Step.wellFormed (hg : g.WellFormed) (h : Step g g') : g'.WellFormed := by
  cases h with
  | column hn hnew => exact hg.withColumn hn hnew
  | child key hfk hnew => exact hg.withChild hfk hnew
  | assign c v => exact hg.of_shape_eq (by simp)
  | settle v _ => exact hg.of_shape_eq (by simp)
  | forget _ => exact hg.of_shape_eq (by simp)
  | setFresh n fresh => exact hg.of_shape_eq (by simp)

theorem wellFormed_single (table keyName : String) (key : Value) :
    (single table keyName key).WellFormed := by
  have hnode {n} : (single table keyName key).IsNode n ↔ n = Graph.root := by
    cases n
    simp [IsNode, single, addNode, empty, Graph.root]
  have hroot : (single table keyName key).node? Graph.root =
      some ⟨table, ⟨0⟩, [], [], [], [], decide key.IsBlank⟩ := rfl
  have howner {c} : (single table keyName key).owner? c =
      if c = ⟨0⟩ then some Graph.root else none := by
    have hc : c = ⟨0⟩ ↔ c.index = 0 := by cases c; simp
    have hcolumn : (single table keyName key).column? c =
        if c.index = 0 then some (if key.IsBlank then .blank ⟨0⟩ keyName
          else (Column.blank ⟨0⟩ keyName).assign key) else none := by
      cases c with
      | mk i => cases i <;> simp [column?, single, addNode, empty]
    rw [owner?, hcolumn]
    simp only [hc]
    split
    · split <;> rfl
    · rfl
  have hcolumns (n) : (single table keyName key).columnsOf n = [] := by
    by_cases hn : n = Graph.root
    · rw [hn, columnsOf, hroot]; rfl
    · rw [columnsOf, node?_eq_none.2 (fun h => hn (hnode.1 h))]; rfl
  have hedges (n) : (single table keyName key).edgeIds n = [] := by
    by_cases hn : n = Graph.root
    · rw [hn, edgeIds, hroot]; rfl
    · rw [edgeIds, node?_eq_none.2 (fun h => hn (hnode.1 h))]; rfl
  have hcolumnIndex (n) : (single table keyName key).columnIndexOf n = [] := by
    by_cases hn : n = Graph.root
    · rw [hn, columnIndexOf, hroot]; rfl
    · rw [columnIndexOf, node?_eq_none.2 (fun h => hn (hnode.1 h))]; rfl
  have hedgeIndex (n) : (single table keyName key).edgeIndexOf n = [] := by
    by_cases hn : n = Graph.root
    · rw [hn, edgeIndexOf, hroot]; rfl
    · rw [edgeIndexOf, node?_eq_none.2 (fun h => hn (hnode.1 h))]; rfl
  have hkey : (single table keyName key).keyColumn? Graph.root = some ⟨0⟩ := rfl
  have hedge {e x} : (single table keyName key).edge? e ≠ some x := by
    simp [edge?, single, addNode, empty]
  exact {
    root := hnode.2 rfl
    key := fun hn => ⟨⟨0⟩, by rw [hnode.1 hn, hkey], by rw [howner, if_pos rfl, hnode.1 hn]⟩
    column := fun hc => by simp [hcolumns] at hc
    columns_sorted := fun n => by simp [hcolumns]
    names := fun hc => by simp [hcolumns] at hc
    owner := fun {c n} hc => by
      rw [howner] at hc
      split at hc
      · next h =>
        obtain rfl := Option.some.inj hc
        exact ⟨hnode.2 rfl, .inl (h ▸ hkey)⟩
      · cases hc
    edge := fun he => by simp [hedges] at he
    edges_sorted := fun n => by simp [hedges]
    listed := fun he => absurd he hedge
    child := fun he => absurd he hedge
    hops := fun he => absurd he hedge
    children := fun he => absurd he hedge
    joined := fun hn hr => absurd (hnode.1 hn) hr
    columnIndex := fun n => by rw [hcolumns, hcolumnIndex]; rfl
    edgeIndex := fun n => by rw [hedges, hedgeIndex]; rfl }

/-! ## Changes one after the other -/

theorem Evolves.refl (g : Graph) : Evolves g g := Relation.ReflTransGen.refl

theorem Evolves.trans (h : Evolves g g') (h' : Evolves g' g'') : Evolves g g'' :=
  Relation.ReflTransGen.trans h h'

theorem Step.evolves (h : Step g g') : Evolves g g' := Relation.ReflTransGen.single h

theorem Evolves.wellFormed (h : Evolves g g') (hg : g.WellFormed) : g'.WellFormed := by
  induction h with
  | refl => exact hg
  | tail _ hstep ih => exact hstep.wellFormed ih

theorem Evolves.grows (h : Evolves g g') (hg : g.WellFormed) : Grows g g' := by
  induction h with
  | refl => exact .refl g
  | tail hrun hstep ih => exact ih.trans (hstep.grows (Evolves.wellFormed hrun hg))

end
end RecordGraph.Graph
