import RecordGraph.Proofs.Keys
import RecordGraph.Proofs.Walk

/-!
# Graphs that mirror a store

While nothing is written, a graph agrees with the store that it is read from:
every clean value is the value of its cell, and every child is the row that its
foreign key names. Reading a row and registering columns and joins keep this.
-/
namespace RecordGraph

namespace Graph

section
variable (g : Graph)

/-- The row that a node stands for. -/
def row (n : NodeId) : RowName := ⟨g.table n, g.keyMatch n⟩

/-- A join of `n` leads to the row that its foreign key names in the store. -/
def Leads (store : Store) (n : NodeId) (x : Edge) : Prop :=
  ∃ v, store.cell? (g.row n) (g.name x.foreignKey) = some v ∧
    (g.row x.child = (g.hop x).row v ∨ v.IsBlank ∧ (g.row x.child).IsBlank)

end

section
variable {g g' : Graph} {n m : NodeId}

theorem KeepsKeys.row_eq (hg : g.WellFormed) (h : KeepsKeys g g') (hn : g.IsNode n) :
    g'.row n = g.row n := by
  simp only [row, keyMatch, (h.grows.node hn).2.1, h.grows.keyName hg hn, h.key_eq hg hn]

/-- A blank key is not taken over. -/
theorem row_withChild {fk : ColumnId} {table childColumn : String} {key : Value} (hn : g.IsNode n) :
    (g.withChild n fk table childColumn key).row ⟨g.nodes.size⟩ =
      ⟨table, ⟨childColumn, if key.IsBlank then .null else key⟩⟩ := by
  have hk : (g.withChild n fk table childColumn key).keyColumn? ⟨g.nodes.size⟩ =
      some ⟨g.columns.size⟩ := by rw [keyColumn?_withChild hn, if_pos rfl]
  rw [row, keyMatch, table_withChild hn, if_pos rfl, keyName_eq hk, name_withChild, if_pos rfl,
    Graph.key_eq hk, current, column?_withChild, if_pos rfl]
  split <;> rfl

/-- Joins of the graph lead where they lead in the store. -/
theorem walk?_descend {store : Store} {column : String} {hops hops' : List Hop}
    (hg : g.WellFormed) (hleads : ∀ n x, x ∈ g.edgesOf n → g.Leads store n x)
    (hm : g.descend n hops = some m) :
    store.walk? (g.row n) column (hops ++ hops') = store.walk? (g.row m) column hops' := by
  induction hops generalizing n with
  | nil => rw [Option.some.inj hm, List.nil_append]
  | cons j hops ih =>
    obtain ⟨k, hk, hkm⟩ := Option.bind_eq_some_iff.1 hm
    obtain ⟨x, hx, rfl, rfl⟩ := hg.findChild?_mem hk
    obtain ⟨v, hv, hrow⟩ := hleads n x hx
    rw [List.cons_append, Store.walk?, ← ih hkm]
    change (store.cell? (g.row n) (g.name x.foreignKey)).bind _ = _
    rw [hv, Option.bind_some]
    rcases hrow with hrow | ⟨hblank, hblank'⟩
    · rw [hrow]
    · have hnone : ((g.hop x).row v).IsBlank := hblank
      rw [Store.walk?_of_blank hblank', Store.walk?_of_blank hnone]

end
end Graph

open RecordGraph.Graph

/-- A graph agrees with a store. With `complete`, moreover, every registered column has a
value in the store, so that no reading can fail. -/
structure Mirrors (store : Store) (complete : Prop) (g : Graph) : Prop where
  wellFormed : g.WellFormed
  new : ∀ {n}, g.IsNode n → (g.IsNew n ↔ (g.row n).IsBlank)
  pending : ∀ {n c col}, c ∈ g.columnsOf n → g.column? c = some col → col.pending = none
  clean : ∀ {n c col v}, c ∈ g.columnsOf n → g.column? c = some col → col.clean = some v →
    store.cell? (g.row n) col.name = some v
  fresh : ∀ {n c col}, c ∈ g.columnsOf n → g.column? c = some col → g.IsFresh n →
    ¬ g.IsNew n → col.clean.isSome
  complete : complete → ∀ {n c}, c ∈ g.columnsOf n →
    (store.cell? (g.row n) (g.name c)).isSome
  edge : ∀ {n x}, x ∈ g.edgesOf n → g.Leads store n x

namespace Mirrors

variable {store : Store} {complete : Prop} {g g' : Graph} {n : NodeId} {c : ColumnId}

theorem cleanColumns_eq (h : Mirrors store complete g) (n : NodeId) :
    g.cleanColumns n = g.columnsOf n := by
  refine List.filter_eq_self.2 fun c hc => ?_
  obtain ⟨col, hcol, -⟩ := column?_of_owner (h.wellFormed.column hc).1
  simp [IsDirty, hcol, Column.IsDirty, h.pending hc hcol]

/-- New values that agree with the store again. -/
theorem of_shape_eq (h : Mirrors store complete g) (hshape : g'.shape = g.shape)
    (hkeep : KeepsKeys g g')
    (hcolumn : ∀ {n c col}, c ∈ g.columnsOf n → g'.column? c = some col →
      col.pending = none ∧ (∀ v, col.clean = some v → store.cell? (g.row n) col.name = some v) ∧
        (g'.IsFresh n → ¬ g.IsNew n → col.clean.isSome)) : Mirrors store complete g' := by
  have hg' := h.wellFormed.of_shape_eq hshape
  have hnode {n} : g'.IsNode n ↔ g.IsNode n := isNode_of_shape_eq hshape _
  have hcolumns {n} : g'.columnsOf n = g.columnsOf n := columnsOf_of_shape_eq hshape _
  have hname {c} : g'.name c = g.name c := name_of_shape_eq hshape _
  have hrow {n} (hn : g.IsNode n) := hkeep.row_eq h.wellFormed hn
  have hmem {n c} (hc : c ∈ g'.columnsOf n) : c ∈ g.columnsOf n ∧ g.IsNode n := by
    rw [hcolumns] at hc
    exact ⟨hc, h.wellFormed.isNode_of_column hc⟩
  exact {
    wellFormed := hg'
    new := fun hn => by
      rw [hkeep.isNew_iff (hnode.1 hn), hrow (hnode.1 hn)]
      exact h.new (hnode.1 hn)
    pending := fun hc hcol => (hcolumn (hmem hc).1 hcol).1
    clean := fun hc hcol hv => by
      rw [hrow (hmem hc).2]
      exact (hcolumn (hmem hc).1 hcol).2.1 _ hv
    fresh := fun hc hcol hf hnew => by
      rw [hkeep.isNew_iff (hmem hc).2] at hnew
      exact (hcolumn (hmem hc).1 hcol).2.2 hf hnew
    complete := fun hcomplete n c hc => by
      rw [hrow (hmem hc).2, hname]
      exact h.complete hcomplete (hmem hc).1
    edge := fun {n x} hx => by
      rw [edgesOf_of_shape_eq hshape] at hx
      obtain ⟨e, -, rfl, hfk, hchild, -⟩ := h.wellFormed.edge_of_mem hx
      rw [Leads, hrow (h.wellFormed.isNode_of_column hfk), hname, hrow hchild,
        hop_of_shape_eq hshape]
      exact h.edge hx }

/-- A row without values to read is up to date. -/
theorem setFresh (h : Mirrors store complete g) (hn : g.IsNew n ∨ g.columnsOf n = []) :
    Mirrors store complete (g.setFresh n true) := by
  refine h.of_shape_eq (by simp) (keepsKeys_setFresh ..) fun {m c col} hc hcol => ?_
  refine ⟨h.pending hc hcol, fun v => h.clean hc hcol, fun hfresh hnew => ?_⟩
  rw [isFresh_setFresh] at hfresh
  split at hfresh
  · next hnm =>
    subst hnm
    rcases hn with hn | hn
    · exact absurd hn hnew
    · simp [hn] at hc
  · exact h.fresh hc hcol hfresh hnew

/-- A row that was read is up to date. -/
theorem settleRow (h : Mirrors store complete g) {found : Row}
    (hfound : ∀ c ∈ g.columnsOf n, store.cell? (g.row n) (g.name c) =
      some (found.get (g.name c))) :
    Mirrors store complete ((g.settleRow (g.columnsOf n) found).setFresh n true) := by
  have hshape : ((g.settleRow (g.columnsOf n) found).setFresh n true).shape = g.shape := by
    rw [shape_setFresh]
    exact (revalues_settleRow (List.Subset.refl _)).2
  have hkeep : KeepsKeys g ((g.settleRow (g.columnsOf n) found).setFresh n true) :=
    (keepsKeys_settleRow h.wellFormed (List.Subset.refl _)).trans (keepsKeys_setFresh ..)
  refine h.of_shape_eq hshape hkeep fun {m c col} hc hcol => ?_
  change (g.settleRow _ found).column? _ = _ at hcol
  rw [column?_settleRow] at hcol
  split at hcol
  · next hcn =>
    obtain rfl := Option.some.inj ((h.wellFormed.column hcn).1.symm.trans
      (h.wellFormed.column hc).1)
    obtain ⟨old, hold, rfl⟩ := Option.map_eq_some_iff.1 hcol
    refine ⟨rfl, fun v hv => ?_, fun _ _ => rfl⟩
    have hcell := hfound c hc
    rw [Graph.name, hold] at hcell
    exact hcell.trans hv
  · next hcn =>
    refine ⟨h.pending hc hcol, fun v => h.clean hc hcol, fun hfresh hnew => ?_⟩
    have hnm : n ≠ m := by
      rintro rfl
      exact hcn hc
    rw [isFresh_setFresh, if_neg hnm, IsFresh, node?_settleRow] at hfresh
    exact h.fresh hc hcol hfresh hnew

/-- A registered column is not known yet. -/
theorem withColumn (h : Mirrors store complete g) {name : String} (hn : g.IsNode n)
    (hnew : g.findColumn? n name = none)
    (hcell : complete → (store.cell? (g.row n) name).isSome) :
    Mirrors store complete (g.withColumn n name) := by
  have hg := h.wellFormed
  have hkeep : KeepsKeys g (g.withColumn n name) := keepsKeys_withColumn hg hn
  have hrow {m} (hm : g.IsNode m) := hkeep.row_eq hg hm
  have hmem {m c} (hc : c ∈ (g.withColumn n name).columnsOf m) :
      (c ∈ g.columnsOf m ∧ c ≠ ⟨g.columns.size⟩) ∨ (n = m ∧ c = ⟨g.columns.size⟩) := by
    rw [columnsOf_withColumn hn] at hc
    split at hc
    · next hnm =>
      rcases List.mem_append.1 hc with hc | hc
      · exact .inl ⟨hc, ne_size_of_owner (hg.column hc).1⟩
      · exact .inr ⟨hnm, List.mem_singleton.1 hc⟩
    · exact .inl ⟨hc, ne_size_of_owner (hg.column hc).1⟩
  exact {
    wellFormed := hg.withColumn hn hnew
    new := fun hm => by
      rw [isNode_withColumn] at hm
      rw [hkeep.isNew_iff hm, hrow hm]
      exact h.new hm
    pending := fun hc hcol => by
      rw [column?_withColumn] at hcol
      rcases hmem hc with ⟨hc, hne⟩ | ⟨rfl, rfl⟩
      · rw [if_neg hne] at hcol
        exact h.pending hc hcol
      · rw [if_pos rfl] at hcol
        rw [← Option.some.inj hcol]
        rfl
    clean := fun {m c col v} hc hcol hv => by
      rw [column?_withColumn] at hcol
      rcases hmem hc with ⟨hc, hne⟩ | ⟨rfl, rfl⟩
      · rw [if_neg hne] at hcol
        rw [hrow (hg.isNode_of_column hc)]
        exact h.clean hc hcol hv
      · rw [if_pos rfl] at hcol
        rw [← Option.some.inj hcol] at hv
        cases hv
    fresh := fun {m c col} hc hcol hfresh hnew => by
      rw [column?_withColumn] at hcol
      rw [IsFresh, node?_withColumn] at hfresh
      rcases hmem hc with ⟨hc, hne⟩ | ⟨rfl, rfl⟩
      · rw [hkeep.isNew_iff (hg.isNode_of_column hc)] at hnew
        rw [if_neg hne] at hcol
        split at hfresh
        · cases hnode : g.node? m <;> simp [hnode] at hfresh
        · exact h.fresh hc hcol hfresh hnew
      · rw [if_pos rfl] at hfresh
        cases hnode : g.node? n <;> simp [hnode] at hfresh
    complete := fun hcomplete m c hc => by
      rw [name_withColumn]
      rcases hmem hc with ⟨hc, hne⟩ | ⟨rfl, rfl⟩
      · rw [hrow (hg.isNode_of_column hc), if_neg hne]
        exact h.complete hcomplete hc
      · rw [hrow hn, if_pos rfl]
        exact hcell hcomplete
    edge := fun {m x} hx => by
      have hx' : x ∈ g.edgesOf m := by
        obtain ⟨e, he, hex⟩ := mem_edgesOf.1 hx
        exact mem_edgesOf.2 ⟨e, by rwa [edgeIds_withColumn] at he, hex⟩
      obtain ⟨e, he, rfl, hfk, hchild, -⟩ := hg.edge_of_mem hx'
      rw [Leads, hrow (hg.isNode_of_column hfk), (hkeep.grows.column (hg.column hfk).1).2,
        hrow hchild, hkeep.grows.hop hg he]
      exact h.edge hx' }

/-- A registered child is the row that its foreign key names. -/
theorem withChild (h : Mirrors store complete g) {fk : ColumnId} {table childColumn : String}
    {key : Value} (hfk : fk ∈ g.columnsOf n)
    (hnew : g.findChild? n ⟨table, childColumn, g.name fk⟩ = none)
    (hkey : store.cell? (g.row n) (g.name fk) = some key) :
    Mirrors store complete (g.withChild n fk table childColumn key) := by
  have hg := h.wellFormed
  have hn := hg.isNode_of_column hfk
  have hkeep : KeepsKeys g (g.withChild n fk table childColumn key) := keepsKeys_withChild hg hn
  have hrow {m} (hm : g.IsNode m) := hkeep.row_eq hg hm
  have hmem {m c} (hc : c ∈ (g.withChild n fk table childColumn key).columnsOf m) :
      c ∈ g.columnsOf m ∧ g.IsNode m ∧ c ≠ ⟨g.columns.size⟩ := by
    rw [columnsOf_withChild hn] at hc
    exact ⟨hc, hg.isNode_of_column hc, ne_size_of_owner (hg.column hc).1⟩
  have hg' : (g.withChild n fk table childColumn key).WellFormed := hg.withChild hfk hnew
  exact {
    wellFormed := hg'
    new := fun hm => by
      rcases isNode_withChild.1 hm with hm | rfl
      · rw [hkeep.isNew_iff hm, hrow hm]
        exact h.new hm
      · rw [isNew_withChild hn, row_withChild hn, RowName.IsBlank]
        split
        · next hblank => exact iff_of_true hblank trivial
        · rfl
    pending := fun hc hcol => by
      rw [column?_withChild, if_neg (hmem hc).2.2] at hcol
      exact h.pending (hmem hc).1 hcol
    clean := fun hc hcol hv => by
      rw [column?_withChild, if_neg (hmem hc).2.2] at hcol
      rw [hrow (hmem hc).2.1]
      exact h.clean (hmem hc).1 hcol hv
    fresh := fun {m c col} hc hcol hfresh hnew => by
      obtain ⟨hc, hm, hne⟩ := hmem hc
      rw [column?_withChild, if_neg hne] at hcol
      rw [hkeep.isNew_iff hm] at hnew
      rw [IsFresh, node?_withChild hn, if_neg hm.ne_size] at hfresh
      refine h.fresh hc hcol ?_ hnew
      split at hfresh
      · cases hnode : g.node? m <;> simp [IsFresh, hnode] at hfresh ⊢
        exact hfresh
      · exact hfresh
    complete := fun hcomplete m c hc => by
      obtain ⟨hc, hm, hne⟩ := hmem hc
      rw [hrow hm, name_withChild, if_neg hne]
      exact h.complete hcomplete hc
    edge := fun {m x} hx => by
      obtain ⟨e, he, rfl, -, -, -⟩ := hg'.edge_of_mem hx
      rw [edge?_withChild] at he
      split at he
      · -- the join that was added leads to the row of `key`
        obtain rfl := Option.some.inj he
        rw [Leads, hrow hn, (hkeep.grows.column (hg.column hfk).1).2, hg.hop_withChild hfk,
          row_withChild hn]
        refine ⟨key, hkey, ?_⟩
        split
        · next hblank => exact .inr ⟨hblank, trivial⟩
        · exact .inl rfl
      · obtain ⟨hchild, -⟩ := hg.child he
        have hx' := hg.mem_edgesOf_parent he
        obtain ⟨-, -, -, hfk', -, -⟩ := hg.edge_of_mem hx'
        rw [Leads, hrow (hg.isNode_of_column hfk'), (hkeep.grows.column (hg.column hfk').1).2,
          hrow hchild, hkeep.grows.hop hg he]
        exact h.edge hx' }

/-- What is known of an up-to-date row is what the store has. -/
theorem current_eq (h : Mirrors store complete g) (hc : c ∈ g.columnsOf n) (hfresh : g.IsFresh n) :
    store.cell? (g.row n) (g.name c) = some (g.current c) := by
  have hn := h.wellFormed.isNode_of_column hc
  obtain ⟨col, hcol, -⟩ := column?_of_owner (h.wellFormed.column hc).1
  have hname : g.name c = col.name := by simp [Graph.name, hcol]
  have hcurrent : g.current c = col.clean.getD .null := by
    simp [Graph.current, hcol, Column.current, h.pending hc hcol]
  rw [hname, hcurrent]
  by_cases hnew : g.IsNew n
  · have hnull : store.cell? (g.row n) col.name = some .null :=
      Store.cell?_of_blank ((h.new hn).1 hnew)
    cases hv : col.clean with
    | none => exact hnull
    | some v => exact h.clean hc hcol hv
  · obtain ⟨v, hv⟩ := Option.isSome_iff_exists.1 (h.fresh hc hcol hfresh hnew)
    rw [hv]
    exact h.clean hc hcol hv

theorem walk?_descend (h : Mirrors store complete g) {m : NodeId} {column : String}
    {hops hops' : List Hop} (hm : g.descend n hops = some m) :
    store.walk? (g.row n) column (hops ++ hops') = store.walk? (g.row m) column hops' :=
  Graph.walk?_descend h.wellFormed (fun _ _ => h.edge) hm

end Mirrors

section
variable {table keyName : String} {key : Value}

theorem row_single : (Graph.single table keyName key).row Graph.root =
    ⟨table, ⟨keyName, if key.IsBlank then .null else key⟩⟩ := by
  rw [row, keyMatch, keyName_eq keyColumn?_single, Graph.key_eq keyColumn?_single, name, current,
    column?_single]
  split <;> rfl

end

/-- A graph of one node knows nothing but a key. -/
theorem mirrors_single (store : Store) (complete : Prop) (table keyName : String) (key : Value) :
    Mirrors store complete (Graph.single table keyName key) where
  wellFormed := wellFormed_single table keyName key
  new hn := by
    rw [isNode_single.1 hn, isNew_single, row_single, RowName.IsBlank]
    split
    · next h => exact iff_of_true h trivial
    · rfl
  pending hc := by simp [columnsOf_single] at hc
  clean hc := by simp [columnsOf_single] at hc
  fresh hc := by simp [columnsOf_single] at hc
  complete _ _ _ hc := by simp [columnsOf_single] at hc
  edge hx := by simp [edgesOf_single] at hx

end RecordGraph
