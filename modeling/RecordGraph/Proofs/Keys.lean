import RecordGraph.Proofs.Evolution

/-!
# Keys that stay

Reading and registering never touch the key of a node, so a node stays new, or
stays an existing one, with the key that it has. A record is opened with one node,
which has a key and nothing else.
-/
namespace RecordGraph.Graph

/-- Nothing is taken back, and the keys stay. -/
structure KeepsKeys (g g' : Graph) : Prop where
  grows : Grows g g'
  keys : ∀ {n k}, g.keyColumn? n = some k → g'.column? k = g.column? k

section
variable {g g' g'' : Graph} {n m : NodeId} {c d : ColumnId}

/-- The key decides. -/
theorem isNew_congr (hkey : g'.keyColumn? n = g.keyColumn? n)
    (hcolumn : ∀ {k}, g.keyColumn? n = some k → g'.column? k = g.column? k) :
    g'.IsNew n ↔ g.IsNew n := by
  rw [IsNew, IsNew, hkey]
  cases hk : g.keyColumn? n with
  | none => rfl
  | some k => rw [Option.bind_some, Option.bind_some, hcolumn hk]

namespace KeepsKeys

theorem refl (g : Graph) : KeepsKeys g g := ⟨.refl g, fun _ => rfl⟩

theorem trans (h : KeepsKeys g g') (h' : KeepsKeys g' g'') : KeepsKeys g g'' where
  grows := h.grows.trans h'.grows
  keys {n k} hk := by
    have hk' : g'.keyColumn? n = some k := (h.grows.node (isNode_of_keyColumn? hk)).2.2.trans hk
    rw [h'.keys hk', h.keys hk]

theorem key_eq (hg : g.WellFormed) (h : KeepsKeys g g') (hn : g.IsNode n) :
    g'.key n = g.key n := by
  obtain ⟨k, hk, -⟩ := hg.key hn
  rw [Graph.key_eq hk, Graph.key_eq ((h.grows.node hn).2.2.trans hk), current, h.keys hk, current]

theorem isNew_iff (h : KeepsKeys g g') (hn : g.IsNode n) : g'.IsNew n ↔ g.IsNew n :=
  isNew_congr (h.grows.node hn).2.2 h.keys

end KeepsKeys

/-! ## Registering -/

theorem keepsKeys_withColumn {name : String} (hg : g.WellFormed) (hn : g.IsNode n) :
    KeepsKeys g (g.withColumn n name) where
  grows := grows_withColumn hn
  keys hk := by rw [column?_withColumn, if_neg (ne_size_of_owner (hg.owner_of_keyColumn? hk))]

/-- A registered column is no key. -/
theorem keepsKeys_assign (hg : g.WellFormed) (hc : c ∈ g.columnsOf n) {v : Value} :
    KeepsKeys g (g.assign c v) where
  grows := .of_shape_eq (by simp)
  keys hk := by
    rw [column?_assign, if_neg]
    rintro rfl
    exact hg.notMem_columnsOf hk hc

section
variable {fk : ColumnId} {table childColumn : String} {key : Value}

theorem keepsKeys_withChild (hg : g.WellFormed) (hn : g.IsNode n) :
    KeepsKeys g (g.withChild n fk table childColumn key) where
  grows := grows_withChild hn
  keys hk := by rw [column?_withChild, if_neg (ne_size_of_owner (hg.owner_of_keyColumn? hk))]

theorem isNew_withChild (hn : g.IsNode n) :
    (g.withChild n fk table childColumn key).IsNew ⟨g.nodes.size⟩ ↔ key.IsBlank := by
  have hk : (g.withChild n fk table childColumn key).keyColumn? ⟨g.nodes.size⟩ =
      some ⟨g.columns.size⟩ := by rw [keyColumn?_withChild hn, if_pos rfl]
  rw [Graph.isNew_iff hk, column?_withChild, if_pos rfl]
  split
  · next h => simp [h, Column.IsDirty, Column.blank]
  · next h => simp [h, Column.IsDirty, Column.assign]

end

/-! ## Reading -/

/-- The columns of a row that was read have its values, the others are as before. -/
theorem column?_settleRow {columns : List ColumnId} {found : Row} :
    (g.settleRow columns found).column? d =
      if d ∈ columns then (g.column? d).map fun col => col.settle (found.get col.name)
      else g.column? d := by
  unfold settleRow
  induction columns generalizing g with
  | nil => rfl
  | cons c columns ih =>
    rw [List.foldl_cons, ih, column?_settle]
    by_cases hcd : c = d
    · subst hcd
      cases hcol : g.column? c with
      | none => simp
      | some col => simp [hcol, Graph.name, Column.settle]
    · rw [if_neg hcd]
      simp [Ne.symm hcd]

theorem node?_settleRow {columns : List ColumnId} {found : Row} :
    (g.settleRow columns found).node? n = g.node? n := by
  unfold settleRow
  induction columns generalizing g with
  | nil => rfl
  | cons c columns ih =>
    rw [List.foldl_cons, ih]
    rfl

theorem keepsKeys_setFresh (n : NodeId) (fresh : Bool) : KeepsKeys g (g.setFresh n fresh) :=
  ⟨.of_shape_eq (by simp), fun _ => rfl⟩

theorem keepsKeys_settleRow (hg : g.WellFormed) {columns : List ColumnId} {found : Row}
    (h : columns ⊆ g.columnsOf n) : KeepsKeys g (g.settleRow columns found) where
  grows := .of_shape_eq (revalues_settleRow h).2
  keys hk := by rw [column?_settleRow, if_neg fun hmem => hg.notMem_columnsOf hk (h hmem)]

theorem isFresh_setFresh {fresh : Bool} : (g.setFresh n fresh).IsFresh m ↔
    if n = m then fresh = true ∧ g.IsNode m else g.IsFresh m := by
  rw [IsFresh, setFresh, node?_updateNode, IsFresh, ← node?_isSome]
  split
  · cases g.node? m <;> simp
  · rfl

/-! ## A newly opened record -/

section
variable {table keyName : String} {key : Value}

theorem keyColumn?_single : (Graph.single table keyName key).keyColumn? Graph.root = some ⟨0⟩ := rfl

theorem column?_single : (Graph.single table keyName key).column? ⟨0⟩ =
    some (if key.IsBlank then .blank Graph.root keyName
      else (Column.blank Graph.root keyName).assign key) := rfl

theorem isNode_single : (Graph.single table keyName key).IsNode n ↔ n = Graph.root := by
  cases n
  simp [IsNode, Graph.single, addNode, Graph.empty, Graph.root]

theorem columnsOf_single : (Graph.single table keyName key).columnsOf n = [] := by
  cases n with
  | mk i => cases i <;> simp [columnsOf, node?, Graph.single, addNode, Graph.empty]

theorem edgesOf_single : (Graph.single table keyName key).edgesOf n = [] := by
  cases n with
  | mk i => cases i <;> simp [edgesOf, node?, Graph.single, addNode, Graph.empty]

theorem isNew_single : (Graph.single table keyName key).IsNew Graph.root ↔ key.IsBlank := by
  rw [Graph.isNew_iff keyColumn?_single, column?_single]
  split
  · next h => simp [h, Column.IsDirty, Column.blank]
  · next h => simp [h, Column.IsDirty, Column.assign]

end
end
end RecordGraph.Graph
