import RecordGraph.Proofs.Keys
import RecordGraph.Proofs.WrittenNode

/-!
# Where the values of keys come from

A join copies its foreign key into the key of a new child, and a save copies the
key of a child back, so keys and foreign keys share their values. Such a value
was either given from outside, or it was written before, and then it has an exact
literal. The columns are those that are a key or a foreign key in the end, in a
graph `G` that the others grow into.
-/
namespace RecordGraph

/-- The value has an exact literal, or it was given. -/
def Value.Traced (given : Value → Prop) (v : Value) : Prop := v.IsWritable ∨ given v

/-- The value waits to be written, or is known to be in the database. -/
def Column.Has (col : Column) (v : Value) : Prop := col.pending = some v ∨ col.clean = some v

section
variable {col : Column} {v w : Value} {given : Value → Prop}

theorem Value.traced_null : Value.null.Traced given := .inl trivial

theorem Column.not_has_blank {n : NodeId} {name : String} : ¬ (Column.blank n name).Has v := by
  simp [Has, blank]

theorem Column.Has.of_assign (h : (col.assign w).Has v) : v = w ∨ col.Has v := by
  rcases h with h | h
  · exact .inl (Option.some.inj h).symm
  · exact .inr (.inr h)

theorem Column.Has.of_settle (h : (col.settle w).Has v) : v = w := by
  rcases h with h | h
  · cases h
  · exact (Option.some.inj h).symm

theorem Column.current_eq_null_or_has : col.current = .null ∨ col.Has col.current := by
  unfold current Has
  cases col.pending with
  | some v => exact .inr (.inl rfl)
  | none =>
    cases col.clean with
    | some v => exact .inr (.inr rfl)
    | none => exact .inl rfl

end

namespace Graph

/-- A key, or the foreign key of a join: its values name rows. -/
def NamesRow (g : Graph) (c : ColumnId) : Prop :=
  (∃ n, g.keyColumn? n = some c) ∨ ∃ e x, g.edge? e = some x ∧ x.foreignKey = c

/-- The columns that name rows in `G` have traced values only. -/
def Traced (g G : Graph) (given : Value → Prop) : Prop :=
  ∀ c col v, G.NamesRow c → g.column? c = some col → col.Has v → v.Traced given

section
variable {g g' G : Graph} {given : Value → Prop} {n m : NodeId} {c k : ColumnId}
  {columns : List ColumnId} {v id : Value}

theorem NamesRow.of_keyColumn? (h : g.keyColumn? n = some c) (hgrow : Grows g G) :
    G.NamesRow c :=
  .inl ⟨n, (hgrow.node (isNode_of_keyColumn? h)).2.2.trans h⟩

/-- A new record has no value but its key. -/
theorem traced_single {table keyName : String} {key : Value} (h : key.Traced given) :
    (Graph.single table keyName key).Traced G given := by
  intro c col v _ hcol hv
  have hc : c = ⟨0⟩ := by
    cases c with
    | mk i => cases i <;> simp [column?, Graph.single, addNode, Graph.empty] at hcol ⊢
  rw [hc, column?_single] at hcol
  obtain rfl := Option.some.inj hcol
  split at hv
  · exact absurd hv Column.not_has_blank
  · rcases hv.of_assign with rfl | hv
    · exact h
    · exact absurd hv Column.not_has_blank

namespace Traced

variable (h : g.Traced G given)

include h

theorem current (hc : G.NamesRow c) : (g.current c).Traced given := by
  unfold Graph.current
  cases hcol : g.column? c with
  | none => exact Value.traced_null
  | some col =>
    change col.current.Traced given
    rcases col.current_eq_null_or_has with hnull | hhas
    · rw [hnull]
      exact Value.traced_null
    · exact h c col _ hc hcol hhas

theorem key (hgrow : Grows g G) : (g.key n).Traced given := by
  unfold Graph.key
  cases hk : g.keyColumn? n with
  | none => exact Value.traced_null
  | some k => exact h.current (.of_keyColumn? hk hgrow)

/-! ## Changes -/

/-- A column changes so that it gets traced values only. -/
theorem updateColumn {f : Column → Column} (hf : G.NamesRow c → ∀ col v, g.column? c = some col →
    (f col).Has v → col.Has v ∨ v.Traced given) : (g.updateColumn c f).Traced G given := by
  intro d col v hd hcol hv
  rw [column?_updateColumn] at hcol
  by_cases hcd : c = d
  · subst hcd
    rw [if_pos rfl] at hcol
    obtain ⟨old, hold, rfl⟩ := Option.map_eq_some_iff.1 hcol
    exact (hf hd old v hold hv).elim (h c old v hd hold) id
  · rw [if_neg hcd] at hcol
    exact h d col v hd hcol hv

theorem assign (hv : G.NamesRow c → v.Traced given) : (g.assign c v).Traced G given := by
  refine h.updateColumn fun hc col w _ hw => ?_
  rcases hw.of_assign with rfl | hw
  · exact .inr (hv hc)
  · exact .inl hw

theorem settle (hv : G.NamesRow c → v.Traced given) : (g.settle c v).Traced G given := by
  refine h.updateColumn fun hc col w _ hw => ?_
  rw [hw.of_settle]
  exact .inr (hv hc)

theorem forget : (g.updateColumn c .forget).Traced G given :=
  h.updateColumn fun _ _ _ _ hv => by simp [Column.Has, Column.forget] at hv

theorem setFresh (n : NodeId) (fresh : Bool) : (g.setFresh n fresh).Traced G given := h

theorem withColumn {name : String} : (g.withColumn n name).Traced G given := by
  intro d col v hd hcol hv
  rw [column?_withColumn] at hcol
  split at hcol
  · obtain rfl := Option.some.inj hcol
    exact absurd hv Column.not_has_blank
  · exact h d col v hd hcol hv

theorem withChild {table childColumn : String} {fk : ColumnId} (hv : v.Traced given) :
    (g.withChild n fk table childColumn v).Traced G given := by
  intro d col w hd hcol hw
  rw [column?_withChild] at hcol
  split at hcol
  · obtain rfl := Option.some.inj hcol
    split at hw
    · exact absurd hw Column.not_has_blank
    · rcases hw.of_assign with rfl | hw
      · exact hv
      · exact absurd hw Column.not_has_blank
  · exact h d col w hd hcol hw

theorem link {e : Edge} (hgrow : Grows g G) : (g.link e).Traced G given :=
  h.assign fun _ => h.key hgrow

/-- The cells of a row that was read for columns that name rows are traced. -/
theorem settleRow {row : Row}
    (hrow : ∀ c ∈ columns, G.NamesRow c → (row.get (g.name c)).Traced given) :
    (g.settleRow columns row).Traced G given := by
  intro d col v hd hcol hv
  rw [column?_settleRow] at hcol
  split at hcol
  · next hmem =>
    obtain ⟨old, hold, rfl⟩ := Option.map_eq_some_iff.1 hcol
    have hname : g.name d = old.name := by simp [Graph.name, hold]
    rw [hv.of_settle, ← hname]
    exact hrow d hmem hd
  · exact h d col v hd hcol hv

theorem assignKey (hv : v.Traced given) : (g.assignKey n v).Traced G given := by
  unfold Graph.assignKey
  cases g.keyColumn? n with
  | none => exact h
  | some k => exact h.assign fun _ => hv

end Traced

/-- What is written has literals, so the key that takes it over has one. -/
theorem Traced.settleWritten (h : g.Traced G given) (hg : g.WellFormed)
    (hk : g.keyColumn? n = some k) (hcolumns : columns ⊆ g.columnsOf n) (hnodup : columns.Nodup)
    (hall : AllWritable (g.assignments columns)) : (g.settleWritten n columns).Traced G given := by
  induction columns generalizing g with
  | nil => exact h
  | cons c columns ih =>
    have hc : c ∈ g.columnsOf n := hcolumns (by simp)
    have hrest : columns ⊆ g.columnsOf n := fun x hx => hcolumns (by simp [hx])
    obtain ⟨hnot, hnodup⟩ := List.nodup_cons.1 hnodup
    have hshape : (g.settleOne n c).shape = g.shape := shape_settleOne
    have hcurrent : (g.current c).Traced given :=
      .inl (hall (g.name c, g.current c) (by simp [assignments_cons]))
    rw [settleWritten_cons]
    refine ih ?_ (hg.of_shape_eq hshape) ?_ ?_ hnodup ?_
    · unfold settleOne
      split
      · exact (h.assignKey hcurrent).settle fun _ => hcurrent
      · exact h.settle fun _ => hcurrent
    · rwa [keyColumn?_of_shape_eq hshape]
    · rwa [columnsOf_of_shape_eq hshape]
    · rw [assignments_settleOne hg hk hc hrest hnot]
      exact fun a ha => hall a (by simp [assignments_cons, ha])

theorem Traced.written (h : g.Traced G given) (hg : g.WellFormed) (hn : g.IsNode n)
    (hall : AllWritable (g.assignments (g.dirtyColumns n))) (hid : g.IsNew n → id.Traced given) :
    (g.written n id).Traced G given := by
  obtain ⟨k, hk, -⟩ := hg.key hn
  have hnodup := dirtyColumns_nodup (n := n) hg
  unfold Graph.written
  split
  · next hnew =>
    have hshape : (g.assignKey n id).shape = g.shape := shape_assignKey id
    have hk' : (g.assignKey n id).keyColumn? n = some k := by
      rwa [keyColumn?_of_shape_eq hshape]
    refine ((h.assignKey (hid hnew)).settleWritten (hg.of_shape_eq hshape) hk'
      dirtyColumns_subset_assignKey hnodup ?_).setFresh n true
    rwa [assignments_assignKey hg hk dirtyColumns_subset]
  · split
    · exact (h.settleWritten hg hk dirtyColumns_subset hnodup hall).setFresh n true
    · exact h

end
end Graph
end RecordGraph
