import RecordGraph.Proofs.Outcome
import RecordGraph.Proofs.Shape

/-!
# Following joins

A path is followed join by join: the foreign key of a join is registered first,
and then the join itself. Plain tables, tables with a join of their own and
joins inside of foreign keys are all followed in this way, so what is proved of
following holds of every path.
-/
namespace RecordGraph.Action

variable {σ : Type} (b : Backend σ) {n : NodeId} {hops hops' : List Hop}

/-- The node that joins lead to, registered where it is missing. -/
def follow (n : NodeId) : List Hop → Action σ NodeId
  | [] => return n
  | h :: hops => do
    let fk ← addColumn n h.foreignKey
    let child ← joinFrom b fk h.table h.childColumn
    follow child hops

theorem follow_append :
    follow b n (hops ++ hops') = follow b n hops >>= fun m => follow b m hops' := by
  induction hops generalizing n with
  | nil => rw [List.nil_append, follow, pure_bind]
  | cons h hops ih => simp only [List.cons_append, follow, bind_assoc, ih]

/-- A join is followed by the last of its foreign key. -/
theorem follow_concat {h : Hop} : follow b n (hops ++ [h]) =
    (follow b n hops >>= fun m => addColumn m h.foreignKey) >>= fun fk =>
      joinFrom b fk h.table h.childColumn := by
  simp only [follow_append, follow, bind_assoc, bind_pure]

/-- The column of a path stands behind all joins of the path. -/
theorem registerColumn_eq (p : ColumnPath) : registerColumn b n p =
    follow b n p.hops >>= fun m => addColumn m p.target := by
  induction p generalizing n with
  | column name => rw [ColumnPath.hops, follow, pure_bind, registerColumn, ColumnPath.target]
  | through table rest ih =>
    simp only [registerColumn, ColumnPath.hops, ColumnPath.target, follow, bind_assoc, ih]
  | joined table childColumn foreignKey rest ihfk ih =>
    rw [ColumnPath.hops, List.append_cons, follow_append, follow_concat, ← ihfk, registerColumn]
    simp only [ih, ColumnPath.target, bind_assoc]

/-- A table stands behind the joins of its foreign key and its own. -/
theorem registerTable_eq (t : TableSpec) : registerTable b n t = follow b n t.hops := by
  rw [TableSpec.hops, follow_concat, ← registerColumn_eq, registerTable]

theorem registerTables_eq (ts : List TableSpec) :
    ts.foldlM (registerTable b) n = follow b n (ts.flatMap TableSpec.hops) := by
  induction ts generalizing n with
  | nil => rfl
  | cons t ts ih => simp only [List.foldlM_cons, List.flatMap_cons, follow_append,
      registerTable_eq, ih]

/-! ## Paths -/

section
variable {s : Session σ} {path : String} {fail : Error → Session σ → Prop}

theorem ends_resolveColumn {post : ColumnId → Session σ → Prop} :
    (resolveColumn b n path).Ends s post fail ↔
      (¬ s.graph.IsNode n → fail (.unknownNode n) s) ∧
      (s.graph.IsNode n → (∀ e, ColumnPath.parse path = .error e → fail (.path e) s) ∧
        ∀ p, ColumnPath.parse path = .ok p → (registerColumn b n p).Ends s post fail) := by
  rw [resolveColumn, ends_bind, ends_requireNode, Graph.node?_eq_none]
  simp only [ends_bind, ends_ofParse]
  constructor
  · rintro ⟨hknown, hunknown⟩
    refine ⟨hunknown, fun hn => ?_⟩
    obtain ⟨node, hnode⟩ := hn.exists
    exact (hknown node hnode).symm
  · rintro ⟨hunknown, hknown⟩
    exact ⟨fun node hnode => (hknown (Graph.node?_eq_some hnode)).symm, hunknown⟩

theorem ends_resolveTable {post : NodeId → Session σ → Prop} :
    (resolveTable b n path).Ends s post fail ↔
      (¬ s.graph.IsNode n → fail (.unknownNode n) s) ∧
      (s.graph.IsNode n → (∀ e, TableSpec.parsePath path = .error e → fail (.path e) s) ∧
        ∀ ts, TableSpec.parsePath path = .ok ts →
          (follow b n (ts.flatMap TableSpec.hops)).Ends s post fail) := by
  rw [resolveTable, ends_bind, ends_requireNode, Graph.node?_eq_none]
  simp only [ends_bind, ends_ofParse, registerTables_eq]
  constructor
  · rintro ⟨hknown, hunknown⟩
    refine ⟨hunknown, fun hn => ?_⟩
    obtain ⟨node, hnode⟩ := hn.exists
    exact (hknown node hnode).symm
  · rintro ⟨hunknown, hknown⟩
    exact ⟨fun node hnode => (hknown (Graph.node?_eq_some hnode)).symm, hunknown⟩

end
end RecordGraph.Action
