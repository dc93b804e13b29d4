import RecordGraph.Backend.Script
import RecordGraph.Path.Parser
import RecordGraph.Proofs.Descent
import RecordGraph.Proofs.Following
import RecordGraph.Proofs.Outcome
import RecordGraph.Proofs.PathSymbols

/-!
# Spellings of a path

A join may be written with a shorthand or with brackets, and the tables before
it may stand in front of the join or inside of its foreign key. All spellings
flatten to the same joins, and what resolving does depends on the joins only.
-/
namespace RecordGraph

namespace ColumnPath

variable (tables : List TableSpec) (p : ColumnPath) (table : String) (child : Option String)
  (foreignKey rest : ColumnPath)

/-- The joins of the tables come first, and the rest of the path is as it was. -/
theorem flatten_throughTables : (Path.throughTables tables p).flatten =
    (tables.flatMap TableSpec.hops ++ p.flatten.1, p.flatten.2) := by
  induction tables with
  | nil => rfl
  | cons t tables ih =>
    have hbefore (q : ColumnPath) :
        (t.before q).flatten = (t.hops ++ q.flatten.1, q.flatten.2) := by
      rw [flatten, TableSpec.tables_before, List.flatMap_cons]
      obtain ⟨table, _ | j⟩ := t <;> rfl
    change (t.before (Path.throughTables tables p)).flatten = _
    rw [hbefore, ih, List.flatMap_cons, List.append_assoc]

theorem flatten_joined : (joined table child foreignKey rest).flatten =
    (foreignKey.flatten.1 ++ ⟨table, child.getD defaultChildColumn, foreignKey.flatten.2⟩ ::
      rest.flatten.1, rest.flatten.2) := by
  simp only [flatten_eq, hops, target]

/-- The shorthand of a join stands for its foreign key and its key. -/
theorem flatten_through : (through table rest).flatten =
    (joined table none (column (defaultForeignKey table)) rest).flatten := by
  simp [flatten_eq, hops, target]

/-- Tables in front of a join may as well stand in front of its foreign key. -/
theorem flatten_throughTables_joined :
    (Path.throughTables tables (joined table child foreignKey rest)).flatten =
      (joined table child (Path.throughTables tables foreignKey) rest).flatten := by
  simp only [flatten_throughTables, flatten_joined, List.append_assoc]

theorem flatten_joined_none : (joined table none foreignKey rest).flatten =
    (joined table (some defaultChildColumn) foreignKey rest).flatten := by
  simp only [flatten_joined, Option.getD_none, Option.getD_some]

end ColumnPath

namespace Action

variable {σ : Type} (b : Backend σ) {s : Session σ} {n : NodeId}

/-- Resolving is following the joins of the path, whatever its text is. -/
theorem resolveColumn_eq {path : String} {p : ColumnPath} (hp : ColumnPath.parse path = .ok p) :
    resolveColumn b n path = (do
      let _ ← requireNode n
      let m ← follow b n p.flatten.1
      addColumn m p.flatten.2) := by
  rw [resolveColumn, hp, ColumnPath.flatten_eq]
  simp only [ofParse, pure_bind, registerColumn_eq]

theorem resolveTable_eq {path : String} {ts : List TableSpec}
    (hts : TableSpec.parsePath path = .ok ts) :
    resolveTable b n path = (do
      let _ ← requireNode n
      follow b n (ts.flatMap TableSpec.hops)) := by
  rw [resolveTable, hts]
  simp only [ofParse, pure_bind, registerTables_eq]

/-- Paths with the same joins and the same column are resolved alike from any session: to the
same column or the same error, with the same graph and the same calls. Such are the shorthand
and the brackets of a join, behind tables or with them in front of its foreign key. -/
theorem resolveColumn_of_flatten_eq (s : Session σ) (n : NodeId) :
    (∀ path path' p q, ColumnPath.parse path = .ok p → ColumnPath.parse path' = .ok q →
      p.flatten = q.flatten → resolveColumn b n path s = resolveColumn b n path' s) ∧
    ∀ (tables : List TableSpec) (table : String) (rest : ColumnPath),
      (∀ child ∈ [none, some defaultChildColumn],
        (Path.throughTables tables (.through table rest)).flatten =
          (ColumnPath.joined table child
            (Path.throughTables tables (.column (defaultForeignKey table))) rest).flatten) ∧
      ∀ (child : Option String) (foreignKey : ColumnPath),
        (Path.throughTables tables (.joined table child foreignKey rest)).flatten =
          (ColumnPath.joined table child (Path.throughTables tables foreignKey) rest).flatten := by
  refine ⟨fun path path' p q hp hq h => ?_, fun tables table rest => ⟨fun child hchild => ?_, ?_⟩⟩
  · rw [resolveColumn_eq b hp, resolveColumn_eq b hq, h]
  · have hshort : (Path.throughTables tables (.through table rest)).flatten =
        (ColumnPath.joined table none
          (Path.throughTables tables (.column (defaultForeignKey table))) rest).flatten := by
      rw [← ColumnPath.flatten_throughTables_joined, ColumnPath.flatten_throughTables,
        ColumnPath.flatten_through, ← ColumnPath.flatten_throughTables]
    rcases List.mem_cons.1 hchild with rfl | hchild
    · exact hshort
    · obtain rfl := List.mem_singleton.1 hchild
      rw [hshort, ColumnPath.flatten_joined_none]
  · exact fun child foreignKey => ColumnPath.flatten_throughTables_joined ..

/-- The row of the first join is found, and the read of the second fails: three spellings leave
the same registered nodes and the same two calls. -/
theorem resolveColumn_of_flatten_eq_failing :
    let b := Script.backend .standard
    let s := Session.start "t0" "id" (.integer 1)
      ⟨[.row [("t1_id", .integer 5)]], .failure "lost", [], [], 0⟩
    let t := (resolveColumn b Graph.root "t1.t2.title").after s
    (resolveColumn b Graph.root "t1.t2.title").result? s = none ∧
      t.graph.nodes.size = 2 ∧ t.calls.length = 2 ∧
      resolveColumn b Graph.root "t1.t2.title" s =
        resolveColumn b Graph.root "t2[t1.t2_id].title" s ∧
      resolveColumn b Graph.root "t1.t2.title" s =
        resolveColumn b Graph.root "t2[ id = t1[t1_id].t2_id ].title" s := by
  intro b s t
  have hplain : ColumnPath.parse "t1.t2.title" =
      .ok (.through "t1" (.through "t2" (.column "title"))) := by decide +kernel
  have hinner : ColumnPath.parse "t2[t1.t2_id].title" =
      .ok (.joined "t2" none (.through "t1" (.column "t2_id")) (.column "title")) := by
    decide +kernel
  have hnested : ColumnPath.parse "t2[ id = t1[t1_id].t2_id ].title" =
      .ok (.joined "t2" (some "id") (.joined "t1" none (.column "t1_id") (.column "t2_id"))
        (.column "title")) := by decide +kernel
  refine ⟨by decide +kernel, by decide +kernel, by decide +kernel, ?_, ?_⟩
  · exact (resolveColumn_of_flatten_eq b s Graph.root).1 _ _ _ _ hplain hinner (by decide)
  · exact (resolveColumn_of_flatten_eq b s Graph.root).1 _ _ _ _ hplain hnested (by decide)

end Action
end RecordGraph
