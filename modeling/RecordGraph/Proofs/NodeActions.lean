import RecordGraph.Proofs.Outcome
import RecordGraph.Proofs.WellFormed

/-!
# Actions on one node

All that an action on one node or one column can end in: which change of the graph
it makes, what it sends, and how it fails. What is proved of these actions later
follows from the equations here.
-/
namespace RecordGraph

/-- The statement that reads the clean columns of a node. -/
def Graph.selection (g : Graph) (n : NodeId) : Statement :=
  .select (g.table n) (g.keyMatch n) ((g.cleanColumns n).map g.name)

/-- The statement that deletes the row of a node. -/
def Graph.deletion (g : Graph) (n : NodeId) : Statement := .delete (g.table n) (g.keyMatch n)

namespace Action

variable {σ : Type} (b : Backend σ) {s : Session σ} {n : NodeId} {c : ColumnId}
  {fail : Error → Session σ → Prop}

/-- Nothing is sent for a node that is new or has no clean columns. -/
theorem ends_fetchNode {post : Unit → Session σ → Prop} : (fetchNode b n).Ends s post fail ↔
    (¬ s.graph.IsNode n → fail (.unknownNode n) s) ∧
    (s.graph.IsNode n → s.graph.IsNew n ∨ s.graph.cleanColumns n = [] →
      post () { s with graph := s.graph.setFresh n true }) ∧
    (s.graph.IsNode n → ¬ s.graph.IsNew n → s.graph.cleanColumns n ≠ [] →
      (∀ row state, b.query (s.graph.selection n) s.backend = (.ok (some row), state) →
        post () ⟨(s.graph.settleRow (s.graph.cleanColumns n) row).setFresh n true, state,
          s.calls ++ [(n, .query (s.graph.selection n) (.ok (some row)))]⟩) ∧
      (∀ state, b.query (s.graph.selection n) s.backend = (.ok none, state) →
        fail (.missingRow (s.graph.table n) (s.graph.keyMatch n)
            ((s.graph.selection n).render b.dialect))
          ⟨s.graph, state, s.calls ++ [(n, .query (s.graph.selection n) (.ok none))]⟩) ∧
      ∀ f state, b.query (s.graph.selection n) s.backend = (.error f, state) →
        fail (.statement f)
          ⟨s.graph, state, s.calls ++ [(n, .query (s.graph.selection n) (.error f))]⟩) := by
  rw [fetchNode, ends_bind, ends_requireNode, Graph.node?_eq_none]
  simp only [ends_bind, ends_graph, ends_ite, ends_updateGraph]
  have hread {node : Node} (hnode : s.graph.node? n = some node) :
      Statement.select node.table (s.graph.keyMatch n)
        ((s.graph.cleanColumns n).map s.graph.name) = s.graph.selection n ∧
      node.table = s.graph.table n := by
    have htable : s.graph.table n = node.table := by rw [Graph.table, hnode, Option.elim_some]
    rw [Graph.selection, htable]
    exact ⟨rfl, rfl⟩
  constructor
  · rintro ⟨hknown, hunknown⟩
    refine ⟨hunknown, fun hn hnothing => ?_, fun hn hnew hclean => ?_⟩
    · obtain ⟨node, hnode⟩ := hn.exists
      by_cases hnew : s.graph.IsNew n
      · exact (hknown node hnode).1 hnew
      · exact ((hknown node hnode).2 hnew).1 (hnothing.resolve_left hnew)
    · obtain ⟨node, hnode⟩ := hn.exists
      have hsend := ends_send.1 (((hknown node hnode).2 hnew).2 hclean)
      rw [(hread hnode).1] at hsend
      refine ⟨fun row state h => hsend.1 (some row) state h, fun state h => ?_, hsend.2⟩
      rw [← (hread hnode).2]
      exact hsend.1 none state h
  · rintro ⟨hunknown, hnothing, hsend⟩
    refine ⟨fun node hnode => ?_, hunknown⟩
    have hn := Graph.node?_eq_some hnode
    refine ⟨fun hnew => hnothing hn (.inl hnew), fun hnew =>
      ⟨fun hclean => hnothing hn (.inr hclean), fun hclean => ends_send.2 ?_⟩⟩
    obtain ⟨hrow, hnone, herror⟩ := hsend hn hnew hclean
    rw [(hread hnode).1]
    refine ⟨fun answer state h => ?_, herror⟩
    cases answer with
    | some row => exact hrow row state h
    | none =>
      rw [(hread hnode).2]
      exact hnone state h

/-- A value is read with its node if it does not wait and is out of date. -/
theorem ends_value {post : Value → Session σ → Prop} (hg : s.graph.WellFormed)
    (hc : c ∈ s.graph.columnsOf n) : (value b c).Ends s post fail ↔
      (s.graph.IsDirty c → post (s.graph.current c) s) ∧
      (¬ s.graph.IsDirty c → s.graph.IsFresh n → post (s.graph.current c) s) ∧
      (¬ s.graph.IsDirty c → ¬ s.graph.IsFresh n →
        (fetchNode b n).Ends s (fun _ s' => post (s'.graph.current c) s') fail) := by
  obtain ⟨col, hcol, rfl⟩ := Graph.column?_of_owner (hg.column hc).1
  have hdirty : s.graph.IsDirty c ↔ col.IsDirty := by simp [Graph.IsDirty, hcol]
  rw [value, ends_bind, ends_requireColumn, hcol, hdirty]
  simp only [ends_bind, ends_graph, ends_ite, ends_pure, Option.some.injEq, reduceCtorEq,
    false_implies, and_true]
  constructor
  · intro h
    obtain ⟨hpending, hclean⟩ := h col rfl
    exact ⟨hpending, fun hnot => (hclean hnot).1, fun hnot => (hclean hnot).2⟩
  · rintro ⟨hpending, hfresh, hread⟩ column rfl
    exact ⟨hpending, fun hnot => ⟨hfresh hnot, hread hnot⟩⟩

theorem ends_setValue {v : Value} {post : Unit → Session σ → Prop} :
    (setValue c v).Ends s post fail ↔
      (s.graph.column? c = none → fail (.unknownColumn c) s) ∧
      ((s.graph.column? c).isSome → post () { s with graph := s.graph.assign c v }) := by
  rw [setValue, ends_bind, ends_requireColumn]
  cases s.graph.column? c <;> simp

/-- Every column but the key of a node can be forgotten. -/
theorem ends_resetColumn {post : Unit → Session σ → Prop} (hg : s.graph.WellFormed) :
    (resetColumn c).Ends s post fail ↔
      (s.graph.column? c = none → fail (.unknownColumn c) s) ∧
      (∀ n, s.graph.keyColumn? n = some c →
        fail (.keyReset (s.graph.name c) (s.graph.table n)) s) ∧
      ∀ n, c ∈ s.graph.columnsOf n →
        post () { s with graph := (s.graph.updateColumn c .forget).setFresh n false } := by
  rw [resetColumn, ends_bind, ends_requireColumn]
  simp only [ends_bind, ends_graph, ends_ite, ends_throw, ends_updateGraph]
  constructor
  · rintro ⟨hknown, hunknown⟩
    refine ⟨hunknown, fun n hk => ?_, fun n hc => ?_⟩
    · obtain ⟨col, hcol, rfl⟩ := Graph.column?_of_owner (hg.owner_of_keyColumn? hk)
      have hname : s.graph.name c = col.name := by rw [Graph.name, hcol, Option.elim_some]
      rw [hname]
      exact (hknown col hcol).1 hk
    · obtain ⟨col, hcol, rfl⟩ := Graph.column?_of_owner (hg.column hc).1
      exact (hknown col hcol).2 (hg.column hc).2
  · rintro ⟨hunknown, hkey, hreset⟩
    refine ⟨fun col hcol => ⟨fun hk => ?_, fun hk => ?_⟩, hunknown⟩
    · have hname : s.graph.name c = col.name := by rw [Graph.name, hcol, Option.elim_some]
      rw [← hname]
      exact hkey _ hk
    · have howner : s.graph.owner? c = some col.node := by simp [Graph.owner?, hcol]
      exact hreset _ ((hg.owner howner).2.resolve_left hk)

/-- Nothing is sent for a node that is new. -/
theorem ends_eraseNode {post : Nat → Session σ → Prop} : (eraseNode b n).Ends s post fail ↔
    (s.graph.IsNew n → post 0 { s with graph := s.graph.setFresh n true }) ∧
    (¬ s.graph.IsNew n →
      (∀ state, b.exec (s.graph.deletion n) s.backend = (.ok (), state) →
        post 1 ⟨s.graph.setFresh n true, state,
          s.calls ++ [(n, .exec (s.graph.deletion n) (.ok ()))]⟩) ∧
      ∀ f state, b.exec (s.graph.deletion n) s.backend = (.error f, state) →
        fail (.statement f)
          ⟨s.graph, state, s.calls ++ [(n, .exec (s.graph.deletion n) (.error f))]⟩) := by
  simp only [eraseNode, ends_bind, ends_graph, ends_ite, ends_updateGraph, ends_pure]
  by_cases hnew : s.graph.IsNew n
  · simp [hnew]
  · simp only [hnew, false_implies, not_false_eq_true, true_implies, true_and, if_false]
    rw [exec, ends_send, Graph.deletion]
    simp only [Unique.forall_iff]

end Action
end RecordGraph
