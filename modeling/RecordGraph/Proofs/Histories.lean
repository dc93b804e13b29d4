import RecordGraph.Proofs.Events
import RecordGraph.Proofs.SavedNode

/-!
# Histories

The events of a whole run, operation by operation. A node that was selected stays fresh until a
column is registered on it or forgotten, and until then no value asks for it again.
-/
namespace RecordGraph

/-- The event makes the node stale. -/
def Event.Stales (n : NodeId) : Event → Prop
  | register m _ | reset m _ => m = n
  | _ => False

namespace Graph

variable {g g' : Graph} {n m : NodeId}

theorem isNode_of_isFresh (h : g.IsFresh n) : g.IsNode n := by
  obtain ⟨node, hnode, -⟩ := (Option.any_eq_true _ _).1 h
  exact node?_eq_some hnode

theorem isFresh_setFresh_true (h : g.IsFresh m) : (g.setFresh n true).IsFresh m := by
  rw [isFresh_setFresh]
  split
  · exact ⟨rfl, isNode_of_isFresh h⟩
  · exact h

theorem isFresh_of_node?_eq (h : g.IsFresh n) (hnode : g'.node? n = g.node? n) :
    g'.IsFresh n := by
  rwa [IsFresh, hnode]

end Graph

namespace Session

variable {σ : Type} {b : Backend σ} {s s' : Session σ} {n : NodeId} {e : Event}
  {events before between after : List Event}

theorem isFresh_writeNode {m : NodeId} (h : s.graph.IsFresh n) :
    ((Action.writeNode b m).after s).graph.IsFresh n := by
  refine Action.Ends.of_after (p := fun s' => s'.graph.IsFresh n)
    ((Action.writeNode_ends b m).mono (fun _ s' hs' => ?_) (fun _ s' hs' => ?_))
  · obtain ⟨-, id, hgraph, -, -⟩ := hs'
    rw [hgraph]
    by_cases hmn : m = n
    · subst hmn
      rw [Graph.IsFresh, Graph.node?_written_self]
      split
      · exact h
      · obtain ⟨node, hnode⟩ := (Graph.isNode_of_isFresh h).exists
        rw [hnode]
        rfl
    · exact Graph.isFresh_of_node?_eq h (Graph.node?_written hmn)
  · obtain ⟨rfl, -⟩ | ⟨-, hgraph, -⟩ := hs'
    · exact h
    · rwa [hgraph]

/-- Only a registration on the node and a column of it that is forgotten make it stale. -/
theorem Happens.isFresh (h : Happens b e s s') (hg : s.graph.WellFormed)
    (hfresh : s.graph.IsFresh n) (hkeep : ¬ e.Stales n) : s'.graph.IsFresh n := by
  cases h with
  | register hn hnew =>
    exact Graph.isFresh_of_node?_eq hfresh (Graph.node?_withColumn.trans (if_neg hkeep))
  | join hfk hnew =>
    have hn := Graph.isNode_of_isFresh hfresh
    rw [Graph.IsFresh, Graph.node?_withChild (hg.isNode_of_column hfk), if_neg hn.ne_size]
    split
    · rw [Graph.IsFresh] at hfresh
      cases hnode : s.graph.node? n with
      | none => simp [hnode] at hfresh
      | some node => simpa [hnode] using hfresh
    · exact hfresh
  | assign | link | noRow => exact hfresh
  | reset hc =>
    exact Graph.isFresh_of_node?_eq hfresh ((Graph.node?_updateNode ..).trans (if_neg hkeep))
  | skip hn hnothing => exact Graph.isFresh_setFresh_true hfresh
  | row hasks hq =>
    exact Graph.isFresh_setFresh_true (Graph.isFresh_of_node?_eq hfresh Graph.node?_settleRow)
  | write hn => exact isFresh_writeNode hfresh
  | erase hn =>
    exact Action.Ends.of_after (p := fun s' => s'.graph.IsFresh n)
      ((Action.ends_eraseNode b).2 ⟨fun _ => Graph.isFresh_setFresh_true hfresh, fun _ =>
        ⟨fun _ _ => Graph.isFresh_setFresh_true hfresh, fun _ _ _ => hfresh⟩⟩)

theorem Trace.isFresh (h : Trace b s events s') (hg : s.graph.WellFormed)
    (hfresh : s.graph.IsFresh n) (hkeep : ∀ e ∈ events, ¬ e.Stales n) : s'.graph.IsFresh n := by
  induction h with
  | nil s => exact hfresh
  | cons hstep _ ih =>
    obtain ⟨hfirst, hrest⟩ := List.forall_mem_cons.1 hkeep
    exact ih (hstep.evolves.wellFormed hg) (hstep.isFresh hg hfresh hfirst) hrest

/-- A selection that finds its row makes the node fresh. -/
theorem Happens.isFresh_row {lazy : Bool} {q : Statement} {row : Row}
    (h : Happens b (.select lazy n q (.ok (some row))) s s') : s'.graph.IsFresh n := by
  cases h with
  | row hasks hq =>
    rw [Graph.isFresh_setFresh, if_pos rfl]
    refine ⟨rfl, ?_⟩
    have hnode := hasks.node
    rwa [← Graph.node?_isSome, ← Graph.node?_settleRow, Graph.node?_isSome] at hnode
  | noRow hasks hq hno => exact absurd rfl (hno row)

theorem Happens.asks {lazy : Bool} {q : Statement} {answer : Except Failure (Option Row)}
    (h : Happens b (.select lazy n q answer) s s') : s.Asks lazy n q := by
  cases h with
  | row hasks hq => exact hasks
  | noRow hasks hq hno => exact hasks

/-- Between two selections of a node, of which a value asks for the second one, the node was
made stale. -/
theorem Trace.stales_between {lazy : Bool} {q q' : Statement} {row : Row}
    {answer : Except Failure (Option Row)} (hg : s.graph.WellFormed)
    (h : Trace b s (before ++ .select lazy n q (.ok (some row)) :: (between ++
      .select true n q' answer :: after)) s') : ∃ e ∈ between, e.Stales n := by
  obtain ⟨t, hbefore, hrest⟩ := h.split
  cases hrest with
  | @cons _ t₁ _ _ _ hread hrest =>
    obtain ⟨u, hbetween, hlater⟩ := hrest.split
    cases hlater with
    | cons hagain _ =>
      by_contra hnone
      have hg₁ := hread.evolves.wellFormed (hbefore.evolves.wellFormed hg)
      have hkeep : ∀ e ∈ between, ¬ e.Stales n := fun e he hstales => hnone ⟨e, he, hstales⟩
      exact hagain.asks.stale rfl (hbetween.isFresh hg₁ hread.isFresh_row hkeep)

/-- The events of some operations, one operation after the other. -/
inductive Histories (b : Backend σ) :
    Session σ → List Operation → List Event → Session σ → Prop
  | nil (s : Session σ) : Histories b s [] [] s
  | cons {s s' : Session σ} {o : Operation} {operations : List Operation}
      {events more : List Event} (h : o.History b s events)
      (rest : Histories b ((o.perform b).after s) operations more s') :
      Histories b s (o :: operations) (events ++ more) s'

theorem Histories.trace {operations : List Operation} (h : Histories b s operations events s') :
    Trace b s events s' := by
  induction h with
  | nil s => exact .nil s
  | cons hfirst _ ih => exact hfirst.trace.append ih

theorem performAll_histories (operations : List Operation) (hg : s.graph.WellFormed) :
    ∃ events, Histories b s operations events (s.performAll b operations) := by
  induction operations generalizing s with
  | nil => exact ⟨[], .nil s⟩
  | cons o operations ih =>
    obtain ⟨events, hfirst⟩ := o.history (b := b) hg
    obtain ⟨more, hrest⟩ := ih (hfirst.trace.evolves.wellFormed hg)
    exact ⟨events ++ more, .cons hfirst hrest⟩

end Session
end RecordGraph
