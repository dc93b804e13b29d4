import RecordGraph.Proofs.Resolving

/-!
# Runs of operations

A record is opened and then used by operations, in any order, each of which may
succeed or fail. The graph is well-formed at every moment of such a run.
-/
namespace RecordGraph

/-- What a caller asks of a record. -/
inductive Operation where
  | resolveColumn (n : NodeId) (path : String)
  | resolveTable (n : NodeId) (path : String)
  | setValue (c : ColumnId) (v : Value)
  | resetColumn (c : ColumnId)
  | value (c : ColumnId)
  | key (n : NodeId)
  | save (n : NodeId) (values : List (String × Value))
  | saveNode (n : NodeId)
  | fetch (n : NodeId) (paths : List String)
  | fetchNode (n : NodeId)
  | delete (n : NodeId) (tables : List String)
  | deleteNode (n : NodeId)
  deriving DecidableEq

namespace Operation

variable {σ : Type} (b : Backend σ)

/-- The operation as an action, without its result. -/
def perform : Operation → Action σ Unit
  | resolveColumn n path => discard (Action.resolveColumn b n path)
  | resolveTable n path => discard (Action.resolveTable b n path)
  | setValue c v => Action.setValue c v
  | resetColumn c => Action.resetColumn c
  | value c => discard (Action.value b c)
  | key n => discard (Action.key n)
  | save n values => Action.saveAt b n values
  | saveNode n => Action.saveNode b n
  | fetch n paths => discard (Action.fetchAt b n paths)
  | fetchNode n => Action.fetchNode b n
  | delete n tables => discard (Action.deleteAt b n tables)
  | deleteNode n => discard (Action.deleteNode b n)

theorem perform_evolves (o : Operation) {s : Session σ} (hg : s.graph.WellFormed) :
    (o.perform b).Changes Graph.Evolves s := by
  cases o with
  | resolveColumn n path => exact Action.ends_discard.2 (Action.resolveColumn_evolves b n path hg)
  | resolveTable n path => exact Action.ends_discard.2 (Action.resolveTable_evolves b n path hg)
  | setValue c v => exact (Action.setValue_revalues c v).evolves
  | resetColumn c => exact (Action.resetColumn_revalues c hg).evolves
  | value c => exact Action.ends_discard.2 (Action.value_revalues b c).evolves
  | key n =>
    refine Action.ends_discard.2 (Action.ends_bind.2 (Action.ends_requireNode.2 ?_))
    exact ⟨fun _ _ => .refl _, fun _ => .refl _⟩
  | save n values => exact Action.saveAt_evolves b n values hg
  | saveNode n => exact (Action.saveNode_revalues b n).evolves
  | fetch n paths => exact Action.ends_discard.2 (Action.fetchAt_evolves b n paths hg)
  | fetchNode n => exact (Action.fetchNode_revalues b n).evolves
  | delete n tables => exact Action.ends_discard.2 (Action.deleteAt_evolves b n tables hg)
  | deleteNode n => exact Action.ends_discard.2 (Action.deleteNode_revalues b n).evolves

end Operation

namespace Action

variable {σ : Type} {b : Backend σ} {R : Session σ → Session σ → Prop} {s : Session σ}

/-- What any operation does step by step moves the session by `R`, but for a value that is given
to a key. -/
structure Operates (b : Backend σ) (R : Session σ → Session σ → Prop) : Prop
    extends Resolves b R where
  fetchNode : ∀ {s} n, s.graph.WellFormed → (Action.fetchNode b n).Moves R s
  assign : ∀ {s n c} v, s.graph.WellFormed → c ∈ s.graph.columnsOf n →
    R s { s with graph := s.graph.assign c v }
  resetColumn : ∀ {s} c, s.graph.WellFormed → (Action.resetColumn c).Moves R s
  writeNode : ∀ {s n}, s.graph.WellFormed → s.graph.IsNode n → (Action.writeNode b n).Moves R s
  eraseNode : ∀ {s n}, s.graph.WellFormed → s.graph.IsNode n → (Action.eraseNode b n).Moves R s

namespace Operates

variable (h : Operates b R) (hg : s.graph.WellFormed)

include h hg

theorem saveNode (n : NodeId) : (Action.saveNode b n).Moves R s :=
  h.toResolves.saveNode n hg h.writeNode fun hg' he => by
    obtain ⟨-, -, -, hfk, -⟩ := hg'.edge_of_mem he
    exact h.assign _ hg' hfk

theorem deleteNode (n : NodeId) : (Action.deleteNode b n).Moves R s :=
  h.toResolves.deleteNode n hg h.eraseNode

/-- An operation gives a value to a column by its id, or moves the session by `R`. -/
theorem perform (o : Operation) :
    (∃ c v, o = .setValue c v) ∨ R s ((o.perform b).after s) := by
  have hresolves := h.toResolves
  cases o with
  | resolveColumn n path => exact .inr (hresolves.resolveColumn n path hg).discard.of_after
  | resolveTable n path => exact .inr (hresolves.resolveTable n path hg).discard.of_after
  | setValue c v => exact .inl ⟨c, v, rfl⟩
  | resetColumn c => exact .inr (h.resetColumn c hg).of_after
  | value c => exact .inr (h.value c hg).discard.of_after
  | key n => exact .inr (key_moves (h.refl s) n).discard.of_after
  | save n values =>
    refine .inr (hresolves.saveAt n values hg (fun _ hg' _ hc => ?_) fun hg' => ?_).of_after
    · exact h.assign _ hg' hc
    · exact h.saveNode hg' n
  | saveNode n => exact .inr (h.saveNode hg n).of_after
  | fetch n paths => exact .inr (hresolves.fetchAt n paths hg).discard.of_after
  | fetchNode n => exact .inr (h.fetchNode n hg).of_after
  | delete n tables =>
    exact .inr (hresolves.deleteAt n tables hg fun hg' => h.deleteNode hg' n).discard.of_after
  | deleteNode n => exact .inr (h.deleteNode hg n).discard.of_after

end Operates
end Action

namespace Session

variable {σ : Type} {b : Backend σ} {s s' : Session σ}

/-- Operations one after the other, successful or failed. -/
def Runs (b : Backend σ) : Session σ → Session σ → Prop :=
  Relation.ReflTransGen fun s s' => ∃ o : Operation, s' = (o.perform b).after s

theorem Runs.evolves (h : Runs b s s') (hg : s.graph.WellFormed) : s.graph.Evolves s'.graph := by
  induction h with
  | refl => exact .refl _
  | tail _ hstep ih =>
    obtain ⟨o, rfl⟩ := hstep
    exact ih.trans (o.perform_evolves b (ih.wellFormed hg)).of_after

/-- Some operations in order, each from where the last one ended. -/
def performAll (s : Session σ) (b : Backend σ) (operations : List Operation) : Session σ :=
  operations.foldl (fun s o => (o.perform b).after s) s

theorem runs_performAll (operations : List Operation) : Runs b s (s.performAll b operations) := by
  induction operations generalizing s with
  | nil => exact .refl
  | cons o operations ih => exact .head ⟨o, rfl⟩ ih

end Session

/-- Some run of operations on a newly opened record ends in the graph. -/
def Graph.Reachable (g : Graph) : Prop :=
  ∃ (σ : Type) (b : Backend σ) (table keyName : String) (key : Value) (state : σ) (s : Session σ),
    Session.Runs b (.start table keyName key state) s ∧ s.graph = g

theorem Graph.reachable_start {σ : Type} (b : Backend σ) (table keyName : String) (key : Value)
    (state : σ) : (Session.start table keyName key state).graph.Reachable :=
  ⟨σ, b, table, keyName, key, state, _, .refl, rfl⟩

theorem Graph.reachable_performAll {σ : Type} (b : Backend σ) (table keyName : String)
    (key : Value) (state : σ) (operations : List Operation) :
    ((Session.start table keyName key state).performAll b operations).graph.Reachable :=
  ⟨σ, b, table, keyName, key, state, _, Session.runs_performAll operations, rfl⟩

theorem Graph.Reachable.wellFormed {g : Graph} (h : g.Reachable) : g.WellFormed := by
  obtain ⟨σ, b, table, keyName, key, state, s, hrun, rfl⟩ := h
  have hstart := Graph.wellFormed_single table keyName key
  exact (hrun.evolves hstart).wellFormed hstart

end RecordGraph
