import RecordGraph.Backend.Script
import RecordGraph.Proofs.Provenance
import RecordGraph.Proofs.Reachable

/-!
# Exact statements

A save refuses what has no exact literal, so the values that a statement assigns
all have one. The value of a condition is not checked. It is a key, and has a
literal unless one without was given: as the key of the record, by an assignment
to a key or a foreign key, or by an answer of the backend for one of them.
-/
namespace RecordGraph

namespace Statement

def assigned : Statement → List Assignment
  | select .. => []
  | insert _ assignments => assignments
  | update _ _ assignments => assignments
  | delete .. => []

/-- The condition of a statement. -/
def key? : Statement → Option KeyMatch
  | select _ key _ => some key
  | insert .. => none
  | update _ key _ => some key
  | delete _ key => some key

/-- Assigned values have exact literals, and the value of the condition has one or was given. -/
def Traced (given : Value → Prop) (s : Statement) : Prop :=
  AllWritable s.assigned ∧ ∀ k, s.key? = some k → k.value.Traced given

end Statement

namespace Call

def statement? : Call → Option Statement
  | query s _ => some s
  | exec s _ => some s
  | lastInsertId _ => none

/-- The answer of a call for the node `n` gives a value for a key or a foreign key. -/
def Gives (g : Graph) (n : NodeId) : Call → Value → Prop
  | query _ (.ok (some row)), v => ∃ c ∈ g.columnsOf n, g.NamesRow c ∧ (g.name c, v) ∈ row
  | lastInsertId (.ok id), v => v = id
  | _, _ => False

def Traced (given : Value → Prop) (call : Call) : Prop :=
  ∀ s, call.statement? = some s → s.Traced given

section
variable {given : Value → Prop} {s : Statement} {call : Call}

theorem traced_iff (hs : call.statement? = some s) : call.Traced given ↔ s.Traced given := by
  constructor
  · exact fun h => h s hs
  · intro h s' hs'
    rwa [← Option.some.inj (hs.symm.trans hs')]

theorem traced_exec {answer : Except Failure Unit} :
    (exec s answer).Traced given ↔ s.Traced given := traced_iff rfl

theorem traced_lastInsertId {answer : Except Failure Value} :
    (lastInsertId answer).Traced given := fun s hs => by cases hs

end
end Call

/-- The calls of a node that is written are traced if its key is. -/
theorem Graph.traced_of_mem_writeCalls {g : Graph} {n : NodeId} {id : Value} {call : Call}
    {given : Value → Prop} (hall : AllWritable (g.assignments (g.dirtyColumns n)))
    (hkey : (g.key n).Traced given) (h : call ∈ g.writeCalls n id) : call.Traced given := by
  unfold writeCalls at h
  split at h
  · rcases List.mem_cons.1 h with rfl | h
    · exact Call.traced_exec.2 ⟨hall, fun k hk => by cases hk⟩
    · obtain rfl := List.mem_singleton.1 h
      exact Call.traced_lastInsertId
  · split at h
    · obtain rfl := List.mem_singleton.1 h
      refine Call.traced_exec.2 ⟨hall, fun k hk => ?_⟩
      rwa [← Option.some.inj hk]
    · cases h

namespace Session

variable {σ : Type} {s s' s'' : Session σ} {G : Graph} {given : Value → Prop}

/-- The values of keys and foreign keys are traced, and so are the calls. -/
structure Traced (s : Session σ) (G : Graph) (given : Value → Prop) : Prop where
  values : s.graph.Traced G given
  calls : ∀ n call, (n, call) ∈ s.calls → call.Traced given

/-- The graph is a part of `G`, and what the calls gave is given. -/
structure Within (s : Session σ) (G : Graph) (given : Value → Prop) : Prop where
  grows : Graph.Grows s.graph G
  gives : ∀ n call v, (n, call) ∈ s.calls → call.Gives G n v → given v

/-- What a row gives for a column that names rows is traced. -/
theorem Within.traced_get {n : NodeId} {c : ColumnId} {statement : Statement} {row : Row}
    {g : Graph} (h : s.Within G given)
    (hcall : (n, .query statement (.ok (some row))) ∈ s.calls) (hgrow : Graph.Grows g G)
    (hg : g.WellFormed) (hc : c ∈ g.columnsOf n) (hnames : G.NamesRow c) :
    (row.get (g.name c)).Traced given := by
  rw [Row.get]
  cases hlookup : row.lookup (g.name c) with
  | none => exact Value.traced_null
  | some v =>
    refine .inr (h.gives n _ v hcall ⟨c, (hgrow.columns n).subset hc, hnames, ?_⟩)
    rw [(hgrow.column (hg.column hc).1).2]
    exact mem_of_lookup hlookup

/-- Every value and every call since then is traced. -/
structure KeepsTraced (G : Graph) (given : Value → Prop) (s s' : Session σ) : Prop where
  evolves : s.graph.Evolves s'.graph
  calls : s.calls <+: s'.calls
  traced : s'.Within G given → s.Traced G given → s'.Traced G given

namespace KeepsTraced

theorem refl (s : Session σ) : KeepsTraced G given s s := ⟨.refl _, List.prefix_rfl, fun _ => id⟩

theorem trans (hg : s.graph.WellFormed) (h : KeepsTraced G given s s')
    (h' : KeepsTraced G given s' s'') : KeepsTraced G given s s'' where
  evolves := h.evolves.trans h'.evolves
  calls := h.calls.trans h'.calls
  traced hwithin hs := by
    refine h'.traced hwithin (h.traced ⟨?_, fun n call v hcall => ?_⟩ hs)
    · exact (h'.evolves.grows (h.evolves.wellFormed hg)).trans hwithin.grows
    · exact hwithin.gives n call v (h'.calls.subset hcall)

/-- What changes in the graph and the calls that are new are looked at each on its own. -/
theorem of_calls {calls : List (NodeId × Call)} (hg : s.graph.WellFormed)
    (hevolves : s.graph.Evolves s'.graph) (hcalls : s'.calls = s.calls ++ calls)
    (hvalues : s'.Within G given → Graph.Grows s.graph G → s.graph.Traced G given →
      s'.graph.Traced G given)
    (hnew : Graph.Grows s.graph G → s.graph.Traced G given → ∀ n call, (n, call) ∈ calls →
      call.Traced given) : KeepsTraced G given s s' where
  evolves := hevolves
  calls := ⟨calls, hcalls.symm⟩
  traced hwithin hs := by
    have hgrow := (hevolves.grows hg).trans hwithin.grows
    refine ⟨hvalues hwithin hgrow hs.values, fun n call hcall => ?_⟩
    rw [hcalls] at hcall
    rcases List.mem_append.1 hcall with hcall | hcall
    · exact hs.calls n call hcall
    · exact hnew hgrow hs.values n call hcall

theorem of_graph (hg : s.graph.WellFormed) {g : Graph} (hevolves : s.graph.Evolves g)
    (hvalues : Graph.Grows g G → Graph.Grows s.graph G → s.graph.Traced G given →
      g.Traced G given) : KeepsTraced G given s { s with graph := g } :=
  of_calls hg hevolves (List.append_nil _).symm (fun hwithin => hvalues hwithin.grows)
    fun _ _ _ _ h => by cases h

/-- One call, by a statement with the key of a node as its condition. -/
theorem of_call (hg : s.graph.WellFormed) {n m : NodeId} {call : Call} {statement : Statement}
    {state : σ} (hs : call.statement? = some statement)
    (hkey : statement.key? = some (s.graph.keyMatch m))
    (hassigned : AllWritable statement.assigned) :
    KeepsTraced G given s ⟨s.graph, state, s.calls ++ [(n, call)]⟩ := by
  refine of_calls hg (.refl _) rfl (fun _ _ => id) fun hgrow htraced n' call' h => ?_
  obtain ⟨rfl, rfl⟩ := Prod.mk.inj (List.mem_singleton.1 h)
  refine (Call.traced_iff hs).2 ⟨hassigned, fun k hk => ?_⟩
  rw [← Option.some.inj (hkey.symm.trans hk)]
  exact htraced.key hgrow

end KeepsTraced
end Session

namespace Action

open Session

variable {σ : Type} (b : Backend σ) {s : Session σ} {G : Graph} {given : Value → Prop}
  {n : NodeId} {c : ColumnId}

/-! ## Reading -/

theorem fetchNode_traced (n : NodeId) (hg : s.graph.WellFormed) :
    (fetchNode b n).Moves (KeepsTraced G given) s := by
  have hassigned : AllWritable [] := fun _ h => by cases h
  have hcall (answer : Except Failure (Option Row)) (state : σ) : KeepsTraced G given s
      ⟨s.graph, state, s.calls ++ [(n, .query (s.graph.selection n) answer)]⟩ :=
    .of_call hg rfl rfl hassigned
  refine (ends_fetchNode b).2 ⟨fun _ => .refl s, fun _ _ => ?_, fun _ _ _ =>
    ⟨fun row state _ => ?_, fun _ _ => hcall .., fun _ _ _ => hcall ..⟩⟩
  · exact .of_graph hg (Graph.revalues_setFresh n true).1 fun _ _ h => h.setFresh n true
  · refine .trans hg (hcall (.ok (some row)) state) (.of_calls hg ?_ (List.append_nil _).symm
      (fun hwithin hgrow h => ?_) fun _ _ _ _ h => by cases h)
    · exact ((Graph.revalues_settleRow Graph.cleanColumns_subset).trans
        (Graph.revalues_setFresh n true)).1
    · refine (h.settleRow fun c hc hnames => ?_).setFresh n true
      exact hwithin.traced_get (List.mem_append_right _ (List.mem_singleton_self _)) hgrow hg
        (Graph.cleanColumns_subset hc) hnames

/-- A join copies its foreign key into the key of the child. -/
theorem resolves_traced : Resolves b (KeepsTraced G given) where
  refl := .refl
  trans := .trans
  evolves := KeepsTraced.evolves
  column hg hn hnew := .of_graph hg (Graph.Step.column hn hnew).evolves fun _ _ h => h.withColumn
  child {s n fk table childColumn} hg hfk hnew := by
    have hstep := (Graph.Step.child (s.graph.current fk) hfk hnew).evolves
    refine .of_graph hg hstep fun hgrow _ h => h.withChild (h.current (.inr ?_))
    exact ⟨⟨s.graph.edges.size⟩, ⟨n, fk, ⟨s.graph.nodes.size⟩⟩,
      hgrow.edge (by rw [Graph.edge?_withChild, if_pos rfl]), rfl⟩
  value {s} c hg := value_moves (.refl s) (fetchNode_traced b · hg) c

/-! ## Writing -/

theorem assign_traced {v : Value} (hg : s.graph.WellFormed)
    (hv : Graph.Grows s.graph G → G.NamesRow c → v.Traced given) :
    KeepsTraced G given s { s with graph := s.graph.assign c v } :=
  .of_graph hg (Graph.revalues_assign c v).1 fun _ hgrow h => h.assign (hv hgrow)

theorem setValue_traced {v : Value} (hg : s.graph.WellFormed) (hv : G.NamesRow c → given v) :
    (setValue c v).Moves (KeepsTraced G given) s := by
  exact ends_setValue.2 ⟨fun _ => .refl s, fun _ => assign_traced hg fun _ hc => .inr (hv hc)⟩

theorem resetColumn_traced (c : ColumnId) (hg : s.graph.WellFormed) :
    (resetColumn c).Moves (KeepsTraced G given) s := by
  refine (ends_resetColumn hg).2 ⟨fun _ => .refl s, fun _ _ => .refl s, fun n hc => ?_⟩
  refine .of_graph hg ?_ fun _ _ h => h.forget.setFresh n false
  exact ((Graph.revalues_forget hc).trans (Graph.revalues_setFresh n false)).1

theorem writeNode_traced (n : NodeId) (hg : s.graph.WellFormed) (hn : s.graph.IsNode n) :
    (writeNode b n).Moves (KeepsTraced G given) s := by
  refine ((writeNode_ends b n).and (writeNode_revalues b n)).mono (fun _ s' hs' => ?_)
    (fun _ s' hs' => ?_)
  · obtain ⟨⟨hall, id, hgraph, hcalls, -⟩, hevolves, -⟩ := hs'
    refine .of_calls hg hevolves hcalls (fun hwithin hgrow h => ?_) fun hgrow h m call hcall => ?_
    · rw [hgraph]
      refine h.written hg hn hall fun hnew => .inr ?_
      refine hwithin.gives n (.lastInsertId (.ok id)) id ?_ rfl
      rw [hcalls, Graph.writeCalls_of_isNew hnew]
      simp
    · obtain ⟨call', hcall', hpair⟩ := List.mem_map.1 hcall
      obtain ⟨-, rfl⟩ := Prod.mk.inj hpair
      exact Graph.traced_of_mem_writeCalls hall (h.key hgrow) hcall'
  · obtain ⟨⟨rfl, -⟩ | ⟨hall, hgraph, st, f, calls, hexec, -, hcalls, -, hkind⟩, hevolves, -⟩ := hs'
    · exact .refl _
    · refine .of_calls hg hevolves hcalls (fun _ _ h => by rwa [hgraph])
        fun hgrow h m call hcall => ?_
      obtain ⟨call', hcall', hpair⟩ := List.mem_map.1 hcall
      obtain ⟨-, rfl⟩ := Prod.mk.inj hpair
      have hst := Call.traced_exec.1 (Graph.traced_of_mem_writeCalls hall (h.key hgrow) hexec)
      rcases hkind with rfl | ⟨-, rfl⟩
      · obtain rfl := List.mem_singleton.1 hcall'
        exact Call.traced_exec.2 hst
      · rcases List.mem_cons.1 hcall' with rfl | hcall'
        · exact Call.traced_exec.2 hst
        · obtain rfl := List.mem_singleton.1 hcall'
          exact Call.traced_lastInsertId

theorem saveNode_traced (n : NodeId) (hg : s.graph.WellFormed) :
    (saveNode b n).Moves (KeepsTraced G given) s := by
  refine (resolves_traced b).saveNode n hg (writeNode_traced b _) fun hg' _ => ?_
  exact .of_graph hg' (Graph.revalues_assign ..).1 fun _ hgrow h => h.link hgrow

theorem saveAt_traced (n : NodeId) (values : List (String × Value)) (hg : s.graph.WellFormed)
    (hG : G.WellFormed) (hv : ∀ path v c, (path, v) ∈ values → G.Denotes n path c →
      G.NamesRow c → given v) : (saveAt b n values).Moves (KeepsTraced G given) s := by
  refine (resolves_traced b).saveAt n values hg (fun hpair hg' hdenotes _ => ?_)
    (saveNode_traced b n)
  refine assign_traced hg' fun hgrow hc => .inr (hv _ _ _ hpair ?_ hc)
  exact hdenotes.grows hg' hG hgrow

/-! ## Deleting -/

theorem eraseNode_traced (n : NodeId) (hg : s.graph.WellFormed) :
    (eraseNode b n).Moves (KeepsTraced G given) s := by
  have hassigned : AllWritable [] := fun _ h => by cases h
  have hcall (answer : Except Failure Unit) (state : σ) : KeepsTraced G given s
      ⟨s.graph, state, s.calls ++ [(n, .exec (s.graph.deletion n) answer)]⟩ :=
    .of_call hg rfl rfl hassigned
  have hfresh {s : Session σ} (hg : s.graph.WellFormed) :
      KeepsTraced G given s { s with graph := s.graph.setFresh n true } :=
    .of_graph hg (Graph.revalues_setFresh n true).1 fun _ _ h => h.setFresh n true
  exact (ends_eraseNode b).2 ⟨fun _ => hfresh hg, fun _ =>
    ⟨fun state _ => .trans hg (hcall (.ok ()) state) (hfresh hg), fun _ _ _ => hcall ..⟩⟩

theorem deleteNode_traced (n : NodeId) (hg : s.graph.WellFormed) :
    (deleteNode b n).Moves (KeepsTraced G given) s :=
  (resolves_traced b).deleteNode n hg fun hg' _ => eraseNode_traced b _ hg'

theorem deleteAt_traced (n : NodeId) (tables : List String) (hg : s.graph.WellFormed) :
    (deleteAt b n tables).Moves (KeepsTraced G given) s :=
  (resolves_traced b).deleteAt n tables hg (deleteNode_traced b n)

end Action

/-! ## Runs -/

namespace Operation

variable {σ : Type} (b : Backend σ) {s : Session σ} {G : Graph} {given : Value → Prop}

/-- The operation assigns a value to a column. -/
def Assigns (g : Graph) (c : ColumnId) (v : Value) : Operation → Prop
  | setValue c' v' => c' = c ∧ v' = v
  | save n values => ∃ path, (path, v) ∈ values ∧ g.Denotes n path c
  | _ => False

theorem perform_traced (o : Operation) (hg : s.graph.WellFormed) (hG : G.WellFormed)
    (hassigns : ∀ c v, G.NamesRow c → o.Assigns G c v → given v) :
    Session.KeepsTraced G given s ((o.perform b).after s) := by
  have hresolves : Action.Resolves b (Session.KeepsTraced G given) := Action.resolves_traced b
  cases o with
  | resolveColumn n path => exact (hresolves.resolveColumn n path hg).discard.of_after
  | resolveTable n path => exact (hresolves.resolveTable n path hg).discard.of_after
  | setValue c v =>
    exact (Action.setValue_traced hg fun hc => hassigns c v hc ⟨rfl, rfl⟩).of_after
  | resetColumn c => exact (Action.resetColumn_traced c hg).of_after
  | value c => exact (hresolves.value c hg).discard.of_after
  | key n => exact (Action.key_moves (hresolves.refl s) n).discard.of_after
  | save n values =>
    refine (Action.saveAt_traced b n values hg hG fun path v c hpair hdenotes hc => ?_).of_after
    exact hassigns c v hc ⟨path, hpair, hdenotes⟩
  | saveNode n => exact (Action.saveNode_traced b n hg).of_after
  | fetch n paths => exact (hresolves.fetchAt n paths hg).discard.of_after
  | fetchNode n => exact (Action.fetchNode_traced b n hg).of_after
  | delete n tables => exact (Action.deleteAt_traced b n tables hg).discard.of_after
  | deleteNode n => exact (Action.deleteNode_traced b n hg).discard.of_after

end Operation

namespace Session

variable {σ : Type} {b : Backend σ} {s : Session σ} {G : Graph} {given : Value → Prop}

theorem performAll_traced (operations : List Operation) (hg : s.graph.WellFormed)
    (hG : G.WellFormed) (hassigns : ∀ o ∈ operations, ∀ c v, G.NamesRow c →
      o.Assigns G c v → given v) : KeepsTraced G given s (s.performAll b operations) := by
  induction operations generalizing s with
  | nil => exact .refl s
  | cons o operations ih =>
    have hstep := o.perform_traced b hg hG (hassigns o (by simp))
    exact hstep.trans hg <|
      ih (hstep.evolves.wellFormed hg) fun o' ho' => hassigns o' (by simp [ho'])

/-- What a statement of a run assigns has exact literals. The value of its condition has one too,
unless it is the key that the record was opened with, or a value that an operation assigned to a
key or a foreign key, or one that an answer gave for a key or a foreign key. -/
theorem performAll_exact {table keyName : String} {key : Value} {state : σ}
    (operations : List Operation) {n : NodeId} {call : Call} {statement : Statement}
    (hcall : (n, call) ∈ ((start table keyName key state).performAll b operations).calls)
    (hstatement : call.statement? = some statement) :
    let g := ((start table keyName key state).performAll b operations).graph
    AllWritable statement.assigned ∧ ∀ k, statement.key? = some k →
      k.value.IsWritable ∨ k.value = key ∨
      (∃ o ∈ operations, ∃ c, g.NamesRow c ∧ o.Assigns g c k.value) ∨
      ∃ m given, (m, given) ∈ ((start table keyName key state).performAll b operations).calls ∧
        given.Gives g m k.value := by
  intro g
  have hstart := Graph.wellFormed_single table keyName key
  let given (v : Value) : Prop := v = key ∨
    (∃ o ∈ operations, ∃ c, g.NamesRow c ∧ o.Assigns g c v) ∨
    ∃ m given, (m, given) ∈ ((start table keyName key state).performAll b operations).calls ∧
      given.Gives g m v
  have hrun := runs_performAll (b := b) (s := start table keyName key state) operations
  have hG : g.WellFormed := (hrun.evolves hstart).wellFormed hstart
  have hkeeps : KeepsTraced g given (start table keyName key state) _ :=
    performAll_traced (b := b) operations hstart hG
      fun o ho c v hc hv => .inr (.inl ⟨o, ho, c, hc, hv⟩)
  have htraced := hkeeps.traced
    ⟨.refl _, fun m call v hcall hgives => .inr (.inr ⟨m, call, hcall, hgives⟩)⟩
    ⟨Graph.traced_single (.inr (.inl rfl)), fun _ _ h => by cases h⟩
  exact htraced.calls n call hcall statement hstatement

/-- A record is opened with a key that is no number, and deleted: the condition is sent as null. -/
theorem performAll_exact_nan :
    let b := Script.backend .standard
    let operations := [Operation.deleteNode Graph.root]
    let s := (start "t0" "id" (.real .nan) ⟨[], .noRow, [], [], 0⟩).performAll b operations
    let statement := Statement.delete "t0" ⟨"id", .real .nan⟩
    statement.render .standard = "delete from \"t0\" where \"id\" = NULL" ∧
      ¬ (Value.real .nan).IsWritable ∧
      ∃ n call, (n, call) ∈ s.calls ∧ call.statement? = some statement ∧
        AllWritable statement.assigned ∧ (Value.real .nan = .real .nan ∨
          (∃ o ∈ operations, ∃ c, s.graph.NamesRow c ∧ o.Assigns s.graph c (.real .nan)) ∨
          ∃ m given, (m, given) ∈ s.calls ∧ given.Gives s.graph m (.real .nan)) := by
  intro b operations s statement
  have hsent : s.calls.filterMap (fun call => call.2.statement?) = [statement] := by decide +kernel
  have hnot : ¬ (Value.real .nan).IsWritable := by decide
  obtain ⟨⟨n, call⟩, hcall, hstatement⟩ :=
    List.mem_filterMap.1 (hsent ▸ List.mem_singleton_self statement)
  obtain ⟨hassigned, hkey⟩ := performAll_exact operations hcall hstatement
  exact ⟨by decide +kernel, hnot, n, call, hcall, hstatement, hassigned,
    (hkey _ rfl).resolve_left hnot⟩

end Session
end RecordGraph
