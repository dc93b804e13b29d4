import RecordGraph.Proofs.Freshness
import RecordGraph.Proofs.RowLife
import RecordGraph.Proofs.SavedNode

/-!
# Rows are inserted once

Each operation lets every node live on: what it calls for a node belongs to the
phase in which the node is. So in a run a row is inserted at most once, however
often a save fails and is tried again, from whichever node.
-/
namespace RecordGraph

/-! ## Sessions -/

/-- The calls for one node. -/
def callsFor (n : NodeId) (calls : List (NodeId × Call)) : List Call :=
  (calls.filter (·.1 = n)).map Prod.snd

section
variable {n m : NodeId} {calls calls' : List (NodeId × Call)}

theorem callsFor_append : callsFor n (calls ++ calls') = callsFor n calls ++ callsFor n calls' := by
  rw [callsFor, List.filter_append, List.map_append, callsFor, callsFor]

theorem callsFor_self {calls : List Call} :
    callsFor n (calls.map fun call => (n, call)) = calls := by
  rw [callsFor, List.filter_eq_self.2 (by simp), List.map_map]
  exact List.map_id _

theorem callsFor_of_ne {calls : List Call} (h : n ≠ m) :
    callsFor n (calls.map fun call => (m, call)) = [] := by
  rw [callsFor, List.filter_eq_nil_iff.2 (by simp [h.symm]), List.map_nil]

end

/-- What a call for each node was made for between two sessions, in the order of the calls. -/
structure Session.Lives {σ : Type} (keyed : NodeId → Prop) (s s' : Session σ) : Prop where
  evolves : s.graph.Evolves s'.graph
  lives : ∃ calls, s'.calls = s.calls ++ calls ∧
    ∀ n, Life (keyed n) (s.graph.phase n) (callsFor n calls) (s'.graph.phase n)

namespace Session.Lives

variable {σ : Type} {keyed keyed' : NodeId → Prop} {s s' s'' : Session σ} {m : NodeId}

theorem refl (s : Session σ) : Lives keyed s s :=
  ⟨.refl _, [], (List.append_nil _).symm, fun _ => .refl⟩

theorem trans (h : Lives keyed s s') (h' : Lives keyed s' s'') : Lives keyed s s'' := by
  obtain ⟨calls, hcalls, hlife⟩ := h.lives
  obtain ⟨calls', hcalls', hlife'⟩ := h'.lives
  refine ⟨h.evolves.trans h'.evolves, calls ++ calls', ?_, fun n => ?_⟩
  · rw [hcalls', hcalls, List.append_assoc]
  · rw [callsFor_append]
    exact (hlife n).trans (hlife' n)

theorem mono (h : Lives keyed s s') (himp : ∀ n, keyed n → keyed' n) : Lives keyed' s s' := by
  obtain ⟨calls, hcalls, hlife⟩ := h.lives
  exact ⟨h.evolves, calls, hcalls, fun n => (hlife n).mono (himp n)⟩

/-- Calls for one node. -/
theorem of_node {calls : List Call} (hevolves : s.graph.Evolves s'.graph)
    (hcalls : s'.calls = s.calls ++ calls.map fun call => (m, call))
    (hself : Life (keyed m) (s.graph.phase m) calls (s'.graph.phase m))
    (hothers : ∀ n, n ≠ m → Life (keyed n) (s.graph.phase n) [] (s'.graph.phase n)) :
    Lives keyed s s' := by
  refine ⟨hevolves, _, hcalls, fun n => ?_⟩
  by_cases hnm : n = m
  · rw [hnm, callsFor_self]
    exact hself
  · rw [callsFor_of_ne hnm]
    exact hothers n hnm

/-- A change of the graph that keeps the keys. -/
theorem of_keepsKeys {g : Graph} (hevolves : s.graph.Evolves g)
    (hkeep : s.graph.KeepsKeys g) : Lives (fun _ => False) s { s with graph := g } :=
  ⟨hevolves, [], (List.append_nil _).symm, hkeep.life⟩

/-- A call for a row that exists. -/
theorem of_used {call : Call} (hg : s.graph.WellFormed) (hm : s.graph.IsNode m)
    (hnew : ¬ s.graph.IsNew m) (hcall : ¬ call.IsInsert) (hevolves : s.graph.Evolves s'.graph)
    (hkeep : s.graph.KeepsKeys s'.graph) (hcalls : s'.calls = s.calls ++ [(m, call)]) :
    Lives (fun _ => False) s s' := by
  have hlist : s'.calls = s.calls ++ [call].map fun call => (m, call) := hcalls
  refine of_node hevolves hlist ?_ fun n _ => hkeep.life n
  rw [Graph.phase_congr (hkeep.grows.node hm).2.2 hkeep.keys, Graph.phase_eq_existing hg hm hnew]
  exact .single (.used hcall)

end Session.Lives

namespace Graph

variable {g : Graph} {n m : NodeId}

theorem phase_written_of_ne (hg : g.WellFormed) (hn : g.IsNode n) (hmn : m ≠ n) (id : Value) :
    (g.written n id).phase m = g.phase m :=
  phase_congr (keyColumn?_of_shape_eq shape_written m) (column?_written_of_key hg hn hmn)

theorem phase_written_self (hg : g.WellFormed) (hn : g.IsNode n) (id : Value) :
    (g.written n id).phase n = .existing := by
  obtain ⟨k, hk, -⟩ := hg.key hn
  obtain ⟨v, hv⟩ := column?_key_written hg hk
  exact phase_eq_existing_of_assign hg hk ((keyColumn?_of_shape_eq shape_written n).trans hk) hv

/-- A node is written by the calls of its phase. -/
theorem life_written (hg : g.WellFormed) (hn : g.IsNode n) (id : Value) :
    Life False (g.phase n) (g.writeCalls n id) ((g.written n id).phase n) := by
  rw [phase_written_self hg hn]
  by_cases hnew : g.IsNew n
  · rw [phase_eq_new.2 hnew, writeCalls_of_isNew hnew]
    exact .single (.inserted ..)
  · rw [phase_eq_existing hg hn hnew]
    by_cases hdirty : g.dirtyColumns n ≠ []
    · rw [writeCalls_of_dirty hnew hdirty]
      exact .single (.used (Call.not_isInsert_exec (by simp)))
    · rw [writeCalls_of_clean hnew hdirty]
      exact .refl

/-- A new row is inserted, another one updated. -/
theorem eq_of_exec_mem_writeCalls {statement : Statement} {id : Value}
    (h : .exec statement (.ok ()) ∈ g.writeCalls n id) :
    g.IsNew n ∧ statement = .insert (g.table n) (g.assignments (g.dirtyColumns n)) ∨
      ¬ g.IsNew n ∧
        statement = .update (g.table n) (g.keyMatch n) (g.assignments (g.dirtyColumns n)) := by
  by_cases hnew : g.IsNew n
  · rw [writeCalls_of_isNew hnew] at h
    rcases List.mem_cons.1 h with h | h
    · exact .inl ⟨hnew, (Call.exec.inj h).1⟩
    · cases List.mem_singleton.1 h
  · by_cases hdirty : g.dirtyColumns n ≠ []
    · rw [writeCalls_of_dirty hnew hdirty] at h
      exact .inr ⟨hnew, (Call.exec.inj (List.mem_singleton.1 h)).1⟩
    · rw [writeCalls_of_clean hnew hdirty] at h
      cases h

end Graph

namespace Action

open Session

variable {σ : Type} (b : Backend σ) {s s' : Session σ} {n : NodeId} {e : Error}

/-- A failed write leaves the node in its phase. -/
theorem Breaks.life (h : Breaks b s n e s') (hg : s.graph.WellFormed) (hn : s.graph.IsNode n) :
    ∃ calls, s'.calls = s.calls ++ calls.map (fun call => (n, call)) ∧
      Life False (s.graph.phase n) calls (s.graph.phase n) := by
  obtain ⟨-, statement, f, calls, hexec, -, hcalls, -, hkind⟩ := h
  refine ⟨calls, hcalls, ?_⟩
  rcases Graph.eq_of_exec_mem_writeCalls hexec with ⟨hnew, rfl⟩ | ⟨hnew, rfl⟩
  · rw [Graph.phase_eq_new.2 hnew]
    rcases hkind with rfl | ⟨-, rfl⟩
    · exact .single (.refused ⟨_, _, _, rfl⟩)
    · exact .single (.untold ..)
  · rw [Graph.phase_eq_existing hg hn hnew]
    obtain rfl := hkind.resolve_right fun h => hnew h.1
    exact .single (.used (Call.not_isInsert_exec (by simp)))

theorem fetchNode_lives (n : NodeId) (hg : s.graph.WellFormed) :
    (fetchNode b n).Moves (Lives fun _ => False) s := by
  have hcall (hn : s.graph.IsNode n) (hnew : ¬ s.graph.IsNew n)
      (answer : Except Failure (Option Row)) (state : σ) : s.Lives (fun _ => False)
        ⟨s.graph, state, s.calls ++ [(n, .query (s.graph.selection n) answer)]⟩ :=
    .of_used hg hn hnew Call.not_isInsert_query (.refl _) (.refl _) rfl
  refine (ends_fetchNode b).2 ⟨fun _ => .refl s, fun _ _ => ?_, fun hn hnew _ =>
    ⟨fun row state _ => ?_, fun _ _ => hcall hn hnew .., fun _ _ _ => hcall hn hnew ..⟩⟩
  · exact .of_keepsKeys (Graph.revalues_setFresh n true).1 (Graph.keepsKeys_setFresh n true)
  · refine .of_used hg hn hnew Call.not_isInsert_query ?_ ?_ rfl
    · exact ((Graph.revalues_settleRow Graph.cleanColumns_subset).trans
        (Graph.revalues_setFresh n true)).1
    · exact (Graph.keepsKeys_settleRow hg Graph.cleanColumns_subset).trans
        (Graph.keepsKeys_setFresh n true)

theorem resetColumn_lives (c : ColumnId) (hg : s.graph.WellFormed) :
    (resetColumn c).Moves (Lives fun _ => False) s := by
  refine (ends_resetColumn hg).2 ⟨fun _ => .refl s, fun _ _ => .refl s, fun n hc => ?_⟩
  refine .of_keepsKeys ?_ ((Graph.keepsKeys_forget hg hc).trans (Graph.keepsKeys_setFresh _ _))
  exact ((Graph.revalues_forget hc).trans (Graph.revalues_setFresh n false)).1

theorem writeNode_lives (n : NodeId) (hg : s.graph.WellFormed) (hn : s.graph.IsNode n) :
    (writeNode b n).Moves (Lives fun _ => False) s := by
  refine ((writeNode_ends b n).and (writeNode_revalues b n)).mono (fun _ s' hs' => ?_)
    (fun _ s' hs' => ?_)
  · obtain ⟨⟨-, id, hgraph, hcalls, -⟩, hevolves, -⟩ := hs'
    refine .of_node hevolves hcalls ?_ fun m hmn => ?_
    · rw [hgraph]
      exact Graph.life_written hg hn id
    · rw [hgraph, Graph.phase_written_of_ne hg hn hmn]
      exact .refl
  · obtain ⟨⟨rfl, -⟩ | ⟨-, hbreaks⟩, hevolves, -⟩ := hs'
    · exact .refl _
    · obtain ⟨calls, hcalls, hlife⟩ := hbreaks.life b hg hn
      refine .of_node hevolves hcalls ?_ fun m _ => ?_
      · rwa [hbreaks.1]
      · rw [hbreaks.1]
        exact .refl

theorem eraseNode_lives (n : NodeId) (hg : s.graph.WellFormed) (hn : s.graph.IsNode n) :
    (eraseNode b n).Moves (Lives fun _ => False) s := by
  have hevolves : s.graph.Evolves (s.graph.setFresh n true) := (Graph.revalues_setFresh n true).1
  have hkeep : s.graph.KeepsKeys (s.graph.setFresh n true) := Graph.keepsKeys_setFresh n true
  have hdelete {answer : Except Failure Unit} :
      ¬ (Call.exec (s.graph.deletion n) answer).IsInsert :=
    Call.not_isInsert_exec (by simp [Graph.deletion])
  exact (ends_eraseNode b).2 ⟨fun _ => .of_keepsKeys hevolves hkeep, fun hnew =>
    ⟨fun _ _ => .of_used hg hn hnew hdelete hevolves hkeep rfl,
      fun _ _ _ => .of_used hg hn hnew hdelete (.refl _) (.refl _) rfl⟩⟩

/-- Every operation but the assignment to a key lets the nodes live on. -/
theorem operates_lives : Operates b (Lives fun _ => False) where
  refl := .refl
  trans _ := .trans
  evolves := Lives.evolves
  column hg hn hnew :=
    .of_keepsKeys (Graph.Step.column hn hnew).evolves (Graph.keepsKeys_withColumn hg hn)
  child hg hfk hnew := .of_keepsKeys (Graph.Step.child _ hfk hnew).evolves
    (Graph.keepsKeys_withChild hg (hg.isNode_of_column hfk))
  value {s} c hg := value_moves (.refl s) (fetchNode_lives b · hg) c
  fetchNode n hg := fetchNode_lives b n hg
  assign _ hg hc := .of_keepsKeys (Graph.revalues_assign ..).1 (Graph.keepsKeys_assign hg hc)
  resetColumn c hg := resetColumn_lives c hg
  writeNode hg hn := writeNode_lives b _ hg hn
  eraseNode hg hn := eraseNode_lives b _ hg hn

theorem setValue_lives (c : ColumnId) (v : Value) (hg : s.graph.WellFormed) :
    (setValue c v).Moves (Lives fun n => s.graph.keyColumn? n = some c ∧ s.graph.IsNew n) s := by
  refine ends_setValue.2 ⟨fun _ => .refl s, fun _ => ?_⟩
  exact ⟨(Graph.revalues_assign c v).1, [], (List.append_nil _).symm, Graph.life_assign hg c v⟩

end Action

namespace Session

variable {σ : Type} {b : Backend σ} {s s' : Session σ} {n : NodeId}

theorem perform_lives (o : Operation) (hg : s.graph.WellFormed) :
    Lives (o.GivesKey s.graph) s ((o.perform b).after s) := by
  rcases (Action.operates_lives b).perform hg o with ⟨c, v, rfl⟩ | h
  · exact (Action.setValue_lives c v hg).of_after.mono fun n hn => ⟨c, v, rfl, hn⟩
  · exact h.mono fun _ => False.elim

theorem Runs.lives (h : Runs b s s') (hg : s.graph.WellFormed) : Lives (fun _ => True) s s' := by
  induction h with
  | refl => exact .refl s
  | tail hrun hstep ih =>
    obtain ⟨o, rfl⟩ := hstep
    have hg' := Graph.Evolves.wellFormed (Runs.evolves hrun hg) hg
    exact ih.trans ((perform_lives o hg').mono fun _ _ => trivial)

/-- In a run in which the keys of inserted rows are told, a row is inserted at most once, whatever
else fails. A row that exists is never taken for a new one again. As long as a node is new its
key is null, and nothing is sent for it but insertions that are refused; so it is amid an
operation too, in the order of the calls. -/
theorem Runs.inserts_once {table keyName : String} {key : Value} {state : σ}
    (hrun : Runs b (.start table keyName key state) s) (htold : ∀ call ∈ s.calls, ¬ call.2.untold)
    (hn : s.graph.IsNode n) :
    (callsFor n s.calls).countP Call.inserted ≤ 1 ∧
    (¬ s.graph.IsNew n → ∀ s', Runs b s s' → ¬ s'.graph.IsNew n) ∧
    (s.graph.IsNew n → (Action.key n).result? s = some .null ∧
      ∀ call ∈ callsFor n s.calls, call.IsRefusedInsert) ∧
    ∀ o : Operation, Lives (o.GivesKey s.graph) s ((o.perform b).after s) := by
  have hstart := Graph.wellFormed_single table keyName key
  have hg := (hrun.evolves hstart).wellFormed hstart
  obtain ⟨calls, hcalls, hlife⟩ := (hrun.lives hstart).lives
  have hlifeOf := hlife n
  obtain rfl : s.calls = calls := hcalls
  have htoldOf : ∀ call ∈ callsFor n s.calls, ¬ call.untold := by
    intro call hcall
    obtain ⟨pair, hpair, rfl⟩ := List.mem_map.1 hcall
    exact htold pair (List.mem_of_mem_filter hpair)
  refine ⟨?_, fun hexists s' hrun' hnew => ?_, fun hnew => ⟨?_, ?_⟩, fun o => perform_lives o hg⟩
  · have hle := hlifeOf.countP_inserted_le
    rw [List.countP_eq_zero.2 htoldOf] at hle
    exact hle.trans (by split <;> simp)
  · obtain ⟨calls', -, hlife'⟩ := (hrun'.lives hg).lives
    have hexisting := hlife' n
    rw [Graph.phase_eq_existing hg hn hexists] at hexisting
    have hphase := hexisting.eq_existing
    rw [Graph.phase_eq_new.2 hnew] at hphase
    cases hphase
  · have hkeys := (hrun.evolves hstart).keysWait hstart (Graph.keysWait_single table keyName key)
    rw [Action.result?_key hn, hkeys.key_eq_null hnew]
  · rw [Graph.phase_eq_new.2 hnew] at hlifeOf
    exact hlifeOf.refused_of_new htoldOf

/-- The first insertion of a joined row is refused; it is tried again from the root, and later
saved and deleted. -/
theorem Runs.inserts_once_retried :
    let b := Script.backend .standard
    let start : Session Script := .start "t0" "id" .null ⟨[], .noRow, [some "locked"], [], 0⟩
    let refused := start.performAll b [.resolveColumn Graph.root "t1.title",
      .setValue ⟨3⟩ (.text "x"), .saveNode ⟨1⟩]
    let s := refused.performAll b [.saveNode Graph.root, .saveNode Graph.root,
      .deleteNode Graph.root]
    refused.graph.IsNew ⟨1⟩ ∧ (callsFor ⟨1⟩ s.calls).length = 4 ∧
      (callsFor ⟨1⟩ s.calls).countP Call.inserted = 1 ∧
      (∀ call ∈ callsFor ⟨1⟩ refused.calls, call.IsRefusedInsert) ∧
      ∀ s', Runs b s s' → ¬ s'.graph.IsNew ⟨1⟩ := by
  intro b start refused s
  have hrefused : Runs b start refused := runs_performAll _
  have hrun : Runs b start s := hrefused.trans (runs_performAll _)
  have hnode : refused.graph.IsNode ⟨1⟩ ∧ s.graph.IsNode ⟨1⟩ := by
    show 1 < refused.graph.nodes.size ∧ 1 < s.graph.nodes.size
    decide +kernel
  have hnew : refused.graph.IsNew ⟨1⟩ ∧ ¬ s.graph.IsNew ⟨1⟩ := by decide +kernel
  have htold : (∀ call ∈ refused.calls, ¬ call.2.untold) ∧ ∀ call ∈ s.calls, ¬ call.2.untold := by
    decide +kernel
  obtain ⟨-, -, hcalls, -⟩ := Runs.inserts_once hrefused htold.1 hnode.1
  obtain ⟨hle, hstays, -, -⟩ := Runs.inserts_once hrun htold.2 hnode.2
  have hsome : 1 ≤ (callsFor ⟨1⟩ s.calls).countP Call.inserted := by decide +kernel
  exact ⟨hnew.1, by decide +kernel, le_antisymm hle hsome, (hcalls hnew.1).2, hstays hnew.2⟩

end Session
end RecordGraph
