import RecordGraph.Proofs.PostOrder
import RecordGraph.Proofs.Reachable
import RecordGraph.Proofs.Unread
import RecordGraph.Backend.Script

/-!
# Freshness

A fresh node answers for its columns without a read. Two things hide a column that
was never read: a statement that changes the row and leaves the column out, and a
key that a caller gives to a new node. No other step of a run does, so away from
these two a fresh node knows all of its columns that do not wait.
-/
namespace RecordGraph

/-- The names of the columns that a statement writes. -/
def Statement.written : Statement → List String
  | select .. => []
  | insert _ assignments => assignments.map Prod.fst
  | update _ _ assignments => assignments.map Prod.fst
  | delete .. => []

/-- The call changed a row, and did not write the column of this name. -/
def Call.LeavesOut (name : String) (call : Call) : Prop :=
  ∃ s : Statement, call = .exec s (.ok ()) ∧ name ∉ s.written

/-- What is written of a node is written by a statement that names the dirty columns. -/
theorem Graph.written_eq_or_exec (g : Graph) (n : NodeId) (id : Value) : g.written n id = g ∨
    ∃ s : Statement, .exec s (.ok ()) ∈ g.writeCalls n id ∧
      s.written = (g.assignments (g.dirtyColumns n)).map Prod.fst := by
  unfold written writeCalls
  split
  · exact .inr ⟨_, List.mem_cons_self, rfl⟩
  · split
    · exact .inr ⟨_, List.mem_cons_self, rfl⟩
    · exact .inl rfl

namespace Session

variable {σ : Type} {s s' s'' : Session σ} {n : NodeId} {c : ColumnId}

/-- Between the two sessions, a call for the node left out the column. -/
def PassesOver (s s' : Session σ) (n : NodeId) (c : ColumnId) : Prop :=
  ∃ calls call, s'.calls = s.calls ++ calls ∧ (n, call) ∈ calls ∧
    call.LeavesOut (s'.graph.name c)

/-- Every column that is hidden since then was left out by a call. -/
structure Accounts (s s' : Session σ) : Prop where
  evolves : s.graph.Evolves s'.graph
  calls : s.calls <+: s'.calls
  hides : ∀ {n c}, s'.graph.Hides n c → s.graph.Hides n c ∨ s.PassesOver s' n c

namespace Accounts

theorem of_hidesNoMore (hevolves : s.graph.Evolves s'.graph) (hcalls : s.calls <+: s'.calls)
    (h : s.graph.HidesNoMore s'.graph) : s.Accounts s' :=
  ⟨hevolves, hcalls, fun h' => .inl (h h')⟩

/-- A call that changes nothing in the graph. -/
theorem of_calls {state : σ} {calls : List (NodeId × Call)} :
    s.Accounts ⟨s.graph, state, s.calls ++ calls⟩ :=
  of_hidesNoMore (.refl _) (List.prefix_append ..) fun h => h

theorem refl (s : Session σ) : s.Accounts s :=
  of_hidesNoMore (.refl _) List.prefix_rfl fun h => h

theorem trans (hg : s.graph.WellFormed) (h : s.Accounts s') (h' : s'.Accounts s'') :
    s.Accounts s'' where
  evolves := h.evolves.trans h'.evolves
  calls := h.calls.trans h'.calls
  hides {n c} hlast := by
    have hg' := h.evolves.wellFormed hg
    obtain ⟨before, hbefore⟩ := h.calls
    obtain ⟨after, hafter⟩ := h'.calls
    rcases h'.hides hlast with hmid | ⟨calls, call, hcalls, hcall, hout⟩
    · rcases h.hides hmid with hfirst | ⟨calls, call, hcalls, hcall, hout⟩
      · exact .inl hfirst
      · -- the name of the column stays what it was at the call
        have hname := ((h'.evolves.grows hg').column (hg'.column hmid.registered).1).2
        rw [← hname] at hout
        refine .inr ⟨calls ++ after, call, ?_, List.mem_append_left _ hcall, hout⟩
        rw [← hafter, hcalls, List.append_assoc]
    · refine .inr ⟨before ++ calls, call, ?_, List.mem_append_right _ hcall, hout⟩
      rw [hcalls, ← hbefore, List.append_assoc]

end Accounts
end Session

namespace Action

open Session

variable {σ : Type} (b : Backend σ) {s : Session σ} {n : NodeId} {c : ColumnId}

/-! ## Reading -/

theorem fetchNode_accounts (n : NodeId) (hg : s.graph.WellFormed) :
    (fetchNode b n).Moves Accounts s := by
  refine (ends_fetchNode b).2 ⟨fun _ => .refl s, fun _ hnothing => ?_, fun _ _ _ =>
    ⟨fun row state _ => ?_, fun _ _ => .of_calls, fun _ _ _ => .of_calls⟩⟩
  · refine .of_hidesNoMore (Graph.revalues_setFresh n true).1 List.prefix_rfl ?_
    rcases hnothing with hnew | hnone
    · exact Graph.hidesNoMore_setFresh_new hnew
    · have hread : s.graph.HidesNoMore ((s.graph.settleRow (s.graph.cleanColumns n) []).setFresh n
          true) := Graph.hidesNoMore_read hg
      rwa [hnone] at hread
  · refine .of_hidesNoMore ?_ (List.prefix_append ..) (Graph.hidesNoMore_read hg)
    exact ((Graph.revalues_settleRow Graph.cleanColumns_subset).trans
      (Graph.revalues_setFresh n true)).1

/-- Resolving a path leaves nothing out. -/
theorem resolves_accounts : Resolves b Accounts where
  refl := .refl
  trans := .trans
  evolves := Accounts.evolves
  column hg hn hnew := .of_hidesNoMore (Graph.Step.column hn hnew).evolves List.prefix_rfl
    (Graph.hidesNoMore_withColumn hg)
  child hg hfk hnew := .of_hidesNoMore (Graph.Step.child _ hfk hnew).evolves
    List.prefix_rfl (Graph.hidesNoMore_withChild hg (hg.isNode_of_column hfk))
  value {s} c hg := value_moves (.refl s) (fetchNode_accounts b · hg) c

/-! ## Writing -/

theorem assign_accounts {v : Value} (hg : s.graph.WellFormed) (hc : c ∈ s.graph.columnsOf n) :
    s.Accounts { s with graph := s.graph.assign c v } :=
  .of_hidesNoMore (Graph.revalues_assign c v).1 List.prefix_rfl (Graph.hidesNoMore_assign hg hc)

theorem setValue_hides (k : ColumnId) (v : Value) : (setValue k v).Moves (fun s s' =>
    s'.graph.Hides n c → s.graph.Hides n c ∨ s.graph.keyColumn? n = some k ∧ s.graph.IsNew n)
    s := by
  exact ends_setValue.2 ⟨fun _ h => .inl h, fun _ h => h.of_assign⟩

theorem resetColumn_accounts (c : ColumnId) (hg : s.graph.WellFormed) :
    (resetColumn c).Moves Accounts s := by
  refine (ends_resetColumn hg).2 ⟨fun _ => .refl s, fun _ _ => .refl s, fun n hc => ?_⟩
  exact .of_hidesNoMore ((Graph.revalues_forget hc).trans (Graph.revalues_setFresh n false)).1
    List.prefix_rfl (Graph.hidesNoMore_forget hg hc)

theorem writeNode_accounts (n : NodeId) (hg : s.graph.WellFormed) (hn : s.graph.IsNode n) :
    (writeNode b n).Moves Accounts s := by
  refine ((writeNode_ends b n).and (writeNode_revalues b n)).mono (fun _ s' hs' => ?_)
    (fun _ s' hs' => ?_)
  · obtain ⟨⟨-, id, hgraph, hcalls, -⟩, hevolves, -⟩ := hs'
    refine ⟨hevolves, ⟨_, hcalls.symm⟩, fun {m c} h => ?_⟩
    rw [hgraph] at h
    rcases h.of_written hg hn with h | ⟨rfl, hchanged, hname⟩
    · exact .inl h
    · obtain ⟨statement, hexec, hwritten⟩ :=
        (s.graph.written_eq_or_exec m id).resolve_left hchanged
      refine .inr ⟨_, _, hcalls, List.mem_map_of_mem hexec, statement, rfl, ?_⟩
      rwa [hwritten, hgraph, Graph.name_of_shape_eq Graph.shape_written]
  · -- a write that fails leaves the graph as it was
    obtain ⟨⟨rfl, -⟩ | ⟨-, hgraph, -, -, calls, -, -, hcalls, -⟩, hevolves, -⟩ := hs'
    · exact .refl _
    · refine .of_hidesNoMore hevolves ⟨_, hcalls.symm⟩ ?_
      rw [hgraph]
      exact fun h => h

/-! ## Deleting -/

theorem eraseNode_accounts (n : NodeId) : (eraseNode b n).Moves Accounts s := by
  have hevolves : s.graph.Evolves (s.graph.setFresh n true) := (Graph.revalues_setFresh n true).1
  refine (ends_eraseNode b).2 ⟨fun hnew => ?_, fun _ => ⟨fun state _ => ?_, fun _ _ _ => .of_calls⟩⟩
  · exact .of_hidesNoMore hevolves List.prefix_rfl (Graph.hidesNoMore_setFresh_new hnew)
  · refine ⟨hevolves, List.prefix_append .., fun {m c} h => ?_⟩
    by_cases hmn : n = m
    · subst hmn
      exact .inr ⟨_, _, rfl, List.mem_singleton_self _, _, rfl, List.not_mem_nil⟩
    · exact .inl (h.of_setFresh hmn)

/-- All operations account for what they hide, but the assignment to a key. -/
theorem operates_accounts : Operates b Accounts where
  toResolves := resolves_accounts b
  fetchNode n hg := fetchNode_accounts b n hg
  assign _ hg hc := assign_accounts hg hc
  resetColumn c hg := resetColumn_accounts c hg
  writeNode hg hn := writeNode_accounts b _ hg hn
  eraseNode _ _ := eraseNode_accounts b _

end Action

/-! ## Runs -/

namespace Operation

variable {σ : Type} (b : Backend σ) {s : Session σ} {n : NodeId} {c : ColumnId}

/-- The operation gives a key to a node that is new. -/
def GivesKey (o : Operation) (g : Graph) (n : NodeId) : Prop :=
  ∃ k v, o = .setValue k v ∧ g.keyColumn? n = some k ∧ g.IsNew n

/-- What an operation hides was left out by a call, or is of a node that was given its key. -/
theorem perform_hides (o : Operation) (hg : s.graph.WellFormed)
    (h : ((o.perform b).after s).graph.Hides n c) :
    s.graph.Hides n c ∨ s.PassesOver ((o.perform b).after s) n c ∨ o.GivesKey s.graph n := by
  rcases (Action.operates_accounts b).perform hg o with ⟨k, v, rfl⟩ | haccounts
  · exact ((Action.setValue_hides k v).of_after h).imp_right fun hkey => .inr ⟨k, v, rfl, hkey⟩
  · exact (haccounts.hides h).imp_right .inl

end Operation

namespace Session

variable {σ : Type} {b : Backend σ} {s : Session σ} {n : NodeId} {c : ColumnId}

/-- Operations one after the other, with the column hidden after each of them. -/
def RunsHiding (b : Backend σ) (n : NodeId) (c : ColumnId) : Session σ → Session σ → Prop :=
  Relation.ReflTransGen fun s s' =>
    (∃ o : Operation, s' = (o.perform b).after s) ∧ s'.graph.Hides n c

/-- In a run, what is hidden at the end was hidden by one operation of the run, and stayed so. -/
theorem Runs.hides {s₀ : Session σ} (hrun : Runs b s₀ s) (hg : s₀.graph.WellFormed)
    (hstart : ¬ s₀.graph.Hides n c) (h : s.graph.Hides n c) :
    ∃ (o : Operation) (t : Session σ), Runs b s₀ t ∧
      ¬ t.graph.Hides n c ∧ ((o.perform b).after t).graph.Hides n c ∧
      (t.PassesOver ((o.perform b).after t) n c ∨ o.GivesKey t.graph n) ∧
      RunsHiding b n c ((o.perform b).after t) s := by
  induction hrun with
  | refl => exact absurd h hstart
  | @tail t s' hrun hstep ih =>
    by_cases ht : t.graph.Hides n c
    · obtain ⟨o, t', hbefore, hnot, hhides, hcause, hafter⟩ := ih ht
      exact ⟨o, t', hbefore, hnot, hhides, hcause, hafter.tail ⟨hstep, h⟩⟩
    · obtain ⟨o, rfl⟩ := hstep
      have hgt := Graph.Evolves.wellFormed (Runs.evolves hrun hg) hg
      exact ⟨o, t, hrun, ht, h, (o.perform_hides b hgt h).resolve_left ht, .refl⟩

/-- The value of a column that a fresh node knows is given without a call. -/
theorem value_of_known (hg : s.graph.WellFormed) (hc : c ∈ s.graph.columnsOf n)
    (hfresh : s.graph.IsFresh n) (hclean : ¬ s.graph.IsDirty c) :
    Action.value b c s = .ok (s.graph.current c) s := by
  have hends : (Action.value b c).Ends s (fun v s' => v = s.graph.current c ∧ s' = s)
      (fun _ _ => False) := by
    refine (Action.ends_value b hg hc).2 ⟨fun h => absurd h hclean, fun _ _ => ⟨rfl, rfl⟩, ?_⟩
    exact fun _ h => absurd hfresh h
  obtain ⟨v, s', hok, rfl, rfl⟩ := hends.exists_ok
  exact hok

/-- A fresh node of an existing row knows each of its columns that do not wait, and answers for
it without a call; unless an operation of the run hid the column, by a call for the row that
left it out, or by giving a key to the new node, and the column stayed hidden since. -/
theorem Runs.known_or_hidden {table keyName : String} {key : Value} {state : σ}
    (hrun : Runs b (.start table keyName key state) s) (hexists : ¬ s.graph.IsNew n)
    (hfresh : s.graph.IsFresh n) (hc : c ∈ s.graph.columnsOf n) (hclean : ¬ s.graph.IsDirty c) :
    (∃ v, (s.graph.column? c).bind Column.clean = some v ∧ Action.value b c s = .ok v s) ∨
    ∃ (o : Operation) (t : Session σ), Runs b (.start table keyName key state) t ∧
      ¬ t.graph.Hides n c ∧ ((o.perform b).after t).graph.Hides n c ∧
      (t.PassesOver ((o.perform b).after t) n c ∨ o.GivesKey t.graph n) ∧
      RunsHiding b n c ((o.perform b).after t) s := by
  have hstart := Graph.wellFormed_single table keyName key
  have hg := (hrun.evolves hstart).wellFormed hstart
  rcases Graph.known_or_unread hg hc hclean with ⟨v, hv, hcurrent⟩ | hunread
  · refine .inl ⟨v, hv, ?_⟩
    rw [value_of_known hg hc hfresh hclean, hcurrent]
  · refine .inr (hrun.hides hstart (fun h => ?_) ⟨hexists, hfresh, hc, hunread⟩)
    -- a record is opened without columns
    have hnone := h.registered
    rw [Session.start, Graph.columnsOf_single] at hnone
    exact List.not_mem_nil hnone

/-- A new record is saved with one of its two columns: the other one is hidden since then. -/
theorem Runs.known_or_hidden_saved :
    let b := Script.backend .standard
    let start : Session Script := .start "t0" "id" .null ⟨[], .noRow, [], [], 0⟩
    let s := start.performAll b [.resolveColumn Graph.root "title",
      .resolveColumn Graph.root "created_at", .setValue ⟨1⟩ (.text "Title"), .saveNode Graph.root]
    (¬ s.graph.IsNew Graph.root ∧ s.graph.IsFresh Graph.root ∧
      ⟨2⟩ ∈ s.graph.columnsOf Graph.root ∧ ¬ s.graph.IsDirty ⟨2⟩) ∧
    ∃ (o : Operation) (t : Session Script), Runs b start t ∧
      ¬ t.graph.Hides Graph.root ⟨2⟩ ∧ ((o.perform b).after t).graph.Hides Graph.root ⟨2⟩ ∧
      (t.PassesOver ((o.perform b).after t) Graph.root ⟨2⟩ ∨ o.GivesKey t.graph Graph.root) ∧
      RunsHiding b Graph.root ⟨2⟩ ((o.perform b).after t) s := by
  intro b start s
  have hs : ¬ s.graph.IsNew Graph.root ∧ s.graph.IsFresh Graph.root ∧
      ⟨2⟩ ∈ s.graph.columnsOf Graph.root ∧ ¬ s.graph.IsDirty ⟨2⟩ := by decide +kernel
  have hunknown : (s.graph.column? ⟨2⟩).bind Column.clean = none := by decide +kernel
  obtain ⟨hexists, hfresh, hc, hclean⟩ := hs
  refine ⟨⟨hexists, hfresh, hc, hclean⟩, ?_⟩
  rcases Runs.known_or_hidden (runs_performAll _) hexists hfresh hc hclean with ⟨v, hv, -⟩ | h
  · rw [hunknown] at hv
    cases hv
  · exact h

/-- A column is hidden by the save of another column, whether the row is new or was never read,
and by the key that a new record is given. It then reads as null. -/
theorem fresh_hides_unread :
    let b := Script.backend .standard
    let script : Script := ⟨[], .noRow, [], [], 0⟩
    let save : List Operation := [.resolveColumn Graph.root "title",
      .resolveColumn Graph.root "created_at", .setValue ⟨1⟩ (.text "Title"), .saveNode Graph.root]
    let inserted := (start "t0" "id" .null script).performAll b save
    let updated := (start "t0" "id" (.integer 1) script).performAll b save
    let keyed := (start "t0" "id" .null script).performAll b
      [.resolveColumn Graph.root "title", .value ⟨1⟩, .setValue ⟨0⟩ (.integer 1)]
    (inserted.graph.Hides Graph.root ⟨2⟩ ∧ ¬ inserted.graph.IsDirty ⟨2⟩ ∧
      (Action.value b ⟨2⟩).result? inserted = some .null) ∧
    (updated.graph.Hides Graph.root ⟨2⟩ ∧ ¬ updated.graph.IsDirty ⟨2⟩ ∧
      (Action.value b ⟨2⟩).result? updated = some .null) ∧
    (keyed.graph.Hides Graph.root ⟨1⟩ ∧ ¬ keyed.graph.IsDirty ⟨1⟩ ∧
      (Action.value b ⟨1⟩).result? keyed = some .null) := by
  decide +kernel

end Session
end RecordGraph
