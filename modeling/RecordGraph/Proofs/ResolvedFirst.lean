import RecordGraph.Proofs.QuietReads

/-!
# Paths before writes

Saving and deleting by path resolve all paths of their list first, and only selections are sent
on the way. A path that cannot be resolved stops them there, so nothing is written.
-/
namespace RecordGraph

variable {σ α β : Type}

/-- Queries leave the state as it is. -/
def Backend.IsSteady (b : Backend σ) : Prop := ∀ q state, (b.query q state).2 = state

theorem Backend.IsSteady.eq_of_replays {b : Backend σ} (hb : b.IsSteady) {calls : List Call}
    {state state' : σ} (h : b.Replays calls state state')
    (hselections : ∀ call ∈ calls, call.IsSelection) : state' = state := by
  induction calls generalizing state with
  | nil => exact h
  | cons call calls ih =>
    obtain ⟨mid, hanswers, hrest⟩ := h
    obtain ⟨hfirst, hmore⟩ := List.forall_mem_cons.1 hselections
    cases call with
    | query q answer =>
      have hkept := hb q state
      rw [(hanswers : b.query q state = (answer, mid))] at hkept
      exact (ih hrest hmore).trans hkept
    | exec | lastInsertId => exact hfirst.elim

namespace Session

/-- Only selections were sent, and the backend gave their answers. -/
structure SelectsOnly (b : Backend σ) (s s' : Session σ) : Prop where
  evolves : s.graph.Evolves s'.graph
  reads : ∃ calls, s'.calls = s.calls ++ calls ∧ (∀ call ∈ calls, call.2.IsSelection) ∧
    b.Replays (calls.map Prod.snd) s.backend s'.backend

namespace SelectsOnly

variable {b : Backend σ} {s s' s'' : Session σ} {g : Graph}

theorem of_graph (h : s.graph.Evolves g) : s.SelectsOnly b { s with graph := g } :=
  ⟨h, [], by simp, by simp, rfl⟩

theorem refl (s : Session σ) : s.SelectsOnly b s := of_graph (.refl _)

theorem trans (h : s.SelectsOnly b s') (h' : s'.SelectsOnly b s'') : s.SelectsOnly b s'' := by
  obtain ⟨calls, hcalls, hselections, hreplays⟩ := h.reads
  obtain ⟨more, hmore, hselections', hreplays'⟩ := h'.reads
  refine ⟨h.evolves.trans h'.evolves, calls ++ more, ?_, fun call hcall => ?_, ?_⟩
  · rw [hmore, hcalls, List.append_assoc]
  · rcases List.mem_append.1 hcall with hcall | hcall
    · exact hselections call hcall
    · exact hselections' call hcall
  · rw [List.map_append]
    exact Backend.replays_append.2 ⟨_, hreplays, hreplays'⟩

theorem of_query {n : NodeId} {state : σ} {answer : Except Failure (Option Row)}
    (hq : b.query (s.graph.selection n) s.backend = (answer, state))
    (h : s.graph.Evolves g) : s.SelectsOnly b
      ⟨g, state, s.calls ++ [(n, .query (s.graph.selection n) answer)]⟩ := by
  refine ⟨h, [_], rfl, fun call hcall => ?_, state, hq, rfl⟩
  rw [List.mem_singleton.1 hcall]
  trivial

theorem backend_eq (h : s.SelectsOnly b s') (hb : b.IsSteady) : s'.backend = s.backend := by
  obtain ⟨calls, -, hselections, hreplays⟩ := h.reads
  refine hb.eq_of_replays hreplays fun call hcall => ?_
  obtain ⟨sent, hsent, rfl⟩ := List.mem_map.1 hcall
  exact hselections sent hsent

end SelectsOnly
end Session

namespace Action

open Session

variable {b : Backend σ} {n : NodeId} {s t s' : Session σ} {e : Error}

/-! ## Lists of paths -/

section
variable (b) (n)

/-- Resolves a path and assigns a value to its column. -/
def assignAt (pair : String × Value) : Action σ PUnit := do
  let c ← resolveColumn b n pair.1
  updateGraph (·.assign c pair.2)

/-- Resolves a table for the sake of what is registered. -/
def joinAt (path : String) : Action σ PUnit := discard (resolveTable b n path)

end

theorem requireNode_of_unknown (hn : ¬ s.graph.IsNode n) :
    requireNode n s = .error (.unknownNode n) s :=
  requireNode_of_none (Graph.node?_eq_none.2 hn)

/-- Where every element asks for the node, it need not be asked for before. -/
theorem requireNode_forM {f : α → Action σ PUnit} {m : Action σ β}
    (hf : ∀ a s, ¬ s.graph.IsNode n → f a s = .error (.unknownNode n) s)
    (hm : ∀ s, ¬ s.graph.IsNode n → m s = .error (.unknownNode n) s) (l : List α) :
    (requireNode n >>= fun _ => l.forM f >>= fun _ => m) = l.forM f >>= fun _ => m := by
  funext s
  by_cases hn : s.graph.IsNode n
  · obtain ⟨node, hnode⟩ := hn.exists
    exact requireNode_bind hnode _
  · rw [bind_of_error (requireNode_of_unknown hn)]
    cases l with
    | nil => exact (hm s hn).symm
    | cons a l => exact (bind_of_error (forM_cons_of_error (hf a s hn))).symm

/-- A save resolves and assigns everything, and then it is the save of a node. -/
theorem saveAt_eq (values : List (String × Value)) :
    saveAt b n values = values.forM (assignAt b n) >>= fun _ => saveNode b n :=
  requireNode_forM (fun _ _ hn => bind_of_error (bind_of_error (requireNode_of_unknown hn)))
    (fun _ hn => bind_of_error (requireNode_of_unknown hn)) values

theorem deleteAt_eq (tables : List String) :
    deleteAt b n tables = tables.forM (joinAt b n) >>= fun _ => deleteNode b n :=
  requireNode_forM (fun _ _ hn => bind_of_error (bind_of_error (requireNode_of_unknown hn)))
    (fun _ hn => bind_of_error (requireNode_of_unknown hn)) tables

theorem assignAt_eq_error {pair : String × Value} :
    assignAt b n pair s = .error e s' ↔ resolveColumn b n pair.1 s = .error e s' :=
  bind_eq_error fun _ _ => ⟨_, _, rfl⟩

theorem joinAt_eq_error {path : String} :
    joinAt b n path s = .error e s' ↔ resolveTable b n path s = .error e s' :=
  bind_eq_error (f := fun _ => pure PUnit.unit) fun _ _ => ⟨_, _, rfl⟩

/-- A path without a tree is resolved nowhere. -/
theorem assignAt_fails {pair : String × Value} {pe : PathError}
    (h : ColumnPath.parse pair.1 = .error pe) (s : Session σ) :
    ∃ e s', assignAt b n pair s = .error e s' := by
  have hends : (resolveColumn b n pair.1).Ends s (fun _ _ => False) (fun _ _ => True) :=
    (ends_resolveColumn b).2 ⟨fun _ => trivial, fun _ => ⟨fun _ _ => trivial, fun p hp => by
      cases h.symm.trans hp⟩⟩
  obtain ⟨e, s', hfails, -⟩ := hends.exists_error
  exact ⟨e, s', assignAt_eq_error.2 hfails⟩

theorem joinAt_fails {path : String} {pe : PathError} (h : TableSpec.parsePath path = .error pe)
    (s : Session σ) : ∃ e s', joinAt b n path s = .error e s' := by
  have hends : (resolveTable b n path).Ends s (fun _ _ => False) (fun _ _ => True) :=
    (ends_resolveTable b).2 ⟨fun _ => trivial, fun _ => ⟨fun _ _ => trivial, fun p hp => by
      cases h.symm.trans hp⟩⟩
  obtain ⟨e, s', hfails, -⟩ := hends.exists_error
  exact ⟨e, s', joinAt_eq_error.2 hfails⟩

/-! ## Selections on the way -/

theorem fetchNode_selectsOnly (n : NodeId) : (fetchNode b n).Moves (SelectsOnly b) s := by
  refine (ends_fetchNode b).2 ⟨fun _ => .refl s, fun _ _ =>
    .of_graph (Graph.revalues_setFresh n true).1, fun _ _ _ => ⟨fun row state hq => ?_,
    fun _ hq => .of_query hq (.refl _), fun _ _ hq => .of_query hq (.refl _)⟩⟩
  exact .of_query hq ((Graph.revalues_settleRow Graph.cleanColumns_subset).trans
    (Graph.revalues_setFresh n true)).1

theorem resolves_selectsOnly : Resolves b (SelectsOnly b) where
  refl := .refl
  trans _ := .trans
  evolves := SelectsOnly.evolves
  column _ hn hnew := .of_graph (Graph.Step.column hn hnew).evolves
  child _ hfk hnew := .of_graph (Graph.Step.child _ hfk hnew).evolves
  value {s} c _ := value_moves (.refl s) (fun n => fetchNode_selectsOnly n) c

theorem assignAt_selectsOnly (pair : String × Value) (hg : s.graph.WellFormed) :
    (assignAt b n pair).Moves (SelectsOnly b) s :=
  ends_bind.2 ((resolves_selectsOnly.resolveColumn n pair.1 hg).mono
    (fun _ _ hs' => hs'.trans (.of_graph (Graph.revalues_assign ..).1)) (fun _ _ => id))

theorem joinAt_selectsOnly (path : String) (hg : s.graph.WellFormed) :
    (joinAt b n path).Moves (SelectsOnly b) s :=
  (resolves_selectsOnly.resolveTable n path hg).discard

section
variable {f : α → Action σ PUnit} {m : Action σ β} {l : List α} {a : α}
  (hf : ∀ a {s}, s.graph.WellFormed → (f a).Moves (SelectsOnly b) s) (hg : s.graph.WellFormed)

include hf hg

/-- What follows a loop that stops is not begun, and the loop itself sends selections only. -/
theorem stops_of_forM (h : l.forM f s = .error e s') :
    (l.forM f >>= fun _ => m) s = .error e s' ∧ s.SelectsOnly b s' := by
  have hloop : (l.forM f).Moves (SelectsOnly b) s :=
    resolves_selectsOnly.forM hg fun a _ _ _ hg' => hf a hg'
  exact ⟨bind_of_error h, hloop.of_error h⟩

theorem stops_of_mem (ha : a ∈ l) (hfails : ∀ s, ∃ e s', f a s = .error e s') :
    ∃ e s', (l.forM f >>= fun _ => m) s = .error e s' ∧ s.SelectsOnly b s' := by
  obtain ⟨e, s', h⟩ := forM_fails (s := s) ha hfails
  exact ⟨e, s', stops_of_forM hf hg h⟩

end

/-- A save that fails while it resolves its paths has sent selections only. -/
theorem saveAt_stops {values : List (String × Value)} (hg : s.graph.WellFormed)
    (h : values.forM (assignAt b n) s = .error e s') :
    saveAt b n values s = .error e s' ∧ s.SelectsOnly b s' := by
  rw [saveAt_eq]
  exact stops_of_forM (fun pair _ => assignAt_selectsOnly pair) hg h

theorem deleteAt_stops {tables : List String} (hg : s.graph.WellFormed)
    (h : tables.forM (joinAt b n) s = .error e s') :
    deleteAt b n tables s = .error e s' ∧ s.SelectsOnly b s' := by
  rw [deleteAt_eq]
  exact stops_of_forM (fun path _ => joinAt_selectsOnly path) hg h

/-- A path without a tree stops a save before the first write, wherever it is in the list. -/
theorem saveAt_malformed {values : List (String × Value)} {pair : String × Value}
    {pe : PathError} (hg : s.graph.WellFormed) (hpair : pair ∈ values)
    (hpath : ColumnPath.parse pair.1 = .error pe) :
    ∃ e s', saveAt b n values s = .error e s' ∧ s.SelectsOnly b s' := by
  rw [saveAt_eq]
  exact stops_of_mem (fun pair _ => assignAt_selectsOnly pair) hg hpair (assignAt_fails hpath)

theorem deleteAt_malformed {tables : List String} {path : String} {pe : PathError}
    (hg : s.graph.WellFormed) (hmem : path ∈ tables)
    (hpath : TableSpec.parsePath path = .error pe) :
    ∃ e s', deleteAt b n tables s = .error e s' ∧ s.SelectsOnly b s' := by
  rw [deleteAt_eq]
  exact stops_of_mem (fun path _ => joinAt_selectsOnly path) hg hmem (joinAt_fails hpath)

end Action
end RecordGraph
