import RecordGraph.Backend.Script
import RecordGraph.Proofs.Cascade
import RecordGraph.Proofs.Reachable
import RecordGraph.Proofs.SaveStages

/-!
# The calls of a save

Each node of the subtree is met once, after its children, and contributes the
calls of the plan: what they write was waiting before the save, or is the key
that a child has after its own calls.
-/
namespace RecordGraph

/-- The calls for some nodes, each with the keys that the children have in `g'`. -/
def Graph.plannedCalls (g g' : Graph) (ids : NodeId → Value) (nodes : List NodeId) :
    List (NodeId × Call) :=
  nodes.flatMap fun m =>
    (g.saveCalls m (g.writtenAssignments g' m) (ids m)).map fun call => (m, call)

namespace Action

open RecordGraph.Graph

variable {σ : Type} (b : Backend σ) {s s₀ s₁ s₂ : Session σ} {n : NodeId} {e : Edge}
  {done : List NodeId} {linked : List Edge}

/-- A session amid a save that began in `s₀`: the graph, the calls made so far, and what
the backend became by them. -/
def Cascades (s₀ : Session σ) (done : List NodeId) (linked : List Edge) (s₁ : Session σ) :
    Prop :=
  ∃ ids, Cascade s₀.graph ids done linked s₁.graph ∧
    s₁.calls = s₀.calls ++ s₀.graph.plannedCalls s₁.graph ids done ∧
    b.Replays ((s₀.graph.plannedCalls s₁.graph ids done).map Prod.snd) s₀.backend s₁.backend

theorem writeNode_cascades (hg : s₀.graph.WellFormed) (hn : s₀.graph.IsNode n) (hnew : n ∉ done)
    (hlinks : linked.filter (·.parent = n) = s₀.graph.edgesOf n)
    (h : Cascades b s₀ done linked s₁) (hok : writeNode b n s₁ = .ok () s₂) :
    Cascades b s₀ (done ++ [n]) linked s₂ := by
  obtain ⟨ids, hcascade, hcalls, hreplays⟩ := h
  obtain ⟨-, id, hgraph, hcalls₂, hreplays₂⟩ := (writeNode_ends b n).of_ok hok
  have hkey {m} (hm : m ∈ done) := hcascade.key_written hg hn hnew hm id
  have hwrite := hcascade.write hg hnew hlinks hn id
  have hold : s₀.graph.plannedCalls s₂.graph (Function.update ids n id) done =
      s₀.graph.plannedCalls s₁.graph ids done := by
    refine List.flatMap_congr fun m hm => ?_
    have hmn : m ≠ n := by
      rintro rfl
      exact hnew hm
    rw [hgraph, writtenAssignments_congr fun e he => hkey (hcascade.closed hm he),
      Function.update_of_ne hmn]
  have hnext : s₀.graph.plannedCalls s₂.graph (Function.update ids n id) [n] =
      (s₁.graph.writeCalls n id).map fun call => (n, call) := by
    rw [hcascade.writeCalls_next hg hnew hlinks hn, plannedCalls, List.flatMap_singleton,
      Function.update_self, hgraph,
      writtenAssignments_congr fun e he => hkey (hcascade.child_mem_done hlinks he)]
  have hplan : s₀.graph.plannedCalls s₂.graph (Function.update ids n id) (done ++ [n]) =
      s₀.graph.plannedCalls s₁.graph ids done ++
        (s₁.graph.writeCalls n id).map fun call => (n, call) := by
    rw [plannedCalls, List.flatMap_append, ← hold, ← hnext, plannedCalls, plannedCalls]
  refine ⟨Function.update ids n id, hgraph ▸ hwrite, ?_, ?_⟩
  · rw [hcalls₂, hcalls, hplan, List.append_assoc]
  · have hsnd : ((s₁.graph.writeCalls n id).map fun call => (n, call)).map Prod.snd =
        s₁.graph.writeCalls n id := by
      rw [List.map_map]
      exact List.map_id _
    rw [hplan, List.map_append, hsnd, Backend.replays_append]
    exact ⟨s₁.backend, hreplays, hreplays₂⟩

theorem link_cascades (hg : s₀.graph.WellFormed) (he : e ∈ s₀.graph.edgesOf e.parent)
    (hchild : e.child ∈ done) (hparent : e.parent ∉ done) (h : Cascades b s₀ done linked s₁) :
    Cascades b s₀ done (linked ++ [e]) { s₁ with graph := s₁.graph.link e } := by
  obtain ⟨ids, hcascade, hcalls, hreplays⟩ := h
  have hplan : s₀.graph.plannedCalls (s₁.graph.link e) ids done =
      s₀.graph.plannedCalls s₁.graph ids done :=
    List.flatMap_congr fun m _ => by
      rw [writtenAssignments_congr fun d _ => hcascade.key_link hg he d.child]
  refine ⟨ids, hcascade.link hg he hchild hparent, ?_, ?_⟩
  · rw [hplan]
    exact hcalls
  · rw [hplan]
    exact hreplays

/-- A stage of a save whose written values all have exact literals. -/
def Stage (s₀ : Session σ) (done : List NodeId) (linked : List Edge) (s₁ : Session σ) : Prop :=
  Cascades b s₀ done linked s₁ ∧
    ∀ m ∈ done, AllWritable (s₀.graph.writtenAssignments s₁.graph m)

theorem start_stage (s : Session σ) : Stage b s [] [] s :=
  ⟨⟨fun _ => .null, .start s.graph _, (List.append_nil _).symm, rfl⟩, fun _ hm => by cases hm⟩

theorem writeNode_stage (hg : s₀.graph.WellFormed) (hn : s₀.graph.IsNode n) (hnew : n ∉ done)
    (hlinks : linked.filter (·.parent = n) = s₀.graph.edgesOf n) (h : Stage b s₀ done linked s₁)
    (hok : writeNode b n s₁ = .ok () s₂) : Stage b s₀ (done ++ [n]) linked s₂ := by
  refine ⟨writeNode_cascades b hg hn hnew hlinks h.1 hok, fun m hm => ?_⟩
  obtain ⟨⟨ids, hcascade, -, -⟩, hwritable⟩ := h
  obtain ⟨hall, id, hgraph, -, -⟩ := (writeNode_ends b n).of_ok hok
  have hkey {k} (hk : k ∈ done) : s₂.graph.key k = s₁.graph.key k := by
    rw [hgraph]
    exact hcascade.key_written hg hn hnew hk id
  rcases List.mem_append.1 hm with hm | hm
  · rw [writtenAssignments_congr fun e he => hkey (hcascade.closed hm he)]
    exact hwritable m hm
  · obtain rfl := List.mem_singleton.1 hm
    rw [writtenAssignments_congr fun e he => hkey (hcascade.child_mem_done hlinks he),
      ← hcascade.assignments_next hg hnew hlinks, ← hcascade.dirtyColumns_next hg hnew hlinks]
    exact hall

theorem link_stage (hg : s₀.graph.WellFormed) (he : e ∈ s₀.graph.edgesOf e.parent)
    (hchild : e.child ∈ done) (hparent : e.parent ∉ done) (h : Stage b s₀ done linked s₁) :
    Stage b s₀ done (linked ++ [e]) { s₁ with graph := s₁.graph.link e } := by
  refine ⟨link_cascades b hg he hchild hparent h.1, fun m hm => ?_⟩
  obtain ⟨⟨ids, hcascade, -, -⟩, hwritable⟩ := h
  rw [writtenAssignments_congr fun d _ => hcascade.key_link hg he d.child]
  exact hwritable m hm

/-- A save that succeeds goes through all joins below the node, and then writes the node. -/
theorem saveNode_stage (n : NodeId) (hg : s.graph.WellFormed) : (saveNode b n).Ends s
    (fun _ s' => s.graph.IsNode n ∧ Stage b s (s.graph.postOrder n) (s.graph.edgesBelow n) s')
    (fun e s' => (¬ s.graph.IsNode n ∧ e = .unknownNode n ∧ s' = s) ∨
      s.graph.IsNode n ∧ ∃ m, StopsAt b (Stage b s) s n m e s') :=
  saveNode_stages b hg (start_stage b s) (writeNode_stage b hg) (link_stage b hg) n

theorem saveNode_cascades (n : NodeId) (hg : s.graph.WellFormed) : (saveNode b n).Ends s
    (fun _ s' => s.graph.IsNode n ∧
      Cascades b s (s.graph.postOrder n) (s.graph.edgesBelow n) s')
    (fun _ _ => True) :=
  (saveNode_stage b n hg).mono (fun _ _ h => ⟨h.1, h.2.1⟩) (fun _ _ _ => trivial)

/-- A save that succeeds makes the planned calls of every node of the subtree, in
post-order, and no others; `ids` are the generated keys. -/
theorem saveNode_calls_eq {s s' : Session σ} (hs : s.graph.Reachable) (n : NodeId)
    (h : saveNode b n s = .ok () s') : ∃ ids : NodeId → Value,
      s'.calls = s.calls ++ (s.graph.postOrder n).flatMap (fun m =>
        (s.graph.saveCalls m (s.graph.writtenAssignments s'.graph m) (ids m)).map
          fun call => (m, call)) ∧
      (∀ m ∈ s.graph.postOrder n, s'.graph.key m =
        s.graph.keyAfter m (s.graph.writtenAssignments s'.graph m) (ids m)) ∧
      (s.graph.postOrder n).Nodup ∧
      ∀ m, s.graph.postOrder m =
          (s.graph.edgesOf m).flatMap (fun e => s.graph.postOrder e.child) ++ [m] ∧
        (s.graph.edgeIds m).Pairwise (fun d e => d.index < e.index) ∧
        (s.graph.columnsOf m).Pairwise (fun c d => c.index < d.index) := by
  have hg := hs.wellFormed
  obtain ⟨-, ids, hcascade, hcalls, -⟩ := (saveNode_cascades b n hg).of_ok h
  refine ⟨ids, hcalls, fun m hm => hcascade.writtenKey hm, hg.postOrder_nodup n, fun m => ?_⟩
  exact ⟨hg.postOrder_eq m, hg.edges_sorted m, hg.columns_sorted m⟩

/-- Two new rows: the joined one is inserted first, and its key goes into the other. -/
theorem saveNode_calls_joined :
    let b := Script.backend .standard
    let s := ((Operation.setValue ⟨3⟩ (.text "x")).perform b).after
      (((Operation.resolveColumn root "t1.title").perform b).after
        (.start "t0" "id" .null ⟨[], .noRow, [], [], 0⟩))
    ∃ ids : NodeId → Value, ((saveNode b root).after s).calls =
      [(⟨1⟩, .exec (.insert "t1" [("title", .text "x")]) (.ok ())),
        (⟨1⟩, .lastInsertId (.ok (ids ⟨1⟩))),
        (⟨0⟩, .exec (.insert "t0" [("t1_id", .integer 1)]) (.ok ())),
        (⟨0⟩, .lastInsertId (.ok (ids ⟨0⟩)))] := by
  intro b s
  have hs : s.graph.Reachable :=
    ⟨_, b, "t0", "id", .null, _, s, .tail (.tail .refl ⟨_, rfl⟩) ⟨_, rfl⟩, rfl⟩
  have hsave : (saveNode b root).result? s = some () := by decide +kernel
  obtain ⟨ids, hcalls, -⟩ := saveNode_calls_eq b hs root (eq_ok_of_result? hsave)
  have horder : s.graph.postOrder root = [⟨1⟩, ⟨0⟩] := by decide +kernel
  have hchild : s.graph.writtenAssignments ((saveNode b root).after s).graph ⟨1⟩ =
      [("title", .text "x")] := by decide +kernel
  have hroot : s.graph.writtenAssignments ((saveNode b root).after s).graph ⟨0⟩ =
      [("t1_id", .integer 1)] := by decide +kernel
  have hnew : s.graph.IsNew ⟨1⟩ ∧ s.graph.IsNew ⟨0⟩ := by decide +kernel
  have htables : s.graph.table ⟨1⟩ = "t1" ∧ s.graph.table ⟨0⟩ = "t0" := by decide +kernel
  have hcalls₀ : s.calls = [] := List.eq_nil_of_length_eq_zero (by decide +kernel)
  refine ⟨ids, ?_⟩
  rw [hcalls, horder, hcalls₀]
  simp only [List.flatMap_cons, List.flatMap_nil, hchild, hroot, saveCalls, if_pos hnew.1,
    if_pos hnew.2, htables]
  rfl

end Action
end RecordGraph
