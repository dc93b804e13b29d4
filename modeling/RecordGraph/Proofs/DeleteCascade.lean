import RecordGraph.CommandLine.Run
import RecordGraph.Proofs.CascadeWalk
import RecordGraph.Proofs.Keys

/-!
# The cascade of a delete

A delete goes over the nodes of a subtree, children before their parent, and
asks for each row to be deleted. Nodes without a row are passed over. Nothing of
the graph changes but that the nodes met are up to date, so the requests are
known from the graph at the start.
-/
namespace RecordGraph

namespace Graph

section
variable (g : Graph)

/-- All nodes in order of registration. -/
def nodeIds : List NodeId := (List.range g.nodes.size).map NodeId.mk

/-- The nodes among some that have a row. -/
def existing (nodes : List NodeId) : List NodeId := nodes.filter fun m => ¬ g.IsNew m

/-- The nodes that have no row. -/
def newNodes : List NodeId := g.nodeIds.filter fun m => g.IsNew m

/-- The requests that delete the rows of some nodes, in their order. -/
def deletions (nodes : List NodeId) : List (NodeId × Call) :=
  (g.existing nodes).map fun m => (m, .exec (g.deletion m) (.ok ()))

/-- Some nodes are up to date, and all else is as it was. -/
def freshen (nodes : List NodeId) : Graph :=
  { g with nodes := g.nodes.mapIdx fun i node =>
      if ⟨i⟩ ∈ nodes then { node with fresh := true } else node }

end

variable {g : Graph} {n m : NodeId} {nodes : List NodeId}

theorem freshen_nil : g.freshen [] = g := by
  have hnodes : (g.freshen []).nodes = g.nodes := by
    apply Array.ext_getElem?
    intro i
    simp [freshen]
  calc g.freshen []
    _ = { g with nodes := (g.freshen []).nodes } := rfl
    _ = g := by rw [hnodes]

theorem setFresh_freshen : (g.freshen nodes).setFresh m true = g.freshen (nodes ++ [m]) := by
  have hnodes : ((g.freshen nodes).setFresh m true).nodes = (g.freshen (nodes ++ [m])).nodes := by
    apply Array.ext_getElem?
    intro i
    simp only [setFresh, updateNode, freshen, Array.getElem?_modify, Array.getElem?_mapIdx,
      List.mem_append, List.mem_singleton]
    cases m with
    | mk j =>
      by_cases hij : j = i
      · subst hij
        cases g.nodes[j]? with
        | none => simp
        | some node => by_cases hmem : (⟨j⟩ : NodeId) ∈ nodes <;> simp [hmem]
      · have hne : ¬ i = j := fun h => hij h.symm
        simp [hij, hne]
  calc (g.freshen nodes).setFresh m true
    _ = { g with nodes := ((g.freshen nodes).setFresh m true).nodes } := rfl
    _ = g.freshen (nodes ++ [m]) := by rw [hnodes]; rfl

theorem shape_freshen (nodes : List NodeId) : (g.freshen nodes).shape = g.shape := by
  induction nodes using List.reverseRecOn with
  | nil => rw [freshen_nil]
  | append_singleton nodes m ih => rw [← setFresh_freshen, shape_setFresh, ih]

/-- No key changes, and so no request. -/
theorem isNew_freshen : (g.freshen nodes).IsNew m ↔ g.IsNew m :=
  isNew_congr (keyColumn?_of_shape_eq (shape_freshen nodes) m) fun _ => rfl

theorem deletion_freshen : (g.freshen nodes).deletion m = g.deletion m := by
  have hkey : (g.freshen nodes).keyColumn? m = g.keyColumn? m :=
    keyColumn?_of_shape_eq (shape_freshen nodes) m
  rw [deletion, deletion, table_of_shape_eq (shape_freshen nodes), keyMatch, keyMatch, keyName,
    keyName, key, key, hkey]
  rfl

theorem existing_concat : g.existing (nodes ++ [m]) =
    g.existing nodes ++ if g.IsNew m then [] else [m] := by
  rw [existing, List.filter_append, ← existing]
  by_cases hnew : g.IsNew m <;> simp [hnew]

theorem deletions_concat : g.deletions (nodes ++ [m]) = g.deletions nodes ++
    if g.IsNew m then [] else [(m, .exec (g.deletion m) (.ok ()))] := by
  rw [deletions, existing_concat, List.map_append, ← deletions]
  by_cases hnew : g.IsNew m <;> simp [hnew]

/-! ## All nodes -/

theorem mem_nodeIds : n ∈ g.nodeIds ↔ g.IsNode n := by
  cases n
  simp [nodeIds, IsNode]

theorem newNodes_congr {g' : Graph} (hsize : g'.nodes.size = g.nodes.size)
    (hnew : ∀ n, g'.IsNew n ↔ g.IsNew n) : g'.newNodes = g.newNodes := by
  simp only [newNodes, nodeIds, hsize, hnew]

/-- Below the root stands every node, once. -/
theorem WellFormed.postOrder_root_perm (hg : g.WellFormed) :
    (g.postOrder Graph.root).Perm g.nodeIds := by
  have hinj : Function.Injective NodeId.mk := fun i j h => congrArg NodeId.index h
  refine (List.perm_ext_iff_of_nodup (hg.postOrder_nodup _)
    (List.nodup_range.map hinj)).2 fun n => ?_
  rw [hg.mem_postOrder, ← nodeIds, mem_nodeIds]
  exact ⟨fun ⟨_, hn⟩ => hg.isNode_of_descend hg.root hn, fun hn => hg.below_root hn⟩

/-- A node has a row or none. -/
theorem WellFormed.existing_add_newNodes (hg : g.WellFormed) :
    (g.existing (g.postOrder Graph.root)).length + g.newNodes.length = g.nodes.size := by
  have hperm : (g.existing (g.postOrder Graph.root)).Perm (g.existing g.nodeIds) :=
    hg.postOrder_root_perm.filter _
  have hsplit : g.nodeIds.length = (g.nodeIds.filter fun m => decide (¬ g.IsNew m)).length +
      (g.nodeIds.filter fun m => !decide (¬ g.IsNew m)).length :=
    List.length_eq_length_filter_add _
  have hsize : g.nodeIds.length = g.nodes.size := by simp [nodeIds]
  rw [hperm.length_eq, ← hsize, hsplit]
  simp [existing, newNodes]

end Graph

namespace Action

variable {σ : Type} (b : Backend σ) {s s' : Session σ} {n : NodeId} {nodes : List NodeId}

/-- The rows of some nodes are deleted, one after the other. -/
structure Erases (s : Session σ) (nodes : List NodeId) (s' : Session σ) : Prop where
  graph : s'.graph = s.graph.freshen nodes
  calls : s'.calls = s.calls ++ s.graph.deletions nodes

/-- The deletion of some rows stops at one of them, the request for which is refused. -/
def EraseStops (s : Session σ) (nodes : List NodeId) (e : Error) (s' : Session σ) : Prop :=
  ∃ before m after f, nodes = before ++ m :: after ∧ ¬ s.graph.IsNew m ∧ e = .statement f ∧
    s'.graph = s.graph.freshen before ∧
    s'.calls = s.calls ++ s.graph.deletions before ++
      [(m, .exec (s.graph.deletion m) (.error f))]

theorem tally_eraseNode_ends : (tally (eraseNode b) nodes).Ends s
    (fun count s' => count = (s.graph.existing nodes).length ∧ Erases s nodes s')
    (EraseStops s nodes) := by
  have hstart : Erases s [] s := ⟨Graph.freshen_nil.symm, by simp [Graph.deletions, Graph.existing]⟩
  refine ends_foldlM_met (P := fun met count s' =>
    count = (s.graph.existing met).length ∧ Erases s met s') ?_ ⟨rfl, hstart⟩
  rintro met m rest count s' hsplit ⟨rfl, hs'⟩
  rw [ends_bind, ends_eraseNode]
  simp only [ends_pure, hs'.graph, hs'.calls, Graph.isNew_freshen, Graph.deletion_freshen]
  refine ⟨fun hnew => ⟨?_, ?_, ?_⟩, fun hnew => ⟨fun state _ => ⟨?_, ?_, ?_⟩, fun f state _ => ?_⟩⟩
  · rw [Graph.existing_concat, if_pos hnew, List.append_nil, Nat.add_zero]
  · exact Graph.setFresh_freshen
  · rw [Graph.deletions_concat, if_pos hnew, List.append_nil]
  · rw [Graph.existing_concat, if_neg hnew, List.length_append, List.length_singleton]
  · exact Graph.setFresh_freshen
  · rw [Graph.deletions_concat, if_neg hnew, List.append_assoc]
  · exact ⟨met, m, rest, f, hsplit, hnew, rfl, rfl, rfl⟩

theorem deleteNode_ends (hn : s.graph.IsNode n) : (deleteNode b n).Ends s
    (fun count s' => count = (s.graph.existing (s.graph.postOrder n)).length ∧
      Erases s (s.graph.postOrder n) s')
    (EraseStops s (s.graph.postOrder n)) :=
  (tally_eraseNode_ends b).congr (deleteNode_apply b hn)

/-- After a delete of the root, the nodes that were not counted are those without a row. -/
theorem delete_ends (tables : List String) (hg : s.graph.WellFormed) :
    (delete b tables).Ends s
      (fun count s' => count + s'.graph.newNodes.length = s'.graph.nodes.size)
      (fun _ _ => True) := by
  have hresolve : (tables.forM fun path => discard (resolveTable b Graph.root path)).Changes
      Graph.Evolves s :=
    (resolves_evolves b).forM hg fun path _ _ _ hg' =>
      ((resolves_evolves b).resolveTable Graph.root path hg').discard
  rw [delete, deleteAt, ends_bind, ends_requireNode]
  refine ⟨fun _ _ => ?_, fun _ => trivial⟩
  refine ends_bind.2 (hresolve.mono (fun _ s₁ h₁ => ?_) (fun _ _ _ => trivial))
  have hg₁ := h₁.wellFormed hg
  refine (deleteNode_ends b hg₁.root).mono (fun count s₂ h₂ => ?_) (fun _ _ _ => trivial)
  obtain ⟨rfl, herases⟩ := h₂
  have hsize : (s₁.graph.freshen (s₁.graph.postOrder Graph.root)).nodes.size =
      s₁.graph.nodes.size := by simp [Graph.freshen]
  rw [herases.graph, hsize, Graph.newNodes_congr hsize fun _ => Graph.isNew_freshen]
  exact hg₁.existing_add_newNodes

/-- A delete of a node asks for the row of each node of its subtree to be deleted, children before
their parent, and stops at the first refusal. Of the root, as many rows as it does not count are
the nodes without a row, and this is the number that the command reports as skipped. -/
theorem deleteNode_cascades (hs : s.graph.Reachable) :
    (∀ n, s.graph.IsNode n →
      (s.graph.postOrder n).Nodup ∧
      (∀ m, s.graph.postOrder m =
        (s.graph.edgesOf m).flatMap (fun e => s.graph.postOrder e.child) ++ [m]) ∧
      (∀ count s', deleteNode b n s = .ok count s' →
        count = (s.graph.existing (s.graph.postOrder n)).length ∧
          Erases s (s.graph.postOrder n) s') ∧
      ∀ e s', deleteNode b n s = .error e s' → EraseStops s (s.graph.postOrder n) e s') ∧
    (∀ tables count s', delete b tables s = .ok count s' →
      count ≤ s'.graph.nodes.size ∧ s'.graph.nodes.size - count = s'.graph.newNodes.length) ∧
    ∀ t tables report s', CommandLine.delete b t tables s = (.ok report, s') →
      ∃ count, delete b tables s = .ok count s' ∧ report.data = .object [("deleted", .integer count),
        ("skipped", .integer s'.graph.newNodes.length), ("table", .string t.table)] := by
  have hg := hs.wellFormed
  have hcount {tables : List String} {count : ℕ} {s' : Session σ}
      (h : delete b tables s = .ok count s') :
      count + s'.graph.newNodes.length = s'.graph.nodes.size := (delete_ends b tables hg).of_ok h
  refine ⟨fun n hn => ⟨hg.postOrder_nodup n, hg.postOrder_eq, fun count s' h => ?_,
    fun e s' h => ?_⟩, fun tables count s' h => ?_, fun t tables report s' h => ?_⟩
  · exact (deleteNode_ends b hn).of_ok h
  · exact (deleteNode_ends b hn).of_error h
  · have hsum := hcount h
    omega
  · simp only [CommandLine.delete, EStateM.run] at h
    cases hok : delete b tables s with
    | error e s₁ =>
      rw [hok] at h
      cases h
    | ok count s₁ =>
      rw [hok] at h
      obtain ⟨hreport, rfl⟩ := Prod.mk.inj h
      have hskipped : s₁.graph.nodes.size - count = s₁.graph.newNodes.length := by
        have hsum := hcount hok
        omega
      refine ⟨count, rfl, ?_⟩
      rw [← Except.ok.inj hreport, hskipped]

/-- A node without a row is passed over, the row below it is not; the refusal of that one stops
the delete after the first request, and a second delete counts all three rows. -/
theorem deleteNode_cascades_retried :
    let b := Script.backend .standard
    let s := (Session.start "t0" "id" (.integer 1)
      ⟨[.row [("t1_id", .integer 5)], .row []], .noRow, [none, some "refused"], [], 0⟩).performAll b
      [.resolveTable Graph.root "t1", .resolveColumn Graph.root "t2.t3_id",
        .setValue ⟨5⟩ (.integer 7), .resolveTable Graph.root "t2.t3"]
    let t := (deleteNode b Graph.root).after s
    let t' := (delete b []).after t
    (deleteNode b Graph.root).result? s = none ∧
      (∃ e, EraseStops s [⟨1⟩, ⟨3⟩, ⟨2⟩, ⟨0⟩] e t) ∧
      (t.calls.drop s.calls.length).map Prod.fst = [⟨1⟩, ⟨3⟩] ∧
      (delete b []).result? t = some 3 ∧ t'.graph.nodes.size = 4 ∧
      t'.graph.nodes.size - 3 = t'.graph.newNodes.length := by
  intro b s t t'
  have hs : s.graph.Reachable := Graph.reachable_performAll b "t0" "id" (.integer 1) _ _
  have ht : t.graph.Reachable :=
    ⟨_, b, "t0", "id", .integer 1, _, t, .tail (Session.runs_performAll _)
      ⟨.deleteNode Graph.root, after_discard.symm⟩, rfl⟩
  have hroot : s.graph.IsNode Graph.root := hs.wellFormed.root
  have hnone : (deleteNode b Graph.root).result? s = none := by decide +kernel
  have hsome : (delete b []).result? t = some 3 := by decide +kernel
  have horder : s.graph.postOrder Graph.root = [⟨1⟩, ⟨3⟩, ⟨2⟩, ⟨0⟩] := by decide +kernel
  refine ⟨hnone, ?_, by decide +kernel, hsome, by decide +kernel, ?_⟩
  · obtain ⟨e, he⟩ := exists_error_of_result? hnone
    rw [← horder]
    exact ⟨e, ((deleteNode_cascades b hs).1 Graph.root hroot).2.2.2 e t he⟩
  · exact ((deleteNode_cascades b ht).2.1 [] 3 t' (eq_ok_of_result? hsome)).2

end Action
end RecordGraph
