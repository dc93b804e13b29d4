import RecordGraph.Proofs.PostOrder
import RecordGraph.Proofs.WrittenNode

/-!
# The stages of a save

A save writes one node after the other, and links a join once its child is
written. What holds at the start and is kept by both steps holds after a save
that succeeds; after one that fails it holds up to the node where the save
stopped.
-/
namespace RecordGraph.Action

open RecordGraph.Graph

variable {σ : Type} (b : Backend σ) {s : Session σ} {n : NodeId}
  {P : List NodeId → List Edge → Session σ → Prop}

/-- A save of `n` stops at a node: those before it are written, the joins that lead to them are
linked, all its own joins among them, and then it is not written. -/
def StopsAt (P : List NodeId → List Edge → Session σ → Prop) (s : Session σ) (n m : NodeId)
    (e : Error) (s' : Session σ) : Prop :=
  ∃ linked rest s₁, linked <+: s.graph.edgesBelow n ∧
    s.graph.postOrder n = linked.map Edge.child ++ m :: rest ∧
    linked.filter (·.parent = m) = s.graph.edgesOf m ∧
    P (linked.map Edge.child) linked s₁ ∧ writeNode b m s₁ = .error e s'

/-- Writing a node and linking a join are all that a save does. -/
theorem saveNode_stages (hg : s.graph.WellFormed) (start : P [] [] s)
    (write : ∀ {done linked m s₁ s₂}, s.graph.IsNode m → m ∉ done →
      linked.filter (·.parent = m) = s.graph.edgesOf m → P done linked s₁ →
      writeNode b m s₁ = .ok () s₂ → P (done ++ [m]) linked s₂)
    (link : ∀ {done linked e s₁}, e ∈ s.graph.edgesOf e.parent → e.child ∈ done →
      e.parent ∉ done → P done linked s₁ →
      P done (linked ++ [e]) { s₁ with graph := s₁.graph.link e }) (n : NodeId) :
    (saveNode b n).Ends s
      (fun _ s' => s.graph.IsNode n ∧ P (s.graph.postOrder n) (s.graph.edgesBelow n) s')
      (fun e s' => (¬ s.graph.IsNode n ∧ e = .unknownNode n ∧ s' = s) ∨
        s.graph.IsNode n ∧ ∃ m, StopsAt b P s n m e s') := by
  rw [saveNode, ends_bind, ends_requireNode, node?_eq_none]
  refine ⟨fun node hnode => ?_, fun hno => .inl ⟨hno, rfl, rfl⟩⟩
  have hn := node?_eq_some hnode
  rw [ends_bind, ends_graph, ends_bind]
  have hloop : ((s.graph.edgesBelow n).forM (writeEdge b)).Ends s
      (fun _ => P ((s.graph.edgesBelow n).map Edge.child) (s.graph.edgesBelow n))
      (fun e s' => ∃ m, StopsAt b P s n m e s') := by
    refine ends_forM_met (P := fun met => P (met.map Edge.child) met) ?_ start
    intro met e rest s₁ hsplit h₁
    obtain ⟨hlinks, hnew, hparent⟩ := hg.edgesBelow_split hsplit
    obtain ⟨hedge, -⟩ := hg.edge_of_mem_edgesBelow (by simp [hsplit] : e ∈ s.graph.edgesBelow n)
    obtain ⟨-, -, -, -, hchild, -⟩ := hg.edge_of_mem hedge
    rw [List.map_append] at hparent
    rw [writeEdge, ends_bind]
    refine ends_of_forall (fun _ s₂ hok => ?_) (fun failure s₂ hfails => ?_)
    · rw [ends_updateGraph, List.map_append]
      exact link hedge (by simp) hparent (write hchild hnew hlinks h₁ hok)
    · refine ⟨e.child, met, rest.map Edge.child ++ [n], s₁, ⟨_, hsplit.symm⟩, ?_, hlinks, h₁,
        hfails⟩
      simp [postOrder, hsplit]
  refine hloop.mono (fun _ s₁ h₁ => ?_) (fun _ _ hstops => .inr ⟨hn, hstops⟩)
  have hlinks := hg.edgesBelow_filter_parent (.refl s.graph n)
  refine ends_of_forall (fun _ s₂ hok => ⟨hn, ?_⟩) (fun failure s₂ hfails => .inr ⟨hn, n, ?_⟩)
  · exact write hn (hg.notMem_children_edgesBelow n) hlinks h₁ hok
  · exact ⟨s.graph.edgesBelow n, [], s₁, List.prefix_rfl, rfl, hlinks, h₁, hfails⟩

end RecordGraph.Action
