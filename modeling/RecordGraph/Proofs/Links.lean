import RecordGraph.Proofs.CascadeWalk
import RecordGraph.Proofs.SaveCalls
import RecordGraph.Store.Backend

/-!
# Links

A join is linked while its foreign key holds the key of the row that it leads to.
A save links the joins of a node one after the other, so of the joins that share
a foreign key the last one decides what the foreign key holds.
-/
namespace RecordGraph

namespace Graph

/-- The foreign key of a join holds the key of its child. -/
def Linked (g : Graph) (e : Edge) : Prop := g.current e.foreignKey = g.key e.child

instance (g : Graph) (e : Edge) : Decidable (g.Linked e) := inferInstanceAs (Decidable (_ = _))

section
variable {g g₁ : Graph} {ids : NodeId → Value} {done : List NodeId} {linked : List Edge}
  {m : NodeId} {c : ColumnId} {e last : Edge}

/-- A column that was written has the value that was written to it. -/
theorem Cascade.current_written (h : Cascade g ids done linked g₁) (hm : m ∈ done)
    (hg : g.WellFormed) (hc : c ∈ g.writtenColumns m) : g₁.current c = g.writtenValue g₁ m c := by
  have hmem : c ∈ g.columnsOf m := List.mem_of_mem_filter hc
  obtain ⟨col, hcol, -⟩ := column?_of_owner (hg.column hmem).1
  rw [current, h.written hm hmem, hcol, Option.map_some, if_pos hc]
  rfl

theorem WellFormed.foreignKey_mem_writtenColumns (hg : g.WellFormed) (he : e ∈ g.edgesOf m) :
    e.foreignKey ∈ g.writtenColumns m := by
  obtain ⟨-, -, -, hfk, -⟩ := hg.edge_of_mem he
  refine List.mem_filter.2 ⟨hfk, ?_⟩
  rw [decide_eq_true_eq]
  exact .inr ⟨e, he, rfl⟩

/-- Of the joins by one foreign key, the last one is linked. -/
theorem Cascade.linked_last (h : Cascade g ids done linked g₁) (hm : m ∈ done)
    (hg : g.WellFormed) (hlast : lastLink? (g.edgesOf m) c = some last) : g₁.Linked last := by
  obtain ⟨hedge, rfl⟩ := mem_of_lastLink? hlast
  rw [Linked, h.current_written hm hg (hg.foreignKey_mem_writtenColumns hedge), writtenValue, hlast,
    Option.elim_some]

/-- A join is linked if its child has the key of the child of the last join. -/
theorem Linked.iff_of_foreignKey_eq (hlast : g.Linked last)
    (hfk : last.foreignKey = e.foreignKey) : g.Linked e ↔ g.key e.child = g.key last.child := by
  rw [Linked, ← hfk, hlast]
  exact eq_comm

end
end Graph

namespace Action

open RecordGraph.Graph

variable {σ : Type} (b : Backend σ) {s s' : Session σ} {n : NodeId}

/-- After a save, of the joins of a node that share a foreign key the last one is linked, and
the others are if their children have the same key. So all joins of the subtree are linked
exactly if no two joins by one foreign key lead to rows with different keys. -/
theorem saveNode_links (hs : s.graph.Reachable) (h : saveNode b n s = .ok () s') :
    (∀ m ∈ s'.graph.postOrder n, ∀ e ∈ s'.graph.edgesOf m, ∃ last,
      lastLink? (s'.graph.edgesOf m) e.foreignKey = some last ∧ s'.graph.Linked last ∧
      (s'.graph.Linked e ↔ s'.graph.key e.child = s'.graph.key last.child)) ∧
    ((∀ m ∈ s'.graph.postOrder n, ∀ e ∈ s'.graph.edgesOf m, s'.graph.Linked e) ↔
      ∀ m ∈ s'.graph.postOrder n, ∀ d ∈ s'.graph.edgesOf m, ∀ e ∈ s'.graph.edgesOf m,
        d.foreignKey = e.foreignKey → s'.graph.key d.child = s'.graph.key e.child) := by
  have hg := hs.wellFormed
  obtain ⟨-, ids, hcascade, -, -⟩ := (saveNode_cascades b n hg).of_ok h
  have hedges (m : NodeId) : s'.graph.edgesOf m = s.graph.edgesOf m :=
    edgesOf_of_shape_eq hcascade.shape m
  have horder : s'.graph.postOrder n = s.graph.postOrder n :=
    hg.postOrder_of_shape_eq hcascade.shape n
  have hlast : ∀ m ∈ s'.graph.postOrder n, ∀ e ∈ s'.graph.edgesOf m, ∃ last,
      lastLink? (s'.graph.edgesOf m) e.foreignKey = some last ∧ s'.graph.Linked last ∧
      (s'.graph.Linked e ↔ s'.graph.key e.child = s'.graph.key last.child) := by
    intro m hm e he
    rw [horder] at hm
    rw [hedges] at he ⊢
    obtain ⟨last, hlast⟩ := Option.isSome_iff_exists.1 (lastLink?_isSome.2 ⟨e, he, rfl⟩)
    have hlinked := hcascade.linked_last hm hg hlast
    exact ⟨last, hlast, hlinked, hlinked.iff_of_foreignKey_eq (mem_of_lastLink? hlast).2⟩
  refine ⟨hlast, fun hall m hm d hd e he hfk => ?_, fun hshared m hm e he => ?_⟩
  · exact ((hall m hm e he).iff_of_foreignKey_eq hfk.symm).1 (hall m hm d hd)
  · obtain ⟨last, hlast, -, hlinked⟩ := hlast m hm e he
    obtain ⟨hmem, hfk⟩ := mem_of_lastLink? hlast
    exact hlinked.2 (hshared m hm e he last hmem hfk.symm)

/-- Two joins by one foreign key: the first of the two rows is not named by it any more. -/
theorem saveNode_links_shared :
    let store : Store := ⟨[⟨"t0", some "id", ["ref"], []⟩, ⟨"t1", some "id", ["title"], []⟩,
      ⟨"t2", some "id", ["title"], [⟨4, [("title", .text "x")]⟩]⟩], 0⟩
    let b := Store.backend
    let s := (Session.start "t0" "id" .null store).performAll b
      [.resolveTable root "t1[ref]", .resolveTable root "t2[ref]"]
    let s' := (saveNode b root).after s
    s'.graph.key ⟨1⟩ = .integer 1 ∧ s'.graph.key ⟨2⟩ = .integer 5 ∧
      s'.graph.current ⟨1⟩ = .integer 5 ∧ ¬ s'.graph.Linked ⟨root, ⟨1⟩, ⟨1⟩⟩ := by
  intro store b s s'
  have hs : s.graph.Reachable := reachable_performAll b "t0" "id" .null store _
  have hsave : (saveNode b root).result? s = some () := by decide +kernel
  have hedges : s'.graph.edgesOf root = [⟨root, ⟨1⟩, ⟨1⟩⟩, ⟨root, ⟨1⟩, ⟨2⟩⟩] := by
    decide +kernel
  have hkeys : s'.graph.key ⟨1⟩ = .integer 1 ∧ s'.graph.key ⟨2⟩ = .integer 5 := by
    decide +kernel
  obtain ⟨hlast, -⟩ := saveNode_links b hs (eq_ok_of_result? hsave)
  obtain ⟨last, hlastLink, hlinked, hfirst⟩ :=
    hlast root (List.mem_append_right _ (List.mem_singleton_self _)) ⟨root, ⟨1⟩, ⟨1⟩⟩
      (by rw [hedges]; exact List.mem_cons_self)
  rw [hedges] at hlastLink
  obtain rfl : ⟨root, ⟨1⟩, ⟨2⟩⟩ = last := Option.some.inj hlastLink
  refine ⟨hkeys.1, hkeys.2, hlinked.trans hkeys.2, fun h => ?_⟩
  have hsame := hfirst.1 h
  rw [hkeys.1, hkeys.2] at hsame
  cases hsame

end Action
end RecordGraph
