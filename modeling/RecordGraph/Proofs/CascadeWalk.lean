import RecordGraph.Backend.Script
import RecordGraph.Proofs.Reachable
import RecordGraph.Proofs.Tree

/-!
# The walk of a cascade

A cascade visits the children of a node, in the order of its joins, and then the
node. In a tree such a walk ends, and meets every node of the subtree once.
Saving and deleting are this walk, whatever the backend answers on the way.
-/
namespace RecordGraph

namespace Graph

/-- The nodes that a cascade visits from `n` when the joins `edges` of it are still to be
walked. -/
inductive Visits (g : Graph) : NodeId → List Edge → List NodeId → Prop
  | node (n : NodeId) : Visits g n [] [n]
  | join {n : NodeId} {e : Edge} {edges : List Edge} {below rest : List NodeId}
    (child : Visits g e.child (g.edgesOf e.child) below) (more : Visits g n edges rest) :
    Visits g n (e :: edges) (below ++ rest)

/-- A join of `n` leads to `m`. -/
def Parent (g : Graph) (n m : NodeId) : Prop := ∃ e ∈ g.edgesOf n, e.child = m

variable {g g' : Graph} {n m : NodeId}

namespace WellFormed

variable (hg : g.WellFormed)

include hg

theorem below_iff : g.Below n m ↔ Relation.ReflTransGen g.Parent n m := by
  constructor
  · intro h
    induction n using hg.children_induction with
    | h n ih =>
      rcases h.eq_or_child hg with rfl | ⟨x, hx, hxm⟩
      · exact .refl
      · exact .head ⟨x, hx, rfl⟩ (ih x hx hxm)
  · intro h
    induction h using Relation.ReflTransGen.head_induction_on with
    | refl => exact .refl g m
    | head hparent _ ih =>
      obtain ⟨x, hx, rfl⟩ := hparent
      exact ih.child hg hx

theorem visits_eq {edges : List Edge} {visited : List NodeId} (h : g.Visits n edges visited) :
    visited = edges.flatMap (fun e => g.postOrder e.child) ++ [n] := by
  induction h with
  | node n => rfl
  | join child more ihchild ihmore =>
    rw [ihmore, List.flatMap_cons, List.append_assoc, ihchild, hg.postOrder_eq]

theorem visits_postOrder (n : NodeId) : g.Visits n (g.edgesOf n) (g.postOrder n) := by
  induction n using hg.children_induction with
  | h n ih =>
    have hwalk : ∀ edges, (∀ x ∈ edges, x ∈ g.edgesOf n) →
        g.Visits n edges (edges.flatMap (fun e => g.postOrder e.child) ++ [n]) := by
      intro edges
      induction edges with
      | nil => exact fun _ => .node n
      | cons x edges ihedges =>
        intro hedges
        rw [List.flatMap_cons, List.append_assoc]
        exact .join (ih x (hedges x (by simp))) (ihedges fun y hy => hedges y (by simp [hy]))
    rw [hg.postOrder_eq]
    exact hwalk _ fun _ => id

theorem mem_postOrder : m ∈ g.postOrder n ↔ g.Below n m := by
  constructor
  · intro h
    rcases List.mem_append.1 h with h | h
    · obtain ⟨x, hx, rfl⟩ := List.mem_map.1 h
      exact hg.below_child_of_mem hx
    · rw [List.mem_singleton.1 h]
      exact .refl g n
  · exact hg.mem_postOrder_of_below

theorem edgesBelow_of_shape_eq (h : g'.shape = g.shape) (n : NodeId) :
    g'.edgesBelow n = g.edgesBelow n := by
  have hg' := hg.of_shape_eq h
  induction n using hg.children_induction with
  | h n ih =>
    rw [hg'.edgesBelow_eq, hg.edgesBelow_eq, edgesOf_of_shape_eq h]
    exact List.flatMap_congr fun x hx => by rw [ih x hx]

theorem postOrder_of_shape_eq (h : g'.shape = g.shape) (n : NodeId) :
    g'.postOrder n = g.postOrder n := by
  rw [postOrder, hg.edgesBelow_of_shape_eq h, postOrder]

end WellFormed
end Graph

namespace Action

variable {σ α β γ : Type}

/-! ## Actions that do the same -/

section
variable {s : Session σ}

theorem bind_congr_of {m m' : Action σ α} {f f' : α → Action σ β} (hm : m s = m' s)
    (hf : ∀ a s', m s = .ok a s' → f a s' = f' a s') : (m >>= f) s = (m' >>= f') s := by
  change EStateM.bind m f s = EStateM.bind m' f' s
  unfold EStateM.bind
  rw [← hm]
  cases h : m s with
  | ok a s' => exact hf a s' h
  | error e s' => rfl

/-- Turns that do the same while an invariant holds make loops that do the same. -/
theorem foldlM_congr_of (inv : Session σ → Prop) {f f' : β → α → Action σ β} {l : List α}
    (step : ∀ a ∈ l, ∀ b s, inv s → f b a s = f' b a s ∧
      (f b a).Ends s (fun _ => inv) (fun _ _ => True)) (h : inv s) (b : β) :
    l.foldlM f b s = l.foldlM f' b s := by
  induction l generalizing s b with
  | nil => rfl
  | cons a l ih =>
    rw [List.foldlM_cons, List.foldlM_cons]
    obtain ⟨heq, hends⟩ := step a (by simp) b s h
    refine bind_congr_of heq fun b' s' hok => ?_
    exact ih (fun c hc => step c (by simp [hc])) (hends.of_ok hok) b'

theorem forM_congr_of (inv : Session σ → Prop) {f f' : α → Action σ PUnit} {l : List α}
    (step : ∀ a ∈ l, ∀ s, inv s → f a s = f' a s ∧
      (f a).Ends s (fun _ => inv) (fun _ _ => True)) (h : inv s) :
    l.forM f s = l.forM f' s := by
  induction l generalizing s with
  | nil => rfl
  | cons a l ih =>
    change (f a >>= fun _ => l.forM f) s = (f' a >>= fun _ => l.forM f') s
    obtain ⟨heq, hends⟩ := step a (by simp) s h
    refine bind_congr_of heq fun _ s' hok => ?_
    exact ih (fun c hc => step c (by simp [hc])) (hends.of_ok hok)

theorem forM_flatMap {k : γ → List α} {f : α → Action σ PUnit} (l : List γ) :
    (l.flatMap k).forM f = l.forM fun c => (k c).forM f := by
  induction l with
  | nil => rfl
  | cons c l ih =>
    simp only [List.forM_eq_forM] at ih ⊢
    rw [List.flatMap_cons, List.forM_append, List.forM_cons, ih]

theorem foldlM_flatMap {k : γ → List α} {f : β → α → Action σ β} (l : List γ) (b : β) :
    (l.flatMap k).foldlM f b = l.foldlM (fun b c => (k c).foldlM f b) b := by
  induction l generalizing b with
  | nil => rfl
  | cons c l ih =>
    rw [List.flatMap_cons, List.foldlM_append, List.foldlM_cons]
    exact bind_congr ih

/-- The sum of what some actions give, one after the other. -/
def tally (f : α → Action σ ℕ) (l : List α) : Action σ ℕ :=
  l.foldlM (fun count a => return count + (← f a)) 0

/-- Counting from `count` on is counting from zero, and then adding. -/
theorem foldlM_add (f : α → Action σ ℕ) (l : List α) (count : ℕ) :
    l.foldlM (fun count a => return count + (← f a)) count =
      tally f l >>= fun k => pure (count + k) := by
  unfold tally
  induction l generalizing count with
  | nil => rfl
  | cons a l ih =>
    simp only [List.foldlM_cons, bind_assoc, pure_bind, Nat.zero_add]
    refine bind_congr fun k => ?_
    rw [ih (count + k), ih k]
    simp only [bind_assoc, pure_bind, Nat.add_assoc]

end

/-! ## Saving and deleting -/

section
variable {s : Session σ} {n : NodeId}

theorem Ends.congr {m m' : Action σ α} {post : α → Session σ → Prop}
    {fail : Error → Session σ → Prop} (h : m.Ends s post fail) (heq : m' s = m s) :
    m'.Ends s post fail := by
  unfold Ends
  rw [heq]
  exact h

variable (b : Backend σ)

theorem saveNode_apply (hn : s.graph.IsNode n) : saveNode b n s =
    ((s.graph.edgesBelow n).forM (writeEdge b) >>= fun _ => writeNode b n) s := by
  obtain ⟨node, hnode⟩ := hn.exists
  rw [saveNode, requireNode_bind hnode]
  rfl

theorem deleteNode_apply (hn : s.graph.IsNode n) :
    deleteNode b n s = tally (eraseNode b) (s.graph.postOrder n) s := by
  obtain ⟨node, hnode⟩ := hn.exists
  rw [deleteNode, requireNode_bind hnode]
  rfl

/-- Saving a node saves the child of each join and links it, and then writes the node. -/
theorem saveNode_eq (hg : s.graph.WellFormed) (hn : s.graph.IsNode n) :
    saveNode b n s = ((s.graph.edgesOf n).forM (fun e => do
      saveNode b e.child
      updateGraph (·.link e)) >>= fun _ => writeNode b n) s := by
  rw [saveNode_apply b hn, hg.edgesBelow_eq, forM_flatMap]
  refine bind_congr_of (forM_congr_of (fun s' => s'.graph.shape = s.graph.shape) ?_ rfl)
    fun _ _ _ => rfl
  intro e he s' hshape
  obtain ⟨-, -, -, -, hchild, -⟩ := hg.edge_of_mem he
  have hsave : saveNode b e.child s' =
      ((s.graph.edgesBelow e.child).forM (writeEdge b) >>= fun _ => writeNode b e.child) s' := by
    rw [saveNode_apply b ((Graph.isNode_of_shape_eq hshape _).2 hchild),
      hg.edgesBelow_of_shape_eq hshape]
  have hturn : (s.graph.edgesBelow e.child ++ [e]).forM (writeEdge b) s' =
      (saveNode b e.child >>= fun _ => updateGraph (·.link e)) s' :=
    calc (s.graph.edgesBelow e.child ++ [e]).forM (writeEdge b) s'
      _ = (((s.graph.edgesBelow e.child).forM (writeEdge b) >>= fun _ => writeNode b e.child) >>=
            fun _ => updateGraph (·.link e)) s' := by
        simp only [List.forM_eq_forM, List.forM_append, List.forM_cons, List.forM_nil, writeEdge,
          bind_assoc, bind_pure_unit]
      _ = (saveNode b e.child >>= fun _ => updateGraph (·.link e)) s' :=
        bind_congr_of hsave.symm fun _ _ _ => rfl
  refine ⟨hturn, Ends.congr (ends_bind.2 ?_) hturn⟩
  refine (saveNode_revalues b e.child).mono (fun _ _ h => ?_) (fun _ _ _ => trivial)
  exact (Graph.shape_assign ..).trans (h.2.trans hshape)

/-- Deleting a node deletes the child of each join, and then the row of the node. -/
theorem deleteNode_eq (hg : s.graph.WellFormed) (hn : s.graph.IsNode n) :
    deleteNode b n s = (tally (fun e : Edge => deleteNode b e.child) (s.graph.edgesOf n) >>=
      fun below => eraseNode b n >>= fun count => pure (below + count)) s := by
  rw [deleteNode_apply b hn, hg.postOrder_eq, tally, List.foldlM_append, foldlM_flatMap]
  refine bind_congr_of
    (foldlM_congr_of (fun s' => s'.graph.shape = s.graph.shape) ?_ rfl 0) fun _ _ _ => ?_
  · intro e he count s' hshape
    obtain ⟨-, -, -, -, hchild, -⟩ := hg.edge_of_mem he
    have hdelete : deleteNode b e.child s' =
        tally (eraseNode b) (s.graph.postOrder e.child) s' := by
      rw [deleteNode_apply b ((Graph.isNode_of_shape_eq hshape _).2 hchild),
        hg.postOrder_of_shape_eq hshape]
    have hturn : (tally (eraseNode b) (s.graph.postOrder e.child) >>=
          fun k => pure (count + k)) s' = (deleteNode b e.child >>= fun k => pure (count + k)) s' :=
      bind_congr_of hdelete.symm fun _ _ _ => rfl
    rw [foldlM_add]
    refine ⟨hturn, Ends.congr (ends_bind.2 ?_) hturn⟩
    exact (deleteNode_revalues b e.child).mono (fun _ _ h => h.2.trans hshape)
      (fun _ _ _ => trivial)
  · simp

end
end Action

/-- The graph of a record is a tree at any moment, after failures too. So a cascade ends, and it
visits the nodes of the subtree once each; saving and deleting are such cascades. -/
theorem Graph.Reachable.isTree_and_visits {g : Graph} (h : g.Reachable) :
    g.IsTree ∧ ∀ n, g.IsNode n →
      (∀ visited, g.Visits n (g.edgesOf n) visited ↔ visited = g.postOrder n) ∧
      (g.postOrder n).Nodup ∧
      (∀ m, m ∈ g.postOrder n ↔ Relation.ReflTransGen g.Parent n m) ∧
      ∀ (σ : Type) (b : Backend σ) (s : Session σ), s.graph = g →
        Action.saveNode b n s = ((g.edgesOf n).forM (fun e => do
          Action.saveNode b e.child
          Action.updateGraph (·.link e)) >>= fun _ => Action.writeNode b n) s ∧
        Action.deleteNode b n s =
          (Action.tally (fun e : Edge => Action.deleteNode b e.child) (g.edgesOf n) >>=
            fun below => Action.eraseNode b n >>= fun count => pure (below + count)) s := by
  have hg := h.wellFormed
  refine ⟨hg.isTree, fun n hn => ⟨fun visited => ?_, hg.postOrder_nodup n, fun m => ?_, ?_⟩⟩
  · constructor
    · intro hvisits
      rw [hg.visits_eq hvisits, ← hg.postOrder_eq]
    · rintro rfl
      exact hg.visits_postOrder n
  · rw [hg.mem_postOrder, hg.below_iff]
  · rintro σ b s rfl
    exact ⟨Action.saveNode_eq b hg hn, Action.deleteNode_eq b hg hn⟩

/-- The first of two joined rows is refused, and the tree is as it was registered. -/
theorem Graph.Reachable.isTree_and_visits_refused :
    let b := Script.backend .standard
    let s := ((Operation.resolveColumn Graph.root "t2[t1.t2_id].title").perform b).after
      (.start "t0" "id" .null ⟨[], .noRow, [some "refused"], [], 0⟩)
    let t := ((Operation.saveNode Graph.root).perform b).after s
    (Action.saveNode b Graph.root).result? s = none ∧ t.graph.IsTree ∧
      t.graph.postOrder Graph.root = [⟨2⟩, ⟨1⟩, ⟨0⟩] ∧
      ∀ visited, t.graph.Visits Graph.root (t.graph.edgesOf Graph.root) visited ↔
        visited = [⟨2⟩, ⟨1⟩, ⟨0⟩] := by
  intro b s t
  have hreachable : t.graph.Reachable :=
    ⟨_, b, "t0", "id", .null, _, t, .tail (.tail .refl ⟨_, rfl⟩) ⟨_, rfl⟩, rfl⟩
  have horder : t.graph.postOrder Graph.root = [⟨2⟩, ⟨1⟩, ⟨0⟩] := by decide +kernel
  have hroot : t.graph.IsNode Graph.root := by
    show 0 < t.graph.nodes.size
    decide +kernel
  obtain ⟨htree, hwalk⟩ := Graph.Reachable.isTree_and_visits hreachable
  refine ⟨by decide +kernel, htree, horder, fun visited => ?_⟩
  rw [(hwalk Graph.root hroot).1, horder]

end RecordGraph
