import Mathlib.Data.List.Nodup
import RecordGraph.Proofs.Descent

/-!
# The order of a save

A save goes through the joins below a node so that all joins of a child come
before the join that leads to it, and no node comes twice. Each node is met
after the nodes below it.
-/
namespace RecordGraph.Graph

variable {g : Graph} {n m : NodeId} {x y : Edge}

/-- A node of the subtree of `n`. -/
def Below (g : Graph) (n m : NodeId) : Prop := ∃ hops, g.descend n hops = some m

theorem Below.refl (g : Graph) (n : NodeId) : g.Below n n := ⟨[], rfl⟩

theorem Below.le (hg : g.WellFormed) (h : g.Below n m) : n.index ≤ m.index := by
  obtain ⟨hops, hm⟩ := h
  have hle := hg.descend_le hm
  omega

theorem Below.child (hg : g.WellFormed) (hx : x ∈ g.edgesOf n) (h : g.Below x.child m) :
    g.Below n m := by
  obtain ⟨hops, hm⟩ := h
  exact ⟨g.hop x :: hops, by rw [descend, hg.findChild?_eq hx]; exact hm⟩

/-- Below `n`, but not `n`, a node is below one of the children. -/
theorem Below.eq_or_child (hg : g.WellFormed) (h : g.Below n m) :
    n = m ∨ ∃ x ∈ g.edgesOf n, g.Below x.child m := by
  obtain ⟨hops, hm⟩ := h
  cases hops with
  | nil => exact .inl (Option.some.inj hm)
  | cons j hops =>
    obtain ⟨k, hk, hkm⟩ := Option.bind_eq_some_iff.1 hm
    obtain ⟨x, hx, -, rfl⟩ := hg.findChild?_mem hk
    exact .inr ⟨x, hx, hops, hkm⟩

namespace WellFormed

variable (hg : g.WellFormed)

include hg

theorem edgesOf_child_inj (hx : x ∈ g.edgesOf n) (hy : y ∈ g.edgesOf m)
    (h : x.child = y.child) : x = y := by
  obtain ⟨e, he, -⟩ := hg.edge_of_mem hx
  obtain ⟨f, hf, -⟩ := hg.edge_of_mem hy
  obtain rfl := hg.children he hf h
  exact Option.some.inj (he.symm.trans hf)

/-- The subtrees of two children have nothing in common. -/
theorem eq_of_below (hx : x ∈ g.edgesOf n) (hy : y ∈ g.edgesOf n) (h : g.Below x.child m)
    (h' : g.Below y.child m) : x = y := by
  obtain ⟨hops, hm⟩ := h
  obtain ⟨hops', hm'⟩ := h'
  have hxm : g.descend n (g.hop x :: hops) = some m := by
    rw [descend, hg.findChild?_eq hx]; exact hm
  have hym : g.descend n (g.hop y :: hops') = some m := by
    rw [descend, hg.findChild?_eq hy]; exact hm'
  obtain ⟨hhop, -⟩ := List.cons.inj (hg.descend_inj hxm hym)
  have hchild := hg.findChild?_eq hx
  rw [hhop, hg.findChild?_eq hy] at hchild
  exact hg.edgesOf_child_inj hx hy (Option.some.inj hchild).symm

theorem edgesOf_nodup (n : NodeId) : (g.edgesOf n).Nodup := by
  rw [edgesOf_eq]
  refine (hg.edges_nodup n).filterMap fun e f x he hf => ?_
  exact hg.children he hf rfl

/-- In a tree the bound of the walk is never met. -/
theorem edgesBelow_eq (n : NodeId) :
    g.edgesBelow n = (g.edgesOf n).flatMap fun e => g.edgesBelow e.child ++ [e] := by
  rw [edgesBelow]
  refine List.flatMap_congr fun x hx => ?_
  obtain ⟨-, -, -, -, hchild, hlt⟩ := hg.edge_of_mem hx
  exact dif_pos ⟨hlt, hchild⟩

/-- Induction from the children to the node. -/
theorem children_induction {P : NodeId → Prop} (h : ∀ n, (∀ x ∈ g.edgesOf n, P x.child) → P n)
    (n : NodeId) : P n := by
  induction hk : g.nodes.size - n.index using Nat.strong_induction_on generalizing n with
  | _ k ih =>
    refine h n fun x hx => ih _ ?_ x.child rfl
    obtain ⟨-, -, -, -, hchild, hlt⟩ := hg.edge_of_mem hx
    unfold IsNode at hchild
    omega

theorem edge_of_mem_edgesBelow (hx : x ∈ g.edgesBelow n) :
    x ∈ g.edgesOf x.parent ∧ g.Below n x.parent := by
  induction n using hg.children_induction with
  | h n ih =>
    rw [hg.edgesBelow_eq] at hx
    obtain ⟨y, hy, hxy⟩ := List.mem_flatMap.1 hx
    rcases List.mem_append.1 hxy with hxy | hxy
    · exact ⟨(ih y hy hxy).1, .child hg hy (ih y hy hxy).2⟩
    · obtain rfl := List.mem_singleton.1 hxy
      obtain ⟨-, -, rfl, -⟩ := hg.edge_of_mem hy
      exact ⟨hy, .refl g _⟩

theorem below_child_of_mem (hx : x ∈ g.edgesBelow n) : g.Below n x.child := by
  obtain ⟨hedge, hparent⟩ := hg.edge_of_mem_edgesBelow hx
  obtain ⟨hops, hm⟩ := hparent
  exact ⟨hops ++ [g.hop x], by rw [descend_concat, hm, Option.bind_some, hg.findChild?_eq hedge]⟩

/-- What comes from the block of a child is below the child. -/
theorem below_of_mem_block (hx : x ∈ g.edgesBelow y.child ++ [y]) : g.Below y.child x.child := by
  rcases List.mem_append.1 hx with hx | hx
  · exact hg.below_child_of_mem hx
  · rw [List.mem_singleton.1 hx]
    exact .refl g _

/-- Each node below `n` is written once. -/
theorem edgesBelow_children_nodup (n : NodeId) : ((g.edgesBelow n).map Edge.child).Nodup := by
  induction n using hg.children_induction with
  | h n ih =>
    rw [hg.edgesBelow_eq, List.map_flatMap, List.nodup_flatMap]
    refine ⟨fun x hx => ?_, (hg.edgesOf_nodup n).imp_of_mem fun hx hy hxy => ?_⟩
    · rw [List.map_append, List.nodup_append]
      refine ⟨ih x hx, List.nodup_singleton _, fun k hk k' hk' => ?_⟩
      obtain ⟨y, hy, rfl⟩ := List.mem_map.1 hk
      obtain rfl := List.mem_singleton.1 hk'
      obtain ⟨hedge, hparent⟩ := hg.edge_of_mem_edgesBelow hy
      obtain ⟨-, -, -, -, -, hlt⟩ := hg.edge_of_mem hedge
      have hle := hparent.le hg
      intro hchild
      rw [hchild] at hlt
      omega
    · intro k hk hk'
      obtain ⟨d, hd, rfl⟩ := List.mem_map.1 hk
      obtain ⟨d', hd', hdd'⟩ := List.mem_map.1 hk'
      refine hxy (hg.eq_of_below hx hy (hg.below_of_mem_block hd) ?_)
      rw [← hdd']
      exact hg.below_of_mem_block hd'

/-- A join of a node comes before the join that leads to the node. -/
theorem edgesBelow_pairwise (n : NodeId) :
    (g.edgesBelow n).Pairwise fun d e => e.parent ≠ d.child := by
  induction n using hg.children_induction with
  | h n ih =>
    have hbelow {d x} (hx : x ∈ g.edgesOf n) (hd : d ∈ g.edgesBelow x.child ++ [x]) :
        n ≠ d.child := by
      rintro rfl
      have hle := (hg.below_of_mem_block hd).le hg
      obtain ⟨-, -, -, -, -, hlt⟩ := hg.edge_of_mem hx
      omega
    rw [hg.edgesBelow_eq, List.pairwise_flatMap]
    refine ⟨fun x hx => ?_, (hg.edgesOf_nodup n).imp_of_mem fun hx hy hxy => ?_⟩
    · refine List.pairwise_append.2 ⟨ih x hx, List.pairwise_singleton .., fun d hd e he => ?_⟩
      rw [List.mem_singleton.1 he]
      obtain ⟨-, -, hparent, -⟩ := hg.edge_of_mem hx
      rw [hparent]
      exact hbelow hx (List.mem_append_left _ hd)
    · intro d hd e he hparent
      rcases List.mem_append.1 he with he | he
      · refine hxy (hg.eq_of_below hx hy (hg.below_of_mem_block hd) ?_)
        rw [← hparent]
        exact (hg.edge_of_mem_edgesBelow he).2
      · obtain rfl := List.mem_singleton.1 he
        obtain ⟨-, -, rfl, -⟩ := hg.edge_of_mem hy
        exact hbelow hx hd hparent

/-- All joins of a node of the subtree are met, in their order. -/
theorem edgesBelow_filter_parent (hm : g.Below n m) :
    (g.edgesBelow n).filter (·.parent = m) = g.edgesOf m := by
  induction n using hg.children_induction with
  | h n ih =>
    have hskip {x} (hx : x ∈ g.edgesOf n) (hnot : ¬ g.Below x.child m) :
        (g.edgesBelow x.child).filter (·.parent = m) = [] := by
      refine List.filter_eq_nil_iff.2 fun d hd => ?_
      have hparent := (hg.edge_of_mem_edgesBelow hd).2
      simp only [decide_eq_true_eq]
      rintro rfl
      exact hnot hparent
    have hown {x} (hx : x ∈ g.edgesOf n) :
        [x].filter (·.parent = m) = if n = m then [x] else [] := by
      obtain ⟨-, -, rfl, -⟩ := hg.edge_of_mem hx
      split <;> simp [*]
    rw [hg.edgesBelow_eq, List.filter_flatMap]
    simp only [List.filter_append]
    rcases hm.eq_or_child hg with rfl | ⟨x, hx, hxm⟩
    · -- the joins of `n` itself stand at the ends of the blocks
      have hblock : ∀ x ∈ g.edgesOf n,
          (g.edgesBelow x.child).filter (·.parent = n) ++ [x].filter (·.parent = n) = [x] := by
        intro x hx
        have hnot : ¬ g.Below x.child n := fun h => by
          have hle := h.le hg
          obtain ⟨-, -, -, -, -, hlt⟩ := hg.edge_of_mem hx
          omega
        rw [hskip hx hnot, hown hx, if_pos rfl, List.nil_append]
      rw [List.flatMap_congr hblock, List.flatMap_singleton']
    · -- the joins of any other node stand in one block
      obtain ⟨before, after, hsplit⟩ := List.append_of_mem hx
      have hnm : n ≠ m := by
        rintro rfl
        have hle := hxm.le hg
        obtain ⟨-, -, -, -, -, hlt⟩ := hg.edge_of_mem hx
        omega
      have hnodup := hg.edgesOf_nodup n
      rw [hsplit, List.nodup_append, List.nodup_cons] at hnodup
      have hblock : ∀ y ∈ g.edgesOf n, y ≠ x →
          (g.edgesBelow y.child).filter (·.parent = m) ++ [y].filter (·.parent = m) = [] := by
        intro y hy hyx
        rw [hskip hy fun h => hyx (hg.eq_of_below hy hx h hxm), hown hy, if_neg hnm,
          List.nil_append]
      rw [hsplit, List.flatMap_append, List.flatMap_cons, ih x hx hxm, hown hx, if_neg hnm]
      rw [hsplit] at hblock
      rw [List.flatMap_eq_nil_iff.2 fun y hy => hblock y (by simp [hy]) ?_,
        List.flatMap_eq_nil_iff.2 fun y hy => hblock y (by simp [hy]) ?_]
      · simp
      · rintro rfl
        exact hnodup.2.1.1 hy
      · rintro rfl
        exact hnodup.2.2 _ hy _ (by simp) rfl

/-- What was met before a join: all joins of its child, but neither the child nor the
parent. -/
theorem edgesBelow_split {met rest : List Edge} (h : g.edgesBelow n = met ++ x :: rest) :
    met.filter (·.parent = x.child) = g.edgesOf x.child ∧ x.child ∉ met.map Edge.child ∧
      x.parent ∉ (met ++ [x]).map Edge.child := by
  have hx : x ∈ g.edgesBelow n := by simp [h]
  obtain ⟨hedge, -⟩ := hg.edge_of_mem_edgesBelow hx
  have hne : x.parent ≠ x.child := by
    obtain ⟨-, -, -, -, -, hlt⟩ := hg.edge_of_mem hedge
    intro heq
    rw [heq] at hlt
    omega
  have hpairwise := hg.edgesBelow_pairwise n
  have hnodup := hg.edgesBelow_children_nodup n
  have hfilter := hg.edgesBelow_filter_parent (hg.below_child_of_mem hx)
  rw [h, List.pairwise_append, List.pairwise_cons] at hpairwise
  rw [h, List.map_append, List.map_cons, List.nodup_append] at hnodup
  rw [h, List.filter_append, List.filter_cons, if_neg (by simpa using hne)] at hfilter
  obtain ⟨-, ⟨hlater, -⟩, hearlier⟩ := hpairwise
  refine ⟨?_, fun hmem => hnodup.2.2 _ hmem _ (by simp) rfl, fun hmem => ?_⟩
  · have hrest : rest.filter (·.parent = x.child) = [] := by
      refine List.filter_eq_nil_iff.2 fun d hd => ?_
      simpa using hlater d hd
    rwa [hrest, List.append_nil] at hfilter
  · rw [List.map_append, List.mem_append] at hmem
    rcases hmem with hmem | hmem
    · obtain ⟨d, hd, hdx⟩ := List.mem_map.1 hmem
      exact hearlier d hd x (by simp) hdx.symm
    · exact hne (by simpa using hmem)

/-- A node comes after the subtrees of its children, in the order of its joins. -/
theorem postOrder_eq (n : NodeId) :
    g.postOrder n = (g.edgesOf n).flatMap (fun e => g.postOrder e.child) ++ [n] := by
  simp only [postOrder]
  rw [hg.edgesBelow_eq, List.map_flatMap]
  simp only [List.map_append, List.map_cons, List.map_nil]

theorem notMem_children_edgesBelow (n : NodeId) : n ∉ (g.edgesBelow n).map Edge.child := by
  intro hmem
  obtain ⟨x, hx, hchild⟩ := List.mem_map.1 hmem
  obtain ⟨hedge, hparent⟩ := hg.edge_of_mem_edgesBelow hx
  have hle := hparent.le hg
  obtain ⟨-, -, -, -, -, hlt⟩ := hg.edge_of_mem hedge
  rw [hchild] at hlt
  omega

theorem postOrder_nodup (n : NodeId) : (g.postOrder n).Nodup := by
  refine List.nodup_append.2 ⟨hg.edgesBelow_children_nodup n, List.nodup_singleton _, ?_⟩
  intro m hm k hk hmk
  rw [hmk, List.mem_singleton.1 hk] at hm
  exact hg.notMem_children_edgesBelow n hm

/-- Every node is below the root. -/
theorem below_root (hn : g.IsNode n) : g.Below Graph.root n := by
  induction hk : n.index using Nat.strong_induction_on generalizing n with
  | _ k ih =>
    by_cases hroot : n = Graph.root
    · rw [hroot]
      exact .refl g _
    · obtain ⟨e, x, he, rfl⟩ := hg.joined hn hroot
      have hx := hg.mem_edgesOf_parent he
      obtain ⟨-, -, -, hfk, -, hlt⟩ := hg.edge_of_mem hx
      obtain ⟨hops, hparent⟩ := ih x.parent.index (hk ▸ hlt) (hg.isNode_of_column hfk) rfl
      exact ⟨hops ++ [g.hop x], by rw [descend_concat, hparent]; exact hg.findChild?_eq hx⟩

theorem mem_postOrder_of_below (h : g.Below n m) : m ∈ g.postOrder n := by
  induction n using hg.children_induction with
  | h n ih =>
    rw [hg.postOrder_eq, List.mem_append, List.mem_flatMap]
    rcases h.eq_or_child hg with rfl | ⟨x, hx, hxm⟩
    · exact .inr (List.mem_singleton_self _)
    · exact .inl ⟨x, hx, ih x hx hxm⟩

theorem isNode_of_mem_postOrder (hn : g.IsNode n) (hm : m ∈ g.postOrder n) : g.IsNode m := by
  rcases List.mem_append.1 hm with hm | hm
  · obtain ⟨x, hx, rfl⟩ := List.mem_map.1 hm
    obtain ⟨hops, hchild⟩ := hg.below_child_of_mem hx
    exact hg.isNode_of_descend hn hchild
  · rw [List.mem_singleton.1 hm]
    exact hn

/-- All children of a node come before it. -/
theorem child_mem_of_postOrder {before after : List NodeId}
    (h : g.postOrder n = before ++ m :: after) (hx : x ∈ g.edgesOf m) : x.child ∈ before := by
  rw [postOrder] at h
  rcases List.eq_nil_or_concat after with rfl | ⟨after, k, rfl⟩
  · obtain ⟨rfl, hm⟩ := List.append_inj' h rfl
    obtain rfl := List.singleton_injective hm
    rw [← hg.edgesBelow_filter_parent (.refl g n)] at hx
    exact List.mem_map_of_mem (List.mem_of_mem_filter hx)
  · rw [List.concat_eq_append, ← List.cons_append, ← List.append_assoc] at h
    obtain ⟨hmap, -⟩ := List.append_inj' h rfl
    obtain ⟨met, rest, hsplit, rfl, hrest⟩ := List.map_eq_append_iff.1 hmap
    obtain ⟨y, rest, rfl, rfl, -⟩ := List.map_eq_cons_iff.1 hrest
    obtain ⟨hjoins, -, -⟩ := hg.edgesBelow_split hsplit
    rw [← hjoins] at hx
    exact List.mem_map_of_mem (List.mem_of_mem_filter hx)

end WellFormed
end RecordGraph.Graph
