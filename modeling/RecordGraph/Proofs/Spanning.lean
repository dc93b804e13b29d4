import RecordGraph.Proofs.Evolution
import RecordGraph.Proofs.PostOrder

/-!
# Joins that paths register

Following joins registers the nodes on the way and no others. So a record that
was joined by some table paths has one node for each list of joins that one of
the paths begins with, and paths share the nodes of their common beginnings.
-/
namespace RecordGraph

namespace Graph

/-- The lists of joins that lead from the root to a node are those that `paths` begin with. -/
def Spans (paths : List (List Hop)) (g : Graph) : Prop :=
  ∀ hops, (g.descend root hops).isSome ↔ hops = [] ∨ ∃ path ∈ paths, hops <+: path

variable {g g' : Graph} {n m : NodeId} {hops : List Hop} {paths : List (List Hop)}

/-- On the way to a node stand nodes. -/
theorem isSome_descend_of_prefix {hops' : List Hop} (h : hops <+: hops')
    (hm : (g.descend n hops').isSome) : (g.descend n hops).isSome := by
  obtain ⟨rest, rfl⟩ := h
  rw [descend_append] at hm
  exact Option.isSome_of_isSome_bind hm

theorem spans_of_nodes (hg : g.WellFormed) (hnodes : ∀ n, g.IsNode n → n = root) :
    Spans [] g := by
  intro hops
  refine ⟨fun hsome => .inl ?_, fun hnil => ?_⟩
  · obtain ⟨n, hn⟩ := Option.isSome_iff_exists.1 hsome
    obtain rfl := hnodes n (hg.isNode_of_descend hg.root hn)
    exact hg.descend_inj hn rfl
  · rcases hnil with rfl | ⟨path, hpath, -⟩
    · rfl
    · cases hpath

/-- Nodes that were added on the way behind some joins. -/
theorem Spans.concat {path : List Hop} (h : Spans paths g) (hg : g.WellFormed)
    (hg' : g'.WellFormed) (hgrow : Grows g g') (hpath : (g'.descend root path).isSome)
    (hnodes : ∀ k, g'.IsNode k →
      g.IsNode k ∨ ∃ hops, hops <+: path ∧ g'.descend root hops = some k) :
    Spans (paths ++ [path]) g' := by
  intro hops
  constructor
  · intro hsome
    obtain ⟨k, hk⟩ := Option.isSome_iff_exists.1 hsome
    rcases hnodes k (hg'.isNode_of_descend hg'.root hk) with hold | ⟨hops', hprefix, hk'⟩
    · -- the joins that led to an old node are the ones that lead to it now
      obtain ⟨hops', hk'⟩ := hg.below_root hold
      obtain rfl := hg'.descend_inj hk (hgrow.descend hg hg' hk')
      rcases (h hops).1 (by rw [hk']; rfl) with hnil | ⟨path', hpath', hprefix⟩
      · exact .inl hnil
      · exact .inr ⟨path', by simp [hpath'], hprefix⟩
    · obtain rfl := hg'.descend_inj hk hk'
      exact .inr ⟨path, by simp, hprefix⟩
  · rintro (rfl | ⟨path', hpath', hprefix⟩)
    · rfl
    · rcases List.mem_append.1 hpath' with hpath' | hpath'
      · obtain ⟨k, hk⟩ := Option.isSome_iff_exists.1 ((h hops).2 (.inr ⟨path', hpath', hprefix⟩))
        rw [hgrow.descend hg hg' hk]
        rfl
      · rw [List.mem_singleton.1 hpath'] at hprefix
        exact isSome_descend_of_prefix hprefix hpath

end Graph

namespace Action

variable {σ : Type} (b : Backend σ) {s : Session σ} {n : NodeId} {paths : List (List Hop)}

/-- A join adds no node but the one that it leads to. -/
theorem joinFrom_nodes {fk : ColumnId} {table childColumn : String} (hg : s.graph.WellFormed)
    (hfk : fk ∈ s.graph.columnsOf n) : (joinFrom b fk table childColumn).Ends s
      (fun child s' => ∀ k, s'.graph.IsNode k → s.graph.IsNode k ∨ k = child)
      (fun _ _ => True) := by
  refine joinFrom_cases b hg hfk (fun _ _ k hk => .inl hk) fun _ => ?_
  refine (value_revalues b fk).mono (fun key s' hs' _ _ _ k hk => ?_) (fun _ _ _ => trivial)
  rcases Graph.isNode_withChild.1 hk with hk | hk
  · exact .inl ((Graph.isNode_of_shape_eq hs'.2 k).1 hk)
  · exact .inr hk

theorem addColumn_nodes {name : String} : (addColumn n name).Ends s
    (fun _ s' => ∀ k, s'.graph.IsNode k → s.graph.IsNode k) (fun _ _ => False) := by
  simp only [addColumn, ends_register]
  cases hfind : s.graph.findColumn? n name with
  | some c =>
    rw [Graph.addColumn_of_some hfind]
    exact fun k hk => hk
  | none =>
    rw [Graph.addColumn_of_none hfind]
    exact fun k hk => Graph.isNode_withColumn.1 hk

/-- Following joins adds nodes on the way only. -/
theorem follow_nodes (hops : List Hop) (hg : s.graph.WellFormed) (hn : s.graph.IsNode n) :
    (follow b n hops).Ends s
      (fun _ s' => ∀ k, s'.graph.IsNode k → s.graph.IsNode k ∨
        ∃ hops', hops' <+: hops ∧ s'.graph.descend n hops' = some k)
      (fun _ _ => True) := by
  induction hops generalizing s n with
  | nil => exact fun k hk => .inl hk
  | cons h hops ih =>
    refine ends_bind.2 (((addColumn_ends hg hn).and addColumn_nodes).mono (fun fk s₁ h₁ => ?_)
      (fun _ _ _ => trivial))
    obtain ⟨⟨hevolves₁, hfind⟩, hnodes₁⟩ := h₁
    have hg₁ := hevolves₁.wellFormed hg
    obtain ⟨hfk, hname⟩ := hg₁.findColumn?_mem hfind
    refine ends_bind.2 (((joinFrom_ends b hg₁ hfk).and (joinFrom_nodes b hg₁ hfk)).mono
      (fun child s₂ h₂ => ?_) (fun _ _ _ => trivial))
    obtain ⟨⟨hevolves₂, hchild⟩, hnodes₂⟩ := h₂
    have hg₂ := hevolves₂.wellFormed hg₁
    have hfollow := (ih hg₂ (hg₂.isNode_of_findChild? hchild)).and
      (follow_descends b hops hg₂ (hg₂.isNode_of_findChild? hchild))
    refine hfollow.mono (fun _ s₃ h₃ k hk => ?_) (fun _ _ _ => trivial)
    obtain ⟨hnodes₃, hevolves₃, -⟩ := h₃
    have hchild₃ := (hevolves₃.grows hg₂).findChild? hg₂ (hevolves₃.wellFormed hg₂) hchild
    rw [hname] at hchild₃
    have hbehind {hops' : List Hop} (hk : s₃.graph.descend child hops' = some k) :
        s₃.graph.descend n (h :: hops') = some k := by
      rw [Graph.descend, hchild₃]
      exact hk
    rcases hnodes₃ k hk with hk₂ | ⟨hops', hprefix, hk'⟩
    · rcases hnodes₂ k hk₂ with hk₁ | rfl
      · exact .inl (hnodes₁ k hk₁)
      · exact .inr ⟨[h], List.prefix_append [h] hops, hbehind rfl⟩
    · exact .inr ⟨h :: hops', (List.prefix_cons_inj h).2 hprefix, hbehind hk'⟩

end Action
end RecordGraph
