import RecordGraph.Proofs.SavedNode

/-!
# Saving again

A save leaves the nodes of its subtree at rest: nothing waits, and a foreign key holds the
key of the last child that it names. A save of nodes at rest sends their foreign keys once
more, and gives every column the value that it has already.
-/
namespace RecordGraph

namespace Graph

section
variable (g : Graph) (n : NodeId)

/-- The columns of a node that its joins use, in order of registration. -/
def foreignKeys : List ColumnId :=
  (g.columnsOf n).filter fun c => ∃ e ∈ g.edgesOf n, e.foreignKey = c

/-- A node as a save leaves it. -/
structure AtRest : Prop where
  existing : ¬ g.IsNew n
  clean : g.dirtyColumns n = []
  linked : ∀ {c e}, lastLink? (g.edgesOf n) c = some e →
    (g.column? c).map (.settle (g.key e.child)) = g.column? c
  key : ∀ {c e}, lastLink? (g.edgesOf n) c = some e → g.name c = g.keyName n →
    g.key n = g.key e.child
  fresh : g.edgesOf n ≠ [] → g.IsFresh n

/-- The updates that write the foreign keys of some nodes, for those that have joins. -/
def linkUpdates (nodes : List NodeId) : List (NodeId × Call) :=
  (nodes.filter fun m => g.edgesOf m ≠ []).map fun m =>
    (m, .exec (.update (g.table m) (g.keyMatch m) (g.assignments (g.foreignKeys m))) (.ok ()))

end

section
variable {g g' : Graph} {n m : NodeId} {c : ColumnId} {e : Edge}

/-- A foreign key is listed once, however many joins use it. -/
theorem WellFormed.foreignKeys_sorted (hg : g.WellFormed) (n : NodeId) :
    (g.foreignKeys n).Pairwise fun c d => c.index < d.index :=
  (hg.columns_sorted n).filter _

theorem WellFormed.mem_foreignKeys (hg : g.WellFormed) :
    c ∈ g.foreignKeys n ↔ ∃ e ∈ g.edgesOf n, e.foreignKey = c := by
  rw [foreignKeys, List.mem_filter, decide_eq_true_eq, and_iff_right_iff_imp]
  rintro ⟨e, he, rfl⟩
  obtain ⟨-, -, -, hfk, -⟩ := hg.edge_of_mem he
  exact hfk

/-- Graphs of one shape are equal if their nodes and columns are. -/
theorem eq_of_shape_eq (hshape : g'.shape = g.shape) (hnode : ∀ n, g'.node? n = g.node? n)
    (hcolumn : ∀ c, g'.column? c = g.column? c) : g' = g := by
  have hnodes : g'.nodes = g.nodes := Array.ext_getElem? fun i => hnode ⟨i⟩
  have hcolumns : g'.columns = g.columns := Array.ext_getElem? fun i => hcolumn ⟨i⟩
  have hedges : g'.edges = g.edges := edges_of_shape_eq hshape
  cases g
  cases g'
  cases hnodes
  cases hcolumns
  cases hedges
  rfl

namespace AtRest

variable (h : g.AtRest n)

include h

theorem not_isDirty (hc : c ∈ g.columnsOf n) : ¬ g.IsDirty c := by
  have hclean := List.filter_eq_nil_iff.1 h.clean c hc
  simpa using hclean

/-- Only the foreign keys of a node at rest are written again. -/
theorem writtenColumns_eq : g.writtenColumns n = g.foreignKeys n := by
  refine List.filter_congr fun c hc => ?_
  rw [decide_eq_decide, or_iff_right (h.not_isDirty hc)]

theorem silent_iff : g.Silent n ↔ g.edgesOf n = [] := by
  have hdirty : ¬ ∃ c ∈ g.columnsOf n, g.IsDirty c := fun ⟨_, hc, hd⟩ => h.not_isDirty hc hd
  rw [Silent, and_iff_right h.existing, or_iff_left hdirty, not_not]

theorem saveCalls_eq (assignments : List Assignment) (id : Value) :
    g.saveCalls n assignments id = if g.edgesOf n ≠ [] then
      [.exec (.update (g.table n) (g.keyMatch n) assignments) (.ok ())] else [] := by
  have hdirty : ¬ ∃ c ∈ g.columnsOf n, g.IsDirty c := fun ⟨_, hc, hd⟩ => h.not_isDirty hc hd
  simp only [saveCalls, if_neg h.existing, or_iff_left hdirty]

/-- The key of a node at rest is assigned already. -/
theorem assign_key {k : ColumnId} (hk : g.keyColumn? n = some k) :
    (g.column? k).map (.assign (g.key n)) = g.column? k := by
  rw [key_eq hk, current]
  cases hcol : g.column? k with
  | none => rfl
  | some col =>
    have hdirty : col.IsDirty := by
      by_contra hclean
      exact h.existing ((isNew_iff hk).2 ⟨col, hcol, hclean⟩)
    obtain ⟨v, hv⟩ := Option.isSome_iff_exists.1 hdirty
    rw [Option.map_some, Option.elim_some, Column.assign, Column.current, hv, Option.some_or,
      Option.getD_some, ← hv]

end AtRest

/-- Of nodes at rest, those with joins are updated, and nothing is sent for the others. -/
theorem sentCalls_of_atRest {ids : NodeId → Value} {nodes : List NodeId}
    (h : ∀ m ∈ nodes, g.AtRest m) : g.sentCalls g ids nodes = g.linkUpdates nodes := by
  induction nodes with
  | nil => rfl
  | cons m nodes ih =>
    obtain ⟨hm, hnodes⟩ := List.forall_mem_cons.1 h
    have hrest : g.sentCalls g ids nodes = g.linkUpdates nodes := ih hnodes
    rw [sentCalls] at hrest
    rw [sentCalls, List.flatMap_cons, hrest, hm.writtenColumns_eq, hm.saveCalls_eq]
    by_cases hedges : g.edgesOf m = [] <;> simp [linkUpdates, hedges]

end
end Graph

namespace Action

open RecordGraph.Graph

variable {σ : Type} (b : Backend σ) {s s' s'' s₀ s₁ : Session σ} {n m : NodeId} {c : ColumnId}
  {done : List NodeId} {linked : List Edge}

namespace SaveStage

variable {b} (h : SaveStage b s₀ done linked s₁) (hg : s₀.graph.WellFormed)

include h

theorem shape : s₁.graph.shape = s₀.graph.shape := by
  obtain ⟨⟨_, hcascade, -, -⟩, -⟩ := h.stage
  exact hcascade.shape

include hg

/-- A foreign key of a node that was written holds the key of the last child that it names. -/
theorem column?_foreignKey {e : Edge} (hm : m ∈ done)
    (hlast : lastLink? (s₀.graph.edgesOf m) c = some e) :
    s₁.graph.column? c = (s₀.graph.column? c).map (.settle (s₁.graph.key e.child)) := by
  obtain ⟨⟨ids, hcascade, -, -⟩, -⟩ := h.stage
  obtain ⟨he, rfl⟩ := mem_of_lastLink? hlast
  have hwritten := hg.foreignKey_mem_writtenColumns he
  rw [h.column?_columnsOf hg hm (List.mem_of_mem_filter hwritten), if_pos hwritten,
    hcascade.current_written hm hg hwritten, writtenValue, hlast, Option.elim_some]

/-- What is written under the name of the key becomes the key. -/
theorem key_of_written (hm : m ∈ done) (hc : c ∈ s₀.graph.writtenColumns m)
    (hname : s₀.graph.name c = s₀.graph.keyName m) : s₁.graph.key m = s₁.graph.current c := by
  obtain ⟨ids, -, hsaved⟩ := h.saved hg
  have hlookup : (s₁.graph.assignments (s₀.graph.writtenColumns m)).lookup (s₁.graph.name c) =
      some (s₁.graph.current c) := by
    refine lookup_assignments (n := m) (hg.of_shape_eq h.shape) ?_ hc
    rw [columnsOf_of_shape_eq h.shape]
    exact List.filter_subset_self _
  rw [name_of_shape_eq h.shape, hname] at hlookup
  rw [(hsaved m hm).key, keyAfter, hlookup, Option.getD_some]

/-- A node that was written is at rest. -/
theorem atRest (hm : m ∈ done) : s₁.graph.AtRest m := by
  have hedges : s₁.graph.edgesOf m = s₀.graph.edgesOf m := edgesOf_of_shape_eq h.shape m
  exact {
    existing := h.not_isNew hg hm
    clean := h.dirtyColumns_eq_nil hg hm
    linked := fun {c e} hlast => by
      rw [hedges] at hlast
      rw [h.column?_foreignKey hg hm hlast, Option.map_map]
      rfl
    key := fun {c e} hlast hname => by
      rw [hedges] at hlast
      obtain ⟨⟨ids, hcascade, -, -⟩, -⟩ := h.stage
      obtain ⟨he, rfl⟩ := mem_of_lastLink? hlast
      have hwritten := hg.foreignKey_mem_writtenColumns he
      rw [name_of_shape_eq h.shape, keyName_of_shape_eq h.shape] at hname
      rw [h.key_of_written hg hm hwritten hname, hcascade.current_written hm hg hwritten,
        writtenValue, hlast, Option.elim_some]
    fresh := fun hjoined => by
      rw [hedges] at hjoined
      have hsent : ¬ s₀.graph.Silent m := fun hsilent => hsilent.2 (.inl hjoined)
      obtain ⟨e, he⟩ := List.exists_mem_of_ne_nil _ hjoined
      obtain ⟨-, -, -, hfk, -⟩ := hg.edge_of_mem he
      obtain ⟨node, hnode⟩ := (hg.isNode_of_column hfk).exists
      rw [IsFresh, h.node, if_pos ⟨hm, hsent⟩, hnode]
      rfl }

/-! ## Nodes that were at rest before -/

variable (hrest : ∀ m ∈ done, s₀.graph.AtRest m)

include hrest

/-- The induction goes from the children to the node, as a key may be the key of a child. -/
theorem key_of_atRest (m : NodeId) : m ∈ done → s₁.graph.key m = s₀.graph.key m := by
  induction m using hg.children_induction with
  | h m ih =>
    intro hm
    obtain ⟨⟨_, hcascade, -, -⟩, -⟩ := h.stage
    obtain ⟨ids, -, hsaved⟩ := h.saved hg
    rw [(hsaved m hm).key, keyAfter, if_neg (hrest m hm).existing]
    cases hlookup : (s₁.graph.assignments (s₀.graph.writtenColumns m)).lookup
        (s₀.graph.keyName m) with
    | none => rfl
    | some v =>
      obtain ⟨c, hc, hpair⟩ := List.mem_map.1 (mem_of_lookup hlookup)
      obtain ⟨hname, rfl⟩ := Prod.mk.inj hpair
      rw [name_of_shape_eq h.shape] at hname
      rw [(hrest m hm).writtenColumns_eq, hg.mem_foreignKeys, ← lastLink?_isSome] at hc
      obtain ⟨e, hlast⟩ := Option.isSome_iff_exists.1 hc
      obtain ⟨he, rfl⟩ := mem_of_lastLink? hlast
      rw [Option.getD_some, (hrest m hm).key hlast hname,
        hcascade.current_written hm hg (hg.foreignKey_mem_writtenColumns he), writtenValue, hlast,
        Option.elim_some]
      exact ih e he (hcascade.closed hm he)

theorem column?_of_atRest (hlinked : ∀ e ∈ linked, e.parent ∈ done) (c : ColumnId) :
    s₁.graph.column? c = s₀.graph.column? c := by
  obtain ⟨⟨ids, hcascade, -, -⟩, -⟩ := h.stage
  cases howner : s₀.graph.owner? c with
  | none =>
    have hnone := (owner?_of_shape_eq h.shape c).trans howner
    rw [owner?, Option.map_eq_none_iff] at hnone howner
    rw [hnone, howner]
  | some m =>
    by_cases hm : m ∈ done
    · have hkey := h.key_of_atRest hg hrest
      rcases (hg.owner howner).2 with hk | hc
      · rw [h.column?_key hg hm hk, hkey m hm, (hrest m hm).assign_key hk]
      · cases hlast : lastLink? (s₀.graph.edgesOf m) c with
        | some e =>
          obtain ⟨he, -⟩ := mem_of_lastLink? hlast
          rw [h.column?_foreignKey hg hm hlast, hkey e.child (hcascade.closed hm he),
            (hrest m hm).linked hlast]
        | none =>
          have hkept : c ∉ s₀.graph.writtenColumns m := by
            rw [(hrest m hm).writtenColumns_eq, hg.mem_foreignKeys, ← lastLink?_isSome, hlast]
            exact Bool.false_ne_true
          rw [h.column?_columnsOf hg hm hc, if_neg hkept]
    · exact hcascade.column?_of_notMem hg hm (fun e he hparent => hm (hparent ▸ hlinked e he))
        howner

omit hg

theorem node?_of_atRest (m : NodeId) : s₁.graph.node? m = s₀.graph.node? m := by
  rw [h.node]
  split
  · next hm =>
    -- a node that is written again has joins, and so it is fresh
    obtain ⟨hm, hsent⟩ := hm
    rw [(hrest m hm).silent_iff] at hsent
    have hfresh := (hrest m hm).fresh hsent
    rw [IsFresh] at hfresh
    cases hnode : s₀.graph.node? m with
    | none => rfl
    | some node =>
      rw [hnode, Option.any_some] at hfresh
      rw [Option.map_some, ← hfresh]
  · rfl

end SaveStage

/-- A second save right after the first one sends one update for each node of the subtree that
has joins, children before their parent, with the values that its foreign keys have already. It
sends nothing else, and no part of the graph changes. -/
theorem saveNode_again (hs : s.graph.Reachable) (h : saveNode b n s = .ok () s')
    (hagain : saveNode b n s' = .ok () s'') :
    s''.calls = s'.calls ++ s'.graph.linkUpdates (s'.graph.postOrder n) ∧
    (∀ m, (s'.graph.foreignKeys m).Pairwise (fun c d => c.index < d.index) ∧
      ∀ c, c ∈ s'.graph.foreignKeys m ↔ ∃ e ∈ s'.graph.edgesOf m, e.foreignKey = c) ∧
    s''.graph = s'.graph := by
  have hg := hs.wellFormed
  obtain ⟨-, hfirst⟩ := (saveNode_saveStage b n hg).of_ok h
  have hshape := hfirst.shape
  have hg' : s'.graph.WellFormed := hg.of_shape_eq hshape
  obtain ⟨-, hsecond⟩ := (saveNode_saveStage b n hg').of_ok hagain
  have hrest : ∀ m ∈ s'.graph.postOrder n, s'.graph.AtRest m := by
    rw [hg.postOrder_of_shape_eq hshape]
    exact fun m hm => hfirst.atRest hg hm
  have hlinked : ∀ e ∈ s'.graph.edgesBelow n, e.parent ∈ s'.graph.postOrder n := by
    intro e he
    obtain ⟨-, hbelow⟩ := hg'.edge_of_mem_edgesBelow he
    exact hg'.mem_postOrder_of_below hbelow
  have hgraph : s''.graph = s'.graph := eq_of_shape_eq hsecond.shape
    (hsecond.node?_of_atRest hrest) (hsecond.column?_of_atRest hg' hrest hlinked)
  obtain ⟨ids, hcalls, -⟩ := hsecond.saved hg'
  refine ⟨?_, fun m => ⟨hg'.foreignKeys_sorted m, fun c => hg'.mem_foreignKeys⟩, hgraph⟩
  rw [hcalls, hgraph, sentCalls_of_atRest hrest]

/-- Two joins share a foreign key with the name of the root's key. The second save updates the
root only, which was found by the key of its last child since the first one. -/
theorem saveNode_again_shared :
    let b := Script.backend .standard
    let s := (Session.start "t0" "id" .null ⟨[], .noRow, [], [], 0⟩).performAll b
      [.resolveColumn root "t1[id].title", .setValue ⟨3⟩ (.text "x"), .resolveTable root "t2[id]"]
    let s' := (saveNode b root).after s
    let s'' := (saveNode b root).after s'
    s''.calls = s'.calls ++ [(root, .exec
      (.update "t0" ⟨"id", .integer 2⟩ [("id", .integer 2)]) (.ok ()))] ∧
    s''.graph = s'.graph := by
  intro b s s' s''
  have hs : s.graph.Reachable := reachable_performAll b "t0" "id" .null _ _
  have hsave : saveNode b root s = .ok () s' := eq_ok_of_result? (by decide +kernel)
  have hagain : saveNode b root s' = .ok () s'' := eq_ok_of_result? (by decide +kernel)
  obtain ⟨hcalls, -, hgraph⟩ := saveNode_again b hs hsave hagain
  have hjoined : (s'.graph.postOrder root).filter (fun m => s'.graph.edgesOf m ≠ []) = [root] := by
    decide +kernel
  have hkeys : s'.graph.assignments (s'.graph.foreignKeys root) = [("id", .integer 2)] := by
    decide +kernel
  have hrow : s'.graph.table root = "t0" ∧ s'.graph.keyMatch root = ⟨"id", .integer 2⟩ := by
    decide +kernel
  refine ⟨?_, hgraph⟩
  rw [hcalls, linkUpdates, hjoined, List.map_singleton, hkeys, hrow.1, hrow.2]

end Action
end RecordGraph
