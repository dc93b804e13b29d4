import RecordGraph.Proofs.Links
import RecordGraph.Proofs.Refusal
import RecordGraph.Proofs.Unread

/-!
# Saved nodes

What a save leaves behind. A node of the subtree has a row and no value that
waits; its written columns hold what its statement wrote, and its key is the one
of the row. Outside the subtree nothing is changed.
-/
namespace RecordGraph

namespace Graph

section
variable (g g' : Graph)

/-- The calls that save some nodes of `g`: each statement writes the values that the written
columns of its node have in `g'`. -/
def sentCalls (ids : NodeId → Value) (nodes : List NodeId) : List (NodeId × Call) :=
  nodes.flatMap fun m =>
    (g.saveCalls m (g'.assignments (g.writtenColumns m)) (ids m)).map fun call => (m, call)

/-- The node `m` of `g` was saved, with `g'` after it; `id` is the generated key of a new row. -/
structure Saved (m : NodeId) (id : Value) : Prop where
  existing : ¬ g'.IsNew m
  clean : g'.dirtyColumns m = []
  written : ∀ c ∈ g.writtenColumns m, g'.column? c = (g.column? c).map (.settle (g'.current c))
  kept : ∀ c ∈ g.columnsOf m, c ∉ g.writtenColumns m → g'.column? c = g.column? c
  key : g'.key m = g.keyAfter m (g'.assignments (g.writtenColumns m)) id
  keyColumn : ∀ k, g.keyColumn? m = some k →
    g'.column? k = (g.column? k).map (.assign (g'.key m))
  node : g'.node? m = if g.Silent m then g.node? m
    else (g.node? m).map fun node => { node with fresh := true }

/-- Nothing of the node `m` was changed, neither its columns nor its key or its freshness. -/
structure Unchanged (m : NodeId) : Prop where
  node : g'.node? m = g.node? m
  columns : ∀ c, g.owner? c = some m → g'.column? c = g.column? c

end

section
variable {g g' g₁ : Graph} {n m : NodeId} {c k : ColumnId} {id : Value}
  {ids : NodeId → Value} {done : List NodeId} {linked : List Edge}

/-- The node that is written is fresh if anything was sent for it. -/
theorem node?_written_self : (g.written n id).node? n =
    if ¬ g.IsNew n ∧ g.dirtyColumns n = [] then g.node? n
    else (g.node? n).map fun node => { node with fresh := true } := by
  by_cases hnew : g.IsNew n
  · rw [written_of_isNew hnew, if_neg fun h => h.1 hnew, setFresh, node?_updateNode, if_pos rfl,
      node?, nodes_settleWritten, nodes_assignKey, node?]
  · by_cases hclean : g.dirtyColumns n = []
    · rw [written_of_clean hnew (not_not.2 hclean), if_pos ⟨hnew, hclean⟩]
    · rw [written_of_dirty hnew hclean, if_neg fun h => hclean h.2, setFresh, node?_updateNode,
        if_pos rfl, node?, nodes_settleWritten, node?]

/-- Whatever is written, the key column of the node is assigned. -/
theorem column?_key_written (hg : g.WellFormed) (hk : g.keyColumn? n = some k) :
    ∃ v, (g.written n id).column? k = (g.column? k).map (.assign v) := by
  have hnodup := dirtyColumns_nodup (n := n) hg
  by_cases hnew : g.IsNew n
  · have hshape : (g.assignKey n id).shape = g.shape := shape_assignKey id
    have hk' : (g.assignKey n id).keyColumn? n = some k := by rwa [keyColumn?_of_shape_eq hshape]
    have hcolumn : (g.written n id).column? k =
        ((g.assignKey n id).settleWritten n (g.dirtyColumns n)).column? k := by
      rw [written_of_isNew hnew]
      rfl
    rw [hcolumn, column?_key_settleWritten (hg.of_shape_eq hshape) hk'
      dirtyColumns_subset_assignKey hnodup, column?_assignKey hk, if_pos rfl]
    cases ((g.assignKey n id).assignments (g.dirtyColumns n)).lookup _ with
    | none => exact ⟨id, rfl⟩
    | some v => exact ⟨v, Option.map_map ..⟩
  · obtain ⟨col, hcol, -⟩ := column?_of_owner (hg.owner_of_keyColumn? hk)
    have hdirty : col.pending.isSome := by
      by_contra hnot
      exact hnew ((isNew_iff hk).2 ⟨col, hcol, hnot⟩)
    obtain ⟨w, hw⟩ := Option.isSome_iff_exists.1 hdirty
    -- an existing node has its key already
    have hsame : g.column? k = (g.column? k).map (.assign w) := by
      rw [hcol, Option.map_some, Column.assign, ← hw]
    by_cases hclean : g.dirtyColumns n = []
    · rw [written_of_clean hnew (not_not.2 hclean)]
      exact ⟨w, hsame⟩
    · have hcolumn : (g.written n id).column? k =
          (g.settleWritten n (g.dirtyColumns n)).column? k := by
        rw [written_of_dirty hnew hclean]
        rfl
      rw [hcolumn, column?_key_settleWritten hg hk dirtyColumns_subset hnodup]
      cases (g.assignments (g.dirtyColumns n)).lookup _ with
      | none => exact ⟨w, hsame⟩
      | some v => exact ⟨v, rfl⟩

namespace Cascade

/-- The statement of a written node wrote what its columns hold. -/
theorem assignments_eq (h : Cascade g ids done linked g₁) (hg : g.WellFormed) (hm : m ∈ done) :
    g₁.assignments (g.writtenColumns m) = g.writtenAssignments g₁ m :=
  List.map_congr_left fun _ hc => by rw [h.name_eq, h.current_written hm hg hc]

theorem sentCalls_eq (h : Cascade g ids done linked g₁) (hg : g.WellFormed) :
    g.sentCalls g₁ ids done = g.plannedCalls g₁ ids done :=
  List.flatMap_congr fun _ hm => by rw [h.assignments_eq hg hm]

/-- A node that is not written is changed by links only. -/
theorem column?_of_notMem (h : Cascade g ids done linked g₁) (hg : g.WellFormed) (hm : m ∉ done)
    (hlinked : ∀ e ∈ linked, e.parent ≠ m) (hc : g.owner? c = some m) :
    g₁.column? c = g.column? c := by
  obtain ⟨-, hk | hc⟩ := hg.owner hc
  · exact h.waitingKey hm hk
  · have hlast : lastLink? linked c = none := by
      rw [← Option.not_isSome_iff_eq_none, lastLink?_isSome]
      rintro ⟨e, he, rfl⟩
      obtain ⟨-, -, -, hfk, -⟩ := hg.edge_of_mem (h.linked he).2
      exact hlinked e he (hg.eq_of_mem_columnsOf hfk hc)
    rw [h.waiting hm hc]
    simp only [hlast, Option.elim_none, Option.map_id']

end Cascade
end
end Graph

namespace Action

open RecordGraph.Graph

variable {σ : Type} (b : Backend σ) {s s' s₀ s₁ : Session σ} {n m : NodeId} {c k : ColumnId}
  {done : List NodeId} {linked : List Edge}

/-- A stage of a save: the nodes for which something was sent are fresh, and those that were
written have a key. -/
structure SaveStage (s₀ : Session σ) (done : List NodeId) (linked : List Edge) (s₁ : Session σ) :
    Prop where
  stage : Stage b s₀ done linked s₁
  node : ∀ m, s₁.graph.node? m = if m ∈ done ∧ ¬ s₀.graph.Silent m
    then (s₀.graph.node? m).map fun node => { node with fresh := true } else s₀.graph.node? m
  key : ∀ m ∈ done, ∀ k, s₀.graph.keyColumn? m = some k →
    ∃ v, s₁.graph.column? k = (s₀.graph.column? k).map (.assign v)

theorem saveNode_saveStage (n : NodeId) (hg : s.graph.WellFormed) : (saveNode b n).Ends s
    (fun _ s' => s.graph.IsNode n ∧
      SaveStage b s (s.graph.postOrder n) (s.graph.edgesBelow n) s')
    (fun e s' => (¬ s.graph.IsNode n ∧ e = .unknownNode n ∧ s' = s) ∨
      s.graph.IsNode n ∧ ∃ m, StopsAt b (SaveStage b s) s n m e s') := by
  refine saveNode_stages b hg
    ⟨start_stage b s, fun m => (if_neg fun h => List.not_mem_nil h.1).symm, by simp⟩ ?_ ?_ n
  · intro done linked m s₁ s₂ hm hnew hlinks h hok
    obtain ⟨⟨ids, hcascade, -, -⟩, -⟩ := h.stage
    obtain ⟨-, id, hgraph, -, -⟩ := (writeNode_ends b m).of_ok hok
    have hg₁ := hg.of_shape_eq hcascade.shape
    have hm₁ : s₁.graph.IsNode m := by rwa [isNode_of_shape_eq hcascade.shape]
    have hsilent : (¬ s₁.graph.IsNew m ∧ s₁.graph.dirtyColumns m = []) ↔ s.graph.Silent m := by
      rw [hcascade.isNew_next hg hm hnew, hcascade.dirtyColumns_next hg hnew hlinks,
        hg.writtenColumns_eq_nil, Silent]
    refine ⟨writeNode_stage b hg hm hnew hlinks h.stage hok, fun j => ?_, fun j hj k hk => ?_⟩
    · rw [hgraph]
      by_cases hjm : m = j
      · subst hjm
        have hbefore : s₁.graph.node? m = s.graph.node? m :=
          (h.node m).trans (if_neg fun hmem => hnew hmem.1)
        rw [node?_written_self, hbefore]
        by_cases hs : s.graph.Silent m
        · rw [if_pos (hsilent.2 hs), if_neg fun hmem => hmem.2 hs]
        · rw [if_neg fun hmem => hs (hsilent.1 hmem), if_pos ⟨by simp, hs⟩]
      · rw [node?_written hjm, h.node]
        simp [Ne.symm hjm]
    · rw [hgraph]
      have hk₁ : s₁.graph.keyColumn? j = some k := (hcascade.keyColumn?_eq j).trans hk
      by_cases hjm : j = m
      · subst hjm
        rw [← hcascade.waitingKey hnew hk]
        exact column?_key_written hg₁ hk₁
      · rw [column?_written_of_key hg₁ hm₁ hjm hk₁]
        exact h.key j (by simpa [hjm] using hj) k hk
  · intro done linked e s₁ he hchild hparent h
    refine ⟨link_stage b hg he hchild hparent h.stage, h.node, fun j hj k hk => ?_⟩
    obtain ⟨-, -, -, hfk, -⟩ := hg.edge_of_mem he
    have hne : e.foreignKey ≠ k := by
      rintro rfl
      exact hg.notMem_columnsOf hk hfk
    change ∃ v, (s₁.graph.assign e.foreignKey _).column? k = _
    rw [column?_assign, if_neg hne]
    exact h.key j hj k hk

namespace SaveStage

variable {b} (h : SaveStage b s₀ done linked s₁) (hg : s₀.graph.WellFormed)

include h hg

/-- The key of a node that was written is the one that waits in its key column. -/
theorem column?_key (hm : m ∈ done) (hk : s₀.graph.keyColumn? m = some k) :
    s₁.graph.column? k = (s₀.graph.column? k).map (.assign (s₁.graph.key m)) := by
  obtain ⟨⟨ids, hcascade, -, -⟩, -⟩ := h.stage
  obtain ⟨v, hv⟩ := h.key m hm k hk
  obtain ⟨col, hcol, -⟩ := column?_of_owner (hg.owner_of_keyColumn? hk)
  have hcurrent : s₁.graph.key m = v := by
    rw [key_eq ((hcascade.keyColumn?_eq m).trans hk), current, hv, hcol]
    rfl
  rw [hcurrent, hv]

/-- Of the columns of a node that was written, those that waited are settled. -/
theorem column?_columnsOf (hm : m ∈ done) (hc : c ∈ s₀.graph.columnsOf m) :
    s₁.graph.column? c = if c ∈ s₀.graph.writtenColumns m
      then (s₀.graph.column? c).map (.settle (s₁.graph.current c)) else s₀.graph.column? c := by
  obtain ⟨⟨ids, hcascade, -, -⟩, -⟩ := h.stage
  by_cases hmem : c ∈ s₀.graph.writtenColumns m
  · rw [hcascade.written hm hc, hcascade.current_written hm hg hmem]
    simp only [if_pos hmem]
  · rw [hcascade.written hm hc]
    simp only [if_neg hmem, Option.map_id']

theorem not_isNew (hm : m ∈ done) : ¬ s₁.graph.IsNew m := by
  obtain ⟨⟨ids, hcascade, -, -⟩, -⟩ := h.stage
  have hkeyColumn := hcascade.keyColumn?_eq m
  intro hnew
  cases hk : s₀.graph.keyColumn? m with
  | none =>
    rw [IsNew, hkeyColumn, hk] at hnew
    cases hnew
  | some k =>
    obtain ⟨col, hcol, hclean⟩ := (isNew_iff (hkeyColumn.trans hk)).1 hnew
    rw [h.column?_key hg hm hk] at hcol
    obtain ⟨col₀, -, rfl⟩ := Option.map_eq_some_iff.1 hcol
    exact hclean rfl

theorem dirtyColumns_eq_nil (hm : m ∈ done) : s₁.graph.dirtyColumns m = [] := by
  obtain ⟨⟨ids, hcascade, -, -⟩, -⟩ := h.stage
  rw [dirtyColumns, hcascade.columnsOf_eq, List.filter_eq_nil_iff]
  intro c hc
  obtain ⟨col, hcol, -⟩ := column?_of_owner (hg.column hc).1
  have hcolumn := h.column?_columnsOf hg hm hc
  by_cases hmem : c ∈ s₀.graph.writtenColumns m
  · rw [if_pos hmem] at hcolumn
    simp [IsDirty, hcolumn, hcol, Column.IsDirty, Column.settle]
  · -- what waits before the save is written by it
    have hclean : ¬ s₀.graph.IsDirty c :=
      fun hdirty => hmem (List.mem_filter.2 ⟨hc, by simp [hdirty]⟩)
    rw [if_neg hmem] at hcolumn
    simpa [IsDirty, hcolumn] using hclean

/-- The nodes that were written are saved, by the calls that were made. -/
theorem saved : ∃ ids : NodeId → Value,
    s₁.calls = s₀.calls ++ s₀.graph.sentCalls s₁.graph ids done ∧
    ∀ m ∈ done, s₀.graph.Saved s₁.graph m (ids m) := by
  obtain ⟨⟨ids, hcascade, hcalls, -⟩, -⟩ := h.stage
  refine ⟨ids, by rw [hcalls, hcascade.sentCalls_eq hg], fun m hm => ?_⟩
  exact {
    existing := h.not_isNew hg hm
    clean := h.dirtyColumns_eq_nil hg hm
    written := fun c hc => by
      rw [h.column?_columnsOf hg hm (List.mem_of_mem_filter hc), if_pos hc]
    kept := fun c hc hnot => by rw [h.column?_columnsOf hg hm hc, if_neg hnot]
    key := by rw [hcascade.writtenKey hm, hcascade.assignments_eq hg hm]
    keyColumn := fun k hk => h.column?_key hg hm hk
    node := by
      rw [h.node]
      by_cases hsilent : s₀.graph.Silent m <;> simp [hsilent, hm] }

/-- A node that is neither written nor linked is as it was. -/
theorem unchanged (hm : m ∉ done) (hlinked : ∀ e ∈ linked, e.parent ≠ m) :
    s₀.graph.Unchanged s₁.graph m := by
  obtain ⟨⟨ids, hcascade, -, -⟩, -⟩ := h.stage
  refine ⟨?_, fun c hc => hcascade.column?_of_notMem hg hm hlinked hc⟩
  rw [h.node, if_neg fun hmem => hm hmem.1]

end SaveStage

/-- After a save each node of the subtree is saved, by the calls that were made for it, and no
other node is changed; tables, names, columns and joins are as they were. -/
theorem saveNode_saves (hs : s.graph.Reachable) (h : saveNode b n s = .ok () s') :
    ∃ ids : NodeId → Value,
      s'.calls = s.calls ++ s.graph.sentCalls s'.graph ids (s.graph.postOrder n) ∧
      (∀ m ∈ s.graph.postOrder n, s.graph.Saved s'.graph m (ids m)) ∧
      (∀ m, m ∉ s.graph.postOrder n → s.graph.Unchanged s'.graph m) ∧
      s'.graph.shape = s.graph.shape := by
  have hg := hs.wellFormed
  obtain ⟨-, hstage⟩ := (saveNode_saveStage b n hg).of_ok h
  obtain ⟨ids, hcalls, hsaved⟩ := hstage.saved hg
  refine ⟨ids, hcalls, hsaved, fun m hm => hstage.unchanged hg hm fun e he hparent => ?_, ?_⟩
  · obtain ⟨-, hbelow⟩ := hg.edge_of_mem_edgesBelow he
    exact hm (hg.mem_postOrder_of_below (hparent ▸ hbelow))
  · obtain ⟨⟨_, hcascade, -, -⟩, -⟩ := hstage.stage
    exact hcascade.shape

/-- Two new rows: the child has the generated key, and the root the one that was written to a
column with the name of its key. -/
theorem saveNode_saves_moved :
    let b := Script.backend .standard
    let s := (Session.start "t0" "id" .null ⟨[], .noRow, [], [], 0⟩).performAll b
      [.resolveColumn root "t1.title", .setValue ⟨3⟩ (.text "x"), .resolveColumn root "id",
        .setValue ⟨4⟩ (.integer 7), .resolveColumn ⟨1⟩ "note"]
    let s' := (saveNode b root).after s
    ∃ ids : NodeId → Value,
      s'.calls =
        [(⟨1⟩, .exec (.insert "t1" [("title", .text "x")]) (.ok ())),
          (⟨1⟩, .lastInsertId (.ok (ids ⟨1⟩))),
          (root, .exec (.insert "t0" [("t1_id", .integer 1), ("id", .integer 7)]) (.ok ())),
          (root, .lastInsertId (.ok (ids root)))] ∧
      s.graph.Saved s'.graph ⟨1⟩ (ids ⟨1⟩) ∧ s'.graph.key ⟨1⟩ = ids ⟨1⟩ ∧
      s.graph.Saved s'.graph root (ids root) ∧ s'.graph.key root = .integer 7 := by
  intro b s s'
  have hs : s.graph.Reachable := reachable_performAll b "t0" "id" .null _ _
  have hsave : saveNode b root s = .ok () s' := eq_ok_of_result? (by decide +kernel)
  obtain ⟨ids, hcalls, hsaved, -, -⟩ := saveNode_saves b hs hsave
  have horder : s.graph.postOrder root = [⟨1⟩, root] := by decide +kernel
  have hchild : s'.graph.assignments (s.graph.writtenColumns ⟨1⟩) = [("title", .text "x")] := by
    decide +kernel
  have hroot : s'.graph.assignments (s.graph.writtenColumns root) =
      [("t1_id", .integer 1), ("id", .integer 7)] := by decide +kernel
  have hnew : s.graph.IsNew ⟨1⟩ ∧ s.graph.IsNew root := by decide +kernel
  have htables : s.graph.table ⟨1⟩ = "t1" ∧ s.graph.table root = "t0" := by decide +kernel
  have hnames : s.graph.keyName ⟨1⟩ = "id" ∧ s.graph.keyName root = "id" := by decide +kernel
  have hcalls₀ : s.calls = [] := List.eq_nil_of_length_eq_zero (by decide +kernel)
  have hsaved₁ := hsaved ⟨1⟩ (by simp [horder])
  have hsaved₀ := hsaved root (by simp [horder])
  refine ⟨ids, ?_, hsaved₁, ?_, hsaved₀, ?_⟩
  · rw [hcalls, horder, hcalls₀, sentCalls]
    simp only [List.flatMap_cons, List.flatMap_nil, hchild, hroot, saveCalls, if_pos hnew.1,
      if_pos hnew.2, htables]
    rfl
  · rw [hsaved₁.key, hchild, keyAfter, hnames.1, if_pos hnew.1]
    rfl
  · rw [hsaved₀.key, hroot, keyAfter, hnames.2]
    rfl

end Action
end RecordGraph
