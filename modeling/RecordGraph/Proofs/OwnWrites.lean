import Mathlib.Data.List.Sort
import RecordGraph.Proofs.NewRecord
import RecordGraph.Proofs.Resaving
import RecordGraph.Proofs.ResolvedFirst
import RecordGraph.Proofs.SingleReads
import RecordGraph.Proofs.Tree

/-!
# Reading what was saved

What a save was given waits in its columns until their rows are written, and then each of
them is known to its node, which is fresh. So a fetch of the same paths right after the save
asks for nothing. It gives the values that were given last, except that a foreign key holds
the key of the last row that it names.
-/
namespace RecordGraph

namespace Graph

/-- Each column that was assigned waits to write the value that it was assigned last. -/
def Awaits (assigned : List (ColumnId × Value)) (g : Graph) : Prop :=
  ∀ c v, assigned.reverse.lookup c = some v →
    ∃ col, g.column? c = some col ∧ col.pending = some v

/-- The value that a save leaves in a column: the key of the last row that it names, else what
it was assigned last. -/
def leftIn (g : Graph) (assigned : List (ColumnId × Value)) (c : ColumnId) : Option Value :=
  match lastLink? g.edges.toList c with
  | some e => some (g.key e.child)
  | none => assigned.reverse.lookup c

section
variable {g g' : Graph} {n m : NodeId} {c : ColumnId} {v : Value}
  {assigned : List (ColumnId × Value)}

theorem Awaits.keepsPending (h : Awaits assigned g) (hkeep : KeepsPending g g') :
    Awaits assigned g' := by
  intro c v hv
  obtain ⟨col, hcol, hpending⟩ := h c v hv
  obtain ⟨col', hcol', hsame⟩ := Option.map_eq_some_iff.1 (hkeep c col hcol)
  exact ⟨col', hcol', hsame.trans hpending⟩

theorem Awaits.assign (h : Awaits assigned g) (hc : (g.column? c).isSome) (v : Value) :
    Awaits (assigned ++ [(c, v)]) (g.assign c v) := by
  intro d w hw
  rw [List.reverse_append, List.reverse_singleton, List.singleton_append, List.lookup_cons] at hw
  rw [column?_assign]
  by_cases hcd : c = d
  · subst hcd
    obtain ⟨col, hcol⟩ := Option.isSome_iff_exists.1 hc
    rw [beq_self_eq_true] at hw
    obtain rfl := Option.some.inj hw
    exact ⟨_, by rw [if_pos rfl, hcol, Option.map_some], rfl⟩
  · rw [beq_false_of_ne (Ne.symm hcd)] at hw
    rw [if_neg hcd]
    exact h d w hw

theorem Awaits.isDirty (h : Awaits assigned g) (hv : assigned.reverse.lookup c = some v) :
    g.IsDirty c ∧ g.current c = v := by
  obtain ⟨col, hcol, hpending⟩ := h c v hv
  constructor
  · simp [IsDirty, hcol, Column.IsDirty, hpending]
  · simp [current, hcol, Column.current, hpending]

/-! ## Joins in order of registration -/

theorem toList_edges (g : Graph) :
    g.edges.toList = ((List.range g.edges.size).map EdgeId.mk).filterMap g.edge? := by
  have hrange : (List.range g.edges.size).map (fun i => g.edges[i]?) =
      g.edges.toList.map some := by
    refine List.ext_getElem (by simp) fun i hi hi' => ?_
    simp at hi hi' ⊢
  calc g.edges.toList
    _ = (g.edges.toList.map some).filterMap id := by
      rw [List.filterMap_map]
      exact List.filterMap_some.symm
    _ = ((List.range g.edges.size).map EdgeId.mk).filterMap g.edge? := by
      rw [← hrange, List.filterMap_map, List.filterMap_map]
      rfl

/-- A node lists its joins in the order in which the graph does. -/
theorem WellFormed.edgesOf_eq_filter (hg : g.WellFormed) (n : NodeId) :
    g.edgesOf n = g.edges.toList.filter fun e => e.parent = n := by
  have hids : g.edgeIds n = ((List.range g.edges.size).map EdgeId.mk).filter fun e =>
      (g.edge? e).any fun x => x.parent = n := by
    refine List.Pairwise.eq_of_mem_iff (hg.edges_sorted n) ?_ fun e => ?_
    · refine List.Pairwise.filter _ (List.pairwise_map.2 ?_)
      exact List.pairwise_lt_range
    · rw [List.mem_filter, Option.any_eq_true]
      constructor
      · intro he
        obtain ⟨x, hx, hparent⟩ := hg.edge he
        refine ⟨List.mem_map.2 ⟨e.index, List.mem_range.2 (lt_of_edge hx), rfl⟩, x, hx, ?_⟩
        simpa using hparent
      · rintro ⟨-, x, hx, hparent⟩
        rw [decide_eq_true_eq] at hparent
        exact hparent ▸ (hg.listed hx).1
  rw [edgesOf_eq, hids, List.filterMap_filter, toList_edges, List.filter_filterMap]
  refine List.filterMap_congr fun e _ => ?_
  cases g.edge? e with
  | none => simp
  | some x => simp [Option.filter]

theorem WellFormed.lastLink?_edges (hg : g.WellFormed) (hc : c ∈ g.columnsOf n) :
    lastLink? g.edges.toList c = lastLink? (g.edgesOf n) c := by
  rw [hg.edgesOf_eq_filter, lastLink?_filter]
  rintro e he rfl
  obtain ⟨i, hi⟩ := exists_edge?_of_mem (Array.mem_toList_iff.1 he)
  rw [decide_eq_true_eq]
  exact hg.eq_of_mem_columnsOf (hg.listed hi).2 hc

end
end Graph

namespace Action

open RecordGraph.Graph

variable {σ : Type} {b : Backend σ} {s s' s₀ s₁ : Session σ} {n m : NodeId} {c : ColumnId}
  {done : List NodeId} {linked : List Edge}

/-- What waits before a save is known after it. -/
theorem SaveStage.ready_of_isDirty (h : SaveStage b s₀ done linked s₁) (hg : s₀.graph.WellFormed)
    (hm : m ∈ done) (hc : c ∈ s₀.graph.columnsOf m) (hdirty : s₀.graph.IsDirty c) :
    s₁.graph.Ready c ∧ s₁.graph.current c = s₀.graph.writtenValue s₁.graph m c := by
  obtain ⟨⟨ids, hcascade, -, -⟩, -⟩ := h.stage
  have hwritten : c ∈ s₀.graph.writtenColumns m := List.mem_filter.2 ⟨hc, by simp [hdirty]⟩
  have hsent : ¬ s₀.graph.Silent m := fun hsilent => hsilent.2 (.inr ⟨c, hc, hdirty⟩)
  have hc' : c ∈ s₁.graph.columnsOf m := by rwa [columnsOf_of_shape_eq h.shape]
  have hfresh : s₁.graph.IsFresh m := by
    obtain ⟨node, hnode⟩ := (hg.isNode_of_column hc).exists
    rw [IsFresh, h.node, if_pos ⟨hm, hsent⟩, hnode]
    rfl
  exact ⟨⟨m, hc', .inr hfresh⟩, hcascade.current_written hm hg hwritten⟩

/-- A save leaves its last value in each column that it was given, but for a foreign key. -/
theorem SaveStage.leftIn_of_awaits (h : SaveStage b s₀ (s₀.graph.postOrder n) linked s₁)
    (hg : s₀.graph.WellFormed) {assigned : List (ColumnId × Value)} {a : ColumnId × Value}
    (hawaits : s₀.graph.Awaits assigned) (ha : a ∈ assigned) (hm : m ∈ s₀.graph.postOrder n)
    (hc : a.1 ∈ s₀.graph.columnsOf m) :
    s₁.graph.Ready a.1 ∧ s₁.graph.leftIn assigned a.1 = some (s₁.graph.current a.1) := by
  obtain ⟨v, hv⟩ := Option.isSome_iff_exists.1
    (List.lookup_isSome_iff.2 ⟨a, List.mem_reverse.2 ha, beq_self_eq_true a.1⟩)
  obtain ⟨hdirty, hcurrent⟩ := hawaits.isDirty hv
  obtain ⟨hready, hsaved⟩ := h.ready_of_isDirty hg hm hc hdirty
  refine ⟨hready, ?_⟩
  rw [hsaved, leftIn, edges_of_shape_eq h.shape, hg.lastLink?_edges hc, writtenValue]
  cases lastLink? (s₀.graph.edgesOf m) a.1 with
  | some e => rfl
  | none => exact hv.trans (congrArg some hcurrent.symm)

theorem Assigns.mem_columnsOf {g : Graph} {q : String × Value} {a : ColumnId × Value}
    (h : Assigns g n q a) (hg : g.WellFormed) :
    ∃ m ∈ g.postOrder n, a.1 ∈ g.columnsOf m := by
  obtain ⟨⟨p, -, hlocate⟩, -⟩ := h
  obtain ⟨m, hm, hfind⟩ := locate_eq_some.1 hlocate
  exact ⟨m, hg.mem_postOrder_of_below ⟨_, hm⟩, (hg.findColumn?_mem hfind).1⟩

/-- Before the rows are written, each value waits in the column behind its path. -/
theorem assigns_await {values : List (String × Value)} (hg : s.graph.WellFormed) :
    (values.forM (assignAt b n)).Ends s
      (fun _ s' => s.graph.Evolves s'.graph ∧
        ∃ assigned, List.Forall₂ (Assigns s'.graph n) values assigned ∧
          s'.graph.Awaits assigned)
      (fun _ _ => True) := by
  refine ends_assigns b (I := fun assigned s => s.graph.Awaits assigned) hg ?_ ?_ ?_
  · rintro c v ⟨⟩
  · intro s assigned path hg h
    exact ((resolves_undisturbed b).resolveColumn n path hg).mono
      (fun _ _ hs' => h.keepsPending hs'.pending) (fun _ _ _ => trivial)
  · intro s assigned m c v hg h hc
    obtain ⟨col, hcol, -⟩ := column?_of_owner (hg.column hc).1
    exact h.assign (by rw [hcol]; rfl) v

/-- Right after a save, a fetch of its paths asks the backend for nothing and registers nothing.
It gives the value of the last pair for the same column, and for a foreign key the key of the
child of the last join by it. -/
theorem fetchAt_of_saveAt (hs : s.graph.Reachable) {values : List (String × Value)}
    (h : saveAt b n values s = .ok () s') :
    ∃ assigned read,
      List.Forall₂ (fun q a => resolveColumn b n q.1 s' = .ok a.1 s' ∧ a.2 = q.2)
        values assigned ∧
      fetchAt b n (values.map Prod.fst) s' = .ok read s' ∧
      List.Forall₂ (fun a v => s'.graph.leftIn assigned a.1 = some v) assigned read := by
  have hg := hs.wellFormed
  rw [saveAt_eq] at h
  cases hloop : values.forM (assignAt b n) s with
  | error e s₁ => cases (bind_of_error hloop).symm.trans h
  | ok u s₀ =>
    rw [bind_of_ok hloop] at h
    obtain ⟨hevolves, assigned, hassigns, hawaits⟩ := (assigns_await hg).of_ok hloop
    have hg₀ := hevolves.wellFormed hg
    obtain ⟨hn, hstage⟩ := (saveNode_saveStage b n hg₀).of_ok h
    have hg' : s'.graph.WellFormed := hg₀.of_shape_eq hstage.shape
    have hn' : s'.graph.IsNode n := (isNode_of_shape_eq hstage.shape n).2 hn
    have hdenotes : List.Forall₂ (fun q a => s'.graph.Denotes n q.1 a.1 ∧ a.2 = q.2)
        values assigned :=
      hassigns.imp fun q a ha => ⟨ha.1.grows hg₀ hg' (.of_shape_eq hstage.shape), ha.2⟩
    have hleft : ∀ a ∈ assigned, s'.graph.Ready a.1 ∧
        s'.graph.leftIn assigned a.1 = some (s'.graph.current a.1) := by
      intro a ha
      obtain ⟨q, -, hq⟩ := exists_of_forall₂ hassigns ha
      obtain ⟨m, hm, hc⟩ := hq.mem_columnsOf hg₀
      exact hstage.leftIn_of_awaits hg₀ hawaits ha hm hc
    refine ⟨assigned, assigned.map fun a => s'.graph.current a.1, ?_, ?_, ?_⟩
    · exact hdenotes.imp fun q a ha => ⟨resolveColumn_again b hg' hn' ha.1, ha.2⟩
    · have hpaths : List.Forall₂ (s'.graph.Denotes n) (values.map Prod.fst)
          (assigned.map Prod.fst) := by
        rw [List.forall₂_map_left_iff, List.forall₂_map_right_iff]
        exact hdenotes.imp fun _ _ => And.left
      refine fetchAt_of_ready b hg' hn' hpaths ?_
      rw [List.forall₂_map_left_iff, List.forall₂_map_right_iff, List.forall₂_same]
      exact fun a ha => ⟨(hleft a ha).1, rfl⟩
    · rw [List.forall₂_map_right_iff, List.forall₂_same]
      exact fun a ha => (hleft a ha).2

/-- A column with two values, and a foreign key that was given a value before it is joined by:
the save puts the key of the new row there. -/
theorem fetchAt_of_saveAt_linked :
    let b := Script.backend .standard
    let s := Session.start "t0" "id" .null ⟨[], .noRow, [], [], 0⟩
    let values := [("title", Value.text "a"), ("t1.name", .text "x"), ("title", .text "b"),
      ("t1_id", .integer 9)]
    let s' := (saveAt b root values).after s
    fetchAt b root ["title", "t1.name", "title", "t1_id"] s' =
      .ok [.text "b", .text "x", .text "b", .integer 1] s' := by
  intro b s values s'
  have hs : s.graph.Reachable := reachable_performAll b "t0" "id" .null ⟨[], .noRow, [], [], 0⟩ []
  have hsave : saveAt b root values s = .ok () s' := eq_ok_of_result? (by decide +kernel)
  obtain ⟨assigned, read, -, hfetch, -⟩ := fetchAt_of_saveAt hs hsave
  have hresult : (fetchAt b root ["title", "t1.name", "title", "t1_id"]).result? s' =
      some [.text "b", .text "x", .text "b", .integer 1] := by decide +kernel
  obtain rfl := Option.some.inj ((result?_eq_some.2 ⟨s', hfetch⟩).symm.trans hresult)
  exact hfetch

end Action
end RecordGraph
