import RecordGraph.Proofs.SavedNode

/-!
# Stopped saves

A save that fails stops at a node. The nodes before it are saved, and all others
wait as they did; only the joins to the saved nodes are linked by then, and they
are joins of the nodes above the place where the save stopped.
-/
namespace RecordGraph

namespace Graph

section
variable (g g' : Graph) (m : NodeId)

/-- How a save fails at the node `m`, and the calls that it makes for the node: a value has no
exact literal, and nothing is sent; or the backend fails at the statement, or at the question for
the key of the new row. -/
inductive Fails : Error → List Call → Prop
  | value {c : ColumnId} (hc : c ∈ g.writtenColumns m) (hbad : ¬ (g'.current c).IsWritable) :
    Fails (.invalidValue (g.name c) (g.table m) (g'.current c)) []
  | statement {statement : Statement} {f : Failure}
    (hexec : .exec statement (.ok ()) ∈
      g.saveCalls m (g'.assignments (g.writtenColumns m)) .null) :
    Fails (.statement f) [.exec statement (.error f)]
  | key {statement : Statement} {f : Failure} (hnew : g.IsNew m)
    (hexec : .exec statement (.ok ()) ∈
      g.saveCalls m (g'.assignments (g.writtenColumns m)) .null) :
    Fails (.statement f) [.exec statement (.ok ()), .lastInsertId (.error f)]

/-- The node `m` waits as it did in `g`, while the nodes `saved` were saved: all that is new is
that the joins to them are linked. -/
structure Waits (saved : List NodeId) (m : NodeId) : Prop where
  node : g'.node? m = g.node? m
  keyColumn : ∀ k, g.keyColumn? m = some k → g'.column? k = g.column? k
  isNew : g'.IsNew m ↔ g.IsNew m
  key : g'.key m = g.key m
  columns : ∀ c ∈ g.columnsOf m, g'.column? c = (g.column? c).map fun col =>
    (lastLink? ((g.edgesOf m).filter (·.child ∈ saved)) c).elim col
      fun e => col.assign (g'.key e.child)
  pending : ∀ c ∈ g.columnsOf m, g.IsDirty c → g'.IsDirty c

end

section
variable {g g₁ : Graph} {n m k : NodeId} {x : Edge} {ids : NodeId → Value}
  {before after done : List NodeId} {linked : List Edge}

namespace WellFormed

variable (hg : g.WellFormed)

include hg

/-- The subtree of a node is met as a whole. -/
theorem postOrder_infix (h : g.Below n k) : g.postOrder k <:+: g.postOrder n := by
  induction n using hg.children_induction with
  | h n ih =>
    rcases h.eq_or_child hg with rfl | ⟨x, hx, hxk⟩
    · exact List.infix_rfl
    · rw [hg.postOrder_eq n]
      have hblock : g.postOrder x.child <:+:
          (g.edgesOf n).flatMap fun e => g.postOrder e.child :=
        List.infix_of_mem_flatten (List.mem_map_of_mem hx)
      exact ((ih x hx hxk).trans hblock).trans (List.prefix_append _ _).isInfix

/-- Of two nodes, the one in whose subtree the walk stands is above the other one. -/
theorem below_of_postOrder (hn : g.postOrder n = before ++ m :: after)
    (hkn : g.Below n k) (hx : x ∈ g.edgesBelow k) (hmet : x.child ∈ before) (hk : k ∉ before) :
    g.Below k m := by
  obtain ⟨l, r, hsplit⟩ := hg.postOrder_infix hkn
  have hnodup := hg.postOrder_nodup n
  have hchild : x.child ∈ (g.edgesBelow k).map Edge.child := List.mem_map_of_mem hx
  rw [← hsplit, List.append_assoc] at hn hnodup
  have hleft : x.child ∉ l := fun hl =>
    (List.nodup_append.1 hnodup).2.2 _ hl _ (by simp [postOrder, hchild]) rfl
  -- the subtree of `k` begins before the place of `m`, and ends behind it
  obtain ⟨t, rfl, ht⟩ | ⟨t, rfl, -⟩ := List.append_eq_append_iff.1 hn
  · rw [postOrder, List.append_assoc, List.singleton_append] at ht
    have hne : ∀ j ∈ t, j ≠ k := by
      rintro j hj rfl
      exact hk (List.mem_append_right _ hj)
    rcases eq_or_append_of_split ht.symm hne (not_not.2 rfl) with ⟨-, rfl⟩ | ⟨u, hu⟩
    · exact .refl g _
    · refine hg.mem_postOrder.1 (List.mem_append_left _ ?_)
      rw [hu]
      simp
  · exact absurd (List.mem_append_left t hmet) hleft

/-- Amid a walk, a node that was not met with a join to one that was is above the place where the
walk stands. -/
theorem below_of_met (hlinked : linked <+: g.edgesBelow n)
    (hn : g.postOrder n = linked.map Edge.child ++ m :: after) (hx : x ∈ g.edgesOf k)
    (hmet : x.child ∈ linked.map Edge.child) (hk : k ∉ linked.map Edge.child) :
    g.Below n k ∧ g.Below k m := by
  obtain ⟨d, hd, hdx⟩ := List.mem_map.1 hmet
  obtain ⟨hedge, hbelow⟩ := hg.edge_of_mem_edgesBelow (hlinked.subset hd)
  obtain rfl := hg.edgesOf_child_inj hedge hx hdx
  obtain ⟨-, -, rfl, -⟩ := hg.edge_of_mem hx
  have hown : d ∈ g.edgesBelow d.parent := by
    rw [← hg.edgesBelow_filter_parent (.refl g d.parent)] at hx
    exact List.mem_of_mem_filter hx
  exact ⟨hbelow, hg.below_of_postOrder hn hbelow hown hmet hk⟩

/-- Amid a walk, the joins of a node that were met are those to the nodes that were met. -/
theorem filter_prefix (hlinked : linked <+: g.edgesBelow n) (k : NodeId) :
    linked.filter (·.parent = k) =
      (g.edgesOf k).filter (·.child ∈ linked.map Edge.child) := by
  obtain ⟨rest, hrest⟩ := hlinked
  by_cases hk : g.Below n k
  · have hnodup := hg.edgesBelow_children_nodup n
    rw [← hrest, List.map_append, List.nodup_append] at hnodup
    have hmet : linked.filter (·.child ∈ linked.map Edge.child) = linked := by
      refine List.filter_eq_self.2 fun d hd => decide_eq_true (List.mem_map_of_mem hd)
    have hlater : rest.filter (·.child ∈ linked.map Edge.child) = [] := by
      refine List.filter_eq_nil_iff.2 fun d hd hmem => ?_
      exact hnodup.2.2 _ (of_decide_eq_true hmem) _ (List.mem_map_of_mem hd) rfl
    rw [← hg.edgesBelow_filter_parent hk, ← hrest, List.filter_comm, List.filter_append, hmet,
      hlater, List.append_nil]
  · have hnot {d : Edge} (hd : d ∈ linked) : d.parent ≠ k := by
      rintro rfl
      exact hk (hg.edge_of_mem_edgesBelow (hrest ▸ List.mem_append_left _ hd)).2
    rw [List.filter_eq_nil_iff.2 fun d hd => by simpa using hnot hd, eq_comm,
      List.filter_eq_nil_iff]
    intro e he hmem
    obtain ⟨d, hd, hchild⟩ := List.mem_map.1 (of_decide_eq_true hmem)
    obtain ⟨hedge, -⟩ := hg.edge_of_mem_edgesBelow (hrest ▸ List.mem_append_left _ hd)
    obtain rfl := hg.edgesOf_child_inj hedge he hchild
    obtain ⟨-, -, hparent, -⟩ := hg.edge_of_mem he
    exact hnot hd hparent

end WellFormed

/-- A node that was not written waits. -/
theorem Cascade.waits (h : Cascade g ids done linked g₁) (hg : g.WellFormed)
    (hlinked : linked <+: g.edgesBelow n) (hdone : done = linked.map Edge.child)
    (hm : m ∉ done) (hnode : g₁.node? m = g.node? m) : g.Waits g₁ done m := by
  have hkeyColumn {k : ColumnId} (hk : g.keyColumn? m = some k) : g₁.column? k = g.column? k :=
    h.waitingKey hm hk
  have hcolumn {c : ColumnId} (hc : c ∈ g.columnsOf m) : g₁.column? c =
      (g.column? c).map fun col => (lastLink? ((g.edgesOf m).filter (·.child ∈ done)) c).elim col
        fun e => col.assign (g₁.key e.child) := by
    rw [h.waiting hm hc, hdone, ← hg.filter_prefix hlinked, lastLink?_filter]
    intro e he hfk
    obtain ⟨-, -, -, hmem, -⟩ := hg.edge_of_mem (h.linked he).2
    simpa using hg.eq_of_mem_columnsOf hmem (hfk ▸ hc)
  exact {
    node := hnode
    keyColumn := fun k hk => hkeyColumn hk
    isNew := by
      cases hk : g.keyColumn? m with
      | none => rw [IsNew, IsNew, h.keyColumn?_eq, hk]; rfl
      | some k => rw [IsNew, IsNew, h.keyColumn?_eq, hk, Option.bind_some, Option.bind_some,
          hkeyColumn hk]
    key := by
      cases hk : g.keyColumn? m with
      | none => rw [Graph.key, Graph.key, h.keyColumn?_eq, hk]; rfl
      | some k => rw [key_eq hk, key_eq ((h.keyColumn?_eq m).trans hk), current, hkeyColumn hk,
          current]
    columns := fun c hc => hcolumn hc
    pending := fun c hc hdirty => by
      obtain ⟨col, hcol, -⟩ := column?_of_owner (hg.column hc).1
      rw [IsDirty, hcol] at hdirty
      rw [IsDirty, hcolumn hc, hcol]
      cases lastLink? ((g.edgesOf m).filter (·.child ∈ done)) c with
      | none => exact hdirty
      | some e => rfl }

end
end Graph

namespace Action

open RecordGraph.Graph

variable {σ : Type} (b : Backend σ) {s s' s₁ : Session σ} {n m : NodeId} {e : Error}
  {done : List NodeId} {linked : List Edge}

/-- The session after a save of `n` that failed at `m`, when the nodes `before` were saved with the
generated keys `ids`. -/
structure Stopped (s : Session σ) (n : NodeId) (e : Error) (s' : Session σ)
    (ids : NodeId → Value) (before : List NodeId) (m : NodeId) : Prop where
  order : ∃ after, s.graph.postOrder n = before ++ m :: after
  stops : m ∉ before
  calls : ∃ last, s.graph.Fails s'.graph m e last ∧ s'.calls =
    s.calls ++ s.graph.sentCalls s'.graph ids before ++ last.map fun call => (m, call)
  saved : ∀ k ∈ before, s.graph.Saved s'.graph k (ids k)
  waiting : ∀ k, k ∉ before → s.graph.Waits s'.graph before k
  linked : ∀ k, k ∉ before → ∀ x ∈ s.graph.edgesOf k, x.child ∈ before →
    s.graph.Below n k ∧ s.graph.Below k m
  unchanged : ∀ k, k ∉ s.graph.postOrder n → s.graph.Unchanged s'.graph k
  shape : s'.graph.shape = s.graph.shape

/-- The node at which a save stops fails, and is not changed by it. -/
theorem SaveStage.fails (h : SaveStage b s done linked s₁) (hg : s.graph.WellFormed)
    (hm : s.graph.IsNode m) (hnew : m ∉ done)
    (hlinks : linked.filter (·.parent = m) = s.graph.edgesOf m)
    (hfails : writeNode b m s₁ = .error e s') : s'.graph = s₁.graph ∧
      ∃ last, s.graph.Fails s'.graph m e last ∧
        s'.calls = s₁.calls ++ last.map fun call => (m, call) := by
  obtain ⟨⟨ids, hcascade, -, -⟩, -⟩ := h.stage
  have hdirty := hcascade.dirtyColumns_next hg hnew hlinks
  rcases (writeNode_ends b m).of_error hfails with ⟨rfl, a, ha, hbad, rfl⟩ | ⟨-, hgraph, hbreaks⟩
  · rw [hdirty] at ha
    obtain ⟨c, hc, rfl⟩ := List.mem_map.1 ha
    refine ⟨rfl, [], ?_, (List.append_nil _).symm⟩
    have htable : s'.graph.table m = s.graph.table m := table_of_shape_eq hcascade.shape m
    rw [hcascade.name_eq, htable]
    exact .value hc hbad
  · obtain ⟨statement, f, calls, hexec, rfl, hcalls, -, hkind⟩ := hbreaks
    rw [hcascade.writeCalls_next hg hnew hlinks hm, ← hcascade.assignments_next hg hnew hlinks,
      ← hgraph] at hexec
    refine ⟨hgraph, calls, ?_, hcalls⟩
    rcases hkind with rfl | ⟨hisNew, rfl⟩
    · exact .statement hexec
    · exact .key ((hcascade.isNew_next hg hm hnew).1 hisNew) hexec

/-- A save that fails stops at a node of the subtree. It makes the calls of the nodes before it
and then, unless a value is refused, calls for it of which the last one failed. The nodes before
are saved; all others wait as before, with the joins to the saved nodes linked. -/
theorem saveNode_stops (hs : s.graph.Reachable) (hn : s.graph.IsNode n)
    (h : saveNode b n s = .error e s') : ∃ ids before m, Stopped s n e s' ids before m := by
  have hg := hs.wellFormed
  rcases (saveNode_saveStage b n hg).of_error h with ⟨hno, -⟩ | ⟨-, m, linked, rest, s₁,
    hwalk, hsplit, hlinks, hstage, hfails⟩
  · exact absurd hn hno
  have hm : m ∉ linked.map Edge.child := by
    have hnodup := hg.postOrder_nodup n
    rw [hsplit, List.nodup_append] at hnodup
    exact fun hmem => hnodup.2.2 m hmem m (by simp) rfl
  have hmNode := hg.isNode_of_mem_postOrder hn (by simp [hsplit] : m ∈ s.graph.postOrder n)
  obtain ⟨hgraph, last, hlast, hcalls⟩ := hstage.fails b hg hmNode hm hlinks hfails
  obtain ⟨ids, hsent, hsaved⟩ := hstage.saved hg
  obtain ⟨⟨_, hcascade, -, -⟩, -⟩ := hstage.stage
  refine ⟨ids, linked.map Edge.child, m, {
    order := ⟨rest, hsplit⟩
    stops := hm
    calls := ⟨last, hlast, by rw [hcalls, hsent, hgraph]⟩
    saved := hgraph ▸ hsaved
    waiting := fun k hk => ?_
    linked := fun k hk x hx hmet => hg.below_of_met hwalk hsplit hx hmet hk
    unchanged := fun k hk => ?_
    shape := hgraph ▸ hcascade.shape }⟩
  · rw [hgraph]
    exact hcascade.waits hg hwalk rfl hk ((hstage.node k).trans (if_neg fun hmem => hk hmem.1))
  · rw [hgraph]
    refine hstage.unchanged hg (fun hmem => hk (by simp [hsplit, hmem])) ?_
    rintro d hd rfl
    exact hk (hg.mem_postOrder_of_below (hg.edge_of_mem_edgesBelow (hwalk.subset hd)).2)

/-- The second of two new rows is inserted, but the key of it is not told: it is new as before,
and its value waits. -/
theorem saveNode_stops_untold :
    let b := Script.backend .standard
    let s := (Session.start "t0" "id" .null
        ⟨[], .noRow, [], [.key (.integer 1), .failure "locked"], 0⟩).performAll b
      [.resolveColumn root "t1.title", .setValue ⟨3⟩ (.text "x"), .resolveColumn root "note",
        .setValue ⟨4⟩ (.text "y")]
    let s' := (saveNode b root).after s
    (∃ ids e, Stopped s root e s' ids [⟨1⟩] root) ∧ s'.calls.length = 4 ∧
      s'.graph.IsNew root ∧ s'.graph.IsDirty ⟨4⟩ := by
  intro b s s'
  have hs : s.graph.Reachable := reachable_performAll b "t0" "id" .null _ _
  have hroot : s.graph.IsNode root := by
    show 0 < s.graph.nodes.size
    decide +kernel
  have hresult : (saveNode b root).result? s = none := by decide +kernel
  obtain ⟨e, hsave⟩ := exists_error_of_result? hresult
  obtain ⟨ids, before, m, h⟩ := saveNode_stops b hs hroot hsave
  have horder : s.graph.postOrder root = [⟨1⟩, root] := by decide +kernel
  have hnew : s.graph.IsNew ⟨1⟩ ∧ ¬ s'.graph.IsNew ⟨1⟩ := by decide +kernel
  have hmem : ⟨1⟩ ∈ before := by
    by_contra hnot
    exact hnew.2 ((h.waiting _ hnot).isNew.2 hnew.1)
  obtain ⟨after, hsplit⟩ := h.order
  rw [horder] at hsplit
  obtain ⟨rfl, rfl⟩ : before = [⟨1⟩] ∧ m = root := by
    match before, hmem with
    | [k], _ =>
      obtain ⟨rfl, hrest⟩ := List.cons.inj hsplit
      exact ⟨rfl, (List.cons.inj hrest).1.symm⟩
    | k :: j :: before, _ => simp at hsplit
  have hwaits := h.waiting root h.stops
  refine ⟨⟨ids, e, h⟩, by decide +kernel, hwaits.isNew.2 (by decide +kernel), ?_⟩
  exact hwaits.pending _ (by decide +kernel) (by decide +kernel)

end Action
end RecordGraph
