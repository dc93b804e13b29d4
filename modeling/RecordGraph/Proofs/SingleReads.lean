import Mathlib.Data.Finset.Card
import RecordGraph.Proofs.Histories

/-!
# Values are read once

A value is selected while its node is stale, and a selection makes the node fresh. So a fetch
makes at most one selection for each join that it registers, and one for each row that its paths
lead to; fetching once more finds every value where it is.
-/
namespace RecordGraph

/-- The joins that well-formed paths follow, each way to a row once. -/
def destinations (paths : List String) : Finset (List Hop) :=
  (paths.filterMap fun path => (ColumnPath.parse path).toOption.map ColumnPath.hops).toFinset

namespace Graph

section
variable (g : Graph)

/-- The nodes that some columns belong to. -/
def owners (columns : List ColumnId) : Finset NodeId := (columns.filterMap g.owner?).toFinset

/-- The nodes among some that a value would read. -/
def staleAmong (nodes : Finset NodeId) : Finset NodeId := nodes.filter fun n => ¬ g.IsFresh n

/-- A value of the column is given without a read. -/
def Ready (c : ColumnId) : Prop := ∃ n, c ∈ g.columnsOf n ∧ (g.IsDirty c ∨ g.IsFresh n)

/-- The columns that are ready stay ready with their values. -/
structure KeepsReady (g' : Graph) : Prop where
  shape : g'.shape = g.shape
  ready : ∀ c, g.Ready c → g'.Ready c ∧ g'.current c = g.current c
  fresh : ∀ n, g.IsFresh n → g'.IsFresh n

end

variable {g g' g'' : Graph} {n : NodeId} {paths : List String} {columns : List ColumnId}

theorem KeepsReady.refl (g : Graph) : g.KeepsReady g := ⟨rfl, fun _ h => ⟨h, rfl⟩, fun _ h => h⟩

theorem KeepsReady.trans (h : g.KeepsReady g') (h' : g'.KeepsReady g'') : g.KeepsReady g'' where
  shape := h'.shape.trans h.shape
  ready c hc := by
    obtain ⟨hc', hcurrent⟩ := h.ready c hc
    obtain ⟨hc'', hcurrent'⟩ := h'.ready c hc'
    exact ⟨hc'', hcurrent'.trans hcurrent⟩
  fresh n hn := h'.fresh n (h.fresh n hn)

theorem mem_staleAmong {nodes : Finset NodeId} :
    n ∈ g.staleAmong nodes ↔ n ∈ nodes ∧ ¬ g.IsFresh n := Finset.mem_filter

theorem KeepsReady.staleAmong_subset (h : g.KeepsReady g') (nodes : Finset NodeId) :
    g'.staleAmong nodes ⊆ g.staleAmong nodes := by
  intro n hn
  obtain ⟨hmem, hstale⟩ := mem_staleAmong.1 hn
  exact mem_staleAmong.2 ⟨hmem, fun hfresh => hstale (h.fresh n hfresh)⟩

/-- A node that is read is stale no more. -/
theorem KeepsReady.card_staleAmong_lt {nodes : Finset NodeId} (h : g.KeepsReady g')
    (hn : n ∈ nodes) (hstale : ¬ g.IsFresh n) (hfresh : g'.IsFresh n) :
    (g'.staleAmong nodes).card < (g.staleAmong nodes).card := by
  apply Finset.card_lt_card
  refine (Finset.ssubset_iff_of_subset (h.staleAmong_subset nodes)).2 ⟨n, ?_, fun hmem => ?_⟩
  · exact mem_staleAmong.2 ⟨hn, hstale⟩
  · exact (mem_staleAmong.1 hmem).2 hfresh

/-- Different joins lead to different rows, so there are as many rows as ways to them. -/
theorem WellFormed.card_destinations (hg : g.WellFormed)
    (h : List.Forall₂ (g.Denotes n) paths columns) :
    (destinations paths).card = (g.owners columns).card := by
  have himage : (destinations paths).image (g.descend n) = (g.owners columns).image some := by
    induction h with
    | nil => rfl
    | @cons path c paths columns hdenotes _ ih =>
      obtain ⟨p, hp, hlocate⟩ := hdenotes
      obtain ⟨m, hm, hfind⟩ := locate_eq_some.1 hlocate
      rw [ColumnPath.flatten_eq] at hm
      have howner : g.owner? c = some m := (hg.column (hg.findColumn?_mem hfind).1).1
      have hpaths : destinations (path :: paths) = insert p.hops (destinations paths) := by
        rw [destinations, List.filterMap_cons, hp]
        exact List.toFinset_cons
      have hcolumns : g.owners (c :: columns) = insert m (g.owners columns) := by
        rw [owners, List.filterMap_cons, howner]
        exact List.toFinset_cons
      rw [hpaths, hcolumns, Finset.image_insert, Finset.image_insert, ih, hm]
  have hinj : Set.InjOn (g.descend n) (destinations paths) := by
    intro hops hhops hops' _ heq
    obtain ⟨m, -, hm⟩ := Finset.mem_image.1 (himage ▸ Finset.mem_image_of_mem (g.descend n) hhops)
    exact hg.descend_inj hm.symm (heq ▸ hm.symm)
  rw [← Finset.card_image_of_injOn hinj, himage,
    Finset.card_image_of_injective _ (Option.some_injective _)]

end Graph

namespace Action

open Session

variable {σ α β : Type} (b : Backend σ) {s s' : Session σ} {n : NodeId} {c : ColumnId}

/-! ## Counting -/

theorem length_queries_query {g : Graph} {state : σ} {q : Statement}
    {answer : Except Failure (Option Row)} :
    (⟨g, state, s.calls ++ [(n, .query q answer)]⟩ : Session σ).queries.length =
      s.queries.length + 1 := by
  simp [queries, Call.asksRow]

/-- A read makes its node fresh, by one selection at most, and touches no column but those that
it selects. -/
theorem fetchNode_counts (n : NodeId) : (fetchNode b n).Ends s
    (fun _ s' => s'.queries.length ≤ s.queries.length + 1 ∧
      (∀ m, s'.graph.IsFresh m ↔ m = n ∨ s.graph.IsFresh m) ∧
      ∀ d, d ∉ s.graph.cleanColumns n → s'.graph.column? d = s.graph.column? d)
    (fun _ s' => s'.queries.length ≤ s.queries.length + 1 ∧ s'.graph = s.graph) := by
  have hfresh {g : Graph} (hn : g.IsNode n) (m : NodeId) :
      (g.setFresh n true).IsFresh m ↔ m = n ∨ g.IsFresh m := by
    rw [Graph.isFresh_setFresh]
    split
    · next h => simp [← h, hn]
    · next h => simp [Ne.symm h]
  refine (ends_fetchNode b).2 ⟨fun _ => ⟨by omega, rfl⟩,
    fun hn _ => ⟨Nat.le_succ _, hfresh hn, fun _ _ => rfl⟩, fun hn _ _ =>
      ⟨fun row state _ => ⟨length_queries_query.le, fun m => ?_, fun d hd => ?_⟩,
        fun _ _ => ⟨length_queries_query.le, rfl⟩, fun _ _ _ => ⟨length_queries_query.le, rfl⟩⟩⟩
  · have hn' : (s.graph.settleRow (s.graph.cleanColumns n) row).IsNode n := by
      rwa [← Graph.node?_isSome, Graph.node?_settleRow, Graph.node?_isSome]
    rw [hfresh hn', Graph.IsFresh, Graph.node?_settleRow, Graph.IsFresh]
  · change (s.graph.settleRow (s.graph.cleanColumns n) row).column? d = _
    rw [Graph.column?_settleRow, if_neg hd]

/-- A value is given at once, or its node was stale and is fresh after one selection at most. -/
theorem value_counts (hg : s.graph.WellFormed) (hc : c ∈ s.graph.columnsOf n) :
    (value b c).Ends s
      (fun v s' => (s.graph.KeepsReady s'.graph ∧ s'.graph.Ready c ∧ v = s'.graph.current c) ∧
        (s'.queries.length ≤ s.queries.length ∨ ¬ s.graph.IsFresh n ∧ s'.graph.IsFresh n ∧
          s'.queries.length ≤ s.queries.length + 1))
      (fun _ s' => ¬ s.graph.IsFresh n ∧ s'.queries.length ≤ s.queries.length + 1 ∧
        s'.graph = s.graph) := by
  refine (ends_value b hg hc).2 ⟨fun hdirty => ⟨⟨.refl _, ⟨n, hc, .inl hdirty⟩, rfl⟩, .inl le_rfl⟩,
    fun _ hfresh => ⟨⟨.refl _, ⟨n, hc, .inr hfresh⟩, rfl⟩, .inl le_rfl⟩, fun _ hstale => ?_⟩
  refine ((fetchNode_counts b n).and (fetchNode_revalues b n)).mono (fun _ s' hs' => ?_)
    (fun _ s' hs' => ⟨hstale, hs'.1.1, hs'.1.2⟩)
  obtain ⟨⟨hqueries, hfresh, hcolumns⟩, hevolves, hshape⟩ := hs'
  have hn : s'.graph.IsFresh n := (hfresh n).2 (.inl rfl)
  have hmem (m : NodeId) : s'.graph.columnsOf m = s.graph.columnsOf m :=
    Graph.columnsOf_of_shape_eq hshape m
  refine ⟨⟨⟨hshape, fun d hd => ?_, fun m hm => (hfresh m).2 (.inr hm)⟩,
    ⟨n, (hmem n).symm ▸ hc, .inr hn⟩, rfl⟩, .inr ⟨hstale, hn, hqueries⟩⟩
  -- a column that was ready is not among those that are selected
  obtain ⟨m, hd, hready⟩ := hd
  have hcolumn : s'.graph.column? d = s.graph.column? d := by
    refine hcolumns d fun hclean => ?_
    obtain ⟨hdn, hnot⟩ := List.mem_filter.1 hclean
    obtain rfl := hg.eq_of_mem_columnsOf hd hdn
    rcases hready with hdirty | hfresh
    · exact (of_decide_eq_true hnot) hdirty
    · exact hstale hfresh
  refine ⟨⟨m, (hmem m).symm ▸ hd, ?_⟩, by rw [Graph.current, hcolumn, Graph.current]⟩
  rw [Graph.IsDirty, hcolumn]
  exact hready.imp id fun hm => (hfresh m).2 (.inr hm)

/-- Of some stale nodes one is fresh after each selection. -/
theorem value_counts_among {nodes : Finset NodeId} (hg : s.graph.WellFormed)
    (hc : c ∈ s.graph.columnsOf n) (hn : n ∈ nodes) : (value b c).Ends s
      (fun v s' => s'.queries.length + (s'.graph.staleAmong nodes).card ≤
          s.queries.length + (s.graph.staleAmong nodes).card ∧
        s.graph.KeepsReady s'.graph ∧ s'.graph.Ready c ∧ v = s'.graph.current c)
      (fun _ s' => s'.queries.length ≤ s.queries.length + (s.graph.staleAmong nodes).card ∧
        s'.graph = s.graph) := by
  refine (value_counts b hg hc).mono (fun v s' hs' => ?_) (fun _ s' hs' => ?_)
  · obtain ⟨⟨hkeep, hvalue⟩, hqueries⟩ := hs'
    refine ⟨?_, hkeep, hvalue⟩
    rcases hqueries with hqueries | ⟨hstale, hfresh, hqueries⟩
    · have hcard := Finset.card_le_card (hkeep.staleAmong_subset nodes)
      omega
    · have hcard := hkeep.card_staleAmong_lt hn hstale hfresh
      omega
  · obtain ⟨hstale, hqueries, hgraph⟩ := hs'
    have hcard : 0 < (s.graph.staleAmong nodes).card :=
      Finset.card_pos.2 ⟨n, Graph.mem_staleAmong.2 ⟨hn, hstale⟩⟩
    exact ⟨by omega, hgraph⟩

/-- The values of some columns are selected once for each stale node that they belong to. -/
theorem values_count {columns : List ColumnId} (hg : s.graph.WellFormed)
    (hcolumns : ∀ c ∈ columns, ∃ n, c ∈ s.graph.columnsOf n) :
    (columns.mapM (value b)).Ends s
      (fun values s' => s'.queries.length ≤ s.queries.length + (s.graph.owners columns).card ∧
        s.graph.KeepsReady s'.graph ∧
        List.Forall₂ (fun c v => s'.graph.Ready c ∧ v = s'.graph.current c) columns values)
      (fun _ s' => s'.queries.length ≤ s.queries.length + (s.graph.owners columns).card ∧
        s'.graph.edges = s.graph.edges) := by
  set nodes := s.graph.owners columns
  have hstale : (s.graph.staleAmong nodes).card ≤ nodes.card := Finset.card_filter_le _ _
  have hloop : (columns.mapM (value b)).Ends s
      (fun values s' => (s.graph.KeepsReady s'.graph ∧
          s'.queries.length + (s'.graph.staleAmong nodes).card ≤
            s.queries.length + nodes.card) ∧ s.graph.KeepsReady s'.graph ∧
        List.Forall₂ (fun c v => s'.graph.Ready c ∧ v = s'.graph.current c) columns values)
      (fun _ s' => s'.queries.length ≤ s.queries.length + nodes.card ∧
        s'.graph.edges = s.graph.edges) := by
    refine ends_mapM_forall₂ (fun s' => s.graph.KeepsReady s'.graph ∧ _)
      (fun s₁ s₂ => s₁.graph.KeepsReady s₂.graph)
      (fun c v s₁ => s₁.graph.Ready c ∧ v = s₁.graph.current c) (fun _ => .refl _)
      (fun _ _ _ => .trans) ?_ ?_ ⟨.refl _, by omega⟩
    · rintro c v s₁ s₂ - - hkeep ⟨hready, rfl⟩
      obtain ⟨hready', hcurrent⟩ := hkeep.ready c hready
      exact ⟨hready', hcurrent.symm⟩
    · rintro c hc s₁ ⟨hkeep, hcount⟩
      obtain ⟨n, hn⟩ := hcolumns c hc
      have hn₁ : c ∈ s₁.graph.columnsOf n := by rwa [Graph.columnsOf_of_shape_eq hkeep.shape]
      have howner : n ∈ nodes :=
        List.mem_toFinset.2 (List.mem_filterMap.2 ⟨c, hc, (hg.column hn).1⟩)
      refine (value_counts_among b (hg.of_shape_eq hkeep.shape) hn₁ howner).mono
        (fun v s₂ h₂ => ?_) (fun _ s₂ h₂ => ?_)
      · obtain ⟨hqueries, hkeep', hvalue⟩ := h₂
        exact ⟨⟨hkeep.trans hkeep', by omega⟩, hkeep', hvalue⟩
      · obtain ⟨hqueries, hgraph⟩ := h₂
        exact ⟨by omega, by rw [hgraph, Graph.edges_of_shape_eq hkeep.shape]⟩
  refine hloop.mono (fun values s' hs' => ?_) (fun _ _ => id)
  obtain ⟨⟨-, hcount⟩, hkeep, hvalues⟩ := hs'
  exact ⟨by omega, hkeep, hvalues⟩

/-- Of the selections on a path, each but a last one that fails is followed by a join. -/
theorem explores_counts : Explores b
    (fun s s' => s.graph.Evolves s'.graph ∧
      s'.queries.length + s.graph.edges.size ≤ s.queries.length + s'.graph.edges.size)
    (fun _ s s' =>
      s'.queries.length + s.graph.edges.size ≤ s.queries.length + s'.graph.edges.size + 1) where
  refl s := ⟨.refl _, le_rfl⟩
  trans _ h h' := ⟨h.1.trans h'.1, by omega⟩
  stops _ h h' := by omega
  halts e s := Nat.le_succ _
  evolves h := h.1
  column hg hn hnew := ⟨(Graph.Step.column hn hnew).evolves, le_rfl⟩
  join {s n fk} table childColumn hg hfk := by
    refine joinFrom_cases b hg hfk (fun _ _ => ⟨.refl _, le_rfl⟩) fun _ => ?_
    refine ((value_counts b hg hfk).and (value_revalues b fk)).mono
      (fun key s' hs' _ hfk' hfind => ?_) (fun _ s' hs' => ?_)
    · obtain ⟨⟨-, hqueries⟩, hevolves, hshape⟩ := hs'
      have hedges := Graph.edges_of_shape_eq hshape
      have hsize : (s'.graph.withChild n fk table childColumn key).edges.size =
          s.graph.edges.size + 1 := by
        rw [← hedges]
        exact Array.size_push ..
      refine ⟨hevolves.trans (Graph.Step.child key hfk' hfind).evolves, ?_⟩
      change s'.queries.length + s.graph.edges.size ≤
        s.queries.length + (s'.graph.withChild n fk table childColumn key).edges.size
      omega
    · obtain ⟨⟨-, hqueries, hgraph⟩, -⟩ := hs'
      rw [hgraph]
      omega

theorem destinations_card_pos {path : String} {paths : List String} {p : ColumnPath}
    (hpath : path ∈ paths) (hp : ColumnPath.parse path = .ok p) :
    0 < (destinations paths).card := by
  refine Finset.card_pos.2 ⟨p.hops, List.mem_toFinset.2 (List.mem_filterMap.2 ⟨path, hpath, ?_⟩)⟩
  rw [hp]
  rfl

/-- Resolving some paths fails on a selection only if one of them leads somewhere. -/
theorem resolveColumns_count (n : NodeId) (paths : List String) (hg : s.graph.WellFormed) :
    (paths.mapM (resolveColumn b n)).Ends s
      (fun columns s' => (s.graph.Evolves s'.graph ∧
          s'.queries.length + s.graph.edges.size ≤ s.queries.length + s'.graph.edges.size) ∧
        s.graph.Evolves s'.graph ∧ List.Forall₂ (s'.graph.Denotes n) paths columns)
      (fun _ s' => s'.queries.length + s.graph.edges.size ≤
        s.queries.length + s'.graph.edges.size + (destinations paths).card) := by
  refine ends_mapM_forall₂ (fun s' => s.graph.Evolves s'.graph ∧ _)
    (fun s₁ s₂ => s₁.graph.Evolves s₂.graph) (fun path c s₁ => s₁.graph.Denotes n path c)
    (fun _ => .refl _) (fun _ _ _ => .trans) ?_ ?_ ⟨.refl _, le_rfl⟩
  · rintro path c s₁ s₂ ⟨h₁, -⟩ - hevolves hdenotes
    have hg₁ := h₁.wellFormed hg
    exact hdenotes.grows hg₁ (hevolves.wellFormed hg₁) (hevolves.grows hg₁)
  · rintro path hpath s₁ ⟨h₁, hcount⟩
    have hg₁ := h₁.wellFormed hg
    have hfails : (resolveColumn b n path).Ends s₁ (fun _ _ => True) (fun _ s' =>
        s'.queries.length + s.graph.edges.size ≤
          s.queries.length + s'.graph.edges.size + (destinations paths).card) := by
      refine (ends_resolveColumn b).2 ⟨fun _ => by omega, fun hn => ⟨fun _ _ => by omega,
        fun p hp => ((explores_counts b).registerColumn p hg₁ hn).mono (fun _ _ _ => trivial)
          fun _ s' hs' => ?_⟩⟩
      have hpos := destinations_card_pos hpath hp
      omega
    refine (((explores_counts b).resolveColumn n path hg₁).and
      ((resolveColumn_ends b n path hg₁).and hfails)).mono (fun c s₂ h₂ => ?_)
      (fun _ _ h₂ => h₂.2.2)
    obtain ⟨⟨hevolves, hqueries⟩, ⟨-, hdenotes⟩, -⟩ := h₂
    exact ⟨⟨h₁.trans hevolves, by omega⟩, hevolves, hdenotes⟩

/-- A fetch makes no more selections than it registers joins and reads rows, and it leaves the
values of its columns ready. -/
theorem fetchAt_counts (n : NodeId) (paths : List String) (hg : s.graph.WellFormed) :
    (fetchAt b n paths).Ends s
      (fun values s' => (s'.queries.length + s.graph.edges.size ≤
          s.queries.length + s'.graph.edges.size + (destinations paths).card) ∧
        s'.graph.WellFormed ∧ s'.graph.IsNode n ∧ ∃ columns,
          List.Forall₂ (s'.graph.Denotes n) paths columns ∧
          List.Forall₂ (fun c v => s'.graph.Ready c ∧ v = s'.graph.current c) columns values)
      (fun _ s' => s'.queries.length + s.graph.edges.size ≤
        s.queries.length + s'.graph.edges.size + (destinations paths).card) := by
  rw [fetchAt, ends_bind, ends_requireNode]
  refine ⟨fun node hnode => ends_bind.2 ?_, fun _ => by omega⟩
  have hn := Graph.node?_eq_some hnode
  refine (resolveColumns_count b n paths hg).mono (fun columns s₁ h₁ => ?_) (fun _ _ => id)
  obtain ⟨⟨hevolves, hcount⟩, -, hdenotes⟩ := h₁
  have hg₁ := hevolves.wellFormed hg
  have hcolumns : ∀ c ∈ columns, ∃ m, c ∈ s₁.graph.columnsOf m := by
    intro c hc
    obtain ⟨path, -, p, -, hlocate⟩ := exists_of_forall₂ hdenotes hc
    obtain ⟨m, -, hfind⟩ := Graph.locate_eq_some.1 hlocate
    exact ⟨m, (hg₁.findColumn?_mem hfind).1⟩
  have hcard := hg₁.card_destinations hdenotes
  refine (values_count b hg₁ hcolumns).mono (fun values s₂ h₂ => ?_) (fun _ s₂ h₂ => ?_)
  · obtain ⟨hqueries, hkeep, hvalues⟩ := h₂
    have hedges := Graph.edges_of_shape_eq hkeep.shape
    have hg₂ := hg₁.of_shape_eq hkeep.shape
    refine ⟨by rw [hedges]; omega, hg₂, ?_, columns, ?_, hvalues⟩
    · rw [Graph.isNode_of_shape_eq hkeep.shape]
      exact ((hevolves.grows hg).node hn).1
    · exact hdenotes.imp fun _ _ h => h.grows hg₁ hg₂ (.of_shape_eq hkeep.shape)
  · obtain ⟨hqueries, hedges⟩ := h₂
    rw [hedges]
    omega

/-! ## Fetching again -/

theorem value_of_ready (hg : s.graph.WellFormed) (hc : s.graph.Ready c) :
    value b c s = .ok (s.graph.current c) s := by
  obtain ⟨n, hmem, hready⟩ := hc
  refine Ends.eq_ok ((ends_value b hg hmem).2 ⟨fun _ => ⟨rfl, rfl⟩, fun _ _ => ⟨rfl, rfl⟩,
    fun hclean hstale => ?_⟩)
  exact (hready.elim hclean hstale).elim

/-- Columns that are registered and ready are fetched without a change. -/
theorem fetchAt_of_ready {paths : List String} {columns : List ColumnId} {values : List Value}
    (hg : s.graph.WellFormed) (hn : s.graph.IsNode n)
    (hdenotes : List.Forall₂ (s.graph.Denotes n) paths columns)
    (hvalues : List.Forall₂ (fun c v => s.graph.Ready c ∧ v = s.graph.current c) columns values) :
    fetchAt b n paths s = .ok values s := by
  obtain ⟨node, hnode⟩ := hn.exists
  have hcolumns : paths.mapM (resolveColumn b n) s = .ok columns s :=
    mapM_of_forall₂ (hdenotes.imp fun _ _ => resolveColumn_again b hg hn)
  rw [fetchAt, requireNode_bind hnode, bind_of_ok hcolumns]
  refine mapM_of_forall₂ (hvalues.imp fun c v hv => ?_)
  rw [hv.2]
  exact value_of_ready b hg hv.1

end Action

namespace Session

variable {σ : Type} (b : Backend σ) {table keyName : String} {key : Value} {state : σ}

open RecordGraph.Action in
/-- Every run has a history of events, and in each of its histories a value asks for a node again
only if a column was registered on the node or forgotten since it was selected. So a fetch makes at
most as many selections as it registers joins and its paths lead to rows, of which there are as
many as owners of the columns; after it succeeded, the same fetch gives the same values and leaves
the session as it is. -/
theorem performAll_reads_once (operations : List Operation) :
    let s := (start table keyName key state).performAll b operations
    (∃ events, Histories b (start table keyName key state) operations events s) ∧
    (∀ events, Histories b (start table keyName key state) operations events s →
      s.queries = events.filterMap Event.query? ∧
      ∀ before lazy n q row between q' answer after,
        events = before ++ .select lazy n q (.ok (some row)) :: (between ++
          .select true n q' answer :: after) → ∃ e ∈ between, e.Stales n) ∧
    ∀ n paths, let s' := (fetchAt b n paths).after s
      (s'.queries.length + s.graph.edges.size ≤
        s.queries.length + s'.graph.edges.size + (destinations paths).card) ∧
      ∀ values, fetchAt b n paths s = .ok values s' →
        (∃ columns, List.Forall₂ (s'.graph.Denotes n) paths columns ∧
          (destinations paths).card = (s'.graph.owners columns).card) ∧
        fetchAt b n paths s' = .ok values s' := by
  intro s
  have hstart : (start table keyName key state).graph.WellFormed :=
    Graph.wellFormed_single table keyName key
  have hg : s.graph.WellFormed := ((runs_performAll operations).evolves hstart).wellFormed hstart
  refine ⟨performAll_histories operations hstart, fun events hhistories => ⟨?_, ?_⟩,
    fun n paths => ⟨?_, fun values hfetch => ?_⟩⟩
  · rw [hhistories.trace.queries]
    rfl
  · intro before lazy n q row between q' answer after hsplit
    exact (hsplit ▸ hhistories.trace).stales_between hstart
  · exact Ends.of_after (p := fun s' => s'.queries.length + s.graph.edges.size ≤
      s.queries.length + s'.graph.edges.size + (destinations paths).card)
      ((fetchAt_counts b n paths hg).mono (fun _ _ => And.left) (fun _ _ => id))
  · obtain ⟨-, hg', hn, columns, hdenotes, hvalues⟩ := (fetchAt_counts b n paths hg).of_ok hfetch
    exact ⟨⟨columns, hdenotes, hg'.card_destinations hdenotes⟩,
      fetchAt_of_ready b hg' hn hdenotes hvalues⟩

open RecordGraph.Action in
/-- A fetch joins a row and reads two. It makes the three selections that it may make, and the
same fetch after it makes none. -/
theorem performAll_reads_once_joined :
    let b := Script.backend .standard
    let s := (start "t0" "id" (.integer 1) ⟨[.row [("a", .integer 7)], .row [("name", .text "y")],
      .row [("title", .text "x")]], .noRow, [], [], 0⟩).performAll b []
    let paths := ["t1[a].name", "title"]
    let s' := (fetchAt b Graph.root paths).after s
    s'.queries.length = 3 ∧ s'.graph.edges.size + (destinations paths).card = 3 ∧
      fetchAt b Graph.root paths s' = .ok [.text "y", .text "x"] s' := by
  intro b s paths s'
  have hfetch : fetchAt b Graph.root paths s = .ok [.text "y", .text "x"] s' :=
    eq_ok_of_result? (by decide +kernel)
  obtain ⟨-, -, hreads⟩ := @performAll_reads_once Script b "t0" "id" (.integer 1) s.backend []
  obtain ⟨-, hagain⟩ := hreads Graph.root paths
  refine ⟨by decide +kernel, by decide +kernel, ?_⟩
  exact (hagain _ hfetch).2

end Session
end RecordGraph
