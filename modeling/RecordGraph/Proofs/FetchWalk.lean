import RecordGraph.Proofs.Mirror

/-!
# Fetching walks the store

Reading a row and resolving a path keep a graph the mirror of its store, and
they fail only where the store has no value. So a fetch reads for each path
what a walk of the store for this path alone reads.
-/
namespace RecordGraph.Action

open RecordGraph.Graph

variable {store : Store} {complete : Prop} {s s' : Session Store} {n : NodeId}

/-- The graph mirrors the store. -/
def Reads (store : Store) (complete : Prop) (s : Session Store) : Prop :=
  s.backend = store ∧ Mirrors store complete s.graph

/-- Success keeps the mirror and the keys; with all values there is no failure. -/
def Follows {α : Type} (store : Store) (complete : Prop) (m : Action Store α)
    (s : Session Store) : Prop :=
  m.Ends s (fun _ s' => Reads store complete s' ∧ KeepsKeys s.graph s'.graph)
    (fun _ _ => ¬ complete)

/-! ## Reading -/

/-- The selection for a node finds the values of its columns, unless one has none. -/
theorem query_columnsOf (hm : Mirrors store complete s.graph) (hn : s.graph.IsNode n)
    (hnew : ¬ s.graph.IsNew n) (hcolumns : s.graph.columnsOf n ≠ []) :
    (∃ found, Store.backend.query (.select (s.graph.table n) (s.graph.keyMatch n)
        ((s.graph.columnsOf n).map s.graph.name)) store = (.ok (some found), store) ∧
      ∀ c ∈ s.graph.columnsOf n, store.cell? (s.graph.row n) (s.graph.name c) =
        some (found.get (s.graph.name c))) ∨
    (¬ complete ∧ ∃ answer, Store.backend.query (.select (s.graph.table n) (s.graph.keyMatch n)
        ((s.graph.columnsOf n).map s.graph.name)) store = (answer, store) ∧
      ∀ found, answer ≠ .ok (some found)) := by
  have hrow : ¬ (s.graph.row n).IsBlank := fun hblank => hnew ((hm.new hn).2 hblank)
  have hnames : (s.graph.columnsOf n).map s.graph.name ≠ [] := by simpa using hcolumns
  rcases @Store.query_select store _ _ hrow hnames with
    ⟨found, hquery, hfound⟩ | ⟨⟨name, hname, hcell⟩, hanswer⟩
  · exact .inl ⟨found, hquery, fun c hc => hfound _ (List.mem_map_of_mem hc)⟩
  · refine .inr ⟨fun hcomplete => ?_, hanswer⟩
    obtain ⟨c, hc, rfl⟩ := List.mem_map.1 hname
    have hsome := hm.complete hcomplete hc
    rw [hcell] at hsome
    cases hsome

theorem fetchNode_follows (h : Reads store complete s) (hn : s.graph.IsNode n) :
    (fetchNode Store.backend n).Ends s
      (fun _ s' => (Reads store complete s' ∧ KeepsKeys s.graph s'.graph) ∧ s'.graph.IsFresh n)
      (fun _ _ => ¬ complete) := by
  obtain ⟨rfl, hm⟩ := h
  have hfresh {g : Graph} (hg : g.IsNode n) : (g.setFresh n true).IsFresh n := by
    rw [isFresh_setFresh, if_pos rfl]
    exact ⟨rfl, hg⟩
  refine (ends_fetchNode Store.backend).2 ⟨fun hno => absurd hn hno, fun _ hnothing => ?_,
    fun _ hnew hsome => ?_⟩
  · rw [hm.cleanColumns_eq] at hnothing
    exact ⟨⟨⟨rfl, hm.setFresh hnothing⟩, keepsKeys_setFresh ..⟩, hfresh hn⟩
  · rw [hm.cleanColumns_eq] at hsome
    rw [selection, hm.cleanColumns_eq]
    rcases query_columnsOf hm hn hnew hsome with
      ⟨found, hquery, hfound⟩ | ⟨hincomplete, answer', hquery, hanswer'⟩
    · refine ⟨fun row state hanswer => ?_, fun state hanswer => ?_, fun f state hanswer => ?_⟩
      · obtain ⟨hok, rfl⟩ := Prod.mk.inj (hquery.symm.trans hanswer)
        obtain rfl := Option.some.inj (Except.ok.inj hok)
        refine ⟨⟨⟨rfl, hm.settleRow hfound⟩, (keepsKeys_settleRow hm.wellFormed
          (List.Subset.refl _)).trans (keepsKeys_setFresh ..)⟩, hfresh ?_⟩
        rwa [isNode_of_shape_eq (revalues_settleRow (List.Subset.refl _)).2]
      · cases hquery.symm.trans hanswer
      · cases hquery.symm.trans hanswer
    · refine ⟨fun row state hanswer => ?_, fun _ _ => hincomplete, fun _ _ _ => hincomplete⟩
      obtain ⟨rfl, -⟩ := Prod.mk.inj (hquery.symm.trans hanswer)
      exact absurd rfl (hanswer' row)

/-- A value that is asked for is the value of its cell. -/
theorem value_follows {c : ColumnId} (h : Reads store complete s) (hc : c ∈ s.graph.columnsOf n) :
    (value Store.backend c).Ends s
      (fun v s' => (Reads store complete s' ∧ KeepsKeys s.graph s'.graph) ∧
        store.cell? (s'.graph.row n) (s'.graph.name c) = some v)
      (fun _ _ => ¬ complete) := by
  have hg := h.2.wellFormed
  have hn := hg.isNode_of_column hc
  refine (ends_value Store.backend hg hc).2 ⟨fun hdirty => ?_, fun _ hfresh => ?_, fun _ _ => ?_⟩
  · obtain ⟨col, hcol, -⟩ := column?_of_owner (hg.column hc).1
    simp [IsDirty, hcol, Column.IsDirty, h.2.pending hc hcol] at hdirty
  · exact ⟨⟨h, .refl _⟩, h.2.current_eq hc hfresh⟩
  · refine (fetchNode_follows h hn).mono (fun _ s' h' => ?_) (fun _ _ => id)
    obtain ⟨⟨hreads, hkeep⟩, hfresh⟩ := h'
    exact ⟨⟨hreads, hkeep⟩, hreads.2.current_eq ((hkeep.grows.columns n).subset hc) hfresh⟩

/-! ## Resolving -/

theorem addColumn_follows {name : String} (h : Reads store complete s) (hn : s.graph.IsNode n)
    (hcell : complete → (store.cell? (s.graph.row n) name).isSome) :
    Follows store complete (addColumn n name) s := by
  simp only [Follows, addColumn, ends_register]
  cases hfind : s.graph.findColumn? n name with
  | some c => rw [addColumn_of_some hfind]; exact ⟨h, .refl _⟩
  | none =>
    rw [addColumn_of_none hfind]
    exact ⟨⟨h.1, h.2.withColumn hn hfind hcell⟩, keepsKeys_withColumn h.2.wellFormed hn⟩

theorem joinFrom_follows {fk : ColumnId} {table childColumn : String}
    (h : Reads store complete s) (hfk : fk ∈ s.graph.columnsOf n) :
    Follows store complete (joinFrom Store.backend fk table childColumn) s := by
  refine joinFrom_cases Store.backend h.2.wellFormed hfk (fun _ _ => ⟨h, .refl _⟩) fun _ => ?_
  refine (value_follows h hfk).mono (fun key s' h' _ hfk' hfind' => ?_) (fun _ _ => id)
  obtain ⟨⟨hreads, hkeep⟩, hkey⟩ := h'
  refine ⟨⟨hreads.1, hreads.2.withChild hfk' hfind' hkey⟩, hkeep.trans ?_⟩
  exact keepsKeys_withChild hreads.2.wellFormed (hreads.2.wellFormed.isNode_of_column hfk')

/-- One join, with its foreign key. -/
theorem join_follows {j : Hop} (h : Reads store complete s) (hn : s.graph.IsNode n)
    (hcell : complete → (store.cell? (s.graph.row n) j.foreignKey).isSome) :
    Follows store complete
      (addColumn n j.foreignKey >>= fun fk => joinFrom Store.backend fk j.table j.childColumn) s := by
  refine ends_bind.2 ((Ends.and (addColumn_follows h hn hcell)
    (addColumn_ends h.2.wellFormed hn)).mono (fun fk s₁ h₁ => ?_) (fun _ _ => And.left))
  obtain ⟨⟨hreads, hkeep⟩, -, hfind⟩ := h₁
  exact (joinFrom_follows hreads (hreads.2.wellFormed.findColumn?_mem hfind).1).mono
    (fun _ _ h' => ⟨h'.1, hkeep.trans h'.2⟩) (fun _ _ => id)

/-- Behind joins, the rest of a walk starts at the row of the node that they lead to. -/
theorem Follows.bind_of_descends {α : Type} {hops hops' : List Hop} {column : String}
    {m : Action Store NodeId} {f : NodeId → Action Store α}
    (h : Follows store complete m s) (hg : s.graph.WellFormed) (hn : s.graph.IsNode n)
    (hd : m.Descends n hops s)
    (hwalk : complete → (store.walk? (s.graph.row n) column (hops ++ hops')).isSome)
    (hf : ∀ k s', Reads store complete s' → s'.graph.IsNode k →
      (complete → (store.walk? (s'.graph.row k) column hops').isSome) →
        Follows store complete (f k) s') : Follows store complete (m >>= f) s := by
  refine ends_bind.2 ((Ends.and h hd).mono (fun k s₁ h₁ => ?_) (fun _ _ => And.left))
  obtain ⟨⟨hreads, hkeep⟩, -, hdescend⟩ := h₁
  have hk := hreads.2.wellFormed.isNode_of_descend (hkeep.grows.node hn).1 hdescend
  have hwalk' (hcomplete : complete) : (store.walk? (s₁.graph.row k) column hops').isSome := by
    rw [← hreads.2.walk?_descend hdescend, hkeep.row_eq hg hn]
    exact hwalk hcomplete
  exact (hf k s₁ hreads hk hwalk').mono (fun _ _ h' => ⟨h'.1, hkeep.trans h'.2⟩) (fun _ _ => id)

/-- Joins that have a value behind them in the store are followed. -/
theorem follow_follows (column : String) (hops : List Hop) (h : Reads store complete s)
    (hn : s.graph.IsNode n)
    (hwalk : complete → (store.walk? (s.graph.row n) column hops).isSome) :
    Follows store complete (follow Store.backend n hops) s := by
  induction hops generalizing s n with
  | nil => exact ⟨h, .refl _⟩
  | cons j hops ih =>
    have hg := h.2.wellFormed
    have hcell (hcomplete : complete) :
        (store.cell? (s.graph.row n) j.foreignKey).isSome :=
      Option.isSome_of_isSome_bind (hwalk hcomplete)
    rw [follow, ← bind_assoc]
    exact (join_follows h hn hcell).bind_of_descends hg hn (join_descends Store.backend j hg hn)
      hwalk fun k s' hreads hk hwalk' => ih hreads hk hwalk'

/-- A path that has a value in the store is registered. -/
theorem registerColumn_follows (p : ColumnPath) (h : Reads store complete s)
    (hn : s.graph.IsNode n)
    (hwalk : complete → (store.walk? (s.graph.row n) p.target p.hops).isSome) :
    Follows store complete (registerColumn Store.backend n p) s := by
  have hg := h.2.wellFormed
  have hwalk' (hcomplete : complete) :
      (store.walk? (s.graph.row n) p.target (p.hops ++ [])).isSome := by
    rw [List.append_nil]
    exact hwalk hcomplete
  rw [registerColumn_eq]
  exact (follow_follows p.target p.hops h hn hwalk).bind_of_descends hg hn
    (follow_descends Store.backend p.hops hg hn) hwalk'
    fun k s' hreads hk hcell => addColumn_follows hreads hk hcell

theorem resolveColumn_follows {path : String} (h : Reads store complete s)
    (hn : s.graph.IsNode n)
    (hvalue : complete → (store.valueAt? (s.graph.row n) path).isSome) :
    Follows store complete (resolveColumn Store.backend n path) s := by
  refine (ends_resolveColumn Store.backend).2
    ⟨fun hno => absurd hn hno, fun _ => ⟨fun e he hcomplete => ?_, fun p hp => ?_⟩⟩
  · have hsome := hvalue hcomplete
    rw [Store.valueAt?, he] at hsome
    cases hsome
  · refine registerColumn_follows p h hn fun hcomplete => ?_
    have hsome := hvalue hcomplete
    rwa [Store.valueAt?_of_parse hp] at hsome

/-! ## Fetching -/

/-- The value of the cell of a column. -/
def Holds (store : Store) (c : ColumnId) (v : Value) (s : Session Store) : Prop :=
  ∃ m, c ∈ s.graph.columnsOf m ∧ store.cell? (s.graph.row m) (s.graph.name c) = some v

theorem valueAt?_of_holds {path : String} {c : ColumnId} {v : Value}
    (hm : Mirrors store complete s.graph) (hc : s.graph.Denotes n path c) (hv : Holds store c v s) :
    store.valueAt? (s.graph.row n) path = some v := by
  obtain ⟨p, hp, hlocate⟩ := hc
  rw [ColumnPath.flatten_eq, locate_eq_some] at hlocate
  obtain ⟨k, hk, hfind⟩ := hlocate
  dsimp only at hk hfind
  obtain ⟨hmem, hname⟩ := hm.wellFormed.findColumn?_mem hfind
  obtain ⟨k', hmem', hcell⟩ := hv
  obtain rfl := Option.some.inj ((hm.wellFormed.column hmem).1.symm.trans
    (hm.wellFormed.column hmem').1)
  rw [Store.valueAt?_of_parse hp, ← List.append_nil p.hops, hm.walk?_descend hk, Store.walk?,
    ← hname, hcell]

/-- A fetch reads for each path what the store has for it. -/
theorem fetchAt_walks {paths : List String} (h : Reads store complete s) (hn : s.graph.IsNode n)
    (hvalues : complete → ∀ path ∈ paths, (store.valueAt? (s.graph.row n) path).isSome) :
    (fetchAt Store.backend n paths).Ends s
      (fun vs _ => paths.mapM (store.valueAt? (s.graph.row n)) = some vs)
      (fun _ _ => ¬ complete) := by
  have hg := h.2.wellFormed
  rw [fetchAt, ends_bind, ends_requireNode, node?_eq_none]
  refine ⟨fun node _ => ends_bind.2 ?_, fun hno => absurd hn hno⟩
  have hresolve : (paths.mapM (resolveColumn Store.backend n)).Ends s
      (fun cs s' => (Reads store complete s' ∧ KeepsKeys s.graph s'.graph) ∧
        KeepsKeys s.graph s'.graph ∧
          List.Forall₂ (fun path c => s'.graph.Denotes n path c) paths cs)
      (fun _ _ => ¬ complete) := by
    refine ends_mapM_forall₂ (fun s' => Reads store complete s' ∧ KeepsKeys s.graph s'.graph)
      (fun s' s'' => KeepsKeys s'.graph s''.graph) (fun path c s' => s'.graph.Denotes n path c)
      (fun _ => .refl _) (fun _ _ _ => .trans) ?_ ?_ ⟨h, .refl _⟩
    · rintro path c s₁ s₂ ⟨h₁, -⟩ ⟨h₂, -⟩ hkeep hc
      exact hc.grows h₁.2.wellFormed h₂.2.wellFormed hkeep.grows
    · rintro path hpath s₁ ⟨h₁, hkeep⟩
      have hvalue (hcomplete : complete) :
          (store.valueAt? (s₁.graph.row n) path).isSome := by
        rw [hkeep.row_eq hg hn]
        exact hvalues hcomplete path hpath
      refine ((resolveColumn_follows h₁ (hkeep.grows.node hn).1 hvalue).and
        (resolveColumn_ends Store.backend n path h₁.2.wellFormed)).mono
          (fun c s₂ h₂ => ?_) (fun _ _ => And.left)
      exact ⟨⟨h₂.1.1, hkeep.trans h₂.1.2⟩, h₂.1.2, h₂.2.2⟩
  refine hresolve.mono (fun cs s₁ h₁ => ?_) (fun _ _ => id)
  obtain ⟨⟨h₁, hkeep⟩, -, hcs⟩ := h₁
  have hread : (cs.mapM (value Store.backend)).Ends s₁
      (fun vs s' => (Reads store complete s' ∧ KeepsKeys s₁.graph s'.graph) ∧
        KeepsKeys s₁.graph s'.graph ∧ List.Forall₂ (fun c v => Holds store c v s') cs vs)
      (fun _ _ => ¬ complete) := by
    refine ends_mapM_forall₂ (fun s' => Reads store complete s' ∧ KeepsKeys s₁.graph s'.graph)
      (fun s' s'' => KeepsKeys s'.graph s''.graph) (Holds store)
      (fun _ => .refl _) (fun _ _ _ => .trans) ?_ ?_ ⟨h₁, .refl _⟩
    · rintro c v s₂ s₃ ⟨h₂, -⟩ - hkeep ⟨m, hc, hv⟩
      have hg₂ := h₂.2.wellFormed
      refine ⟨m, (hkeep.grows.columns m).subset hc, ?_⟩
      rwa [hkeep.row_eq hg₂ (hg₂.isNode_of_column hc), (hkeep.grows.column (hg₂.column hc).1).2]
    · rintro c hc s₂ ⟨h₂, hkeep'⟩
      obtain ⟨path, -, p, -, hlocate⟩ := exists_of_forall₂ hcs hc
      obtain ⟨m, -, hfind⟩ := locate_eq_some.1 hlocate
      have hmem := (hkeep'.grows.columns m).subset (h₁.2.wellFormed.findColumn?_mem hfind).1
      refine (value_follows h₂ hmem).mono (fun v s₃ h₃ => ?_) (fun _ _ => id)
      obtain ⟨⟨h₃, hkeep''⟩, hv⟩ := h₃
      exact ⟨⟨h₃, hkeep'.trans hkeep''⟩, hkeep'', m, (hkeep''.grows.columns m).subset hmem, hv⟩
  refine hread.mono (fun vs s₂ h₂ => ?_) (fun _ _ => id)
  obtain ⟨⟨h₂, hkeep'⟩, -, hvs⟩ := h₂
  refine mapM_eq_some.2 (forall₂_trans hcs hvs fun path c v hc hv => ?_)
  have hc' : s₂.graph.Denotes n path c :=
    hc.grows h₁.2.wellFormed h₂.2.wellFormed hkeep'.grows
  rw [← (hkeep.trans hkeep').row_eq hg hn]
  exact valueAt?_of_holds h₂.2 hc' hv

/-- On a blank key both rows are none, so the key that is not taken over changes nothing. -/
theorem valueAt?_row_single {table keyName path : String} {key : Value} :
    store.valueAt? ((Graph.single table keyName key).row root) path =
      store.valueAt? ⟨table, ⟨keyName, key⟩⟩ path := by
  rw [row_single]
  split
  · next hblank =>
    simp only [Store.valueAt?]
    congr 1
    funext p
    have hnone : RowName.IsBlank ⟨table, ⟨keyName, key⟩⟩ := hblank
    have hnull : RowName.IsBlank ⟨table, ⟨keyName, .null⟩⟩ := trivial
    rw [Store.walk?_of_blank hnull, Store.walk?_of_blank hnone]
  · rfl

theorem fetch_start_ends (store : Store) (table keyName : String) (key : Value)
    (paths : List String) :
    (fetch Store.backend paths).Ends (.start table keyName key store)
      (fun vs _ => paths.mapM (store.valueAt? ⟨table, ⟨keyName, key⟩⟩) = some vs)
      (fun _ _ => paths.mapM (store.valueAt? ⟨table, ⟨keyName, key⟩⟩) = none) := by
  have hvalues : store.valueAt? ((Graph.single table keyName key).row root) =
      store.valueAt? ⟨table, ⟨keyName, key⟩⟩ := funext fun _ => valueAt?_row_single
  have hreads : Reads store
      (∀ path ∈ paths, (store.valueAt? ⟨table, ⟨keyName, key⟩⟩ path).isSome)
      (.start table keyName key store) := ⟨rfl, mirrors_single ..⟩
  refine (fetchAt_walks (n := root) hreads (isNode_single.2 rfl)
    (fun h path hpath => ?_)).mono (fun vs _ hvs => ?_) (fun _ _ hnone => ?_)
  · change (store.valueAt? ((Graph.single table keyName key).row root) path).isSome
    rw [hvalues]
    exact h path hpath
  · rw [← hvalues]
    exact hvs
  · rw [mapM_eq_none]
    simpa using hnone

theorem fetch_start_result? (store : Store) (table keyName : String) (key : Value)
    (paths : List String) :
    (fetch Store.backend paths).result? (.start table keyName key store) =
      paths.mapM (store.valueAt? ⟨table, ⟨keyName, key⟩⟩) := by
  have hends := fetch_start_ends store table keyName key paths
  unfold result?
  split
  · next he => exact (hends.of_ok he).symm
  · next he => exact (hends.of_error he).symm

end RecordGraph.Action
