import RecordGraph.Proofs.Descent
import RecordGraph.Proofs.Following
import RecordGraph.Proofs.NodeActions

/-!
# How actions change a graph

Every action changes the graph by steps only, whether it succeeds or fails and
whatever the backend answers; reading and writing change nothing but values.
Resolving a path ends in the column or the node that its joins lead to.
-/
namespace RecordGraph

namespace Graph

/-- Changes of values only. -/
def Revalues (g g' : Graph) : Prop := g.Evolves g' ∧ g'.shape = g.shape

instance : IsTrans Graph Revalues :=
  ⟨fun _ _ _ h h' => ⟨h.1.trans h'.1, h'.2.trans h.2⟩⟩

variable {g g' g'' : Graph} {n : NodeId} {columns : List ColumnId}

theorem Revalues.refl (g : Graph) : g.Revalues g := ⟨.refl g, rfl⟩

theorem Revalues.trans (h : g.Revalues g') (h' : g'.Revalues g'') : g.Revalues g'' :=
  IsTrans.trans _ _ _ h h'

theorem revalues_assign (c : ColumnId) (v : Value) : g.Revalues (g.assign c v) :=
  ⟨(Step.assign g c v).evolves, shape_assign g c v⟩

theorem revalues_settle {c : ColumnId} (v : Value) (hc : c ∈ g.columnsOf n) :
    g.Revalues (g.settle c v) :=
  ⟨(Step.settle v hc).evolves, shape_settle g c v⟩

theorem revalues_forget {c : ColumnId} (hc : c ∈ g.columnsOf n) :
    g.Revalues (g.updateColumn c .forget) :=
  ⟨(Step.forget hc).evolves, shape_forget g c⟩

theorem revalues_setFresh (n : NodeId) (fresh : Bool) : g.Revalues (g.setFresh n fresh) :=
  ⟨(Step.setFresh g n fresh).evolves, shape_setFresh g n fresh⟩

theorem Revalues.columnsOf (h : g.Revalues g') (n : NodeId) : g'.columnsOf n = g.columnsOf n :=
  columnsOf_of_shape_eq h.2 n

theorem cleanColumns_subset : g.cleanColumns n ⊆ g.columnsOf n := List.filter_subset_self _

theorem revalues_settleRow {row : Row} (h : columns ⊆ g.columnsOf n) :
    g.Revalues (g.settleRow columns row) := by
  unfold settleRow
  induction columns generalizing g with
  | nil => exact .refl g
  | cons c columns ih =>
    have hstep : g.Revalues (g.settle c (row.get (g.name c))) :=
      revalues_settle (n := n) _ (h (by simp))
    refine hstep.trans (ih ?_)
    rw [hstep.columnsOf]
    exact fun d hd => h (by simp [hd])

theorem revalues_assignKey {v : Value} : g.Revalues (g.assignKey n v) := by
  unfold assignKey
  cases g.keyColumn? n with
  | none => exact .refl g
  | some k => exact revalues_assign k v

theorem revalues_settleWritten (h : columns ⊆ g.columnsOf n) :
    g.Revalues (g.settleWritten n columns) := by
  unfold settleWritten
  generalize g.keyName n = keyName
  induction columns generalizing g with
  | nil => exact .refl g
  | cons c columns ih =>
    rw [List.foldl_cons]
    have hkey : g.Revalues (if g.name c = keyName then g.assignKey n (g.current c) else g) := by
      split
      · exact revalues_assignKey
      · exact .refl g
    have hc : c ∈ (if g.name c = keyName then g.assignKey n (g.current c) else g).columnsOf n := by
      rw [hkey.columnsOf]
      exact h (by simp)
    have hstep := hkey.trans (revalues_settle (g.current c) hc)
    refine hstep.trans (ih ?_)
    rw [hstep.columnsOf]
    exact fun d hd => h (by simp [hd])

end Graph

/-- The text of a path denotes a registered column. -/
def Graph.Denotes (g : Graph) (n : NodeId) (path : String) (c : ColumnId) : Prop :=
  ∃ p, ColumnPath.parse path = .ok p ∧ g.locate n p.flatten = some c

theorem Graph.Denotes.grows {g g' : Graph} {n : NodeId} {path : String} {c : ColumnId}
    (h : g.Denotes n path c) (hg : g.WellFormed) (hg' : g'.WellFormed) (hgrow : Grows g g') :
    g'.Denotes n path c := by
  obtain ⟨p, hp, hc⟩ := h
  exact ⟨p, hp, hgrow.locate hg hg' hc⟩

namespace Action

variable {σ α β : Type} {s : Session σ} {R : Graph → Graph → Prop}

/-- The graph changes by `R`, whether the action succeeds or fails. -/
def Changes (R : Graph → Graph → Prop) (m : Action σ α) (s : Session σ) : Prop :=
  m.Ends s (fun _ s' => R s.graph s'.graph) (fun _ s' => R s.graph s'.graph)

theorem Changes.bind [IsTrans Graph R] {m : Action σ α} {f : α → Action σ β} (hm : m.Changes R s)
    (hf : ∀ a s', m s = .ok a s' → (f a).Changes R s') : (m >>= f).Changes R s := by
  refine ends_bind.2 (ends_of_forall (fun a s' he => ?_) (fun e s' he => hm.of_error he))
  have hs' : R s.graph s'.graph := hm.of_ok he
  exact (hf a s' he).mono (fun _ _ => IsTrans.trans _ _ _ hs') (fun _ _ => IsTrans.trans _ _ _ hs')

theorem Changes.evolves {m : Action σ α} (h : m.Changes Graph.Revalues s) :
    m.Changes Graph.Evolves s :=
  h.mono (fun _ _ => And.left) (fun _ _ => And.left)

/-! ## Reading -/

variable (b : Backend σ)

theorem fetchNode_revalues (n : NodeId) : (fetchNode b n).Changes Graph.Revalues s := by
  have hfresh (g : Graph) : g.Revalues (g.setFresh n true) := Graph.revalues_setFresh ..
  refine (ends_fetchNode b).2 ⟨fun _ => .refl _, fun _ _ => hfresh _, fun _ _ _ =>
    ⟨fun row state _ => ?_, fun _ _ => .refl _, fun _ _ _ => .refl _⟩⟩
  exact (Graph.revalues_settleRow Graph.cleanColumns_subset).trans (hfresh _)

theorem value_revalues (c : ColumnId) : (value b c).Changes Graph.Revalues s := by
  rw [Changes, value, ends_bind, ends_requireColumn]
  refine ⟨fun column hcolumn => ?_, fun _ => .refl _⟩
  simp only [ends_bind, ends_graph, ends_ite, ends_pure]
  exact ⟨fun _ => .refl _, fun _ => ⟨fun _ => .refl _, fun _ => fetchNode_revalues b column.node⟩⟩

/-- The value that is given is the current one. -/
theorem value_current (c : ColumnId) :
    (value b c).Ends s (fun v s' => v = s'.graph.current c) (fun _ _ => True) := by
  rw [value, ends_bind, ends_requireColumn]
  refine ⟨fun column _ => ?_, fun _ => trivial⟩
  simp only [ends_bind, ends_graph, ends_ite, ends_pure, implies_true, true_and]
  exact fun _ _ => ends_of_forall (fun _ _ _ => trivial) (fun _ _ _ => trivial)

/-! ## Resolving -/

theorem addColumn_ends {n : NodeId} {name : String} (hg : s.graph.WellFormed)
    (hn : s.graph.IsNode n) :
    (addColumn n name).Ends s
      (fun c s' => s.graph.Evolves s'.graph ∧ s'.graph.findColumn? n name = some c)
      (fun _ _ => False) := by
  simp only [addColumn, ends_register]
  cases h : s.graph.findColumn? n name with
  | some c => rw [Graph.addColumn_of_some h]; exact ⟨.refl _, h⟩
  | none =>
    rw [Graph.addColumn_of_none h]
    refine ⟨(Graph.Step.column hn h).evolves, ?_⟩
    have hmem : (⟨s.graph.columns.size⟩ : ColumnId) ∈ (s.graph.withColumn n name).columnsOf n := by
      rw [Graph.columnsOf_withColumn hn, if_pos rfl]
      simp
    have hfind := (hg.withColumn hn h).findColumn?_eq hmem
    rwa [Graph.name_withColumn, if_pos rfl] at hfind

/-- A join that is there is taken again; a missing one is registered with the value of its
foreign key, which is read first. -/
theorem joinFrom_cases {n : NodeId} {fk : ColumnId} {table childColumn : String}
    {post : NodeId → Session σ → Prop} {fail : Error → Session σ → Prop}
    (hg : s.graph.WellFormed) (hfk : fk ∈ s.graph.columnsOf n)
    (hfound : ∀ child, s.graph.findChild? n ⟨table, childColumn, s.graph.name fk⟩ = some child →
      post child s)
    (hmissing : s.graph.findChild? n ⟨table, childColumn, s.graph.name fk⟩ = none →
      (value b fk).Ends s (fun key s' => s.graph.Evolves s'.graph → fk ∈ s'.graph.columnsOf n →
        s'.graph.findChild? n ⟨table, childColumn, s'.graph.name fk⟩ = none →
          post ⟨s'.graph.nodes.size⟩
            { s' with graph := s'.graph.withChild n fk table childColumn key }) fail) :
    (joinFrom b fk table childColumn).Ends s post fail := by
  obtain ⟨col, hcol, hnode⟩ := Graph.column?_of_owner (hg.column hfk).1
  have hname : s.graph.name fk = col.name := by simp [Graph.name, hcol]
  rw [joinFrom, ends_bind, ends_requireColumn, hcol]
  refine ⟨fun column hcolumn => ?_, fun hno => by cases hno⟩
  obtain rfl := Option.some.inj hcolumn
  rw [ends_bind, ends_graph, hnode, ← hname]
  cases hfind : s.graph.findChild? n ⟨table, childColumn, s.graph.name fk⟩ with
  | some child => exact hfound child hfind
  | none =>
    refine ends_bind.2 (((hmissing hfind).and (value_revalues b fk)).mono (fun key s' hs' => ?_)
      (fun _ _ => And.left))
    obtain ⟨hpost, hevolves, hshape⟩ := hs'
    -- reading the key changes no name, so the join is still missing
    rw [ends_register, Graph.addChild_eq]
    refine hpost hevolves ?_ ?_
    · rwa [Graph.columnsOf_of_shape_eq hshape]
    · rwa [Graph.name_of_shape_eq hshape, Graph.findChild?_of_shape_eq hshape]

theorem joinFrom_ends {n : NodeId} {fk : ColumnId} {table childColumn : String}
    (hg : s.graph.WellFormed) (hfk : fk ∈ s.graph.columnsOf n) :
    (joinFrom b fk table childColumn).Ends s
      (fun child s' => s.graph.Evolves s'.graph ∧
        s'.graph.findChild? n ⟨table, childColumn, s.graph.name fk⟩ = some child)
      (fun _ s' => s.graph.Evolves s'.graph) := by
  refine joinFrom_cases b hg hfk (fun child hfind => ⟨.refl _, hfind⟩) fun _ => ?_
  refine (value_revalues b fk).mono (fun key s' hs' hevolves hfk' hfind' => ?_)
    (fun _ _ => And.left)
  refine ⟨hevolves.trans (Graph.Step.child key hfk' hfind').evolves, ?_⟩
  rw [← Graph.name_of_shape_eq hs'.2]
  exact (hevolves.wellFormed hg).findChild?_withChild hfk' hfind'

/-- Success ends in the column behind `p` from `n`. -/
def Locates (n : NodeId) (p : List Hop × String) (m : Action σ ColumnId) (s : Session σ) : Prop :=
  m.Ends s (fun c s' => s.graph.Evolves s'.graph ∧ s'.graph.locate n p = some c)
    (fun _ s' => s.graph.Evolves s'.graph)

/-- Success ends in the node behind `hops` from `n`. -/
def Descends (n : NodeId) (hops : List Hop) (m : Action σ NodeId) (s : Session σ) : Prop :=
  m.Ends s (fun k s' => s.graph.Evolves s'.graph ∧ s'.graph.descend n hops = some k)
    (fun _ s' => s.graph.Evolves s'.graph)

theorem Locates.joinFrom {n : NodeId} {p : List Hop × String} {m : Action σ ColumnId}
    (table childColumn : String) (hg : s.graph.WellFormed) (h : m.Locates n p s) :
    (m >>= fun fk => joinFrom b fk table childColumn).Descends n
      (p.1 ++ [⟨table, childColumn, p.2⟩]) s := by
  refine ends_bind.2 (h.mono (fun fk s₁ h₁ => ?_) (fun _ _ => id))
  have hg₁ := h₁.1.wellFormed hg
  obtain ⟨k, hk, hfind⟩ := Graph.locate_eq_some.1 h₁.2
  obtain ⟨hmem, hname⟩ := hg₁.findColumn?_mem hfind
  refine (joinFrom_ends b hg₁ hmem).mono (fun child s₂ h₂ => ⟨h₁.1.trans h₂.1, ?_⟩)
    (fun _ _ => h₁.1.trans)
  rw [Graph.descend_concat, (h₂.1.grows hg₁).descend hg₁ (h₂.1.wellFormed hg₁) hk, ← hname]
  exact h₂.2

/-- What follows a node goes on from the joins that lead to it. -/
theorem Descends.bind {n : NodeId} {hops : List Hop} {m : Action σ NodeId}
    {f : NodeId → Action σ α} {post : α → Session σ → Prop} {fail : Error → Session σ → Prop}
    (hg : s.graph.WellFormed) (hn : s.graph.IsNode n) (h : m.Descends n hops s)
    (hf : ∀ k s', s.graph.Evolves s'.graph → s'.graph.WellFormed → s'.graph.IsNode k →
      s'.graph.descend n hops = some k → (f k).Ends s' post fail)
    (hfail : ∀ e s', s.graph.Evolves s'.graph → fail e s') : (m >>= f).Ends s post fail := by
  refine ends_bind.2 (h.mono (fun k s₁ h₁ => ?_) hfail)
  have hg₁ := h₁.1.wellFormed hg
  have hk := hg₁.isNode_of_descend ((h₁.1.grows hg).node hn).1 h₁.2
  exact hf k s₁ h₁.1 hg₁ hk h₁.2

theorem addColumn_locates {n : NodeId} {name : String} (hg : s.graph.WellFormed)
    (hn : s.graph.IsNode n) : (addColumn n name).Locates n ([], name) s :=
  (addColumn_ends hg hn).mono (fun _ _ h => h) (fun _ _ => False.elim)

/-- One join, with its foreign key. -/
theorem join_descends {n : NodeId} (h : Hop) (hg : s.graph.WellFormed) (hn : s.graph.IsNode n) :
    (addColumn n h.foreignKey >>= fun fk => joinFrom b fk h.table h.childColumn).Descends n [h] s :=
  (addColumn_locates hg hn).joinFrom b h.table h.childColumn hg

/-- Joins are followed to the node behind them. -/
theorem follow_descends (hops : List Hop) {n : NodeId} (hg : s.graph.WellFormed)
    (hn : s.graph.IsNode n) : (follow b n hops).Descends n hops s := by
  induction hops generalizing s n with
  | nil => exact ⟨.refl _, rfl⟩
  | cons h hops ih =>
    rw [follow, ← bind_assoc]
    refine (join_descends b h hg hn).bind hg hn (fun k s₁ hevolves hg₁ hk hchild => ?_)
      fun _ _ => id
    refine (ih hg₁ hk).mono (fun m s₂ h₂ => ⟨hevolves.trans h₂.1, ?_⟩) (fun _ _ => hevolves.trans)
    have hchild₂ := (h₂.1.grows hg₁).descend hg₁ (h₂.1.wellFormed hg₁) hchild
    rw [← List.singleton_append, Graph.descend_append, hchild₂]
    exact h₂.2

/-- A path ends in the column behind its joins. -/
theorem registerColumn_locates (p : ColumnPath) {n : NodeId} (hg : s.graph.WellFormed)
    (hn : s.graph.IsNode n) : (registerColumn b n p).Locates n (p.hops, p.target) s := by
  rw [registerColumn_eq]
  refine (follow_descends b p.hops hg hn).bind hg hn (fun k s₁ hevolves hg₁ hk hdescend => ?_)
    fun _ _ => id
  refine (addColumn_ends hg₁ hk).mono (fun c s₂ h₂ => ⟨hevolves.trans h₂.1, ?_⟩)
    (fun _ _ => False.elim)
  have hdescend₂ := (h₂.1.grows hg₁).descend hg₁ (h₂.1.wellFormed hg₁) hdescend
  exact Graph.locate_eq_some.2 ⟨k, hdescend₂, h₂.2⟩

/-- The text of a path resolves to the column behind its joins. -/
theorem resolveColumn_ends (n : NodeId) (path : String) (hg : s.graph.WellFormed) :
    (resolveColumn b n path).Ends s
      (fun c s' => s.graph.Evolves s'.graph ∧ s'.graph.Denotes n path c)
      (fun _ s' => s.graph.Evolves s'.graph) := by
  refine (ends_resolveColumn b).2 ⟨fun _ => .refl _, fun hn => ⟨fun _ _ => .refl _, fun p hp => ?_⟩⟩
  refine (registerColumn_locates b p hg hn).mono (fun c s' hs' => ⟨hs'.1, p, hp, ?_⟩)
    (fun _ _ => id)
  rw [ColumnPath.flatten_eq]
  exact hs'.2

theorem addColumn_of_findColumn? {n : NodeId} {name : String} {c : ColumnId}
    (hc : s.graph.findColumn? n name = some c) :
    (addColumn n name).Ends s (fun d s' => d = c ∧ s' = s) (fun _ _ => False) := by
  simp only [addColumn, ends_register]
  rw [Graph.addColumn_of_some hc]
  exact ⟨rfl, rfl⟩

theorem joinFrom_of_findChild? {n child : NodeId} {fk : ColumnId} {table childColumn : String}
    (hg : s.graph.WellFormed) (hfk : fk ∈ s.graph.columnsOf n)
    (hchild : s.graph.findChild? n ⟨table, childColumn, s.graph.name fk⟩ = some child) :
    (joinFrom b fk table childColumn).Ends s (fun k s' => k = child ∧ s' = s)
      (fun _ _ => False) := by
  refine joinFrom_cases b hg hfk (fun k hk => ?_) fun hmissing => ?_
  · rw [hchild] at hk
    exact ⟨(Option.some.inj hk).symm, rfl⟩
  · rw [hchild] at hmissing
    cases hmissing

/-- What is registered is found again, without a change. -/
theorem follow_of_descend {n m : NodeId} {hops : List Hop} (hg : s.graph.WellFormed)
    (hm : s.graph.descend n hops = some m) :
    (follow b n hops).Ends s (fun k s' => k = m ∧ s' = s) (fun _ _ => False) := by
  induction hops generalizing n with
  | nil => exact ⟨Option.some.inj hm, rfl⟩
  | cons h hops ih =>
    obtain ⟨k, hk, hkm⟩ := Option.bind_eq_some_iff.1 hm
    obtain ⟨x, hx, rfl, rfl⟩ := hg.findChild?_mem hk
    obtain ⟨-, -, -, hfk, -⟩ := hg.edge_of_mem hx
    refine ends_bind.2 ((addColumn_of_findColumn? (hg.findColumn?_eq hfk)).mono ?_ (fun _ _ => id))
    rintro fk s' ⟨rfl, rfl⟩
    refine ends_bind.2 ((joinFrom_of_findChild? b hg hfk hk).mono ?_ (fun _ _ => id))
    rintro child s' ⟨rfl, rfl⟩
    exact ih hkm

theorem registerColumn_of_locate (p : ColumnPath) {n : NodeId} {c : ColumnId}
    (hg : s.graph.WellFormed) (hc : s.graph.locate n (p.hops, p.target) = some c) :
    (registerColumn b n p).Ends s (fun d s' => d = c ∧ s' = s) (fun _ _ => False) := by
  obtain ⟨m, hm, hfind⟩ := Graph.locate_eq_some.1 hc
  rw [registerColumn_eq]
  refine ends_bind.2 ((follow_of_descend b hg hm).mono ?_ (fun _ _ => id))
  rintro k s' ⟨rfl, rfl⟩
  exact addColumn_of_findColumn? hfind

/-- A path to a registered column is resolved without a change. -/
theorem resolveColumn_again {n : NodeId} {path : String} {c : ColumnId}
    (hg : s.graph.WellFormed) (hn : s.graph.IsNode n) (hc : s.graph.Denotes n path c) :
    resolveColumn b n path s = .ok c s := by
  obtain ⟨p, hp, hlocate⟩ := hc
  rw [ColumnPath.flatten_eq] at hlocate
  refine Ends.eq_ok ((ends_resolveColumn b).2
    ⟨fun hno => hno hn, fun _ => ⟨fun e he => ?_, fun q hq => ?_⟩⟩)
  · cases hp.symm.trans he
  · obtain rfl := Except.ok.inj (hp.symm.trans hq)
    exact registerColumn_of_locate b p hg hlocate

theorem resolveColumn_of_denotes {n : NodeId} {path : String} {c : ColumnId}
    (hg : s.graph.WellFormed) (hn : s.graph.IsNode n) (hc : s.graph.Denotes n path c) :
    (resolveColumn b n path).result? s = some c :=
  result?_eq_some.2 ⟨s, resolveColumn_again b hg hn hc⟩

/-- The text of a table path resolves to the node behind its joins. -/
theorem resolveTable_ends (n : NodeId) (path : String) (hg : s.graph.WellFormed) :
    (resolveTable b n path).Ends s
      (fun k s' => s.graph.Evolves s'.graph ∧
        ∃ ts, TableSpec.parsePath path = .ok ts ∧
          s'.graph.descend n (ts.flatMap TableSpec.hops) = some k)
      (fun _ s' => s.graph.Evolves s'.graph) := by
  refine (ends_resolveTable b).2 ⟨fun _ => .refl _,
    fun hn => ⟨fun _ _ => .refl _, fun ts hts => ?_⟩⟩
  exact (follow_descends b _ hg hn).mono (fun k s' hs' => ⟨hs'.1, ts, hts, hs'.2⟩) (fun _ _ => id)

theorem resolveColumn_evolves (n : NodeId) (path : String) (hg : s.graph.WellFormed) :
    (resolveColumn b n path).Changes Graph.Evolves s :=
  (resolveColumn_ends b n path hg).mono (fun _ _ => And.left) (fun _ _ => id)

theorem resolveTable_evolves (n : NodeId) (path : String) (hg : s.graph.WellFormed) :
    (resolveTable b n path).Changes Graph.Evolves s :=
  (resolveTable_ends b n path hg).mono (fun _ _ => And.left) (fun _ _ => id)

/-! ## Writing -/

theorem setValue_revalues (c : ColumnId) (v : Value) : (setValue c v).Changes Graph.Revalues s :=
  ends_setValue.2 ⟨fun _ => .refl _, fun _ => Graph.revalues_assign c v⟩

theorem resetColumn_revalues (c : ColumnId) (hg : s.graph.WellFormed) :
    (resetColumn c).Changes Graph.Revalues s := by
  refine (ends_resetColumn hg).2 ⟨fun _ => .refl _, fun _ _ => .refl _, fun n hc => ?_⟩
  exact (Graph.revalues_forget hc).trans (Graph.revalues_setFresh ..)

theorem writeNode_revalues (n : NodeId) : (writeNode b n).Changes Graph.Revalues s := by
  have hsettle (g : Graph) (hg : g.shape = s.graph.shape) :
      g.Revalues ((g.settleWritten n (s.graph.dirtyColumns n)).setFresh n true) := by
    refine (Graph.revalues_settleWritten ?_).trans (Graph.revalues_setFresh ..)
    rw [Graph.columnsOf_of_shape_eq hg]
    exact List.filter_subset_self _
  rw [Changes, writeNode, ends_bind, ends_graph]
  dsimp only
  split
  · exact .refl _
  · rw [ends_ite]
    refine ⟨fun _ => ?_, fun _ => ends_ite.2 ⟨fun _ => ?_, fun _ => .refl _⟩⟩
    · refine ends_bind.2 (ends_send.2 ⟨fun _ _ _ => ?_, fun _ _ _ => .refl _⟩)
      refine ends_bind.2 (ends_send.2 ⟨fun key _ _ => ?_, fun _ _ _ => .refl _⟩)
      have hkey : s.graph.Revalues (s.graph.assignKey n key) := Graph.revalues_assignKey
      exact hkey.trans (hsettle _ hkey.2)
    · refine ends_bind.2 (ends_send.2 ⟨fun _ _ _ => ?_, fun _ _ _ => .refl _⟩)
      exact hsettle _ rfl

theorem saveNode_revalues (n : NodeId) : (saveNode b n).Changes Graph.Revalues s := by
  rw [Changes, saveNode, ends_bind, ends_requireNode]
  refine ⟨fun node hnode => ?_, fun _ => .refl _⟩
  rw [ends_bind, ends_graph]
  have hedges : ((s.graph.edgesBelow n).forM (writeEdge b)).Changes Graph.Revalues s := by
    refine ends_forM (fun e _ s' hs' => ends_bind.2 ?_) (.refl _)
    exact (writeNode_revalues b e.child).mono
      (fun _ _ h => (hs'.trans h).trans (Graph.revalues_assign ..)) (fun _ _ => hs'.trans)
  exact hedges.bind fun _ _ _ => writeNode_revalues b n

theorem deleteNode_revalues (n : NodeId) : (deleteNode b n).Changes Graph.Revalues s := by
  have herase (m : NodeId) (s' : Session σ) : (eraseNode b m).Changes Graph.Revalues s' :=
    (ends_eraseNode b).2 ⟨fun _ => Graph.revalues_setFresh .., fun _ =>
      ⟨fun _ _ => Graph.revalues_setFresh .., fun _ _ _ => .refl _⟩⟩
  rw [Changes, deleteNode, ends_bind, ends_requireNode]
  refine ⟨fun node hnode => ?_, fun _ => .refl _⟩
  rw [ends_bind, ends_graph]
  refine ends_foldlM (fun _ s' => s.graph.Revalues s'.graph)
    (fun m _ count s' hs' => ends_bind.2 ?_) (.refl _)
  exact (herase m s').mono (fun _ _ => hs'.trans) (fun _ _ => hs'.trans)

end Action
end RecordGraph
