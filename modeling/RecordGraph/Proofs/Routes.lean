import RecordGraph.Proofs.Keys
import RecordGraph.Proofs.Spanning
import RecordGraph.Proofs.Spellings

/-!
# What references register

A reference asks for a column or for a table by path. What it registers behind the root is told by
its joins: the nodes on the way, the foreign keys on the way, and the column that it asks for. So
what a number of references leave does not depend on their order.
-/
namespace RecordGraph

/-- What a caller asks for by path, relative to the root of a record. -/
inductive Reference where
  | column (path : String)
  | table (path : String)
  deriving DecidableEq

/-- The joins of a reference, and the column behind them if it asks for one. -/
structure Route where
  hops : List Hop
  column : Option String

namespace Route

variable (r : Route)

/-- The names of the columns that are registered on the way. -/
def names : List String := r.hops.map Hop.foreignKey ++ r.column.toList

/-- Behind some joins stands a column for the route: the foreign key of the next join, or the
column at the end. -/
def Needs (hops : List Hop) (name : String) : Prop :=
  (∃ h, hops ++ [h] <+: r.hops ∧ h.foreignKey = name) ∨ hops = r.hops ∧ r.column = some name

/-- Registers the joins of the route, and its column. -/
def register {σ : Type} (b : Backend σ) : Action σ Unit := do
  let n ← Action.follow b Graph.root r.hops
  match r.column with
  | none => return
  | some name => discard (Action.addColumn n name)

variable {r}

theorem mem_names_of_needs {hops : List Hop} {name : String} (h : r.Needs hops name) :
    name ∈ r.names := by
  rcases h with ⟨j, hprefix, rfl⟩ | ⟨-, hcolumn⟩
  · have hj : j ∈ r.hops := hprefix.subset (by simp)
    exact List.mem_append_left _ (List.mem_map_of_mem hj)
  · exact List.mem_append_right _ (by simp [hcolumn])

end Route

namespace Reference

/-- The route of a reference, unless its path is malformed. -/
def route : Reference → Except PathError Route
  | column path => (ColumnPath.parse path).map fun p => ⟨p.flatten.1, some p.flatten.2⟩
  | table path => (TableSpec.parsePath path).map fun ts => ⟨ts.flatMap TableSpec.hops, none⟩

/-- The reference registers a column of this name, as a foreign key on the way or at the end. -/
def Mentions (r : Reference) (name : String) : Prop :=
  ∃ route, r.route = .ok route ∧ name ∈ route.names

/-- Resolves the path of a reference from the root. -/
def resolve {σ : Type} (b : Backend σ) : Reference → Action σ Unit
  | column path => discard (Action.resolveColumn b Graph.root path)
  | table path => discard (Action.resolveTable b Graph.root path)

end Reference

namespace Graph

/-- The graph has what the routes need, and nothing else. -/
structure Covers (routes : List Route) (g : Graph) : Prop where
  nodes : g.Spans (routes.map Route.hops)
  columns : ∀ hops name, (g.locate root (hops, name)).isSome ↔ ∃ r ∈ routes, r.Needs hops name

/-- The columns that were added are the foreign keys of joins on the way. -/
def Plants (n : NodeId) (hops : List Hop) (g g' : Graph) : Prop :=
  ∀ k c, c ∈ g'.columnsOf k → c ∈ g.columnsOf k ∨
    ∃ before h, before ++ [h] <+: hops ∧ h.foreignKey = g'.name c ∧
      g'.descend n before = some k

section
variable {g g' : Graph} {n m : NodeId} {c : ColumnId} {h : Hop} {hops : List Hop}
  {routes : List Route}

/-- The last join is one of the node that the joins before it lead to. -/
theorem WellFormed.edge_of_descend_concat (hg : g.WellFormed)
    (hm : g.descend n (hops ++ [h]) = some m) :
    ∃ k, g.descend n hops = some k ∧ ∃ x ∈ g.edgesOf k, g.hop x = h ∧ x.child = m := by
  rw [descend_concat] at hm
  obtain ⟨k, hk, hchild⟩ := Option.bind_eq_some_iff.1 hm
  exact ⟨k, hk, hg.findChild?_mem hchild⟩

/-- A join stands behind its foreign key. -/
theorem WellFormed.isSome_locate_of_concat (hg : g.WellFormed)
    (hsome : (g.descend n (hops ++ [h])).isSome) : (g.locate n (hops, h.foreignKey)).isSome := by
  obtain ⟨k, hk⟩ := Option.isSome_iff_exists.1 hsome
  obtain ⟨m, hm, x, hx, rfl, -⟩ := hg.edge_of_descend_concat hk
  obtain ⟨-, -, -, hfk, -⟩ := hg.edge_of_mem hx
  exact Option.isSome_iff_exists.2 ⟨_, locate_eq_some.2 ⟨m, hm, hg.findColumn?_eq hfk⟩⟩

theorem WellFormed.locate_of_mem (hg : g.WellFormed) (hm : g.descend n hops = some m)
    (hc : c ∈ g.columnsOf m) : g.locate n (hops, g.name c) = some c :=
  locate_eq_some.2 ⟨m, hm, hg.findColumn?_eq hc⟩

/-- Behind a registered join everything is registered behind the join before it. -/
theorem Plants.cons {child : NodeId} (h' : Plants child hops g g')
    (hchild : g'.findChild? n h = some child) : Plants n (h :: hops) g g' := by
  intro k c hc
  rcases h' k c hc with hold | ⟨before, j, hprefix, hname, hk⟩
  · exact .inl hold
  · refine .inr ⟨h :: before, j, (List.prefix_cons_inj h).2 hprefix, hname, ?_⟩
    rw [descend, hchild]
    exact hk

/-- What was added is what one more route needs. -/
theorem Covers.concat {r : Route} (h : g.Covers routes) (hg : g.WellFormed) (hg' : g'.WellFormed)
    (hgrow : Grows g g') (hpath : (g'.descend root r.hops).isSome)
    (hcolumn : ∀ name, r.column = some name → (g'.locate root (r.hops, name)).isSome)
    (hnodes : ∀ k, g'.IsNode k →
      g.IsNode k ∨ ∃ hops, hops <+: r.hops ∧ g'.descend root hops = some k)
    (hcolumns : ∀ k c, c ∈ g'.columnsOf k → c ∈ g.columnsOf k ∨
      ∃ hops, g'.descend root hops = some k ∧ r.Needs hops (g'.name c)) :
    g'.Covers (routes ++ [r]) where
  nodes := by
    rw [List.map_append]
    exact h.nodes.concat hg hg' hgrow hpath hnodes
  columns hops name := by
    constructor
    · intro hsome
      obtain ⟨c, hc⟩ := Option.isSome_iff_exists.1 hsome
      obtain ⟨k, hk, hfind⟩ := locate_eq_some.1 hc
      obtain ⟨hmem, rfl⟩ := hg'.findColumn?_mem hfind
      rcases hcolumns k c hmem with hold | ⟨hops', hk', hneeds⟩
      · -- the joins that led to an old node are the ones that lead to it now
        obtain ⟨hops', hk'⟩ := hg.below_root (hg.isNode_of_column hold)
        obtain rfl := hg'.descend_inj hk (hgrow.descend hg hg' hk')
        have hlocate := hg.locate_of_mem hk' hold
        rw [← (hgrow.column (hg.column hold).1).2] at hlocate
        obtain ⟨r', hr', hneeds⟩ := (h.columns _ _).1 (Option.isSome_iff_exists.2 ⟨c, hlocate⟩)
        exact ⟨r', List.mem_append_left _ hr', hneeds⟩
      · obtain rfl := hg'.descend_inj hk hk'
        exact ⟨r, by simp, hneeds⟩
    · rintro ⟨r', hr', hneeds⟩
      rcases List.mem_append.1 hr' with hr' | hr'
      · obtain ⟨c, hc⟩ := Option.isSome_iff_exists.1 ((h.columns hops name).2 ⟨r', hr', hneeds⟩)
        exact Option.isSome_iff_exists.2 ⟨c, hgrow.locate hg hg' hc⟩
      · obtain rfl := List.mem_singleton.1 hr'
        rcases hneeds with ⟨j, hprefix, rfl⟩ | ⟨rfl, htarget⟩
        · have hreached := isSome_descend_of_prefix hprefix hpath
          exact hg'.isSome_locate_of_concat hreached
        · exact hcolumn name htarget

theorem Covers.mem_names (h : g.Covers routes) (hg : g.WellFormed) (hc : c ∈ g.columnsOf n) :
    ∃ r ∈ routes, g.name c ∈ r.names := by
  obtain ⟨hops, hn⟩ := hg.below_root (hg.isNode_of_column hc)
  obtain ⟨r, hr, hneeds⟩ := (h.columns hops (g.name c)).1
    (Option.isSome_iff_exists.2 ⟨c, hg.locate_of_mem hn hc⟩)
  exact ⟨r, hr, Route.mem_names_of_needs hneeds⟩

/-- A record that was opened just now has nothing but its row. -/
theorem covers_single (table keyName : String) (key : Value) :
    (Graph.single table keyName key).Covers [] where
  nodes := spans_of_nodes (wellFormed_single ..) fun _ hn => isNode_single.1 hn
  columns hops name := by
    refine iff_of_false (fun hsome => ?_) (by simp)
    obtain ⟨c, hc⟩ := Option.isSome_iff_exists.1 hsome
    obtain ⟨k, -, hfind⟩ := locate_eq_some.1 hc
    have hmem := ((wellFormed_single table keyName key).findColumn?_mem hfind).1
    rw [columnsOf_single] at hmem
    cases hmem

end
end Graph

namespace Action

open RecordGraph.Graph

variable {σ : Type} (b : Backend σ) {s : Session σ} {n : NodeId} {routes : List Route}

/-! ## Columns on the way -/

theorem addColumn_columns {name : String} (hn : s.graph.IsNode n) : (addColumn n name).Ends s
    (fun fk s' => ∀ k c, c ∈ s'.graph.columnsOf k → c ∈ s.graph.columnsOf k ∨ k = n ∧ c = fk)
    (fun _ _ => False) := by
  simp only [addColumn, ends_register]
  cases hfind : s.graph.findColumn? n name with
  | some c =>
    rw [addColumn_of_some hfind]
    exact fun k c hc => .inl hc
  | none =>
    rw [addColumn_of_none hfind]
    intro k c hc
    rw [columnsOf_withColumn hn] at hc
    split at hc
    · next hnk =>
      rcases List.mem_append.1 hc with hc | hc
      · exact .inl hc
      · exact .inr ⟨hnk.symm, List.mem_singleton.1 hc⟩
    · exact .inl hc

/-- A join adds no column. -/
theorem joinFrom_columns {fk : ColumnId} {table childColumn : String} (hg : s.graph.WellFormed)
    (hfk : fk ∈ s.graph.columnsOf n) :
    (joinFrom b fk table childColumn).Changes
      (fun g g' => ∀ k, g'.columnsOf k = g.columnsOf k) s := by
  refine joinFrom_cases b hg hfk (fun _ _ _ => rfl) fun _ => ?_
  refine (value_revalues b fk).mono (fun key s' hs' _ hfk' _ k => ?_)
    (fun _ _ hs' k => hs'.columnsOf k)
  have hn' : s'.graph.IsNode n := (isNode_of_shape_eq hs'.2 n).2 (hg.isNode_of_column hfk)
  exact (columnsOf_withChild hn').trans (hs'.columnsOf k)

/-- Following joins adds the foreign keys of the joins only, also where it stops. -/
theorem follow_plants (hops : List Hop) (hg : s.graph.WellFormed) (hn : s.graph.IsNode n) :
    (follow b n hops).Changes (Plants n hops) s := by
  induction hops generalizing s n with
  | nil => exact fun k c hc => .inl hc
  | cons h hops ih =>
    refine ends_bind.2 (((addColumn_ends hg hn).and (addColumn_columns hn)).mono
      (fun fk s₁ h₁ => ?_) (fun _ _ hno => hno.1.elim))
    obtain ⟨⟨hevolves₁, hfind⟩, hcolumns₁⟩ := h₁
    have hg₁ := hevolves₁.wellFormed hg
    obtain ⟨hfk, hname⟩ := hg₁.findColumn?_mem hfind
    -- the foreign key is the only column that the first join adds
    have hfirst {g : Graph} (hgrow : Grows s₁.graph g)
        (hsame : ∀ k, g.columnsOf k = s₁.graph.columnsOf k) : Plants n (h :: hops) s.graph g := by
      intro k c hc
      rw [hsame] at hc
      rcases hcolumns₁ k c hc with hold | ⟨rfl, rfl⟩
      · exact .inl hold
      · refine .inr ⟨[], h, List.prefix_append [h] hops, ?_, rfl⟩
        rw [(hgrow.column (hg₁.column hfk).1).2, hname]
    refine ends_bind.2 (((joinFrom_ends b hg₁ hfk).and (joinFrom_columns b hg₁ hfk)).mono
      (fun child s₂ h₂ => ?_) (fun _ s₂ h₂ => hfirst (h₂.1.grows hg₁) h₂.2))
    obtain ⟨⟨hevolves₂, hchild⟩, hcolumns₂⟩ := h₂
    have hg₂ := hevolves₂.wellFormed hg₁
    have hk := hg₂.isNode_of_findChild? hchild
    rw [hname] at hchild
    have hrest {g : Graph} (hevolves : s₂.graph.Evolves g)
        (hplants : Plants child hops s₂.graph g) : Plants n (h :: hops) s.graph g := by
      have hgrow := hevolves.grows hg₂
      have hchild' := hgrow.findChild? hg₂ (hevolves.wellFormed hg₂) hchild
      intro k c hc
      rcases hplants.cons hchild' k c hc with hold | hnew
      · rcases hfirst (hevolves₂.grows hg₁) hcolumns₂ k c hold with hold' |
          ⟨before, j, hprefix, hfk', hk'⟩
        · exact .inl hold'
        · refine .inr ⟨before, j, hprefix, ?_, hgrow.descend hg₂ (hevolves.wellFormed hg₂) hk'⟩
          rw [(hgrow.column (hg₂.column hold).1).2, hfk']
      · exact .inr hnew
    exact ((ih hg₂ hk).and (follow_descends b hops hg₂ hk)).mono
      (fun _ s₃ h₃ => hrest h₃.2.1 h₃.1) (fun _ s₃ h₃ => hrest h₃.2 h₃.1)

/-! ## References -/

/-- A reference registers its route. -/
theorem ends_resolve {post : Unit → Session σ → Prop} {fail : Error → Session σ → Prop}
    {r : Reference} (hg : s.graph.WellFormed) : (r.resolve b).Ends s post fail ↔
      (∀ e, r.route = .error e → fail (.path e) s) ∧
        ∀ route, r.route = .ok route → (route.register b).Ends s post fail := by
  cases r with
  | column path =>
    rw [Reference.resolve, ends_discard, ends_resolveColumn, Reference.route]
    cases ColumnPath.parse path with
    | error e => simp [hg.root, Except.map]
    | ok p => simp [hg.root, Except.map, Route.register, ends_bind, ends_discard, registerColumn_eq,
        ColumnPath.flatten_eq]
  | table path =>
    rw [Reference.resolve, ends_discard, ends_resolveTable, Reference.route]
    cases TableSpec.parsePath path with
    | error e => simp [hg.root, Except.map]
    | ok ts => simp [hg.root, Except.map, Route.register, ends_bind]

/-- A route adds what it needs. Where it stops, no other names were registered. -/
theorem register_covers (r : Route) (hg : s.graph.WellFormed) (h : s.graph.Covers routes) :
    (r.register b).Ends s
      (fun _ s' => s.graph.Evolves s'.graph ∧ s'.graph.Covers (routes ++ [r]))
      (fun _ s' => ∀ k c, c ∈ s'.graph.columnsOf k → ∃ r' ∈ routes ++ [r],
        s'.graph.name c ∈ r'.names) := by
  have hfollow := ((follow_descends b r.hops hg hg.root).and
    (follow_plants b r.hops hg hg.root)).and (follow_nodes b r.hops hg hg.root)
  rw [Route.register, ends_bind]
  refine hfollow.mono (fun n s₁ h₁ => ?_) (fun _ s₁ h₁ k c hc => ?_)
  · obtain ⟨⟨⟨hevolves, hn⟩, hplants⟩, hnodes⟩ := h₁
    have hg₁ := hevolves.wellFormed hg
    have hjoins (k : NodeId) (c : ColumnId) (hc : c ∈ s₁.graph.columnsOf k) :
        c ∈ s.graph.columnsOf k ∨ ∃ hops, s₁.graph.descend root hops = some k ∧
          r.Needs hops (s₁.graph.name c) := by
      rcases hplants k c hc with hold | ⟨before, j, hprefix, hname, hk⟩
      · exact .inl hold
      · exact .inr ⟨before, hk, .inl ⟨j, hprefix, hname⟩⟩
    have hpath : (s₁.graph.descend root r.hops).isSome := by
      rw [hn]
      rfl
    cases hcolumn : r.column with
    | none =>
      exact ⟨hevolves, h.concat hg hg₁ (hevolves.grows hg) hpath (by simp [hcolumn]) hnodes hjoins⟩
    | some name =>
      have hnode := hg₁.isNode_of_descend hg₁.root hn
      refine ends_discard.2 ((((addColumn_ends hg₁ hnode).and (addColumn_columns hnode)).and
        addColumn_nodes).mono (fun c s₂ h₂ => ?_) (fun _ _ hno => hno.2.elim))
      obtain ⟨⟨⟨hevolves₂, hfind⟩, hcolumns⟩, hnodes₂⟩ := h₂
      have hg₂ := hevolves₂.wellFormed hg₁
      have hgrow := hevolves₂.grows hg₁
      have hdescend {hops : List Hop} {k : NodeId} (hk : s₁.graph.descend root hops = some k) :
          s₂.graph.descend root hops = some k := hgrow.descend hg₁ hg₂ hk
      have hlocate : s₂.graph.locate root (r.hops, name) = some c :=
        locate_eq_some.2 ⟨n, hdescend hn, hfind⟩
      have hevolves' := hevolves.trans hevolves₂
      refine ⟨hevolves', h.concat hg hg₂ (hevolves'.grows hg) ?_ ?_ ?_ ?_⟩
      · rw [hdescend hn]
        rfl
      · intro name' hname'
        rw [hcolumn] at hname'
        obtain rfl := Option.some.inj hname'
        rw [hlocate]
        rfl
      · intro k hk
        exact (hnodes k (hnodes₂ k hk)).imp_right fun ⟨hops, hprefix, hk'⟩ =>
          ⟨hops, hprefix, hdescend hk'⟩
      · intro k d hd
        rcases hcolumns k d hd with hold | ⟨rfl, rfl⟩
        · rw [(hgrow.column (hg₁.column hold).1).2]
          exact (hjoins k d hold).imp_right fun ⟨hops, hk', hneeds⟩ => ⟨hops, hdescend hk', hneeds⟩
        · refine .inr ⟨r.hops, hdescend hn, .inr ⟨rfl, ?_⟩⟩
          rw [hcolumn, (hg₂.findColumn?_mem hfind).2]
  · obtain ⟨⟨hevolves, hplants⟩, -⟩ := h₁
    rcases hplants k c hc with hold | ⟨before, j, hprefix, hname, -⟩
    · obtain ⟨r', hr', hmem⟩ := h.mem_names hg hold
      rw [((hevolves.grows hg).column (hg.column hold).1).2]
      exact ⟨r', List.mem_append_left _ hr', hmem⟩
    · exact ⟨r, by simp, Route.mem_names_of_needs (.inl ⟨j, hprefix, hname⟩)⟩

end Action
end RecordGraph
