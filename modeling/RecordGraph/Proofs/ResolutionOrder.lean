import RecordGraph.Proofs.FetchWalk
import RecordGraph.Proofs.Routes
import RecordGraph.Proofs.RowLife
import RecordGraph.Proofs.StoreRows

/-!
# The order of references

What references leave behind does not depend on their order: the nodes and columns are told by
their joins, and the key of each node by a walk of the store. A database refuses to read a name
with a NUL, and it depends on the order which names are read together.
-/
namespace RecordGraph

/-! ## Refused selections -/

namespace Store

/-- Each foreign key on the way has a value. -/
def Joins (store : Store) (row : RowName) (hops : List Hop) : Prop :=
  ∀ before h, before ++ [h] <+: hops → (store.walk? row h.foreignKey before).isSome

section
variable {store : Store} {row : RowName} {columns : List String} {c d : String}

/-- Two columns of a row differ in whether they can be read only by their names. -/
theorem mem_of_not_isReadable (hread : IsReadable (.select row.table row.key [c]))
    (hunread : ¬ IsReadable (.select row.table row.key [d])) : '\x00' ∈ d.toList := by
  have hquote : '\x00' ≠ '"' := by decide
  by_contra hd
  refine hunread ?_
  simp only [IsReadable, Statement.render, Dialect.standard, String.toList_append, List.mem_append,
    List.map_cons, List.map_nil, String.intercalate_singleton, Sql.mem_quoteIdentifier hquote,
    not_or] at hread ⊢
  exact ⟨⟨⟨⟨hread.1.1.1.1, hd⟩, hread.1.1.2⟩, hread.1.2⟩, hread.2⟩

/-- Where one column has a value, others are read with it, unless a name among them cannot be. -/
theorem query_or_refused (hrow : ¬ row.IsBlank) (hc : c ∈ columns)
    (hcell : (store.cell? row c).isSome) :
    (∃ found, backend.query (.select row.table row.key columns) store = (.ok (some found), store)) ∨
    (backend.query (.select row.table row.key columns) store =
        (.error (failure (.select row.table row.key columns) .unreadable), store) ∧
      ∃ d ∈ columns, '\x00' ∈ d.toList) := by
  have hne : columns ≠ [] := List.ne_nil_of_mem hc
  rw [cell?, if_neg hrow] at hcell
  split_ifs at hcell with hread
  · by_cases hall : IsReadable (.select row.table row.key columns)
    · refine .inl ?_
      rw [query_of_readable hall]
      cases ht : store.table? row.table with
      | none => simp [ht] at hcell
      | some t =>
        cases hr : t.find? row.key with
        | none => simp [ht, hr] at hcell
        | some r => simp [Table.select, hr]
    · refine .inr ⟨if_neg hall, ?_⟩
      obtain ⟨d, hd, hunread⟩ : ∃ d ∈ columns, ¬ IsReadable (.select row.table row.key [d]) := by
        simpa using mt (isReadable_select hne).2 hall
      exact ⟨d, hd, mem_of_not_isReadable hread hunread⟩
  · cases hcell

end
end Store


/-! ## Agreement -/

namespace Graph

/-- Each node is led to from the root by one list of joins. -/
def IsRooted (g : Graph) : Prop := ∀ n, g.IsNode n → ∃! hops, g.descend root hops = some n

/-- The same nodes by the joins that lead to them, with the same tables and keys, equally new, and
with columns of the same names. -/
structure Agrees (g g' : Graph) : Prop where
  isRooted : g.IsRooted
  isRooted' : g'.IsRooted
  nodes : ∀ hops, (g.descend root hops).isSome ↔ (g'.descend root hops).isSome
  row : ∀ {hops n n'}, g.descend root hops = some n → g'.descend root hops = some n' →
    g.table n = g'.table n' ∧ g.keyName n = g'.keyName n' ∧ g.key n = g'.key n'
  isNew : ∀ {hops n n'}, g.descend root hops = some n → g'.descend root hops = some n' →
    (g.IsNew n ↔ g'.IsNew n')
  columns : ∀ {hops n n'}, g.descend root hops = some n → g'.descend root hops = some n' →
    ∀ name, (∃ c ∈ g.columnsOf n, g.name c = name) ↔ ∃ c ∈ g'.columnsOf n', g'.name c = name

section
variable {g g' : Graph} {n n' : NodeId} {hops : List Hop} {h : Hop}

theorem WellFormed.isRooted (hg : g.WellFormed) : g.IsRooted := by
  intro n hn
  obtain ⟨hops, hdescend⟩ := hg.below_root hn
  exact ⟨hops, hdescend, fun hops' h' => hg.descend_inj h' hdescend⟩

/-- The last join tells the table and the key column. -/
theorem WellFormed.hop_of_descend_concat (hg : g.WellFormed)
    (hn : g.descend Graph.root (hops ++ [h]) = some n) :
    g.table n = h.table ∧ g.keyName n = h.childColumn := by
  obtain ⟨m, -, x, -, rfl, rfl⟩ := hg.edge_of_descend_concat hn
  exact ⟨rfl, rfl⟩

theorem WellFormed.exists_column_iff (hg : g.WellFormed) {m : NodeId}
    (hn : g.descend m hops = some n) (name : String) :
    (∃ c ∈ g.columnsOf n, g.name c = name) ↔ (g.locate m (hops, name)).isSome := by
  rw [Option.isSome_iff_exists]
  constructor
  · rintro ⟨c, hc, rfl⟩
    exact ⟨c, hg.locate_of_mem hn hc⟩
  · rintro ⟨c, hc⟩
    obtain ⟨k, hk, hfind⟩ := locate_eq_some.1 hc
    obtain rfl := Option.some.inj (hn.symm.trans hk)
    exact ⟨c, hg.findColumn?_mem hfind⟩

end
end Graph

namespace Mirrors

variable {store : Store} {complete complete' : Prop} {g g' : Graph} {n n' : NodeId}
  {hops : List Hop}

open RecordGraph.Graph

/-- The store tells which row joins lead to, unless there is none. -/
theorem row_eq_or_blank (hm : Mirrors store complete g) (hm' : Mirrors store complete' g')
    (hroot : g.row root = g'.row root) (hn : g.descend root hops = some n)
    (hn' : g'.descend root hops = some n') :
    g.row n = g'.row n' ∨ (g.row n).IsBlank ∧ (g'.row n').IsBlank := by
  induction hops using List.reverseRecOn generalizing n n' with
  | nil =>
    obtain rfl := Option.some.inj hn
    obtain rfl := Option.some.inj hn'
    exact .inl hroot
  | append_singleton hops j ih =>
    obtain ⟨m, hk, x, hx, hhop, rfl⟩ := hm.wellFormed.edge_of_descend_concat hn
    obtain ⟨m', hk', x', hx', hhop', rfl⟩ := hm'.wellFormed.edge_of_descend_concat hn'
    obtain ⟨v, hv, hrow⟩ := hm.edge hx
    obtain ⟨v', hv', hrow'⟩ := hm'.edge hx'
    have hfk : g.name x.foreignKey = j.foreignKey := by rw [← hhop]; rfl
    have hfk' : g'.name x'.foreignKey = j.foreignKey := by rw [← hhop']; rfl
    rw [hfk] at hv
    rw [hfk'] at hv'
    rw [hhop] at hrow
    rw [hhop'] at hrow'
    obtain rfl : v = v' := by
      rcases ih hk hk' with hsame | ⟨hblank, hblank'⟩
      · exact Option.some.inj (hv.symm.trans (hsame ▸ hv'))
      · rw [Store.cell?_of_blank hblank] at hv
        rw [Store.cell?_of_blank hblank'] at hv'
        exact Option.some.inj (hv.symm.trans hv')
    by_cases hblank : v.IsBlank
    · have hnone : (j.row v).IsBlank := hblank
      refine .inr ⟨?_, ?_⟩
      · exact hrow.elim (fun h => h ▸ hnone) And.right
      · exact hrow'.elim (fun h => h ▸ hnone) And.right
    · refine .inl ?_
      rw [hrow.resolve_right fun h => hblank h.1, hrow'.resolve_right fun h => hblank h.1]

end Mirrors

/-! ## Following joins that have values -/

namespace Action

open RecordGraph.Graph

variable {store : Store} {s : Session Store} {n : NodeId} {c : ColumnId}

/-- The database refused to read a row, for a name with a NUL among its columns. -/
def RefusesName (e : Error) (s : Session Store) : Prop :=
  ∃ n c, e = .statement (Store.failure (s.graph.selection n) .unreadable) ∧
    c ∈ s.graph.columnsOf n ∧ '\x00' ∈ (s.graph.name c).toList

/-- A value that the store has is given, unless the selection with it is refused. -/
theorem value_refusesName (h : Reads store False s) (hc : c ∈ s.graph.columnsOf n)
    (hcell : (store.cell? (s.graph.row n) (s.graph.name c)).isSome) :
    (value Store.backend c).Ends s (fun _ _ => True) RefusesName := by
  obtain ⟨rfl, hm⟩ := h
  have hn := hm.wellFormed.isNode_of_column hc
  refine (ends_value Store.backend hm.wellFormed hc).2 ⟨fun _ => trivial, fun _ _ => trivial,
    fun _ _ => (ends_fetchNode Store.backend).2 ⟨fun hno => absurd hn hno, fun _ _ => trivial,
      fun _ hnew _ => ?_⟩⟩
  have hrow : ¬ (s.graph.row n).IsBlank := fun hblank => hnew ((hm.new hn).2 hblank)
  have hselection : s.graph.selection n = .select (s.graph.row n).table (s.graph.row n).key
      ((s.graph.columnsOf n).map s.graph.name) := by rw [selection, hm.cleanColumns_eq]; rfl
  rcases Store.query_or_refused hrow (List.mem_map_of_mem hc) hcell with
    ⟨found, hquery⟩ | ⟨hquery, d, hd, hnul⟩
  · rw [← hselection] at hquery
    refine ⟨fun _ _ _ => trivial, fun state hanswer => ?_, fun f state hanswer => ?_⟩
    · cases hquery.symm.trans hanswer
    · cases hquery.symm.trans hanswer
  · rw [← hselection] at hquery
    refine ⟨fun _ _ _ => trivial, fun state hanswer => ?_, fun f state hanswer => ?_⟩
    · cases hquery.symm.trans hanswer
    · obtain ⟨hf, -⟩ := Prod.mk.inj (hquery.symm.trans hanswer)
      obtain rfl := Except.error.inj hf
      obtain ⟨k, hk, rfl⟩ := List.mem_map.1 hd
      exact ⟨n, k, rfl, hk, hnul⟩

theorem joinFrom_refusesName {table childColumn : String} (h : Reads store False s)
    (hc : c ∈ s.graph.columnsOf n)
    (hcell : (store.cell? (s.graph.row n) (s.graph.name c)).isSome) :
    (joinFrom Store.backend c table childColumn).Ends s (fun _ _ => True) RefusesName := by
  refine joinFrom_cases Store.backend h.2.wellFormed hc (fun _ _ => trivial) fun _ => ?_
  exact (value_refusesName h hc hcell).mono (fun _ _ _ _ _ _ => trivial) (fun _ _ => id)

/-- Joins that have values are followed, unless a selection on the way is refused. -/
theorem follow_refusesName (hops : List Hop) (h : Reads store False s) (hn : s.graph.IsNode n)
    (hjoins : store.Joins (s.graph.row n) hops) :
    (follow Store.backend n hops).Ends s (fun _ _ => True) RefusesName := by
  induction hops generalizing s n with
  | nil => exact trivial
  | cons j hops ih =>
    have hg := h.2.wellFormed
    refine ends_bind.2 (((addColumn_follows h hn False.elim).and (addColumn_ends hg hn)).mono
      (fun fk s₁ h₁ => ?_) (fun _ _ hno => hno.2.elim))
    obtain ⟨⟨hreads₁, hkeep₁⟩, hevolves₁, hfind⟩ := h₁
    have hg₁ := hreads₁.2.wellFormed
    obtain ⟨hfk, hname⟩ := hg₁.findColumn?_mem hfind
    have hcell : (store.cell? (s₁.graph.row n) (s₁.graph.name fk)).isSome := by
      rw [hkeep₁.row_eq hg hn, hname]
      exact hjoins [] j (List.prefix_append [j] hops)
    refine ends_bind.2 ((((joinFrom_follows hreads₁ hfk).and
      (joinFrom_ends Store.backend hg₁ hfk)).and (joinFrom_refusesName hreads₁ hfk hcell)).mono
        (fun child s₂ h₂ => ?_) (fun _ _ => And.right))
    obtain ⟨⟨⟨hreads₂, hkeep₂⟩, -, hchild⟩, -⟩ := h₂
    have hg₂ := hreads₂.2.wellFormed
    rw [hname] at hchild
    have hdescend : s₂.graph.descend n [j] = some child := by
      rw [descend, hchild]
      rfl
    refine ih hreads₂ (hg₂.isNode_of_findChild? hchild) fun before h' hprefix => ?_
    rw [← hreads₂.2.walk?_descend hdescend, (hkeep₁.trans hkeep₂).row_eq hg hn]
    exact hjoins (j :: before) h' ((List.prefix_cons_inj j).2 hprefix)

/-- A route is registered in a graph that mirrors its store. -/
theorem register_follows (r : Route) (h : Reads store False s) :
    Follows store False (r.register Store.backend) s := by
  have hg := h.2.wellFormed
  rw [Follows, Route.register, ends_bind]
  refine ((follow_follows "" r.hops h hg.root False.elim).and
    (follow_descends Store.backend r.hops hg hg.root)).mono (fun n s' h' => ?_) (fun _ _ _ => id)
  obtain ⟨⟨hreads, hkeep⟩, -, hn⟩ := h'
  have hg' := hreads.2.wellFormed
  split
  · exact ⟨hreads, hkeep⟩
  · refine ends_discard.2 ((addColumn_follows hreads (hg'.isNode_of_descend hg'.root hn)
      False.elim).mono (fun _ _ h'' => ⟨h''.1, hkeep.trans h''.2⟩) (fun _ _ => id))

theorem register_refusesName (r : Route) (h : Reads store False s)
    (hjoins : store.Joins (s.graph.row root) r.hops) :
    (r.register Store.backend).Ends s (fun _ _ => True) RefusesName := by
  have hg := h.2.wellFormed
  rw [Route.register, ends_bind]
  refine ((follow_refusesName r.hops h hg.root hjoins).and
    (follow_descends Store.backend r.hops hg hg.root)).mono (fun n s' h' => ?_)
      (fun _ _ => And.left)
  obtain ⟨-, hevolves, hn⟩ := h'
  have hg' := hevolves.wellFormed hg
  split
  · trivial
  · exact ends_discard.2 ((addColumn_ends hg' (hg'.isNode_of_descend hg'.root hn)).mono
      (fun _ _ _ => trivial) (fun _ _ => False.elim))

/-! ## References in order -/

/-- Resolves references one after the other. -/
def resolveAll {σ : Type} (b : Backend σ) (refs : List Reference) : Action σ Unit :=
  refs.forM (Reference.resolve b)

/-- The routes of references that are well-formed. -/
def routesOf (refs : List Reference) : List Route := refs.filterMap fun r => r.route.toOption

/-- What resolving leaves: a mirror of the store around the row that was opened, with what the
references need and nothing else. -/
structure Resolved (store : Store) (row : RowName) (refs : List Reference) (s : Session Store) :
    Prop where
  reads : Reads store False s
  covers : s.graph.Covers (routesOf refs)
  keysWait : s.graph.KeysWait
  row : s.graph.row root = row
  parsed : ∀ r ∈ refs, ∃ route, r.route = .ok route

theorem mem_routesOf {refs : List Reference} {r : Route} :
    r ∈ routesOf refs ↔ ∃ ref ∈ refs, ref.route = .ok r := by
  have hok (m : Except PathError Route) : m.toOption = some r ↔ m = .ok r := by
    cases m <;> simp [Except.toOption]
  simp only [routesOf, List.mem_filterMap, hok]

theorem resolved_start (store : Store) (table keyName : String) (key : Value) :
    Resolved store ((Graph.single table keyName key).row root) []
      (.start table keyName key store) where
  reads := ⟨rfl, mirrors_single ..⟩
  covers := covers_single ..
  keysWait := keysWait_single table keyName key
  row := rfl
  parsed _ h := by cases h

namespace Resolved

variable {row : RowName} {refs refs' : List Reference} {s' : Session Store}

/-- The row of a node is told by the joins that lead to it. -/
theorem row_eq (h : Resolved store row refs s) (h' : Resolved store row refs' s') {n' : NodeId}
    {hops : List Hop} (hn : s.graph.descend root hops = some n)
    (hn' : s'.graph.descend root hops = some n') : s.graph.row n = s'.graph.row n' := by
  have hm := h.reads.2
  have hm' := h'.reads.2
  have hnode := hm.wellFormed.isNode_of_descend hm.wellFormed.root hn
  have hnode' := hm'.wellFormed.isNode_of_descend hm'.wellFormed.root hn'
  rcases hm.row_eq_or_blank hm' (h.row.trans h'.row.symm) hn hn' with hsame | ⟨hblank, hblank'⟩
  · exact hsame
  · -- a blank key is null, so only the table and the name of the key are left
    have hkey := h.keysWait.key_eq_null ((hm.new hnode).2 hblank)
    have hkey' := h'.keysWait.key_eq_null ((hm'.new hnode').2 hblank')
    rcases List.eq_nil_or_concat hops with rfl | ⟨before, j, rfl⟩
    · obtain rfl := Option.some.inj hn
      obtain rfl := Option.some.inj hn'
      exact h.row.trans h'.row.symm
    · rw [List.concat_eq_append] at hn hn'
      obtain ⟨htable, hname⟩ := hm.wellFormed.hop_of_descend_concat hn
      obtain ⟨htable', hname'⟩ := hm'.wellFormed.hop_of_descend_concat hn'
      simp only [Graph.row, keyMatch, htable, hname, hkey, htable', hname', hkey']

/-- The same references agree, in whatever order they were resolved. -/
theorem agrees (h : Resolved store row refs s) (h' : Resolved store row refs' s')
    (hsame : ∀ r, r ∈ refs ↔ r ∈ refs') : s.graph.Agrees s'.graph := by
  have hg := h.reads.2.wellFormed
  have hg' := h'.reads.2.wellFormed
  have hroutes (r : Route) : r ∈ routesOf refs ↔ r ∈ routesOf refs' := by
    simp only [mem_routesOf, hsame]
  exact {
    isRooted := hg.isRooted
    isRooted' := hg'.isRooted
    nodes := fun hops => by
      rw [h.covers.nodes hops, h'.covers.nodes hops]
      simp only [List.mem_map, hroutes]
    row := fun hn hn' => by
      obtain ⟨htable, hkey⟩ := RowName.mk.inj (h.row_eq h' hn hn')
      obtain ⟨hname, hvalue⟩ := KeyMatch.mk.inj hkey
      exact ⟨htable, hname, hvalue⟩
    isNew := fun hn hn' => by
      rw [h.reads.2.new (hg.isNode_of_descend hg.root hn),
        h'.reads.2.new (hg'.isNode_of_descend hg'.root hn'), h.row_eq h' hn hn']
    columns := fun hn hn' name => by
      rw [hg.exists_column_iff hn, hg'.exists_column_iff hn', h.covers.columns, h'.covers.columns]
      simp only [hroutes] }

/-- Each foreign key on the way of a resolved reference has a value. -/
theorem joins (h : Resolved store row refs s) {r : Reference} {route : Route}
    (hr : r ∈ refs) (hroute : r.route = .ok route) : store.Joins row route.hops := by
  have hm := h.reads.2
  intro before j hprefix
  have hsome : (s.graph.descend root (before ++ [j])).isSome :=
    (h.covers.nodes _).2 (.inr ⟨route.hops, List.mem_map_of_mem (mem_routesOf.2 ⟨r, hr, hroute⟩),
      hprefix⟩)
  obtain ⟨k, hk⟩ := Option.isSome_iff_exists.1 hsome
  obtain ⟨m, hdescend, x, hx, rfl, -⟩ := hm.wellFormed.edge_of_descend_concat hk
  obtain ⟨v, hv, -⟩ := hm.edge hx
  rw [← h.row, ← List.append_nil before, hm.walk?_descend hdescend, Store.walk?]
  exact Option.isSome_iff_exists.2 ⟨v, hv⟩

/-- One more reference. Where it stops although its joins have values, a selection was refused,
and no names were registered but those of the references. -/
theorem resolve {r : Reference} (h : Resolved store row refs s) :
    (r.resolve Store.backend).Ends s (fun _ => Resolved store row (refs ++ [r]))
      (fun e s' => ∀ route, r.route = .ok route → store.Joins row route.hops →
        RefusesName e s' ∧ ∀ k c, c ∈ s'.graph.columnsOf k →
          ∃ route ∈ routesOf (refs ++ [r]), s'.graph.name c ∈ route.names) := by
  have hg := h.reads.2.wellFormed
  refine (ends_resolve Store.backend hg).2 ⟨fun e he route hok => ?_, fun route hroute => ?_⟩
  · rw [he] at hok
    cases hok
  · have hroutes : routesOf (refs ++ [r]) = routesOf refs ++ [route] := by
      simp [routesOf, hroute, Except.toOption]
    have hcovers := register_covers Store.backend route hg h.covers
    rw [← hroutes] at hcovers
    have hrefuses : (route.register Store.backend).Ends s (fun _ _ => True)
        (fun e s' => store.Joins row route.hops → RefusesName e s') := by
      by_cases hjoins : store.Joins row route.hops
      · exact (register_refusesName route h.reads (h.row ▸ hjoins)).mono (fun _ _ => id)
          (fun _ _ hrefused _ => hrefused)
      · exact ends_of_forall (fun _ _ _ => trivial) (fun _ _ _ hno => absurd hno hjoins)
    refine (((register_follows route h.reads).and hcovers).and hrefuses).mono (fun _ s' h' => ?_)
      (fun e s' h' route' hroute' hjoins => ?_)
    · obtain ⟨⟨⟨hreads, hkeep⟩, hevolves, hcovers'⟩, -⟩ := h'
      exact {
        reads := hreads
        covers := hcovers'
        keysWait := hevolves.keysWait hg h.keysWait
        row := (hkeep.row_eq hg hg.root).trans h.row
        parsed := fun ref href => by
          rcases List.mem_append.1 href with hold | hnew
          · exact h.parsed ref hold
          · exact ⟨route, List.mem_singleton.1 hnew ▸ hroute⟩ }
    · obtain ⟨⟨-, hnames⟩, hrefused⟩ := h'
      obtain rfl := Except.ok.inj (hroute.symm.trans hroute')
      exact ⟨hrefused hjoins, hnames⟩

/-- References one after the other. -/
theorem resolveAll (h : Resolved store row [] s) (refs : List Reference) :
    (resolveAll Store.backend refs).Ends s (fun _ => Resolved store row refs)
      (fun e s' => (∀ r ∈ refs, ∃ route, r.route = .ok route ∧ store.Joins row route.hops) →
        RefusesName e s' ∧ ∀ k c, c ∈ s'.graph.columnsOf k →
          ∃ route ∈ routesOf refs, s'.graph.name c ∈ route.names) := by
  refine ends_forM_met (P := fun met => Resolved store row met) (fun met r rest s' hrefs h' => ?_) h
  refine h'.resolve.mono (fun _ _ => id) (fun e s'' hstops hall => ?_)
  obtain ⟨route, hroute, hjoins⟩ := hall r (by simp [hrefs])
  obtain ⟨hrefused, hnames⟩ := hstops route hroute hjoins
  refine ⟨hrefused, fun k c hc => ?_⟩
  obtain ⟨route', hroute', hname⟩ := hnames k c hc
  obtain ⟨ref, href, hok⟩ := mem_routesOf.1 hroute'
  refine ⟨route', mem_routesOf.2 ⟨ref, ?_, hok⟩, hname⟩
  rw [hrefs, List.append_cons]
  exact List.mem_append_left _ href

end Resolved

/-- References that a new record resolves leave the same graph in every order in which it resolves
them. Where it stops in another order, the database refuses to read a row for a name with a NUL
that one of the references brings; without such names it resolves them in every order. -/
theorem resolveAll_perm (store : Store) (table keyName : String) (key : Value)
    {refs refs' : List Reference} {s : Session Store} (hperm : refs.Perm refs')
    (h : resolveAll Store.backend refs (.start table keyName key store) = .ok () s) :
    (∀ s', resolveAll Store.backend refs' (.start table keyName key store) = .ok () s' →
      s.graph.Agrees s'.graph) ∧
    (∀ e s', resolveAll Store.backend refs' (.start table keyName key store) = .error e s' →
      ∃ n c, e = .statement (Store.failure (s'.graph.selection n) .unreadable) ∧
        c ∈ s'.graph.columnsOf n ∧ '\x00' ∈ (s'.graph.name c).toList ∧
        ∃ r ∈ refs, r.Mentions (s'.graph.name c)) ∧
    ((∀ r ∈ refs, ∀ name, r.Mentions name → '\x00' ∉ name.toList) →
      ∃ s', resolveAll Store.backend refs' (.start table keyName key store) = .ok () s') := by
  have hstart := resolved_start store table keyName key
  have hs := (hstart.resolveAll refs).of_ok h
  have hends := hstart.resolveAll refs'
  have hstops (e : Error) (s' : Session Store)
      (he : resolveAll Store.backend refs' (.start table keyName key store) = .error e s') :
      ∃ n c, e = .statement (Store.failure (s'.graph.selection n) .unreadable) ∧
        c ∈ s'.graph.columnsOf n ∧ '\x00' ∈ (s'.graph.name c).toList ∧
        ∃ r ∈ refs, r.Mentions (s'.graph.name c) := by
    obtain ⟨⟨n, c, rfl, hc, hnul⟩, hnames⟩ := hends.of_error he fun r hr => by
      have hr' := hperm.mem_iff.2 hr
      obtain ⟨route, hroute⟩ := hs.parsed r hr'
      exact ⟨route, hroute, hs.joins hr' hroute⟩
    obtain ⟨route, hmem, hname⟩ := hnames n c hc
    obtain ⟨r, hr, hroute⟩ := mem_routesOf.1 hmem
    exact ⟨n, c, rfl, hc, hnul, r, hperm.mem_iff.2 hr, route, hroute, hname⟩
  refine ⟨fun s' h' => hs.agrees (hends.of_ok h') fun r => hperm.mem_iff, hstops, fun hread => ?_⟩
  cases hresult : resolveAll Store.backend refs' (.start table keyName key store) with
  | ok _ s' => exact ⟨s', rfl⟩
  | error e s' =>
    obtain ⟨n, c, -, -, hnul, r, hr, hmentions⟩ := hstops e s' hresult
    exact absurd hnul (hread r hr _ hmentions)

/-- A table and a column behind joins, in two orders: the nodes have other numbers, and one of them
has no row. -/
theorem resolveAll_perm_joined :
    let store : Store := ⟨[⟨"t0", some "id", ["t1_id"], [⟨1, [("t1_id", .integer 5)]⟩]⟩,
      ⟨"t1", some "id", ["t2_id"], [⟨5, [("t2_id", .text " "), ("t3_id", .integer 2)]⟩]⟩], 5⟩
    let refs : List Reference := [.column "t1.t2.title", .table "t3[ref = t1.title]", .column "x"]
    let s := Session.start "t0" "id" (.integer 1) store
    ∃ t t', resolveAll Store.backend refs s = .ok () t ∧
      resolveAll Store.backend refs.reverse s = .ok () t' ∧ t.graph.nodes.size = 4 ∧
      t.graph ≠ t'.graph ∧ t.graph.Agrees t'.graph := by
  intro store refs s
  have hok : resolveAll Store.backend refs s = .ok () ((resolveAll Store.backend refs).after s) :=
    eq_ok_of_result? (by decide +kernel)
  have hnames : ∀ r ∈ refs, ∀ route ∈ r.route.toOption, ∀ name ∈ route.names,
      '\x00' ∉ name.toList := by decide +kernel
  obtain ⟨hagrees, -, hresolves⟩ := resolveAll_perm store "t0" "id" (.integer 1)
    (List.reverse_perm refs).symm hok
  obtain ⟨t', ht'⟩ := hresolves fun r hr name ⟨route, hroute, hname⟩ =>
    hnames r hr route (by rw [hroute]; rfl) name hname
  have hok' : resolveAll Store.backend refs.reverse s =
      .ok () ((resolveAll Store.backend refs.reverse).after s) :=
    eq_ok_of_result? (by rw [result?, ht'])
  exact ⟨_, _, hok, hok', by decide +kernel, by decide +kernel, hagrees _ hok'⟩

/-- A name with a NUL character is registered without a read behind a join, and in front of it the
join cannot be read any more. -/
theorem resolveAll_unreadable_name :
    let store : Store := ⟨[⟨"t0", some "id", ["title", "t1_id"],
        [⟨1, [("title", .text "y"), ("t1_id", .integer 5)]⟩]⟩,
      ⟨"t1", some "id", ["title"], [⟨5, [("title", .text "x")]⟩]⟩], 5⟩
    let refs : List Reference := [.column "t1.title", .column "a\x00b"]
    let s := Session.start "t0" "id" (.integer 1) store
    refs.Perm refs.reverse ∧ (resolveAll Store.backend refs).result? s = some () ∧
      (resolveAll Store.backend refs.reverse).result? s = none := by
  decide +kernel

end Action
end RecordGraph
