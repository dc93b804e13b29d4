import RecordGraph.Proofs.Mirror

/-!
# Paths of a new record

While a record is new, values are only set aside for a later save: resolving a
path reads nothing from the backend, and every joined row is new too. This ends
where a join is made by a column that was given a value before, since the joined
row is then looked up by this value.
-/
namespace RecordGraph

namespace Graph

variable {g g' : Graph} {n m : NodeId} {c d : ColumnId} {assigned : List (ColumnId × Value)}

/-- No row of the graph exists yet, and each column waits to write the value that it was
assigned last. -/
structure Drafts (assigned : List (ColumnId × Value)) (g : Graph) : Prop where
  wellFormed : g.WellFormed
  new : ∀ {n}, g.IsNode n → g.IsNew n
  column : ∀ {n c col}, c ∈ g.columnsOf n → g.column? c = some col →
    col.clean = none ∧ col.pending = assigned.reverse.lookup c
  known : ∀ {a}, a ∈ assigned → ∃ n, a.1 ∈ g.columnsOf n

/-- A join goes by a column that was assigned a value. -/
def Overlaps (assigned : List (ColumnId × Value)) (g : Graph) : Prop :=
  ∃ e x v, g.edge? e = some x ∧ (x.foreignKey, v) ∈ assigned

theorem Overlaps.grows (h : Overlaps assigned g) (hgrow : Grows g g') : Overlaps assigned g' := by
  obtain ⟨e, x, v, he, hv⟩ := h
  exact ⟨e, x, v, hgrow.edge he, hv⟩

namespace Drafts

theorem current_eq (h : Drafts assigned g) (hc : c ∈ g.columnsOf n) :
    g.current c = (assigned.reverse.lookup c).getD .null := by
  obtain ⟨col, hcol, -⟩ := column?_of_owner (h.wellFormed.column hc).1
  obtain ⟨hclean, hpending⟩ := h.column hc hcol
  simp [current, hcol, Column.current, hclean, hpending]

theorem isDirty_iff (h : Drafts assigned g) (hc : c ∈ g.columnsOf n) :
    g.IsDirty c ↔ ∃ v, (c, v) ∈ assigned := by
  obtain ⟨col, hcol, -⟩ := column?_of_owner (h.wellFormed.column hc).1
  obtain ⟨-, hpending⟩ := h.column hc hcol
  have hdirty : g.IsDirty c ↔ col.IsDirty := by simp [IsDirty, hcol]
  rw [hdirty, Column.IsDirty, hpending, List.lookup_isSome_iff]
  simp

/-- An unknown column was assigned nothing. -/
theorem lookup_size (h : Drafts assigned g) :
    assigned.reverse.lookup ⟨g.columns.size⟩ = none := by
  rw [List.lookup_eq_none_iff]
  intro a ha
  obtain ⟨n, hn⟩ := h.known (List.mem_reverse.1 ha)
  have hne := ne_size_of_owner (h.wellFormed.column hn).1
  simpa using Ne.symm hne

theorem setFresh (h : Drafts assigned g) (fresh : Bool) :
    Drafts assigned (g.setFresh m fresh) := by
  have hkeep : KeepsKeys g (g.setFresh m fresh) := keepsKeys_setFresh ..
  have hcolumns {n} : (g.setFresh m fresh).columnsOf n = g.columnsOf n :=
    columnsOf_of_shape_eq (by simp) n
  have hnode {n} : (g.setFresh m fresh).IsNode n ↔ g.IsNode n := isNode_of_shape_eq (by simp) n
  exact {
    wellFormed := h.wellFormed.of_shape_eq (by simp)
    new := fun hn => (hkeep.isNew_iff (hnode.1 hn)).2 (h.new (hnode.1 hn))
    column := fun hc hcol => by
      rw [hcolumns] at hc
      exact h.column hc hcol
    known := fun ha => by
      obtain ⟨n, hn⟩ := h.known ha
      exact ⟨n, by rwa [hcolumns]⟩ }

theorem withColumn (h : Drafts assigned g) {name : String} (hn : g.IsNode n)
    (hnew : g.findColumn? n name = none) : Drafts assigned (g.withColumn n name) := by
  have hg := h.wellFormed
  have hkeep : KeepsKeys g (g.withColumn n name) := keepsKeys_withColumn hg hn
  exact {
    wellFormed := hg.withColumn hn hnew
    new := fun hm => by
      rw [isNode_withColumn] at hm
      exact (hkeep.isNew_iff hm).2 (h.new hm)
    column := fun {m c col} hc hcol => by
      rw [column?_withColumn] at hcol
      by_cases hsize : c = ⟨g.columns.size⟩
      · -- the column that was added
        rw [if_pos hsize] at hcol
        rw [← Option.some.inj hcol, hsize, h.lookup_size]
        exact ⟨rfl, rfl⟩
      · rw [if_neg hsize] at hcol
        refine h.column (n := m) ?_ hcol
        rw [columnsOf_withColumn hn] at hc
        split at hc
        · exact (List.mem_append.1 hc).resolve_right fun hmem => hsize (List.mem_singleton.1 hmem)
        · exact hc
    known := fun ha => by
      obtain ⟨m, hm⟩ := h.known ha
      exact ⟨m, (hkeep.grows.columns m).subset hm⟩ }

theorem withChild (h : Drafts assigned g) {fk : ColumnId} {table childColumn : String}
    {key : Value} (hfk : fk ∈ g.columnsOf n)
    (hnew : g.findChild? n ⟨table, childColumn, g.name fk⟩ = none) (hkey : key.IsBlank) :
    Drafts assigned (g.withChild n fk table childColumn key) := by
  have hg := h.wellFormed
  have hn := hg.isNode_of_column hfk
  have hkeep : KeepsKeys g (g.withChild n fk table childColumn key) := keepsKeys_withChild hg hn
  exact {
    wellFormed := hg.withChild hfk hnew
    new := fun hm => by
      rcases isNode_withChild.1 hm with hm | rfl
      · exact (hkeep.isNew_iff hm).2 (h.new hm)
      · exact (isNew_withChild hn).2 hkey
    column := fun hc hcol => by
      rw [columnsOf_withChild hn] at hc
      rw [column?_withChild, if_neg (ne_size_of_owner (hg.column hc).1)] at hcol
      exact h.column hc hcol
    known := fun ha => by
      obtain ⟨m, hm⟩ := h.known ha
      exact ⟨m, (hkeep.grows.columns m).subset hm⟩ }

theorem assign (h : Drafts assigned g) (hc : c ∈ g.columnsOf n) (v : Value) :
    Drafts (assigned ++ [(c, v)]) (g.assign c v) := by
  have hg := h.wellFormed
  have hcolumns {m} : (g.assign c v).columnsOf m = g.columnsOf m :=
    columnsOf_of_shape_eq (by simp) m
  have hkeep : KeepsKeys g (g.assign c v) := keepsKeys_assign hg hc
  have hnode {m} : (g.assign c v).IsNode m ↔ g.IsNode m := isNode_of_shape_eq (by simp) m
  exact {
    wellFormed := hg.of_shape_eq (by simp)
    new := fun hm => (hkeep.isNew_iff (hnode.1 hm)).2 (h.new (hnode.1 hm))
    column := fun {m d col} hd hcol => by
      rw [hcolumns] at hd
      rw [column?_assign] at hcol
      rw [List.reverse_append, List.reverse_singleton, List.singleton_append, List.lookup_cons]
      by_cases hcd : c = d
      · rw [if_pos hcd] at hcol
        obtain ⟨old, hold, rfl⟩ := Option.map_eq_some_iff.1 hcol
        rw [hcd, beq_self_eq_true]
        exact ⟨(h.column hd hold).1, rfl⟩
      · rw [if_neg hcd] at hcol
        rw [beq_false_of_ne (Ne.symm hcd)]
        exact h.column hd hcol
    known := fun ha => by
      rcases List.mem_append.1 ha with ha | ha
      · obtain ⟨m, hm⟩ := h.known ha
        exact ⟨m, by rwa [hcolumns]⟩
      · obtain rfl := List.mem_singleton.1 ha
        exact ⟨n, by rwa [hcolumns]⟩ }

end Drafts

theorem drafts_single {table keyName : String} {key : Value} (hkey : key.IsBlank) :
    Drafts [] (single table keyName key) where
  wellFormed := wellFormed_single table keyName key
  new hn := by
    rw [isNode_single.1 hn]
    exact isNew_single.2 hkey
  column hc := by simp [columnsOf_single] at hc
  known ha := by cases ha

end Graph

namespace Action

open RecordGraph.Graph

variable {σ α : Type} (b : Backend σ) {s : Session σ} {state : σ} {n : NodeId} {fk : ColumnId}
  {table childColumn : String} {assigned : List (ColumnId × Value)}

/-- The backend was not asked for anything and all rows are new, unless a join goes by an
assigned column. -/
def Prepares (state : σ) (assigned : List (ColumnId × Value)) (s : Session σ) : Prop :=
  Overlaps assigned s.graph ∨ (s.backend = state ∧ Drafts assigned s.graph)

/-- Nothing is read for the value of a new row. -/
theorem value_drafts {c : ColumnId} (h : Drafts assigned s.graph) (hc : c ∈ s.graph.columnsOf n) :
    (value b c).Ends s
      (fun v s' => s'.backend = s.backend ∧ Drafts assigned s'.graph ∧ v = s.graph.current c)
      (fun _ _ => False) := by
  have hn := h.wellFormed.isNode_of_column hc
  refine (ends_value b h.wellFormed hc).2
    ⟨fun _ => ⟨rfl, h, rfl⟩, fun _ _ => ⟨rfl, h, rfl⟩, fun _ _ => ?_⟩
  exact (ends_fetchNode b).2 ⟨fun hno => hno hn, fun _ _ => ⟨rfl, h.setFresh true, rfl⟩,
    fun _ hnew => absurd (h.new hn) hnew⟩

theorem Prepares.ends {m : Action σ α} (h : Prepares state assigned s)
    (hg : s.graph.WellFormed) (hm : m.Changes Graph.Evolves s)
    (hdrafts : s.backend = state → Drafts assigned s.graph →
      m.Ends s (fun _ => Prepares state assigned) (fun _ _ => True)) :
    m.Ends s (fun _ => Prepares state assigned) (fun _ _ => True) := by
  rcases h with h | ⟨hstate, h⟩
  · exact hm.mono (fun _ _ hevolves => .inl (h.grows (hevolves.grows hg))) (fun _ _ _ => trivial)
  · exact hdrafts hstate h

theorem addColumn_prepares {name : String} (hn : s.graph.IsNode n)
    (hg : s.graph.WellFormed) (h : Prepares state assigned s) :
    (addColumn n name).Ends s (fun _ => Prepares state assigned) (fun _ _ => True) := by
  refine h.ends hg ((addColumn_ends hg hn).mono (fun _ _ => And.left) (fun _ _ => False.elim)) ?_
  intro hstate h
  simp only [addColumn, ends_register]
  cases hfind : s.graph.findColumn? n name with
  | some c =>
    rw [addColumn_of_some hfind]
    exact .inr ⟨hstate, h⟩
  | none =>
    rw [addColumn_of_none hfind]
    exact .inr ⟨hstate, h.withColumn hn hfind⟩

/-- A joined row is new, unless its key was assigned to the foreign key. -/
theorem joinFrom_prepares (hfk : fk ∈ s.graph.columnsOf n) (hg : s.graph.WellFormed)
    (h : Prepares state assigned s) :
    (joinFrom b fk table childColumn).Ends s (fun _ => Prepares state assigned)
      (fun _ _ => True) := by
  refine h.ends hg ((joinFrom_ends b hg hfk).mono (fun _ _ => And.left) (fun _ _ => id)) ?_
  intro hstate h
  refine joinFrom_cases b hg hfk (fun _ _ => .inr ⟨hstate, h⟩) fun _ => ?_
  refine (value_drafts b h hfk).mono (fun key s' h' _ hfk' hfind' => ?_)
    (fun _ _ => False.elim)
  obtain ⟨hbackend, h', hkey⟩ := h'
  by_cases hassigned : ∃ v, (fk, v) ∈ assigned
  · obtain ⟨v, hv⟩ := hassigned
    refine .inl ⟨⟨s'.graph.edges.size⟩, ⟨n, fk, ⟨s'.graph.nodes.size⟩⟩, v, ?_, hv⟩
    rw [edge?_withChild, if_pos rfl]
  · have hnull : key = .null := by
      have hlookup : assigned.reverse.lookup fk = none := by
        rw [← Option.not_isSome_iff_eq_none, List.lookup_isSome_iff]
        simpa using hassigned
      rw [hkey, h.current_eq hfk, hlookup]
      rfl
    refine .inr ⟨hbackend.trans hstate, h'.withChild hfk' hfind' ?_⟩
    rw [hnull]
    trivial

theorem follow_prepares (hops : List Hop) (hn : s.graph.IsNode n) (hg : s.graph.WellFormed)
    (h : Prepares state assigned s) :
    (follow b n hops).Ends s (fun _ => Prepares state assigned) (fun _ _ => True) := by
  induction hops generalizing s n with
  | nil => exact h
  | cons j hops ih =>
    refine ends_bind.2 (((addColumn_prepares hn hg h).and (addColumn_ends hg hn)).mono
      (fun fk s₁ h₁ => ?_) (fun _ _ _ => trivial))
    obtain ⟨hprepares₁, hevolves₁, hfind⟩ := h₁
    have hg₁ := hevolves₁.wellFormed hg
    have hfk := (hg₁.findColumn?_mem hfind).1
    refine ends_bind.2 (((joinFrom_prepares b hfk hg₁ hprepares₁).and
      (joinFrom_ends b hg₁ hfk)).mono (fun child s₂ h₂ => ?_) (fun _ _ _ => trivial))
    obtain ⟨hprepares₂, hevolves₂, hchild⟩ := h₂
    have hg₂ := hevolves₂.wellFormed hg₁
    exact ih (hg₂.isNode_of_findChild? hchild) hg₂ hprepares₂

theorem registerColumn_prepares (p : ColumnPath) (hn : s.graph.IsNode n)
    (hg : s.graph.WellFormed) (h : Prepares state assigned s) :
    (registerColumn b n p).Ends s (fun _ => Prepares state assigned) (fun _ _ => True) := by
  rw [registerColumn_eq]
  refine ends_bind.2 (((follow_prepares b p.hops hn hg h).and
    (follow_descends b p.hops hg hn)).mono (fun k s₁ h₁ => ?_) (fun _ _ _ => trivial))
  obtain ⟨hprepares, hevolves, hdescend⟩ := h₁
  have hg₁ := hevolves.wellFormed hg
  exact addColumn_prepares (hg₁.isNode_of_descend ((hevolves.grows hg).node hn).1 hdescend) hg₁
    hprepares

theorem resolveColumn_prepares {path : String} (hg : s.graph.WellFormed)
    (h : Prepares state assigned s) :
    (resolveColumn b n path).Ends s (fun _ => Prepares state assigned) (fun _ _ => True) :=
  (ends_resolveColumn b).2 ⟨fun _ => trivial, fun hn =>
    ⟨fun _ _ => trivial, fun p _ => registerColumn_prepares b p hn hg h⟩⟩

/-! ## Assigning -/

/-- A column is the one behind a path, with the value of the path. -/
def Assigns (g : Graph) (n : NodeId) (q : String × Value) (a : ColumnId × Value) : Prop :=
  g.Denotes n q.1 a.1 ∧ a.2 = q.2

theorem Prepares.assign {c : ColumnId} (h : Prepares state assigned s)
    (hc : c ∈ s.graph.columnsOf n) (v : Value) :
    Prepares state (assigned ++ [(c, v)]) { s with graph := s.graph.assign c v } := by
  rcases h with ⟨e, x, w, he, hw⟩ | ⟨hstate, h⟩
  · exact .inl ⟨e, x, w, he, List.mem_append_left _ hw⟩
  · exact .inr ⟨hstate, h.assign hc v⟩

/-- Pairs are resolved and assigned one after the other: what holds of the assignments so far
and is kept by both holds in the end. -/
theorem ends_assigns {I : List (ColumnId × Value) → Session σ → Prop}
    {pairs : List (String × Value)} (hg : s.graph.WellFormed) (h : I [] s)
    (hresolve : ∀ {s assigned} path, s.graph.WellFormed → I assigned s →
      (resolveColumn b n path).Ends s (fun _ => I assigned) (fun _ _ => True))
    (hassign : ∀ {s assigned m c} v, s.graph.WellFormed → I assigned s →
      c ∈ s.graph.columnsOf m → I (assigned ++ [(c, v)]) { s with graph := s.graph.assign c v }) :
    (pairs.forM fun q => resolveColumn b n q.1 >>= fun c => updateGraph (·.assign c q.2)).Ends s
      (fun _ s' => s.graph.Evolves s'.graph ∧
        ∃ assigned, List.Forall₂ (Assigns s'.graph n) pairs assigned ∧ I assigned s')
      (fun _ _ => True) := by
  refine ends_forM_met (P := fun met s' => s.graph.Evolves s'.graph ∧ ∃ assigned,
    List.Forall₂ (Assigns s'.graph n) met assigned ∧ I assigned s') ?_ ⟨.refl _, [], .nil, h⟩
  intro met q rest s₁ _ h₁
  obtain ⟨hevolves₁, assigned, hpairs, hassigned⟩ := h₁
  have hg₁ := hevolves₁.wellFormed hg
  refine ends_bind.2 (((hresolve q.1 hg₁ hassigned).and
    (resolveColumn_ends b n q.1 hg₁)).mono (fun c s₂ h₂ => ?_) (fun _ _ _ => trivial))
  obtain ⟨hassigned₂, hevolves, hc⟩ := h₂
  have hg₂ := hevolves.wellFormed hg₁
  have hshape : (s₂.graph.assign c q.2).shape = s₂.graph.shape := by simp
  have hgrow : Grows s₂.graph (s₂.graph.assign c q.2) := .of_shape_eq hshape
  have hg₃ := hg₂.of_shape_eq hshape
  obtain ⟨p, -, hlocate⟩ := id hc
  obtain ⟨k, -, hfind⟩ := locate_eq_some.1 hlocate
  rw [ends_updateGraph]
  refine ⟨(hevolves₁.trans hevolves).trans (Graph.revalues_assign c q.2).1,
    assigned ++ [(c, q.2)], List.rel_append ?_ (.cons ⟨hc.grows hg₂ hg₃ hgrow, rfl⟩ .nil),
    hassign q.2 hg₂ hassigned₂ (hg₂.findColumn?_mem hfind).1⟩
  refine hpairs.imp fun q' a h' => ⟨?_, h'.2⟩
  exact (h'.1.grows hg₁ hg₂ (hevolves.grows hg₁)).grows hg₂ hg₃ hgrow

/-- Before the rows are written, the values of a save are set aside, each with the column
behind its path. -/
theorem saveAt_prepares {pairs : List (String × Value)}
    {post : Unit → Session σ → Prop} (hg : s.graph.WellFormed) (h : Prepares state [] s)
    (hsave : ∀ s' assigned, s.graph.Evolves s'.graph →
      List.Forall₂ (Assigns s'.graph n) pairs assigned → Prepares state assigned s' →
        (saveNode b n).Ends s' post (fun _ _ => True)) :
    (saveAt b n pairs).Ends s post (fun _ _ => True) := by
  rw [saveAt, ends_bind, ends_requireNode]
  refine ⟨fun node _ => ends_bind.2 ?_, fun _ => trivial⟩
  refine (ends_assigns b hg h (fun _ hg h => resolveColumn_prepares b hg h)
    fun v _ h hc => h.assign hc v).mono (fun _ s' h' => ?_) (fun _ _ => id)
  obtain ⟨hevolves, assigned, hpairs, hprepares⟩ := h'
  exact hsave s' assigned hevolves hpairs hprepares

end Action
end RecordGraph
