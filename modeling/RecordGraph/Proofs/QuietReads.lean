import RecordGraph.Backend.Script
import RecordGraph.Proofs.Keys
import RecordGraph.Proofs.Reachable

/-!
# Reads change nothing that waits

Reading and resolving register what is missing and take over values of rows that
are not waiting to be written. Whatever waits goes on waiting, no node changes
its key, and nothing but selections is sent, after failures too.
-/
namespace RecordGraph

/-- The request asks for a row. -/
def Call.IsSelection : Call → Prop
  | .query (.select ..) _ => True
  | _ => False

/-- The operation reads or resolves. -/
def Operation.IsRead : Operation → Prop
  | resolveColumn .. | resolveTable .. | value _ | key _ | fetch .. | fetchNode _ => True
  | _ => False

instance : DecidablePred Operation.IsRead := fun o => by
  cases o <;> unfold Operation.IsRead <;> infer_instance

namespace Graph

/-- Every column waits as before. -/
def KeepsPending (g g' : Graph) : Prop :=
  ∀ c col, g.column? c = some col → (g'.column? c).map Column.pending = some col.pending

section
variable {g g' g'' : Graph} {n : NodeId}

theorem KeepsPending.trans (h : KeepsPending g g') (h' : KeepsPending g' g'') :
    KeepsPending g g'' := by
  intro c col hcol
  obtain ⟨col', hcol', hpending⟩ := Option.map_eq_some_iff.1 (h c col hcol)
  rw [h' c col' hcol', hpending]

theorem keepsPending_of_column? (h : ∀ {c col}, g.column? c = some col → g'.column? c = some col) :
    KeepsPending g g' := by
  intro c col hcol
  rw [h hcol, Option.map_some]

theorem ne_size_of_column? {c : ColumnId} {col : Column} (hcol : g.column? c = some col) :
    c ≠ ⟨g.columns.size⟩ :=
  ne_size_of_owner (n := col.node) (by rw [owner?, hcol, Option.map_some])

theorem keepsPending_withColumn {name : String} : KeepsPending g (g.withColumn n name) := by
  refine keepsPending_of_column? fun hcol => ?_
  rw [column?_withColumn, if_neg (ne_size_of_column? hcol), hcol]

theorem keepsPending_withChild {fk : ColumnId} {table childColumn : String} {key : Value} :
    KeepsPending g (g.withChild n fk table childColumn key) := by
  refine keepsPending_of_column? fun hcol => ?_
  rw [column?_withChild, if_neg (ne_size_of_column? hcol), hcol]

/-- Only columns that wait for nothing take over a value. -/
theorem keepsPending_settleRow {row : Row} :
    KeepsPending g (g.settleRow (g.cleanColumns n) row) := by
  intro c col hcol
  rw [column?_settleRow]
  split
  · next hc =>
    have hclean : ¬ g.IsDirty c := by simpa using (List.mem_filter.1 hc).2
    have hnot : ¬ col.IsDirty := by simpa [IsDirty, hcol] using hclean
    have hnone : col.pending = none := by simpa [Column.IsDirty] using hnot
    rw [hcol, hnone]
    rfl
  · rw [hcol, Option.map_some]

end
end Graph

namespace Session

variable {σ : Type} {s s' s'' : Session σ}

/-- Nothing that waits was disturbed, and only selections were sent. -/
structure Undisturbed (s s' : Session σ) : Prop where
  evolves : s.graph.Evolves s'.graph
  keys : s.graph.KeepsKeys s'.graph
  pending : s.graph.KeepsPending s'.graph
  calls : ∃ reads, s'.calls = s.calls ++ reads ∧ ∀ r ∈ reads, r.2.IsSelection

namespace Undisturbed

theorem refl (s : Session σ) : s.Undisturbed s :=
  ⟨.refl _, .refl _, Graph.keepsPending_of_column? id, [], by simp⟩

theorem trans (h : s.Undisturbed s') (h' : s'.Undisturbed s'') : s.Undisturbed s'' where
  evolves := h.evolves.trans h'.evolves
  keys := h.keys.trans h'.keys
  pending := h.pending.trans h'.pending
  calls := by
    obtain ⟨reads, hreads, hselections⟩ := h.calls
    obtain ⟨more, hmore, hselections'⟩ := h'.calls
    refine ⟨reads ++ more, by rw [hmore, hreads, List.append_assoc], fun r hr => ?_⟩
    rcases List.mem_append.1 hr with hr | hr
    · exact hselections r hr
    · exact hselections' r hr

/-- A change of the graph without a request. -/
theorem of_graph {g : Graph} (hevolves : s.graph.Evolves g) (hkeys : s.graph.KeepsKeys g)
    (hpending : s.graph.KeepsPending g) : s.Undisturbed { s with graph := g } :=
  ⟨hevolves, hkeys, hpending, [], by simp⟩

/-- A selection, and a change of the graph by what it answers. -/
theorem of_query {g : Graph} {state : σ} {n : NodeId} {answer : Except Failure (Option Row)}
    (hevolves : s.graph.Evolves g) (hkeys : s.graph.KeepsKeys g)
    (hpending : s.graph.KeepsPending g) :
    s.Undisturbed ⟨g, state, s.calls ++ [(n, .query (s.graph.selection n) answer)]⟩ := by
  refine ⟨hevolves, hkeys, hpending, [_], rfl, fun r hr => ?_⟩
  rw [List.mem_singleton.1 hr]
  trivial

end Undisturbed
end Session

namespace Action

open Session

variable {σ : Type} (b : Backend σ) {s : Session σ}

theorem fetchNode_undisturbed (n : NodeId) (hg : s.graph.WellFormed) :
    (fetchNode b n).Moves Undisturbed s := by
  have hfresh : s.Undisturbed { s with graph := s.graph.setFresh n true } :=
    .of_graph (Graph.revalues_setFresh n true).1 (Graph.keepsKeys_setFresh ..)
      (Graph.keepsPending_of_column? id)
  have hfailed {state : σ} {answer : Except Failure (Option Row)} : s.Undisturbed
      ⟨s.graph, state, s.calls ++ [(n, .query (s.graph.selection n) answer)]⟩ :=
    .of_query (.refl _) (.refl _) (Graph.keepsPending_of_column? id)
  refine (ends_fetchNode b).2 ⟨fun _ => .refl s, fun _ _ => hfresh, fun _ _ _ =>
    ⟨fun row state _ => ?_, fun _ _ => hfailed, fun _ _ _ => hfailed⟩⟩
  refine .of_query ?_ ?_ Graph.keepsPending_settleRow
  · exact ((Graph.revalues_settleRow Graph.cleanColumns_subset).trans
      (Graph.revalues_setFresh n true)).1
  · exact (Graph.keepsKeys_settleRow hg Graph.cleanColumns_subset).trans
      (Graph.keepsKeys_setFresh ..)

/-- Resolving disturbs nothing, wherever it stops. -/
theorem resolves_undisturbed : Resolves b Undisturbed where
  refl := .refl
  trans _ := .trans
  evolves := Undisturbed.evolves
  column hg hn hnew := .of_graph (Graph.Step.column hn hnew).evolves
    (Graph.keepsKeys_withColumn hg hn) Graph.keepsPending_withColumn
  child hg hfk hnew := .of_graph (Graph.Step.child _ hfk hnew).evolves
    (Graph.keepsKeys_withChild hg (hg.isNode_of_column hfk)) Graph.keepsPending_withChild
  value {s} c hg := value_moves (.refl s) (fetchNode_undisturbed b · hg) c

end Action

variable {σ : Type} (b : Backend σ) {s : Session σ}

theorem Operation.IsRead.undisturbed {o : Operation} (h : o.IsRead) (hg : s.graph.WellFormed) :
    s.Undisturbed ((o.perform b).after s) := by
  have hresolves := Action.resolves_undisturbed b
  cases o with
  | resolveColumn n path => exact (hresolves.resolveColumn n path hg).discard.of_after
  | resolveTable n path => exact (hresolves.resolveTable n path hg).discard.of_after
  | value c => exact (hresolves.value c hg).discard.of_after
  | key n => exact (Action.key_moves (.refl s) n).discard.of_after
  | fetch n paths => exact (hresolves.fetchAt n paths hg).discard.of_after
  | fetchNode n => exact (Action.fetchNode_undisturbed b n hg).of_after
  | setValue | resetColumn | save | saveNode | delete | deleteNode => exact h.elim

theorem Session.performAll_undisturbed {operations : List Operation}
    (h : ∀ o ∈ operations, o.IsRead) (hg : s.graph.WellFormed) :
    s.Undisturbed (s.performAll b operations) := by
  induction operations generalizing s with
  | nil => exact .refl s
  | cons o operations ih =>
    have hstep : s.Undisturbed ((o.perform b).after s) := (h o (by simp)).undisturbed b hg
    exact hstep.trans (ih (fun o' ho' => h o' (by simp [ho'])) (hstep.evolves.wellFormed hg))

/-- Reads in any order, successful or failed, leave every column waiting for the same value or
for none as before, leave every node its key, and take nothing back; all that they send is
selections. -/
theorem Graph.Reachable.reads_keep_pending (hs : s.graph.Reachable) {operations : List Operation}
    (hreads : ∀ o ∈ operations, o.IsRead) :
    let s' := s.performAll b operations
    (∀ c col, s.graph.column? c = some col →
      ∃ col', s'.graph.column? c = some col' ∧ col'.node = col.node ∧ col'.name = col.name ∧
        col'.pending = col.pending) ∧
    (∀ n, s.graph.IsNode n →
      s'.graph.key n = s.graph.key n ∧ (s'.graph.IsNew n ↔ s.graph.IsNew n)) ∧
    Graph.Grows s.graph s'.graph ∧
    ∃ calls, s'.calls = s.calls ++ calls ∧ ∀ r ∈ calls, r.2.IsSelection := by
  intro s'
  have hg := hs.wellFormed
  have h := Session.performAll_undisturbed b hreads hg
  refine ⟨fun c col hcol => ?_, fun n hn => ⟨h.keys.key_eq hg hn, h.keys.isNew_iff hn⟩,
    h.keys.grows, h.calls⟩
  have howner : s.graph.owner? c = some col.node := by rw [Graph.owner?, hcol, Option.map_some]
  obtain ⟨hnode, hname⟩ := h.keys.grows.column howner
  obtain ⟨col', hcol', hpending⟩ := Option.map_eq_some_iff.1 (h.pending c col hcol)
  obtain ⟨col₁, hcol₁, hnode⟩ := Graph.column?_of_owner hnode
  obtain rfl := Option.some.inj (hcol₁.symm.trans hcol')
  refine ⟨col₁, hcol', hnode, ?_, hpending⟩
  simpa [Graph.name, hcol, hcol'] using hname

/-- The row that is read has another title than the one that waits, and the last of three
selections fails. -/
theorem Graph.Reachable.reads_keep_pending_overlapping :
    let b := Script.backend .standard
    let s := (Session.start "t0" "id" (.integer 1)
      ⟨[.row [("title", .text "stored"), ("t1_id", .integer 5)], .row [("body", .text "x")]],
        .failure "lost", [], [], 0⟩).performAll b
      [.resolveColumn Graph.root "title", .setValue ⟨1⟩ (.text "draft")]
    let operations := [Operation.fetch Graph.root ["title", "t1.body"],
      .resolveTable Graph.root "t2"]
    let s' := s.performAll b operations
    (∀ o ∈ operations, o.IsRead) ∧
      s.graph.column? ⟨1⟩ = some ⟨Graph.root, "title", none, some (.text "draft")⟩ ∧
      (∃ col, s'.graph.column? ⟨1⟩ = some col ∧ col.pending = some (.text "draft")) ∧
      s'.graph.key Graph.root = s.graph.key Graph.root ∧
      s'.graph.nodes.size = 2 ∧ s'.calls.length = 3 := by
  intro b s operations s'
  have hs : s.graph.Reachable := Graph.reachable_performAll b "t0" "id" (.integer 1) _ _
  have hreads : ∀ o ∈ operations, o.IsRead := by decide
  have hcol : s.graph.column? ⟨1⟩ =
      some ⟨Graph.root, "title", none, some (.text "draft")⟩ := by decide +kernel
  obtain ⟨hpending, hkey, -, -⟩ := Graph.Reachable.reads_keep_pending b hs hreads
  obtain ⟨col, hcol', -, -, hdraft⟩ := hpending _ _ hcol
  exact ⟨hreads, hcol, ⟨col, hcol', hdraft⟩, (hkey Graph.root hs.wellFormed.root).1,
    by decide +kernel, by decide +kernel⟩

end RecordGraph
