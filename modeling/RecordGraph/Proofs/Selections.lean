import RecordGraph.Backend.Script
import RecordGraph.Proofs.Events

/-!
# Selections

A selection asks for the columns of one node that are registered and do not wait. A row that
is found gives its values to exactly these columns, and an answer without a row changes nothing.
-/
namespace RecordGraph

namespace Session

variable {σ : Type}

/-- The node `n` is selected by the statement `q`, between `s` and `s'`. -/
structure Selects (b : Backend σ) (n : NodeId) (q : Statement)
    (answer : Except Failure (Option Row)) (s s' : Session σ) : Prop where
  node : s.graph.IsNode n
  existing : ¬ s.graph.IsNew n
  statement : q = .select (s.graph.table n) ⟨s.graph.keyName n, s.graph.key n⟩
    ((s.graph.cleanColumns n).map s.graph.name)
  columns : ∀ c, c ∈ s.graph.cleanColumns n ↔ c ∈ s.graph.columnsOf n ∧ ¬ s.graph.IsDirty c
  sorted : (s.graph.cleanColumns n).Pairwise fun c d => c.index < d.index
  names : ((s.graph.cleanColumns n).map s.graph.name).Nodup
  nonempty : s.graph.cleanColumns n ≠ []
  answered : b.query q s.backend = (answer, s'.backend)
  calls : s'.calls = s.calls ++ [(n, .query q answer)]
  column : ∀ row, answer = .ok (some row) → ∀ c, s'.graph.column? c =
    if c ∈ s.graph.cleanColumns n
      then (s.graph.column? c).map (.settle (row.get (s.graph.name c))) else s.graph.column? c
  fresh : ∀ row, answer = .ok (some row) → ∀ m, s'.graph.node? m =
    if m = n then (s.graph.node? m).map fun node => { node with fresh := true }
      else s.graph.node? m
  edges : s'.graph.edges = s.graph.edges
  kept : (∀ row, answer ≠ .ok (some row)) → s'.graph = s.graph

end Session

/-- Every failed query carries the text that was sent. -/
def Backend.ReportsText {σ : Type} (b : Backend σ) : Prop :=
  ∀ q state f, (b.query q state).1 = .error f → f.sql = q.render b.dialect

/-- The statement that an error names. -/
def Error.sql? : Error → Option String
  | .statement f => some f.sql
  | .missingRow _ _ sql => some sql
  | _ => none

namespace Graph

variable {g : Graph} {n : NodeId} {c : ColumnId}

theorem mem_cleanColumns : c ∈ g.cleanColumns n ↔ c ∈ g.columnsOf n ∧ ¬ g.IsDirty c := by
  simp [cleanColumns, List.mem_filter]

theorem WellFormed.cleanColumns_sorted (hg : g.WellFormed) (n : NodeId) :
    (g.cleanColumns n).Pairwise fun c d => c.index < d.index :=
  (hg.columns_sorted n).filter _

theorem WellFormed.cleanNames_nodup (hg : g.WellFormed) (n : NodeId) :
    ((g.cleanColumns n).map g.name).Nodup :=
  ((hg.columns_nodup n).filter _).map_on fun _ hc _ hd =>
    hg.names (cleanColumns_subset hc) (cleanColumns_subset hd)

/-- A column of the row takes over the value under its own name. -/
theorem column?_read {row : Row} :
    ((g.settleRow (g.cleanColumns n) row).setFresh n true).column? c =
      if c ∈ g.cleanColumns n then (g.column? c).map (.settle (row.get (g.name c)))
      else g.column? c := by
  change (g.settleRow (g.cleanColumns n) row).column? c = _
  rw [column?_settleRow, name]
  cases g.column? c <;> rfl

theorem edges_settleRow {columns : List ColumnId} {row : Row} :
    (g.settleRow columns row).edges = g.edges := by
  unfold settleRow
  induction columns generalizing g with
  | nil => rfl
  | cons c columns ih =>
    rw [List.foldl_cons, ih]
    rfl

end Graph

namespace Session

variable {σ : Type} {b : Backend σ} {s s' : Session σ} {n : NodeId} {c : ColumnId} {lazy : Bool}
  {q : Statement} {answer : Except Failure (Option Row)}

theorem Happens.selects (h : Happens b (.select lazy n q answer) s s') (hg : s.graph.WellFormed) :
    s.Selects b n q answer s' := by
  cases h with
  | row hasks hq =>
    exact {
      node := hasks.node
      existing := hasks.existing
      statement := hasks.statement
      columns := fun _ => Graph.mem_cleanColumns
      sorted := hg.cleanColumns_sorted n
      names := hg.cleanNames_nodup n
      nonempty := hasks.columns
      answered := hq
      calls := rfl
      column := fun row' hrow c => by
        cases hrow
        exact Graph.column?_read
      fresh := fun _ _ m => by
        refine (Graph.node?_updateNode ..).trans ?_
        rw [Graph.node?_settleRow]
        simp only [eq_comm]
      edges := Graph.edges_settleRow
      kept := fun hno => absurd rfl (hno _) }
  | noRow hasks hq hno =>
    exact {
      node := hasks.node
      existing := hasks.existing
      statement := hasks.statement
      columns := fun _ => Graph.mem_cleanColumns
      sorted := hg.cleanColumns_sorted n
      names := hg.cleanNames_nodup n
      nonempty := hasks.columns
      answered := hq
      calls := rfl
      column := fun row hrow => absurd hrow (hno row)
      fresh := fun row hrow => absurd hrow (hno row)
      edges := rfl
      kept := fun _ => rfl }

end Session

namespace Action

open Session

variable {σ : Type} (b : Backend σ) {s s' : Session σ} {n : NodeId} {c : ColumnId}

/-- The read of a node that is to be selected ends as the answer says. -/
theorem fetchNode_selects {lazy : Bool} {q : Statement} (h : s.Asks lazy n q) :
    ∃ answer, (fetchNode b n).Ends s
      (fun _ s' => Happens b (.select lazy n q answer) s s' ∧ ∃ row, answer = .ok (some row))
      (fun e s' => Happens b (.select lazy n q answer) s s' ∧
        b.readError? s.graph n q answer = some e) := by
  obtain rfl := h.statement
  rcases hq : b.query (s.graph.selection n) s.backend with ⟨answer, state⟩
  refine ⟨answer, (ends_fetchNode b).2 ⟨fun hno => absurd h.node hno,
    fun _ hnothing => absurd hnothing (not_or.2 ⟨h.existing, h.columns⟩), fun _ _ _ =>
    ⟨fun row state' hrow => ?_, fun state' hnone => ?_, fun f state' hfailed => ?_⟩⟩⟩
  · obtain ⟨rfl, rfl⟩ := Prod.mk.inj (hq.symm.trans hrow)
    exact ⟨.row h hq, row, rfl⟩
  · obtain ⟨rfl, rfl⟩ := Prod.mk.inj (hq.symm.trans hnone)
    exact ⟨.noRow h hq fun _ => nofun, rfl⟩
  · obtain ⟨rfl, rfl⟩ := Prod.mk.inj (hq.symm.trans hfailed)
    exact ⟨.noRow h hq fun _ => nofun, rfl⟩

/-- A value of a stale node is asked for, whatever was known of it. -/
theorem value_selects (hg : s.graph.WellFormed) (hc : c ∈ s.graph.cleanColumns n)
    (hexisting : ¬ s.graph.IsNew n) (hstale : ¬ s.graph.IsFresh n) :
    ∃ q answer, (value b c).Ends s
      (fun v s' => Happens b (.select true n q answer) s s' ∧
        ∃ row, answer = .ok (some row) ∧ v = row.get (s.graph.name c))
      (fun e s' => Happens b (.select true n q answer) s s' ∧
        b.readError? s.graph n q answer = some e) := by
  obtain ⟨hmem, hclean⟩ := Graph.mem_cleanColumns.1 hc
  obtain ⟨col, hcol, -⟩ := Graph.column?_of_owner (hg.column hmem).1
  have hasks : s.Asks true n (s.graph.selection n) :=
    ⟨rfl, hg.isNode_of_column hmem, hexisting, List.ne_nil_of_mem hc, fun _ => hstale⟩
  obtain ⟨answer, hread⟩ := fetchNode_selects b hasks
  refine ⟨s.graph.selection n, answer, (ends_value b hg hmem).2 ⟨fun h => absurd h hclean,
    fun _ h => absurd h hstale, fun _ _ => hread.mono (fun _ s' hs' => ?_) (fun _ _ => id)⟩⟩
  obtain ⟨hhappens, row, rfl⟩ := hs'
  refine ⟨hhappens, row, rfl, ?_⟩
  rw [Graph.current, (hhappens.selects hg).column row rfl, if_pos hc, hcol]
  rfl

/-- A column that was forgotten waits for a read of its node. -/
theorem resetColumn_stale (hg : s.graph.WellFormed) (howner : s.graph.owner? c = some n) :
    (resetColumn c).Ends s
      (fun _ s' => s'.graph.WellFormed ∧ c ∈ s'.graph.cleanColumns n ∧ ¬ s'.graph.IsFresh n ∧
        (s'.graph.IsNew n ↔ s.graph.IsNew n))
      (fun _ _ => True) := by
  refine (ends_resetColumn hg).2 ⟨fun _ => trivial, fun _ _ => trivial, fun m hc => ?_⟩
  obtain rfl : m = n := Option.some.inj ((hg.column hc).1.symm.trans howner)
  obtain ⟨col, hcol, -⟩ := Graph.column?_of_owner howner
  have hforget := (Graph.revalues_forget hc).trans (Graph.revalues_setFresh m false)
  refine ⟨hforget.1.wellFormed hg, Graph.mem_cleanColumns.2 ⟨?_, ?_⟩, ?_, ?_⟩
  · rwa [hforget.columnsOf]
  · change ¬ (s.graph.updateColumn c .forget).IsDirty c
    simp [Graph.IsDirty, Graph.column?_updateColumn, hcol, Column.forget, Column.IsDirty]
  · rw [Graph.isFresh_setFresh, if_pos rfl]
    exact fun h => Bool.false_ne_true h.1
  · refine Graph.isNew_congr (Graph.keyColumn?_of_shape_eq hforget.2 m) fun {k} hk => ?_
    refine (Graph.column?_updateColumn ..).trans (if_neg ?_)
    rintro rfl
    exact hg.notMem_columnsOf hk hc

/-- The value of a column that was forgotten is what the backend answers now. -/
theorem value_of_resetColumn {s₁ : Session σ} (hg : s.graph.WellFormed)
    (hreset : resetColumn c s = .ok () s₁) (howner : s.graph.owner? c = some n)
    (hexisting : ¬ s.graph.IsNew n) :
    ∃ q answer s₂, s₁.Selects b n q answer s₂ ∧ c ∈ s₁.graph.cleanColumns n ∧
      (∀ row, answer = .ok (some row) → value b c s₁ = .ok (row.get (s₁.graph.name c)) s₂) ∧
      ∀ e, b.readError? s₁.graph n q answer = some e → value b c s₁ = .error e s₂ := by
  obtain ⟨hg₁, hc, hstale, hnew⟩ := (resetColumn_stale hg howner).of_ok hreset
  obtain ⟨q, answer, hvalue⟩ := value_selects b hg₁ hc (fun h => hexisting (hnew.1 h)) hstale
  generalize hends : value b c s₁ = ending
  cases ending with
  | ok v s₂ =>
    obtain ⟨hhappens, row, rfl, rfl⟩ := hvalue.of_ok hends
    refine ⟨q, _, s₂, hhappens.selects hg₁, hc, fun row' hrow => ?_, fun e he => by cases he⟩
    cases hrow
    rfl
  | error e s₂ =>
    obtain ⟨hhappens, he⟩ := hvalue.of_error hends
    refine ⟨q, answer, s₂, hhappens.selects hg₁, hc, fun row hrow => ?_, fun e' he' => ?_⟩
    · subst hrow
      cases he
    · rw [Option.some.inj (he.symm.trans he')]

/-- The error of a selection names the text of its statement. -/
theorem sql?_of_readError? {q : Statement} {answer : Except Failure (Option Row)} {state : σ}
    {e : Error} (hb : b.ReportsText) (hq : (b.query q state).1 = answer)
    (he : b.readError? s.graph n q answer = some e) : e.sql? = some (q.render b.dialect) := by
  cases answer with
  | error f =>
    cases he
    exact congrArg some (hb q state f hq)
  | ok found =>
    cases found with
    | some row => cases he
    | none =>
      cases he
      rfl

/-- What an operation selects, moment by moment: the statement asks one node with a row for its
registered columns that do not wait, and the row gives its values to these and changes nothing
else. An answer without a row changes nothing, and the operation ends with its error. After a
column was forgotten, its value is selected anew. -/
theorem perform_selects (hs : s.graph.Reachable) :
    (∀ o : Operation, let s' := (o.perform b).after s
      ∃ events, s.Trace b events s' ∧
        s'.queries = s.queries ++ events.filterMap Event.query? ∧
        ∀ before lazy n q answer after, events = before ++ .select lazy n q answer :: after →
          ∃ t t', s.Trace b before t ∧ t.Selects b n q answer t' ∧ t'.Trace b after s' ∧
            ((∀ row, answer ≠ .ok (some row)) → s' = t' ∧
              ∃ e, b.readError? t.graph n q answer = some e ∧
                (b.ReportsText → e.sql? = some (q.render b.dialect)) ∧
                o.perform b s = .error e s')) ∧
    ∀ c n s₁, resetColumn c s = .ok () s₁ → s.graph.owner? c = some n → ¬ s.graph.IsNew n →
      ∃ q answer s₂, s₁.Selects b n q answer s₂ ∧ c ∈ s₁.graph.cleanColumns n ∧
        (∀ row, answer = .ok (some row) → value b c s₁ = .ok (row.get (s₁.graph.name c)) s₂) ∧
        ∀ e, b.readError? s₁.graph n q answer = some e → value b c s₁ = .error e s₂ := by
  have hg := hs.wellFormed
  refine ⟨fun o => ?_, fun c n s₁ => value_of_resetColumn b hg⟩
  intro s'
  obtain ⟨events, htrace, -, hstops⟩ := o.history (b := b) hg
  refine ⟨events, htrace, htrace.queries, fun before lazy n q answer after hsplit => ?_⟩
  obtain ⟨t, hbefore, hrest⟩ := (hsplit ▸ htrace).split
  cases hrest with
  | @cons _ t' _ _ _ hread hafter =>
    have hselects := hread.selects (hbefore.evolves.wellFormed hg)
    refine ⟨t, t', hbefore, hselects, hafter, fun hno => ?_⟩
    obtain ⟨rfl, u, e, hu, he, hfails⟩ := hstops hsplit hno
    obtain rfl := hbefore.unique hu
    obtain rfl : s' = t' := hafter.unique (.nil t')
    have hanswered : (b.query q t.backend).1 = answer := congrArg Prod.fst hselects.answered
    exact ⟨rfl, e, he, fun hb => sql?_of_readError? b hb hanswered he, hfails⟩

/-- The title was read before it was forgotten, and is another one when it is read again. -/
theorem perform_selects_anew :
    let b := Script.backend .standard
    let s := (Session.start "t0" "id" (.integer 1)
      ⟨[.row [("title", .text "old")], .row [("title", .text "new")]], .noRow, [], [], 0⟩).performAll
        b [.resolveColumn Graph.root "title", .value ⟨1⟩]
    let s₁ := (resetColumn ⟨1⟩).after s
    (value b ⟨1⟩).result? s = some (.text "old") ∧ (value b ⟨1⟩).result? s₁ = some (.text "new") ∧
      ∃ q answer, ((value b ⟨1⟩).after s₁).calls = s₁.calls ++ [(Graph.root, .query q answer)] := by
  intro b s s₁
  have hs : s.graph.Reachable := Graph.reachable_performAll b "t0" "id" (.integer 1) _ _
  have hreset : resetColumn ⟨1⟩ s = .ok () s₁ := eq_ok_of_result? (by decide +kernel)
  have howner : s.graph.owner? ⟨1⟩ = some Graph.root := by decide +kernel
  have hexisting : ¬ s.graph.IsNew Graph.root := by decide +kernel
  obtain ⟨-, hanew⟩ := perform_selects b hs
  obtain ⟨q, answer, s₂, hselects, -, hrow, -⟩ := hanew _ _ _ hreset howner hexisting
  have hscript : s₁.backend.queries = [.row [("title", .text "new")]] := by decide +kernel
  have hname : s₁.graph.name ⟨1⟩ = "title" := by decide +kernel
  have hanswer : answer = .ok (some [("title", .text "new")]) := by
    have hanswered : (b.query q s₁.backend).1 = answer := congrArg Prod.fst hselects.answered
    rw [← hanswered]
    change Script.answer _ (s₁.backend.queries.headD _) = _
    rw [hscript]
    rfl
  have hvalue := hrow _ hanswer
  rw [hname] at hvalue
  refine ⟨by decide +kernel, result?_eq_some.2 ⟨s₂, hvalue⟩, q, answer, ?_⟩
  rw [after, hvalue]
  exact hselects.calls

end Action
end RecordGraph
