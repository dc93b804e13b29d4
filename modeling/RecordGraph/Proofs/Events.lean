import RecordGraph.Proofs.Keys
import RecordGraph.Proofs.Reachable
import RecordGraph.Proofs.WrittenNode

/-!
# Events

What happens to a session while it is used: registrations, values that are given or
forgotten, selections, writes and deletions. Every operation, successful or failed, is a
sequence of such events, and a selection that finds no row is the last of its operation.
-/
namespace RecordGraph

/-- One thing that happens to a session. A selection is lazy if a value was asked for, and not
the row itself. -/
inductive Event where
  | register (n : NodeId) (name : String)
  | join (n : NodeId) (fk : ColumnId) (table childColumn : String)
  | assign (c : ColumnId) (v : Value)
  | link (e : Edge)
  | reset (n : NodeId) (c : ColumnId)
  | skip (n : NodeId)
  | select (lazy : Bool) (n : NodeId) (q : Statement) (answer : Except Failure (Option Row))
  | write (n : NodeId)
  | erase (n : NodeId)

namespace Event

/-- What walking a path and asking for a value consist of. -/
def IsLookup : Event → Prop
  | register .. | join .. | skip _ | select true .. => True
  | _ => False

/-- A selection that finds no row. -/
def Fails : Event → Prop
  | select _ _ _ answer => ∀ row, answer ≠ .ok (some row)
  | _ => False

/-- The query that is sent. -/
def query? : Event → Option (NodeId × Call)
  | select _ n q answer => some (n, .query q answer)
  | _ => none

end Event

/-- The request asks for a row, in whatever way it is sent. -/
def Call.asksRow : Call → Bool
  | .query .. | .exec (.select ..) _ => true
  | _ => false

/-- What may happen in an operation. -/
def Operation.Allows : Operation → Event → Prop
  | resolveColumn .. | resolveTable .. | value _ | fetch .. => Event.IsLookup
  | setValue c v => fun e => e = .assign c v
  | resetColumn c => fun e => ∃ n, e = .reset n c
  | key _ => fun _ => False
  | save _ values => fun e => e.IsLookup ∨ (∃ path v c, (path, v) ∈ values ∧ e = .assign c v) ∨
      (∃ edge, e = .link edge) ∨ ∃ m, e = .write m
  | saveNode _ => fun e => (∃ edge, e = .link edge) ∨ ∃ m, e = .write m
  | fetchNode n => fun e => e = .skip n ∨ ∃ q answer, e = .select false n q answer
  | delete .. => fun e => e.IsLookup ∨ ∃ m, e = .erase m
  | deleteNode _ => fun e => ∃ m, e = .erase m

/-- The error of a selection that finds no row. -/
def Backend.readError? {σ : Type} (b : Backend σ) (g : Graph) (n : NodeId) (q : Statement) :
    Except Failure (Option Row) → Option Error
  | .ok (some _) => none
  | .ok none => some (.missingRow (g.table n) (g.keyMatch n) (q.render b.dialect))
  | .error f => some (.statement f)

namespace Session

variable {σ : Type}

/-- The requests for rows that were made, in order. -/
def queries (s : Session σ) : List (NodeId × Call) := s.calls.filter fun call => call.2.asksRow

/-- The statement `q` asks for a node that has a row and columns that do not wait. A value asks
for a stale node only. -/
structure Asks (s : Session σ) (lazy : Bool) (n : NodeId) (q : Statement) : Prop where
  statement : q = s.graph.selection n
  node : s.graph.IsNode n
  existing : ¬ s.graph.IsNew n
  columns : s.graph.cleanColumns n ≠ []
  stale : lazy = true → ¬ s.graph.IsFresh n

/-- The step that an event makes. -/
inductive Happens (b : Backend σ) : Event → Session σ → Session σ → Prop
  | register {s : Session σ} {n : NodeId} {name : String} (hn : s.graph.IsNode n)
      (hnew : s.graph.findColumn? n name = none) :
      Happens b (.register n name) s { s with graph := s.graph.withColumn n name }
  | join {s : Session σ} {n : NodeId} {fk : ColumnId} {table childColumn : String}
      (hfk : fk ∈ s.graph.columnsOf n)
      (hnew : s.graph.findChild? n ⟨table, childColumn, s.graph.name fk⟩ = none) :
      Happens b (.join n fk table childColumn) s
        { s with graph := s.graph.withChild n fk table childColumn (s.graph.current fk) }
  | assign (s : Session σ) (c : ColumnId) (v : Value) :
      Happens b (.assign c v) s { s with graph := s.graph.assign c v }
  | link {s : Session σ} {e : Edge} (he : e ∈ s.graph.edgesOf e.parent) :
      Happens b (.link e) s { s with graph := s.graph.link e }
  | reset {s : Session σ} {n : NodeId} {c : ColumnId} (hc : c ∈ s.graph.columnsOf n) :
      Happens b (.reset n c) s
        { s with graph := (s.graph.updateColumn c .forget).setFresh n false }
  | skip {s : Session σ} {n : NodeId} (hn : s.graph.IsNode n)
      (hnothing : s.graph.IsNew n ∨ s.graph.cleanColumns n = []) :
      Happens b (.skip n) s { s with graph := s.graph.setFresh n true }
  | row {s : Session σ} {lazy : Bool} {n : NodeId} {q : Statement} {row : Row} {state : σ}
      (h : s.Asks lazy n q) (hq : b.query q s.backend = (.ok (some row), state)) :
      Happens b (.select lazy n q (.ok (some row))) s
        ⟨(s.graph.settleRow (s.graph.cleanColumns n) row).setFresh n true, state,
          s.calls ++ [(n, .query q (.ok (some row)))]⟩
  | noRow {s : Session σ} {lazy : Bool} {n : NodeId} {q : Statement}
      {answer : Except Failure (Option Row)} {state : σ} (h : s.Asks lazy n q)
      (hq : b.query q s.backend = (answer, state)) (hno : ∀ row, answer ≠ .ok (some row)) :
      Happens b (.select lazy n q answer) s ⟨s.graph, state, s.calls ++ [(n, .query q answer)]⟩
  | write {s : Session σ} {n : NodeId} (hn : s.graph.IsNode n) :
      Happens b (.write n) s ((Action.writeNode b n).after s)
  | erase {s : Session σ} {n : NodeId} (hn : s.graph.IsNode n) :
      Happens b (.erase n) s ((Action.eraseNode b n).after s)

/-- Events one after the other. -/
inductive Trace (b : Backend σ) : Session σ → List Event → Session σ → Prop
  | nil (s : Session σ) : Trace b s [] s
  | cons {s s' s'' : Session σ} {e : Event} {events : List Event} (h : Happens b e s s')
      (rest : Trace b s' events s'') : Trace b s (e :: events) s''

/-- Only events of `P` happen, and every selection finds its row. -/
def Passes (b : Backend σ) (P : Event → Prop) (s s' : Session σ) : Prop :=
  ∃ events, Trace b s events s' ∧ ∀ e ∈ events, P e ∧ ¬ e.Fails

/-- Only events of `P` happen before the error, which is the one of a last selection or comes
from elsewhere. -/
inductive Stops (b : Backend σ) (P : Event → Prop) : Error → Session σ → Session σ → Prop
  | between {s s' : Session σ} (e : Error) (h : Passes b P s s') : Stops b P e s s'
  | reading {s t s' : Session σ} {e : Error} {lazy : Bool} {n : NodeId} {q : Statement}
      {answer : Except Failure (Option Row)} (h : Passes b P s t) (hP : P (.select lazy n q answer))
      (hread : Happens b (.select lazy n q answer) t s')
      (he : b.readError? t.graph n q answer = some e) : Stops b P e s s'

variable {b : Backend σ} {P : Event → Prop} {s s' s'' t : Session σ} {e : Event}
  {events more : List Event} {n : NodeId} {lazy : Bool}

/-! ## Steps -/

theorem Happens.evolves (h : Happens b e s s') : s.graph.Evolves s'.graph := by
  cases h with
  | register hn hnew => exact (Graph.Step.column hn hnew).evolves
  | join hfk hnew => exact (Graph.Step.child _ hfk hnew).evolves
  | assign => exact (Graph.revalues_assign ..).1
  | link he => exact (Graph.revalues_assign _ _).1
  | reset hc => exact ((Graph.revalues_forget hc).trans (Graph.revalues_setFresh ..)).1
  | skip hn hnothing => exact (Graph.revalues_setFresh ..).1
  | row h hq =>
    exact ((Graph.revalues_settleRow Graph.cleanColumns_subset).trans
      (Graph.revalues_setFresh ..)).1
  | noRow h hq hno => exact .refl _
  | write hn => exact (Action.writeNode_revalues b _).evolves.of_after
  | erase hn =>
    have hfresh (n : NodeId) : s.graph.Evolves (s.graph.setFresh n true) :=
      (Graph.revalues_setFresh n true).1
    exact Action.Ends.of_after (p := fun s' => s.graph.Evolves s'.graph)
      ((Action.ends_eraseNode b).2 ⟨fun _ => hfresh _, fun _ =>
        ⟨fun _ _ => hfresh _, fun _ _ _ => .refl _⟩⟩)

/-- An event leaves no choice. -/
theorem Happens.unique (h : Happens b e s s') (h' : Happens b e s s'') : s' = s'' := by
  cases h with
  | row hasks hq =>
    cases h' with
    | row _ hq' => rw [(Prod.mk.inj (hq.symm.trans hq')).2]
    | noRow _ _ hno => exact absurd rfl (hno _)
  | noRow hasks hq hno =>
    cases h' with
    | row _ _ => exact absurd rfl (hno _)
    | noRow _ hq' _ => rw [(Prod.mk.inj (hq.symm.trans hq')).2]
  | register | join | assign | link | reset | skip | write | erase => cases h'; rfl

/-- Writing asks for no row. -/
theorem queries_writeNode : ((Action.writeNode b n).after s).queries = s.queries := by
  have hwritten (id : Value) : ∀ call ∈ s.graph.writeCalls n id, call.asksRow = false := by
    unfold Graph.writeCalls
    split
    · simp [Call.asksRow]
    · split <;> simp [Call.asksRow]
  have hsent {calls : List Call} (h : ∀ call ∈ calls, call.asksRow = false) :
      (s.calls ++ calls.map fun call => (n, call)).filter (fun call => call.2.asksRow) =
        s.queries := by
    have hnone : (calls.map fun call => (n, call)).filter (fun call => call.2.asksRow) = [] := by
      simpa [List.filter_eq_nil_iff] using h
    rw [List.filter_append, hnone, List.append_nil, queries]
  refine Action.Ends.of_after (p := fun s' => s'.queries = s.queries)
    ((Action.writeNode_ends b n).mono (fun _ s' hs' => ?_) (fun _ s' hs' => ?_))
  · obtain ⟨-, id, -, hcalls, -⟩ := hs'
    rw [queries, hcalls]
    exact hsent (hwritten id)
  · obtain ⟨rfl, -⟩ | ⟨-, -, statement, f, calls, hmem, -, hcalls, -, hmade⟩ := hs'
    · rfl
    · -- the statement that failed is the one that would have been executed
      have hdone : (Call.exec statement (.ok ())).asksRow = false := hwritten .null _ hmem
      have hsame (answer : Except Failure Unit) :
          (Call.exec statement answer).asksRow = (Call.exec statement (.ok ())).asksRow := by
        cases statement <;> rfl
      rw [queries, hcalls]
      refine hsent ?_
      obtain rfl | ⟨-, rfl⟩ := hmade
      · simp [hsame, hdone]
      · have hkey : (Call.lastInsertId (.error f)).asksRow = false := rfl
        simp [hdone, hkey]

theorem queries_eraseNode : ((Action.eraseNode b n).after s).queries = s.queries := by
  have hdeletion (answer : Except Failure Unit) :
      (Call.exec (s.graph.deletion n) answer).asksRow = false := rfl
  refine Action.Ends.of_after (p := fun s' => s'.queries = s.queries)
    ((Action.ends_eraseNode b).2 ⟨fun _ => rfl, fun _ => ⟨fun _ _ => ?_, fun _ _ _ => ?_⟩⟩)
  · simp [queries, hdeletion]
  · simp [queries, hdeletion]

theorem Happens.queries (h : Happens b e s s') :
    s'.queries = s.queries ++ e.query?.toList := by
  cases h with
  | write hn => rw [queries_writeNode]; exact (List.append_nil _).symm
  | erase hn => rw [queries_eraseNode]; exact (List.append_nil _).symm
  | row h hq => simp [Session.queries, Event.query?, Call.asksRow]
  | noRow h hq hno => simp [Session.queries, Event.query?, Call.asksRow]
  | register | join | assign | link | reset | skip => exact (List.append_nil _).symm

/-! ## Sequences -/

namespace Trace

theorem single (h : Happens b e s s') : Trace b s [e] s' := .cons h (.nil s')

theorem append (h : Trace b s events s') (h' : Trace b s' more s'') :
    Trace b s (events ++ more) s'' := by
  induction h with
  | nil s => exact h'
  | cons hstep _ ih => exact .cons hstep (ih h')

theorem split (h : Trace b s (events ++ more) s'') :
    ∃ s', Trace b s events s' ∧ Trace b s' more s'' := by
  induction events generalizing s with
  | nil => exact ⟨s, .nil s, h⟩
  | cons e events ih =>
    cases h with
    | cons hstep hrest =>
      obtain ⟨s', hevents, hmore⟩ := ih hrest
      exact ⟨s', .cons hstep hevents, hmore⟩

theorem unique (h : Trace b s events s') (h' : Trace b s events s'') : s' = s'' := by
  induction h with
  | nil s => cases h'; rfl
  | cons hstep _ ih =>
    cases h' with
    | cons hstep' hrest' =>
      obtain rfl := hstep.unique hstep'
      exact ih hrest'

theorem evolves (h : Trace b s events s') : s.graph.Evolves s'.graph := by
  induction h with
  | nil s => exact .refl _
  | cons hstep _ ih => exact hstep.evolves.trans ih

/-- The queries that were sent are those of the selections. -/
theorem queries (h : Trace b s events s') :
    s'.queries = s.queries ++ events.filterMap Event.query? := by
  induction h with
  | nil s => exact (List.append_nil _).symm
  | @cons s t s' e events hstep _ ih =>
    rw [ih, hstep.queries, List.append_assoc]
    cases hquery : e.query? with
    | none => rw [List.filterMap_cons_none hquery]; rfl
    | some call => rw [List.filterMap_cons_some hquery]; rfl

end Trace

namespace Passes

theorem refl (s : Session σ) : Passes b P s s := ⟨[], .nil s, by simp⟩

theorem trans (h : Passes b P s s') (h' : Passes b P s' s'') : Passes b P s s'' := by
  obtain ⟨events, htrace, hevents⟩ := h
  obtain ⟨more, htrace', hmore⟩ := h'
  refine ⟨events ++ more, htrace.append htrace', fun e he => ?_⟩
  rcases List.mem_append.1 he with he | he
  · exact hevents e he
  · exact hmore e he

theorem single (h : Happens b e s s') (hP : P e) (hfound : ¬ e.Fails) : Passes b P s s' :=
  ⟨[e], .single h, fun d hd => by rw [List.mem_singleton.1 hd]; exact ⟨hP, hfound⟩⟩

theorem evolves (h : Passes b P s s') : s.graph.Evolves s'.graph := by
  obtain ⟨events, htrace, -⟩ := h
  exact htrace.evolves

end Passes

theorem Stops.trans {error : Error} (h : Passes b P s s') (h' : Stops b P error s' s'') :
    Stops b P error s s'' := by
  cases h' with
  | between _ h' => exact .between _ (h.trans h')
  | reading h' hP hread he => exact .reading (h.trans h') hP hread he

end Session

namespace Action

open Session

variable {σ α : Type} {b : Backend σ} {P : Event → Prop} {s : Session σ} {n : NodeId}

theorem fetchNode_passes (lazy : Bool) (hskip : P (.skip n))
    (hselect : ∀ q answer, P (.select lazy n q answer))
    (hstale : lazy = true → ¬ s.graph.IsFresh n) :
    (fetchNode b n).Goes (Passes b P) (Stops b P) s := by
  refine (ends_fetchNode b).2 ⟨fun _ => .between _ (.refl s), fun hn hnothing => ?_,
    fun hn hexisting hcolumns => ?_⟩
  · exact .single (.skip hn hnothing) hskip id
  · have hasks : s.Asks lazy n (s.graph.selection n) := ⟨rfl, hn, hexisting, hcolumns, hstale⟩
    refine ⟨fun row state hq => ?_, fun state hq => ?_, fun f state hq => ?_⟩
    · exact .single (.row hasks hq) (hselect _ _) fun hfails => hfails row rfl
    · exact .reading (.refl s) (hselect _ _) (.noRow hasks hq fun _ h => by cases h) rfl
    · exact .reading (.refl s) (hselect _ _) (.noRow hasks hq fun _ h => by cases h) rfl

theorem value_passes (hP : ∀ e : Event, e.IsLookup → P e) (c : ColumnId) :
    (value b c).Goes (Passes b P) (Stops b P) s := by
  rw [Goes, value, ends_bind, ends_requireColumn]
  refine ⟨fun column _ => ?_, fun _ => .between _ (.refl s)⟩
  simp only [ends_bind, ends_graph, ends_ite, ends_pure]
  refine ⟨fun _ => .refl s, fun _ => ⟨fun _ => .refl s, fun hstale => ?_⟩⟩
  exact fetchNode_passes true (hP _ trivial) (fun _ _ => hP _ trivial) fun _ => hstale

/-- Writing and deleting are single events, wherever they end. -/
theorem passes_of_after {m : Action σ α} (h : Passes b P s (m.after s)) :
    m.Goes (Passes b P) (Stops b P) s := by
  refine ends_of_forall (fun a s' hok => ?_) (fun e s' hfails => .between e ?_)
  · rwa [after, hok] at h
  · rwa [after, hfails] at h

theorem composes_passes : Composes (Passes b P) (Stops b P) where
  refl := .refl
  trans _ := .trans
  stops _ := .trans
  halts e s := .between e (.refl s)
  evolves := Passes.evolves

/-- Walking a path is a sequence of look-ups. -/
theorem explores_passes (hP : ∀ e : Event, e.IsLookup → P e) :
    Explores b (Passes b P) (Stops b P) where
  toComposes := composes_passes
  column _ hn hnew := .single (.register hn hnew) (hP _ trivial) id
  join {s n fk} table childColumn hg hfk := by
    refine joinFrom_cases b hg hfk (fun _ _ => .refl s) fun _ => ?_
    refine ((value_passes hP fk).and (value_current b fk)).mono
      (fun key s' hs' _ hfk' hfind => ?_) (fun _ _ => And.left)
    obtain ⟨hs', rfl⟩ := hs'
    exact hs'.trans (.single (.join hfk' hfind) (hP _ trivial) id)

theorem saveNode_passes (n : NodeId) (hlink : ∀ e, P (.link e)) (hwrite : ∀ m, P (.write m))
    (hg : s.graph.WellFormed) : (saveNode b n).Goes (Passes b P) (Stops b P) s :=
  composes_passes.saveNode n hg (fun _ hn => passes_of_after (.single (.write hn) (hwrite _) id))
    fun _ he => .single (.link he) (hlink _) id

theorem deleteNode_passes (n : NodeId) (herase : ∀ m, P (.erase m)) (hg : s.graph.WellFormed) :
    (deleteNode b n).Goes (Passes b P) (Stops b P) s :=
  composes_passes.deleteNode n hg fun _ hn => passes_of_after (.single (.erase hn) (herase _) id)

end Action

namespace Operation

open RecordGraph.Session RecordGraph.Action

variable {σ : Type} {b : Backend σ} {s : Session σ}

/-- Only what an operation allows happens in it. -/
theorem perform_passes (o : Operation) (hg : s.graph.WellFormed) :
    (o.perform b).Goes (Passes b o.Allows) (Stops b o.Allows) s := by
  cases o with
  | resolveColumn n path => exact ((explores_passes fun _ => id).resolveColumn n path hg).discard
  | resolveTable n path => exact ((explores_passes fun _ => id).resolveTable n path hg).discard
  | setValue c v =>
    exact ends_setValue.2 ⟨fun _ => .between _ (.refl s), fun _ => .single (.assign s c v) rfl id⟩
  | resetColumn c =>
    exact (ends_resetColumn hg).2 ⟨fun _ => .between _ (.refl s), fun _ _ => .between _ (.refl s),
      fun n hc => .single (.reset hc) ⟨n, rfl⟩ id⟩
  | value c => exact (value_passes (fun _ => id) c).discard
  | key n =>
    refine Goes.discard (ends_bind.2 (ends_requireNode.2 ?_))
    exact ⟨fun _ _ => .refl s, fun _ => .between _ (.refl s)⟩
  | save n values =>
    refine (explores_passes fun _ => .inl).saveAt n values hg (fun hpair _ _ _ => ?_) fun hg' => ?_
    · exact .single (.assign ..) (.inr (.inl ⟨_, _, _, hpair, rfl⟩)) id
    · exact saveNode_passes n (fun e => .inr (.inr (.inl ⟨e, rfl⟩)))
        (fun m => .inr (.inr (.inr ⟨m, rfl⟩))) hg'
  | saveNode n => exact saveNode_passes n (fun e => .inl ⟨e, rfl⟩) (fun m => .inr ⟨m, rfl⟩) hg
  | fetch n paths =>
    exact ((explores_passes fun _ => id).fetchAt n paths hg
      fun c _ => value_passes (fun _ => id) c).discard
  | fetchNode n =>
    exact fetchNode_passes false (.inl rfl) (fun q answer => .inr ⟨q, answer, rfl⟩)
      (fun h => by cases h)
  | delete n tables =>
    exact ((explores_passes fun _ => .inl).deleteAt n tables hg
      (deleteNode_passes n fun m => .inr ⟨m, rfl⟩)).discard
  | deleteNode n => exact (deleteNode_passes n (fun m => ⟨m, rfl⟩) hg).discard

/-- The events of one operation. A selection that finds no row is the last of them, and the
operation fails by its error. -/
structure History (b : Backend σ) (o : Operation) (s : Session σ) (events : List Event) :
    Prop where
  trace : s.Trace b events ((o.perform b).after s)
  allowed : ∀ e ∈ events, o.Allows e
  stops : ∀ {before lazy n q answer after},
    events = before ++ .select lazy n q answer :: after → (∀ row, answer ≠ .ok (some row)) →
      after = [] ∧ ∃ t e, s.Trace b before t ∧ b.readError? t.graph n q answer = some e ∧
        o.perform b s = .error e ((o.perform b).after s)

theorem history (o : Operation) (hg : s.graph.WellFormed) : ∃ events, o.History b s events := by
  have hafter : ∀ {e s'}, o.perform b s = .error e s' → (o.perform b).after s = s' := by
    intro e s' h
    rw [after, h]
  have hpasses {s' : Session σ} (h : Passes b o.Allows s s') (hs' : (o.perform b).after s = s') :
      ∃ events, o.History b s events := by
    obtain ⟨events, htrace, hevents⟩ := h
    refine ⟨events, hs' ▸ htrace, fun e he => (hevents e he).1, fun {before lazy n q answer after}
      hsplit hfails => ?_⟩
    have hmem : .select lazy n q answer ∈ events := by simp [hsplit]
    exact absurd hfails (hevents _ hmem).2
  have hends : (o.perform b).Ends s (fun _ => Passes b o.Allows s)
    (fun e => Stops b o.Allows e s) := o.perform_passes hg
  cases hperform : o.perform b s with
  | ok a s' =>
    refine hpasses (hends.of_ok hperform) ?_
    rw [after, hperform]
  | error e s' =>
    cases hends.of_error hperform with
    | between _ h => exact hpasses h (hafter hperform)
    | @reading _ t _ _ lazy n q answer h hP hread he =>
      obtain ⟨events, htrace, hevents⟩ := h
      refine ⟨events ++ [.select lazy n q answer], ?_, ?_, ?_⟩
      · rw [hafter hperform]
        exact htrace.append (.single hread)
      · intro d hd
        rcases List.mem_append.1 hd with hd | hd
        · exact (hevents d hd).1
        · rwa [List.mem_singleton.1 hd]
      · intro before lazy' n' q' answer' after hsplit hfails
        -- all selections before the last one found their row
        obtain ⟨rfl, rfl, hlast⟩ := last_of_split (p := Event.Fails) hsplit
          (fun d hd => (hevents d hd).2) hfails
        cases hlast
        rw [hafter hperform]
        exact ⟨rfl, t, e, htrace, he, hperform⟩

end Operation
end RecordGraph
