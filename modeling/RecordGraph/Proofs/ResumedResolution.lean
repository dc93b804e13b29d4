import RecordGraph.Backend.Script
import RecordGraph.Proofs.Selections
import RecordGraph.Proofs.SingleReads
import RecordGraph.Proofs.Spellings
import RecordGraph.Proofs.Tree

/-!
# Resolving again

A path whose resolution fails at a read leaves the joins before that read registered, and
perhaps the foreign key of the next one. A second resolution walks over them without a call
and stands where the first one failed. What it does from there is told by the answers that it
gets, so it ends as one resolution would have ended that got all the answers.
-/
namespace RecordGraph

deriving instance DecidableEq for Call

/-- Every query gives a row. -/
def Backend.NeverFails {σ : Type} (b : Backend σ) : Prop :=
  ∀ q state, ∃ row, (b.query q state).1 = .ok (some row)

/-- An action for all backends. -/
abbrev Portable (α : Type) := (σ : Type) → Backend σ → Action σ α

namespace Portable

variable {α β : Type}

def bind (m : Portable α) (f : α → Portable β) : Portable β := fun σ b => m σ b >>= fun a => f a σ b

/-- On the graph `g` the action gives `a` and leaves `g'`, with any backend that gives the
answers of `calls`. -/
def Gives (m : Portable α) (g : Graph) (calls : List (NodeId × Call)) (a : α) (g' : Graph) : Prop :=
  ∀ (σ : Type) (b : Backend σ) {state state' : σ} (done : List (NodeId × Call)),
    b.Replays (calls.map Prod.snd) state state' →
      m σ b ⟨g, state, done⟩ = .ok a ⟨g', state', done ++ calls⟩

/-- After `calls` the action sends `q` for the node `k` and may leave `g'` there. On `g'` it goes
on as it would have done on `g`. -/
structure Stops (m : Portable α) (g : Graph) (calls : List (NodeId × Call)) (k : NodeId)
    (q : Statement) (g' : Graph) : Prop where
  evolves : g.Evolves g'
  asks : ∀ {σ : Type} (b : Backend σ) {state state' : σ} (done : List (NodeId × Call)),
    b.Replays (calls.map Prod.snd) state state' → ∃ more, ((m σ b).after ⟨g, state, done⟩).calls =
      done ++ calls ++ (k, .query q (b.query q state').1) :: more
  resumes : ∀ {σ : Type} (b : Backend σ) {state state' : σ} (done : List (NodeId × Call)),
    b.Replays (calls.map Prod.snd) state state' →
      m σ b ⟨g', state', done ++ calls⟩ = m σ b ⟨g, state, done⟩

/-- Success is told by the answers, and repeated without a call on any later graph. Failure is
that of a query, and what was done before it need not be done again. -/
def Restarts (m : Portable α) (g : Graph) : Prop :=
  ∀ (σ : Type) (b : Backend σ) (state : σ) (done : List (NodeId × Call)),
    (m σ b).Ends ⟨g, state, done⟩
      (fun a s' => g.Evolves s'.graph ∧ (∀ g', s'.graph.Evolves g' → m.Gives g' [] a g') ∧
        ∃ calls, s'.calls = done ++ calls ∧ b.Replays (calls.map Prod.snd) state s'.backend ∧
          m.Gives g calls a s'.graph)
      (fun _ s' => ∃ calls k q answer mid, s'.calls = done ++ calls ++ [(k, .query q answer)] ∧
        b.Replays (calls.map Prod.snd) state mid ∧ b.query q mid = (answer, s'.backend) ∧
        (∀ row, answer ≠ .ok (some row)) ∧ m.Stops g calls k q s'.graph)

/-- The same for an action that sends one query at most, and changes nothing if it fails. -/
def Atomic (m : Portable α) (g : Graph) : Prop :=
  ∀ (σ : Type) (b : Backend σ) (state : σ) (done : List (NodeId × Call)),
    (m σ b).Ends ⟨g, state, done⟩
      (fun a s' => ∃ calls, s'.calls = done ++ calls ∧
        b.Replays (calls.map Prod.snd) state s'.backend ∧ m.Gives g calls a s'.graph)
      (fun _ s' => ∃ k q answer, s'.calls = done ++ [(k, .query q answer)] ∧
        b.query q state = (answer, s'.backend) ∧ (∀ row, answer ≠ .ok (some row)) ∧
        s'.graph = g ∧ m.Stops g [] k q g)

section
variable {m m' : Portable α} {f : α → Portable β} {g g₁ g₂ g' : Graph} {a : α} {c : β} {k : NodeId}
  {q : Statement} {calls calls' : List (NodeId × Call)}

theorem Gives.bind (h : m.Gives g calls a g₁) (h' : (f a).Gives g₁ calls' c g₂) :
    (m.bind f).Gives g (calls ++ calls') c g₂ := by
  intro σ b state state' done hreplays
  rw [List.map_append, Backend.replays_append] at hreplays
  obtain ⟨mid, hcalls, hcalls'⟩ := hreplays
  rw [Portable.bind, Action.bind_of_ok (h σ b done hcalls), h' σ b _ hcalls', List.append_assoc]

/-- What was sent stays on record. -/
theorem Restarts.calls_after (h : m.Restarts g) {σ : Type} (b : Backend σ) (s : Session σ)
    (hs : s.graph = g) : ∃ more, ((m σ b).after s).calls = s.calls ++ more := by
  obtain ⟨g, state, done⟩ := s
  subst hs
  refine Action.Ends.of_after (p := fun s' => ∃ more, s'.calls = done ++ more)
    ((h σ b state done).mono ?_ ?_)
  · rintro a s' ⟨-, -, calls, hcalls, -⟩
    exact ⟨calls, hcalls⟩
  · rintro e s' ⟨calls, k, q, answer, mid, hcalls, -⟩
    exact ⟨calls ++ [(k, .query q answer)], by rw [hcalls, List.append_assoc]⟩

/-- An action that stops, with another one after it. -/
theorem Stops.bind (h : m.Stops g calls k q g')
    (hmore : ∀ {σ : Type} {b : Backend σ} {s s' : Session σ} {a : α}, s.graph = g →
      m σ b s = .ok a s' → ∃ more, ((f a σ b).after s').calls = s'.calls ++ more) :
    (m.bind f).Stops g calls k q g' where
  evolves := h.evolves
  asks {σ} b {state state'} done hreplays := by
    obtain ⟨more, hasked⟩ := h.asks b done hreplays
    rw [Action.after] at hasked
    cases hm : m σ b ⟨g, state, done⟩ with
    | error e s' =>
      rw [hm] at hasked
      exact ⟨more, by rw [Action.after, Portable.bind, Action.bind_of_error hm, hasked]⟩
    | ok a s' =>
      rw [hm] at hasked
      obtain ⟨rest, hrest⟩ := hmore rfl hm
      have hafter : (m.bind f σ b).after ⟨g, state, done⟩ = (f a σ b).after s' := by
        rw [Action.after, Portable.bind, Action.bind_of_ok hm, Action.after]
      exact ⟨more ++ rest, by rw [hafter, hrest, hasked]; simp⟩
  resumes {σ} b {state state'} done hreplays := by
    have hsame := h.resumes b done hreplays
    cases hm : m σ b ⟨g, state, done⟩ with
    | error e s' =>
      rw [hm] at hsame
      rw [Portable.bind, Action.bind_of_error hm, Action.bind_of_error hsame]
    | ok a s' =>
      rw [hm] at hsame
      rw [Portable.bind, Action.bind_of_ok hm, Action.bind_of_ok hsame]

/-- An action that stops after another one, which is repeated without a call. -/
theorem Stops.after (h : (f a).Stops g₁ calls' k q g') (hevolves : g.Evolves g₁)
    (hgives : m.Gives g calls a g₁) (hagain : m.Gives g' [] a g') :
    (m.bind f).Stops g (calls ++ calls') k q g' where
  evolves := hevolves.trans h.evolves
  asks {σ} b {state state'} done hreplays := by
    rw [List.map_append, Backend.replays_append] at hreplays
    obtain ⟨mid, hcalls, hcalls'⟩ := hreplays
    obtain ⟨more, hasked⟩ := h.asks b (done ++ calls) hcalls'
    refine ⟨more, ?_⟩
    rw [Action.after, Portable.bind, Action.bind_of_ok (hgives σ b done hcalls),
      ← List.append_assoc]
    exact hasked
  resumes {σ} b {state state'} done hreplays := by
    rw [List.map_append, Backend.replays_append] at hreplays
    obtain ⟨mid, hcalls, hcalls'⟩ := hreplays
    have hsilent : m σ b ⟨g', state', done ++ (calls ++ calls')⟩ =
        .ok a ⟨g', state', done ++ (calls ++ calls') ++ []⟩ := hagain σ b _ rfl
    rw [List.append_nil] at hsilent
    rw [Portable.bind, Action.bind_of_ok (hgives σ b done hcalls), Action.bind_of_ok hsilent,
      ← List.append_assoc]
    exact h.resumes b (done ++ calls) hcalls'

theorem Restarts.bind (hm : m.Restarts g)
    (hf : ∀ {σ : Type} {b : Backend σ} {s s' : Session σ} {a : α}, s.graph = g →
      m σ b s = .ok a s' → (f a).Restarts s'.graph) : (m.bind f).Restarts g := by
  intro σ b state done
  refine Action.ends_bind.2 (Action.ends_of_forall (fun a s₁ hok => ?_) fun e s' hfails => ?_)
  · obtain ⟨hevolves, hagain, calls, hcalls, hreplays, hgives⟩ := (hm σ b state done).of_ok hok
    have hnext := hf rfl hok
    obtain ⟨g₁, state₁, done₁⟩ := s₁
    obtain rfl : done₁ = done ++ calls := hcalls
    refine (hnext σ b state₁ (done ++ calls)).mono ?_ ?_
    · rintro c s₂ ⟨hevolves', hagain', calls', hcalls', hreplays', hgives'⟩
      refine ⟨hevolves.trans hevolves', fun g' hg' => ?_, calls ++ calls', ?_, ?_,
        hgives.bind hgives'⟩
      · exact Gives.bind (hagain g' (hevolves'.trans hg')) (hagain' g' hg')
      · rw [hcalls', List.append_assoc]
      · rw [List.map_append]
        exact Backend.replays_append.2 ⟨state₁, hreplays, hreplays'⟩
    · rintro e s₂ ⟨calls', k, q, answer, mid, hcalls', hreplays', hquery, hanswer, hstops⟩
      refine ⟨calls ++ calls', k, q, answer, mid, ?_, ?_, hquery, hanswer,
        hstops.after hevolves hgives (hagain _ hstops.evolves)⟩
      · simp only [hcalls', List.append_assoc]
      · rw [List.map_append]
        exact Backend.replays_append.2 ⟨state₁, hreplays, hreplays'⟩
  · obtain ⟨calls, k, q, answer, mid, hcalls, hreplays, hquery, hanswer, hstops⟩ :=
      (hm σ b state done).of_error hfails
    exact ⟨calls, k, q, answer, mid, hcalls, hreplays, hquery, hanswer,
      hstops.bind fun hs hok => (hf hs hok).calls_after _ _ rfl⟩

/-! ## Single steps -/

theorem Gives.congr (h : m.Gives g calls a g')
    (heq : ∀ {σ : Type} (b : Backend σ) s, s.graph = g → m' σ b s = m σ b s) :
    m'.Gives g calls a g' :=
  fun σ b _ _ done hreplays => (heq b _ rfl).trans (h σ b done hreplays)

theorem Stops.congr (h : m.Stops g calls k q g')
    (heq : ∀ {σ : Type} (b : Backend σ) s, s.graph = g → m' σ b s = m σ b s)
    (heq' : ∀ {σ : Type} (b : Backend σ) s, s.graph = g' → m' σ b s = m σ b s) :
    m'.Stops g calls k q g' where
  evolves := h.evolves
  asks {σ} b {state state'} done hreplays := by
    rw [Action.after, heq b _ rfl]
    exact h.asks b done hreplays
  resumes {σ} b {state state'} done hreplays := by
    rw [heq b ⟨g, state, done⟩ rfl, heq' b ⟨g', state', done ++ calls⟩ rfl]
    exact h.resumes b done hreplays

/-- An action that sends a query first has nothing to repeat before it. -/
theorem Stops.of_first (h : ∀ {σ : Type} (b : Backend σ) (state : σ) done, ∃ more,
      ((m σ b).after ⟨g, state, done⟩).calls = done ++ (k, .query q (b.query q state).1) :: more) :
    m.Stops g [] k q g where
  evolves := .refl g
  asks {σ} b {state state'} done hreplays := by
    obtain rfl : state' = state := hreplays
    rw [List.append_nil]
    exact h b state' done
  resumes {σ} b {state state'} done hreplays := by
    obtain rfl : state' = state := hreplays
    rw [List.append_nil]

theorem Atomic.congr (h : m.Atomic g)
    (heq : ∀ {σ : Type} (b : Backend σ) s, s.graph = g → m' σ b s = m σ b s) : m'.Atomic g := by
  intro σ b state done
  rw [Action.Ends, heq b _ rfl]
  refine (h σ b state done).mono ?_ ?_
  · rintro a s' ⟨calls, hcalls, hreplays, hgives⟩
    exact ⟨calls, hcalls, hreplays, hgives.congr heq⟩
  · rintro e s' ⟨k, q, answer, hcalls, hquery, hanswer, hgraph, hstops⟩
    exact ⟨k, q, answer, hcalls, hquery, hanswer, hgraph, hstops.congr heq heq⟩

/-- A change of the graph after an action. -/
theorem Atomic.register (h : m.Atomic g) (F : α → Graph → β × Graph) :
    (m.bind fun a _ _ => Action.register (F a)).Atomic g := by
  intro σ b state done
  refine Action.ends_bind.2 ((h σ b state done).mono ?_ ?_)
  · rintro a s' ⟨calls, hcalls, hreplays, hgives⟩
    rw [Action.ends_register]
    have hchange : Gives (fun _ _ => Action.register (F a)) s'.graph [] (F a s'.graph).1
        (F a s'.graph).2 := by
      intro σ b state state' done hreplays
      obtain rfl : state' = state := hreplays
      rw [List.append_nil]
      rfl
    have hboth := Gives.bind (f := fun a _ _ => Action.register (F a)) hgives hchange
    rw [List.append_nil] at hboth
    exact ⟨calls, hcalls, hreplays, hboth⟩
  · rintro e s' ⟨k, q, answer, hcalls, hquery, hanswer, hgraph, hstops⟩
    exact ⟨k, q, answer, hcalls, hquery, hanswer, hgraph,
      hstops.bind fun _ _ => ⟨[], (List.append_nil _).symm⟩⟩

theorem Gives.of_silent
    (h : ∀ {σ : Type} (b : Backend σ) s, s.graph = g → m σ b s = .ok a s) : m.Gives g [] a g := by
  intro σ b state state' done hreplays
  obtain rfl : state' = state := hreplays
  rw [List.append_nil]
  exact h b _ rfl

theorem Atomic.of_silent
    (h : ∀ {σ : Type} (b : Backend σ) s, s.graph = g → m σ b s = .ok a s) : m.Atomic g := by
  intro σ b state done
  rw [Action.Ends, h b _ rfl]
  exact ⟨[], (List.append_nil _).symm, rfl, .of_silent h⟩

/-- Such an action may be repeated if nothing is left to ask once it has succeeded. -/
theorem Atomic.restarts (h : m.Atomic g)
    (hagain : ∀ {σ : Type} {b : Backend σ} {s s' : Session σ} {a : α}, s.graph = g →
      m σ b s = .ok a s' → g.Evolves s'.graph ∧ ∀ g', s'.graph.Evolves g' → m.Gives g' [] a g') :
    m.Restarts g := by
  intro σ b state done
  refine Action.ends_of_forall (fun a s' hok => ?_) fun e s' hfails => ?_
  · obtain ⟨hevolves, hsilent⟩ := hagain rfl hok
    exact ⟨hevolves, hsilent, (h σ b state done).of_ok hok⟩
  · obtain ⟨k, q, answer, hcalls, hquery, hanswer, hgraph, hstops⟩ :=
      (h σ b state done).of_error hfails
    exact ⟨[], k, q, answer, state, by rw [hcalls, List.append_nil], rfl, hquery, hanswer,
      hgraph ▸ hstops⟩

theorem Restarts.congr (h : m.Restarts g)
    (heq : ∀ {σ : Type} (b : Backend σ) s, g.Evolves s.graph → m' σ b s = m σ b s) :
    m'.Restarts g := by
  intro σ b state done
  rw [Action.Ends, heq b _ (.refl g)]
  refine (h σ b state done).mono ?_ ?_
  · rintro a s' ⟨hevolves, hagain, calls, hcalls, hreplays, hgives⟩
    refine ⟨hevolves, fun g' hg' => (hagain g' hg').congr fun b s hs => heq b s ?_,
      calls, hcalls, hreplays, hgives.congr fun b s hs => heq b s (hs ▸ .refl g)⟩
    exact hs ▸ hevolves.trans hg'
  · rintro e s' ⟨calls, k, q, answer, mid, hcalls, hreplays, hquery, hanswer, hstops⟩
    refine ⟨calls, k, q, answer, mid, hcalls, hreplays, hquery, hanswer, hstops.congr ?_ ?_⟩
    · exact fun b s hs => heq b s (hs ▸ .refl g)
    · exact fun b s hs => heq b s (hs ▸ hstops.evolves)

/-! ## Resuming -/

/-- The action was stopped by the query `q` for the node `k`, after `calls`, with the graph `g'`.
Where it succeeds on `g` with the same answers to `calls`, it ends on `g'` with the same value
and graph as soon as it gets the answers from `q` on. -/
structure Resumes (m : Portable α) (g g' : Graph) (calls : List (NodeId × Call)) (k : NodeId)
    (q : Statement) : Prop where
  grows : Graph.Grows g g'
  isTree : g'.IsTree
  succeeds : ∀ {σ : Type} (b : Backend σ) (state : σ) done, b.NeverFails →
    ∃ a t, m σ b ⟨g, state, done⟩ = .ok a t
  resumes : ∀ {σ : Type} (b : Backend σ) (state mid : σ) done {a t},
    b.Replays (calls.map Prod.snd) state mid → m σ b ⟨g, state, done⟩ = .ok a t →
    ∃ after, t.calls = done ++ calls ++ (k, .query q (b.query q mid).1) :: after ∧
      Graph.Grows g' t.graph ∧ t.graph.IsTree ∧
      ∀ {τ : Type} (b' : Backend τ) (state' state'' : τ) done',
        b'.Replays (((k, .query q (b.query q mid).1) :: after).map Prod.snd) state' state'' →
          m τ b' ⟨g', state', done'⟩ =
            .ok a ⟨t.graph, state'', done' ++ (k, .query q (b.query q mid).1) :: after⟩

theorem Restarts.succeeds (h : m.Restarts g) {σ : Type} (b : Backend σ) (state : σ)
    (done : List (NodeId × Call)) (hb : b.NeverFails) :
    ∃ a t, m σ b ⟨g, state, done⟩ = .ok a t := by
  cases hm : m σ b ⟨g, state, done⟩ with
  | ok a t => exact ⟨a, t, rfl⟩
  | error e t =>
    obtain ⟨-, -, q, answer, mid, -, -, hquery, hanswer, -⟩ := (h σ b state done).of_error hm
    obtain ⟨row, hrow⟩ := hb q mid
    rw [hquery] at hrow
    exact absurd hrow (hanswer row)

theorem Stops.resumption (h : m.Stops g calls k q g') (hg : g.WellFormed) (hm : m.Restarts g)
    (hm' : m.Restarts g') : m.Resumes g g' calls k q where
  grows := h.evolves.grows hg
  isTree := (h.evolves.wellFormed hg).isTree
  succeeds := hm.succeeds
  resumes {σ} b state mid done {a t} hreplays hok := by
    obtain ⟨more, hasked⟩ := h.asks b done hreplays
    rw [Action.after, hok] at hasked
    have hagain := (h.resumes b done hreplays).trans hok
    obtain ⟨hevolves, -, rest, hrest, -, hgives⟩ := (hm' σ b mid (done ++ calls)).of_ok hagain
    -- what is left to ask starts with the query that failed
    obtain rfl : rest = (k, .query q (b.query q mid).1) :: more :=
      List.append_cancel_left (hrest.symm.trans hasked)
    have hg' := h.evolves.wellFormed hg
    exact ⟨more, hasked, hevolves.grows hg', (hevolves.wellFormed hg').isTree,
      fun b' _ _ done' hreplays' => hgives _ b' done' hreplays'⟩

end
end Portable

namespace Action

open Portable

variable {σ α : Type} {b : Backend σ} {s : Session σ} {g : Graph} {n : NodeId} {c : ColumnId}

/-- A node that has a row and columns to read asks once. -/
theorem fetchNode_eq (hn : s.graph.IsNode n) (hnew : ¬ s.graph.IsNew n)
    (hclean : s.graph.cleanColumns n ≠ []) : fetchNode b n s =
      match b.query (s.graph.selection n) s.backend with
      | (.ok (some row), state) =>
        .ok () ⟨(s.graph.settleRow (s.graph.cleanColumns n) row).setFresh n true, state,
          s.calls ++ [(n, .query (s.graph.selection n) (.ok (some row)))]⟩
      | (.ok none, state) =>
        .error (.missingRow (s.graph.table n) (s.graph.keyMatch n)
            ((s.graph.selection n).render b.dialect))
          ⟨s.graph, state, s.calls ++ [(n, .query (s.graph.selection n) (.ok none))]⟩
      | (.error f, state) => .error (.statement f)
          ⟨s.graph, state, s.calls ++ [(n, .query (s.graph.selection n) (.error f))]⟩ := by
  have hends : (fetchNode b n).Ends s (fun a s' => fetchNode b n s = .ok a s')
      (fun e s' => fetchNode b n s = .error e s') := ends_of_forall (fun _ _ => id) fun _ _ => id
  obtain ⟨hrow, hnone, herror⟩ := ((ends_fetchNode b).1 hends).2.2 hn hnew hclean
  split
  · next row state hq => exact hrow row state hq
  · next state hq => exact hnone state hq
  · next f state hq => exact herror f state hq

theorem fetchNode_atomic (hn : g.IsNode n) : Atomic (fun _ b => fetchNode b n) g := by
  by_cases hquiet : g.IsNew n ∨ g.cleanColumns n = []
  · have hnothing : Atomic (fun _ _ => pure ()) g := .of_silent fun _ _ _ => rfl
    refine (hnothing.register fun _ g => ((), g.setFresh n true)).congr fun b s hs => ?_
    subst hs
    refine eq_of_ends fun post fail h => ?_
    exact (ends_fetchNode b).2 ⟨fun hno => absurd hn hno, fun _ _ => h, fun _ hnew hclean =>
      absurd hquiet (not_or.2 ⟨hnew, hclean⟩)⟩
  · obtain ⟨hnew, hclean⟩ := not_or.1 hquiet
    have heq {σ : Type} (b : Backend σ) (state : σ) (done : List (NodeId × Call)) :=
      fetchNode_eq (b := b) (s := ⟨g, state, done⟩) hn hnew hclean
    have hstops : Stops (fun _ b => fetchNode b n) g [] n (g.selection n) g := by
      refine .of_first fun b state done => ⟨[], ?_⟩
      rw [after, heq b state done]
      rcases b.query (g.selection n) state with ⟨_ | _ | _, _⟩ <;> rfl
    intro σ b state done
    rw [Ends]
    dsimp only
    rw [heq b state done]
    rcases hq : b.query (g.selection n) state with ⟨f | _ | row, state'⟩
    · exact ⟨n, _, _, rfl, hq, by simp, rfl, hstops⟩
    · exact ⟨n, _, _, rfl, hq, by simp, rfl, hstops⟩
    · refine ⟨_, rfl, ⟨state', hq, rfl⟩, fun σ' b' t t' done' hreplays => ?_⟩
      obtain ⟨mid, hanswer, rfl⟩ := hreplays
      dsimp only
      rw [heq b' t done', show b'.query (g.selection n) t = _ from hanswer]

theorem value_atomic (hg : g.WellFormed) (hc : c ∈ g.columnsOf n) :
    Atomic (fun _ b => value b c) g := by
  by_cases hknown : g.IsDirty c ∨ g.IsFresh n
  · refine Atomic.of_silent (a := g.current c) fun {σ} b s hs => ?_
    subst hs
    exact value_of_ready b hg ⟨n, hc, hknown⟩
  · obtain ⟨hclean, hstale⟩ := not_or.1 hknown
    refine ((fetchNode_atomic (hg.isNode_of_column hc)).register
      fun _ g => (g.current c, g)).congr fun {σ} b s hs => ?_
    subst hs
    refine eq_of_ends fun post fail h => ?_
    refine (ends_value b hg hc).2 ⟨fun h => absurd h hclean, fun _ h => absurd h hstale,
      fun _ _ => ?_⟩
    exact ends_bind.1 h

/-- A join that is there is taken; for a missing one its foreign key is read. -/
theorem joinFrom_atomic (table childColumn : String) (hg : g.WellFormed)
    (hfk : c ∈ g.columnsOf n) : Atomic (fun _ b => joinFrom b c table childColumn) g := by
  cases hfind : g.findChild? n ⟨table, childColumn, g.name c⟩ with
  | some child =>
    refine .of_silent (a := child) fun b s hs => ?_
    subst hs
    exact (joinFrom_of_findChild? b hg hfk hfind).eq_ok
  | none =>
    refine ((value_atomic hg hfk).register
      fun key g => g.addChild n c table childColumn key).congr fun b s hs => ?_
    subst hs
    obtain ⟨col, hcol, rfl⟩ := Graph.column?_of_owner (hg.column hfk).1
    have hname : s.graph.name c = col.name := by simp [Graph.name, hcol]
    rw [hname] at hfind
    rw [joinFrom, requireColumn_bind hcol]
    refine eq_of_ends fun post fail h => ?_
    rw [ends_bind, ends_graph, hfind]
    exact h

/-! ## Paths -/

theorem addColumn_restarts (name : String) (hg : g.WellFormed) (hn : g.IsNode n) :
    Restarts (fun _ _ => addColumn n name) g := by
  have hnothing : Atomic (fun _ _ => pure ()) g := .of_silent fun _ _ _ => rfl
  have hatomic : Atomic (fun _ _ => addColumn n name) g :=
    (hnothing.register fun _ g => g.addColumn n name).congr fun _ _ _ => rfl
  refine hatomic.restarts fun {σ b s s' a} hs hok => ?_
  subst hs
  obtain ⟨hevolves, hfind⟩ := (addColumn_ends hg hn).of_ok hok
  have hg' := hevolves.wellFormed hg
  refine ⟨hevolves, fun g' hlater => .of_silent fun b t ht => ?_⟩
  subst ht
  have hfound := (hlater.grows hg').findColumn? hg' (hlater.wellFormed hg') hfind
  exact (addColumn_of_findColumn? hfound).eq_ok

theorem joinFrom_restarts (table childColumn : String) (hg : g.WellFormed)
    (hfk : c ∈ g.columnsOf n) : Restarts (fun _ b => joinFrom b c table childColumn) g := by
  refine (joinFrom_atomic table childColumn hg hfk).restarts fun {σ b s s' a} hs hok => ?_
  subst hs
  obtain ⟨hevolves, hfind⟩ := (joinFrom_ends b hg hfk).of_ok hok
  have hg' := hevolves.wellFormed hg
  refine ⟨hevolves, fun g' hlater => .of_silent fun b t ht => ?_⟩
  subst ht
  have hgrows := (hevolves.trans hlater).grows hg
  have hfound := (hlater.grows hg').findChild? hg' (hlater.wellFormed hg') hfind
  rw [← (hgrows.column (hg.column hfk).1).2] at hfound
  exact (joinFrom_of_findChild? b (hlater.wellFormed hg') ((hgrows.columns n).subset hfk)
    hfound).eq_ok

theorem follow_restarts (hops : List Hop) (hg : g.WellFormed) (hn : g.IsNode n) :
    Restarts (fun _ b => follow b n hops) g := by
  induction hops generalizing g n with
  | nil =>
    have hnothing : Atomic (fun _ _ => pure n) g := .of_silent fun _ _ _ => rfl
    refine hnothing.restarts fun {σ b s s' a} hs hok => ?_
    subst hs
    cases hok
    exact ⟨.refl _, fun g' _ => .of_silent fun _ _ _ => rfl⟩
  | cons h hops ih =>
    refine Restarts.bind (addColumn_restarts h.foreignKey hg hn)
      (f := fun fk => Portable.bind (fun _ b => joinFrom b fk h.table h.childColumn)
        fun child _ b => follow b child hops) fun {σ b s s₁ fk} hs hcolumn => ?_
    subst hs
    obtain ⟨hevolves, hfind⟩ := (addColumn_ends hg hn).of_ok hcolumn
    have hg₁ := hevolves.wellFormed hg
    have hfk := (hg₁.findColumn?_mem hfind).1
    refine Restarts.bind (joinFrom_restarts h.table h.childColumn hg₁ hfk)
      fun {σ b s s₂ child} hs hchild => ?_
    rw [← hs] at hg₁ hfk
    obtain ⟨hevolves', hfound⟩ := (joinFrom_ends b hg₁ hfk).of_ok hchild
    have hg₂ := hevolves'.wellFormed hg₁
    exact ih hg₂ (hg₂.isNode_of_findChild? hfound)

theorem registerColumn_restarts (p : ColumnPath) (hg : g.WellFormed) (hn : g.IsNode n) :
    Restarts (fun _ b => registerColumn b n p) g := by
  simp only [registerColumn_eq]
  refine Restarts.bind (follow_restarts p.hops hg hn) (f := fun m _ _ => addColumn m p.target)
    fun {σ b s s₁ m} hs hok => ?_
  subst hs
  obtain ⟨hevolves, hm⟩ := Ends.of_ok (follow_descends b p.hops hg hn) hok
  have hg₁ := hevolves.wellFormed hg
  exact addColumn_restarts p.target hg₁
    (hg₁.isNode_of_descend ((hevolves.grows hg).node hn).1 hm)

theorem resolveColumn_restarts {path : String} {p : ColumnPath}
    (hp : ColumnPath.parse path = .ok p) (hg : g.WellFormed) (hn : g.IsNode n) :
    Restarts (fun _ b => resolveColumn b n path) g := by
  refine (registerColumn_restarts p hg hn).congr fun b s hs => ?_
  obtain ⟨node, hnode⟩ := ((hs.grows hg).node hn).1.exists
  rw [resolveColumn, hp, requireNode_bind hnode]
  rfl

theorem resolveTable_restarts {path : String} {ts : List TableSpec}
    (hts : TableSpec.parsePath path = .ok ts) (hg : g.WellFormed) (hn : g.IsNode n) :
    Restarts (fun _ b => resolveTable b n path) g := by
  refine (follow_restarts (ts.flatMap TableSpec.hops) hg hn).congr fun b s hs => ?_
  obtain ⟨node, hnode⟩ := ((hs.grows hg).node hn).1.exists
  rw [resolveTable_eq b hts, requireNode_bind hnode]

end Action

namespace Portable

variable {σ α : Type} {b : Backend σ} {s s' : Session σ} {m : Portable α}

/-- A query got no row, and the action may be resumed from there. -/
def Interrupted (m : Portable α) (b : Backend σ) (s s' : Session σ) : Prop :=
  ∃ calls k q answer mid, s'.calls = s.calls ++ calls ++ [(k, .query q answer)] ∧
    b.Replays (calls.map Prod.snd) s.backend mid ∧ b.query q mid = (answer, s'.backend) ∧
    (∀ row, answer ≠ .ok (some row)) ∧ m.Resumes s.graph s'.graph calls k q

theorem Restarts.interrupted {e : Error} (hg : s.graph.WellFormed)
    (h : ∀ g, s.graph.Evolves g → m.Restarts g) (hfails : m σ b s = .error e s') :
    m.Interrupted b s s' := by
  have hm := h _ (.refl _)
  obtain ⟨calls, k, q, answer, mid, hcalls, hreplays, hquery, hanswer, hstops⟩ :=
    (hm σ b s.backend s.calls).of_error hfails
  exact ⟨calls, k, q, answer, mid, hcalls, hreplays, hquery, hanswer,
    hstops.resumption hg hm (h _ hstops.evolves)⟩

end Portable

open RecordGraph.Portable RecordGraph.Action RecordGraph.Graph

variable {σ : Type} {b : Backend σ} {s t : Session σ}

/-- Resolving a column or table path that failed at a query takes nothing back. Resolving it again
resumes it: with the answers that one resolution would have got from that query on, it gives the
same id and leaves the same graph. -/
theorem Graph.Reachable.resolution_resumes (hs : s.graph.Reachable) (n : NodeId) (path : String)
    {e : Error} (hsql : e.sql?.isSome) :
    (resolveColumn b n path s = .error e t →
      Interrupted (fun _ b => resolveColumn b n path) b s t) ∧
    (resolveTable b n path s = .error e t →
      Interrupted (fun _ b => resolveTable b n path) b s t) := by
  have hg := hs.wellFormed
  refine ⟨fun hfails => ?_, fun hfails => ?_⟩
  · have hends : (resolveColumn b n path).Ends s (fun _ _ => True) (fun e' _ => e'.sql?.isSome →
        Interrupted (fun _ b => resolveColumn b n path) b s t) := by
      refine (ends_resolveColumn b).2 ⟨nofun, fun hn => ⟨nofun, fun p hp => ?_⟩⟩
      refine ends_of_forall (fun _ _ _ => trivial) fun _ _ _ _ => ?_
      refine Restarts.interrupted hg (fun g hevolves => ?_) hfails
      exact resolveColumn_restarts hp (hevolves.wellFormed hg) ((hevolves.grows hg).node hn).1
    exact hends.of_error hfails hsql
  · have hends : (resolveTable b n path).Ends s (fun _ _ => True) (fun e' _ => e'.sql?.isSome →
        Interrupted (fun _ b => resolveTable b n path) b s t) := by
      refine (ends_resolveTable b).2 ⟨nofun, fun hn => ⟨nofun, fun ts hts => ?_⟩⟩
      refine ends_of_forall (fun _ _ _ => trivial) fun _ _ _ _ => ?_
      refine Restarts.interrupted hg (fun g hevolves => ?_) hfails
      exact resolveTable_restarts hts (hevolves.wellFormed hg) ((hevolves.grows hg).node hn).1
    exact hends.of_error hfails hsql

/-- The second of two joins is read in vain. The retry reads nothing but its foreign key. -/
theorem Graph.Reachable.resolution_resumes_lost :
    let b := Script.backend .standard
    let script := fun queries => (⟨queries, .noRow, [], [], 0⟩ : Script)
    let first := ScriptedAnswer.row [("t1_id", .integer 5)]
    let second := ScriptedAnswer.row [("t2_id", .integer 7)]
    let resolve := resolveColumn b root "t1.t2.name"
    let s := Session.start "t0" "id" (.integer 1) (script [first, .failure "lost"])
    let t := resolve.after s
    let single := resolve.after { s with backend := script [first, second] }
    resolve.result? s = none ∧ t.graph.columns.size = 4 ∧ single.graph.columns.size = 6 ∧
      resolve { t with backend := script [second] } =
        .ok ⟨5⟩ { single with calls := t.calls ++ single.calls.drop 1 } := by
  intro b script first second resolve s t single
  have hs : s.graph.Reachable := reachable_start b "t0" "id" (.integer 1) s.backend
  have hresult : resolve.result? s = none := by decide +kernel
  obtain ⟨e, hfails⟩ := exists_error_of_result? hresult
  have hsql : (match resolve s with
      | .ok _ _ => false
      | .error e _ => e.sql?.isSome) = true := by decide +kernel
  rw [hfails] at hsql
  obtain ⟨calls, k, q, answer, mid, hcalls, -, -, -, h⟩ :=
    (Graph.Reachable.resolution_resumes hs root "t1.t2.name" hsql).1 hfails
  -- the failed attempt sent two queries
  have hsent : t.calls =
      [(root, .query (.select "t0" ⟨"id", .integer 1⟩ ["t1_id"])
        (.ok (some [("t1_id", .integer 5)])))] ++
      [(⟨1⟩, .query (t.graph.selection ⟨1⟩)
        (.error ⟨(t.graph.selection ⟨1⟩).render .standard, "lost"⟩))] := by
    decide +kernel
  obtain ⟨rfl, hlast⟩ := List.append_inj' (hcalls.symm.trans hsent) rfl
  cases hlast
  have hsingle : resolve { s with backend := script [first, second] } = .ok ⟨5⟩ single :=
    eq_ok_of_result? (by decide +kernel)
  have hbackend : single.backend = script [] ∧ single.calls.length = 2 := by decide +kernel
  obtain ⟨after, hasked, -, -, hagain⟩ :=
    h.resumes b (script [first, second]) (script [second]) [] ⟨_, rfl, rfl⟩ hsingle
  obtain rfl : after = [] := by
    have hlength := hbackend.2
    rw [hasked] at hlength
    simpa using hlength
  refine ⟨hresult, by decide +kernel, by decide +kernel, ?_⟩
  rw [hasked, hbackend.1]
  exact hagain b (script [second]) (script []) t.calls ⟨_, rfl, rfl⟩

end RecordGraph
