import RecordGraph.Proofs.Lists
import RecordGraph.Session.Write

/-!
# Outcomes of actions

An action ends in a value or in an error, and with a session either way.
`Ends` says what holds then. Each primitive has an equation that computes it,
so an action is followed step by step; a loop is followed by what each turn
keeps. The calls of an action take its backend from state to state.
-/
namespace RecordGraph

/-! ## Calls -/

namespace Backend

variable {σ : Type} (b : Backend σ)

/-- The backend gives the answer of a call, and goes on from there. -/
def Answers : Call → σ → σ → Prop
  | .query s answer, state, state' => b.query s state = (answer, state')
  | .exec s answer, state, state' => b.exec s state = (answer, state')
  | .lastInsertId answer, state, state' => b.lastInsertId state = (answer, state')

/-- The backend gives the answers of some calls, one after the other. -/
def Replays : List Call → σ → σ → Prop
  | [], state, state' => state' = state
  | call :: calls, state, state' => ∃ mid, b.Answers call state mid ∧ Replays calls mid state'

variable {b} {calls calls' : List Call} {state state' : σ}

theorem replays_append : b.Replays (calls ++ calls') state state' ↔
    ∃ mid, b.Replays calls state mid ∧ b.Replays calls' mid state' := by
  induction calls generalizing state with
  | nil => simp [Replays]
  | cons call calls ih =>
    simp only [List.cons_append, Replays, ih]
    constructor
    · rintro ⟨next, hanswer, mid, hcalls, hcalls'⟩
      exact ⟨mid, ⟨next, hanswer, hcalls⟩, hcalls'⟩
    · rintro ⟨mid, ⟨next, hanswer, hcalls⟩, hcalls'⟩
      exact ⟨next, hanswer, mid, hcalls, hcalls'⟩

end Backend

namespace Action

variable {σ α β : Type}

/-- From the session `s`, success ends in `post` and failure in `fail`. -/
def Ends (m : Action σ α) (s : Session σ) (post : α → Session σ → Prop)
    (fail : Error → Session σ → Prop) : Prop :=
  match m s with
  | .ok a s' => post a s'
  | .error e s' => fail e s'

/-- The session in which an action ends, after a failure too. -/
def after (m : Action σ α) (s : Session σ) : Session σ :=
  match m s with
  | .ok _ s' => s'
  | .error _ s' => s'

/-- The value of an action that succeeds. -/
def result? (m : Action σ α) (s : Session σ) : Option α :=
  match m s with
  | .ok a _ => some a
  | .error _ _ => none

section
variable {m : Action σ α} {f : α → Action σ β} {s : Session σ}
  {post post' : α → Session σ → Prop} {fail fail' : Error → Session σ → Prop}

theorem Ends.mono (h : m.Ends s post fail) (hp : ∀ a s', post a s' → post' a s')
    (hf : ∀ e s', fail e s' → fail' e s') : m.Ends s post' fail' := by
  unfold Ends at h ⊢
  split
  · next he => rw [he] at h; exact hp _ _ h
  · next he => rw [he] at h; exact hf _ _ h

theorem Ends.and (h : m.Ends s post fail) (h' : m.Ends s post' fail') :
    m.Ends s (fun a s' => post a s' ∧ post' a s') (fun e s' => fail e s' ∧ fail' e s') := by
  unfold Ends at h h' ⊢
  split
  · next he => rw [he] at h h'; exact ⟨h, h'⟩
  · next he => rw [he] at h h'; exact ⟨h, h'⟩

theorem Ends.of_ok {a : α} {s' : Session σ} (h : m.Ends s post fail) (he : m s = .ok a s') :
    post a s' := by
  unfold Ends at h
  rw [he] at h
  exact h

theorem Ends.of_error {e : Error} {s' : Session σ} (h : m.Ends s post fail)
    (he : m s = .error e s') : fail e s' := by
  unfold Ends at h
  rw [he] at h
  exact h

theorem Ends.of_after {p : Session σ → Prop} (h : m.Ends s (fun _ => p) (fun _ => p)) :
    p (m.after s) := by
  unfold after
  split
  · next he => exact h.of_ok he
  · next he => exact h.of_error he

/-- An action that cannot fail succeeds. -/
theorem Ends.exists_ok (h : m.Ends s post (fun _ _ => False)) :
    ∃ a s', m s = .ok a s' ∧ post a s' := by
  cases he : m s with
  | ok a s' => exact ⟨a, s', rfl, h.of_ok he⟩
  | error e s' => exact (h.of_error he).elim

theorem Ends.eq_ok {a : α} {t : Session σ}
    (h : m.Ends s (fun a' s' => a' = a ∧ s' = t) (fun _ _ => False)) : m s = .ok a t := by
  obtain ⟨a', s', hok, rfl, rfl⟩ := h.exists_ok
  exact hok

/-- An action that cannot succeed fails. -/
theorem Ends.exists_error (h : m.Ends s (fun _ _ => False) fail) :
    ∃ e s', m s = .error e s' ∧ fail e s' := by
  cases he : m s with
  | ok a s' => exact (h.of_ok he).elim
  | error e s' => exact ⟨e, s', rfl, h.of_error he⟩

theorem ends_of_forall (hp : ∀ a s', m s = .ok a s' → post a s')
    (hf : ∀ e s', m s = .error e s' → fail e s') : m.Ends s post fail := by
  unfold Ends
  split
  · next he => exact hp _ _ he
  · next he => exact hf _ _ he

/-- Actions that end alike are the same. -/
theorem eq_of_ends {m' : Action σ α} {t : Session σ}
    (h : ∀ post fail, m'.Ends t post fail → m.Ends s post fail) : m s = m' t := by
  have hsame := h (fun a s' => m' t = .ok a s') (fun e s' => m' t = .error e s')
    (ends_of_forall (fun _ _ => id) fun _ _ => id)
  cases hm : m s with
  | ok a s' => exact (hsame.of_ok hm).symm
  | error e s' => exact (hsame.of_error hm).symm

theorem result?_eq_some {a : α} : m.result? s = some a ↔ ∃ s', m s = .ok a s' := by
  unfold result?
  cases m s <;> simp

theorem eq_ok_of_result? {a : α} (h : m.result? s = some a) : m s = .ok a (m.after s) := by
  unfold result? at h
  unfold after
  split at h
  · next he => rw [he, Option.some.inj h]
  · cases h

theorem exists_error_of_result? (h : m.result? s = none) : ∃ e, m s = .error e (m.after s) := by
  unfold result? at h
  unfold after
  split at h
  · cases h
  · next e s' he => exact ⟨e, he⟩

/-! ## Primitives -/

theorem ends_bind {post : β → Session σ → Prop} :
    (m >>= f).Ends s post fail ↔ m.Ends s (fun a s' => (f a).Ends s' post fail) fail := by
  change Ends (EStateM.bind m f) s post fail ↔ _
  unfold Ends EStateM.bind
  cases m s <;> rfl

theorem bind_of_ok {a : α} {t : Session σ} (h : m s = .ok a t) : (m >>= f) s = f a t := by
  change EStateM.bind m f s = _
  rw [EStateM.bind, h]

theorem bind_of_error {e : Error} {s' : Session σ} (h : m s = .error e s') :
    (m >>= f) s = .error e s' := by
  change EStateM.bind m f s = _
  rw [EStateM.bind, h]

/-- What is followed by an action that cannot fail fails where it does so alone. -/
theorem bind_eq_error {e : Error} {s' : Session σ} (hf : ∀ a t, ∃ c t', f a t = .ok c t') :
    (m >>= f) s = .error e s' ↔ m s = .error e s' := by
  cases hm : m s with
  | error e₁ s₁ => simp [bind_of_error hm]
  | ok a t =>
    obtain ⟨c, t', hok⟩ := hf a t
    simp [bind_of_ok hm, hok]

@[simp] theorem ends_pure {a : α} : Ends (pure a) s post fail ↔ post a s := Iff.rfl

@[simp] theorem ends_throw {e : Error} : Ends (throw e) s post fail ↔ fail e s := Iff.rfl

@[simp] theorem ends_graph {post : Graph → Session σ → Prop} :
    graph.Ends s post fail ↔ post s.graph s := Iff.rfl

@[simp] theorem ends_updateGraph {f : Graph → Graph} {post : Unit → Session σ → Prop} :
    (updateGraph f).Ends s post fail ↔ post () { s with graph := f s.graph } := Iff.rfl

@[simp] theorem ends_register {f : Graph → α × Graph} :
    (register f).Ends s post fail ↔ post (f s.graph).1 { s with graph := (f s.graph).2 } := Iff.rfl

theorem ends_requireNode {n : NodeId} {post : Node → Session σ → Prop} :
    (requireNode n).Ends s post fail ↔
      (∀ node, s.graph.node? n = some node → post node s) ∧
      (s.graph.node? n = none → fail (.unknownNode n) s) := by
  rw [requireNode, ends_bind, ends_graph]
  cases s.graph.node? n <;> simp

theorem requireNode_bind {n : NodeId} {node : Node} (hnode : s.graph.node? n = some node)
    (f : Node → Action σ α) : (requireNode n >>= f) s = f node s := by
  have hends : (requireNode n).Ends s (fun node' s' => node' = node ∧ s' = s)
      (fun _ _ => False) := by
    refine ends_requireNode.2 ⟨fun node' hnode' => ?_, fun hnone => ?_⟩
    · exact ⟨Option.some.inj (hnode'.symm.trans hnode), rfl⟩
    · rw [hnode] at hnone
      cases hnone
  exact bind_of_ok hends.eq_ok

theorem requireNode_of_none {n : NodeId} (hnode : s.graph.node? n = none) :
    requireNode n s = .error (.unknownNode n) s := by
  have hends : (requireNode n : Action σ Node).Ends s (fun _ _ => False)
      (fun e s' => e = .unknownNode n ∧ s' = s) := by
    refine ends_requireNode.2 ⟨fun node hsome => ?_, fun _ => ⟨rfl, rfl⟩⟩
    cases hnode.symm.trans hsome
  obtain ⟨e, s', hfails, rfl, rfl⟩ := hends.exists_error
  exact hfails

theorem ends_requireColumn {c : ColumnId} {post : Column → Session σ → Prop} :
    (requireColumn c).Ends s post fail ↔
      (∀ column, s.graph.column? c = some column → post column s) ∧
      (s.graph.column? c = none → fail (.unknownColumn c) s) := by
  rw [requireColumn, ends_bind, ends_graph]
  cases s.graph.column? c <;> simp

theorem requireColumn_bind {c : ColumnId} {col : Column} (hcol : s.graph.column? c = some col)
    (f : Column → Action σ α) : (requireColumn c >>= f) s = f col s := by
  have hends : (requireColumn c).Ends s (fun col' s' => col' = col ∧ s' = s)
      (fun _ _ => False) := by
    refine ends_requireColumn.2 ⟨fun col' hcol' => ?_, fun hnone => ?_⟩
    · exact ⟨Option.some.inj (hcol'.symm.trans hcol), rfl⟩
    · rw [hcol] at hnone
      cases hnone
  exact bind_of_ok hends.eq_ok

/-- A request changes the backend and the record of calls, never the graph. -/
theorem ends_send {n : NodeId} {call : Except Failure α → Call}
    {request : σ → Except Failure α × σ} :
    (send n call request).Ends s post fail ↔
      (∀ a state, request s.backend = (.ok a, state) →
        post a ⟨s.graph, state, s.calls ++ [(n, call (.ok a))]⟩) ∧
      (∀ f state, request s.backend = (.error f, state) →
        fail (.statement f) ⟨s.graph, state, s.calls ++ [(n, call (.error f))]⟩) := by
  have hs : send n call request s =
      match request s.backend with
      | (.ok a, state) => .ok a ⟨s.graph, state, s.calls ++ [(n, call (.ok a))]⟩
      | (.error f, state) =>
        .error (.statement f) ⟨s.graph, state, s.calls ++ [(n, call (.error f))]⟩ := by
    change (send n call request).run s = _
    rcases h : request s.backend with ⟨_ | _, _⟩
    all_goals
      simp only [send, EStateM.run_bind, EStateM.run_get, h]
      rfl
  unfold Ends
  rw [hs]
  rcases request s.backend with ⟨_ | _, _⟩ <;> simp

theorem ends_ofParse {r : Except PathError α} :
    (ofParse r).Ends s post fail ↔
      (∀ a, r = .ok a → post a s) ∧ (∀ e, r = .error e → fail (.path e) s) := by
  cases r <;> simp [ofParse]

theorem ends_discard {post : Unit → Session σ → Prop} :
    (discard m : Action σ Unit).Ends s post fail ↔ m.Ends s (fun _ => post ()) fail := by
  change Ends (EStateM.map _ m) s post fail ↔ _
  unfold Ends EStateM.map
  cases m s <;> rfl

theorem after_discard : (discard m : Action σ Unit).after s = m.after s := by
  change after (EStateM.map _ m) s = _
  unfold after EStateM.map
  cases m s <;> rfl

theorem ends_ite {p : Prop} [Decidable p] {m' : Action σ α} :
    Ends (if p then m else m') s post fail ↔
      (p → m.Ends s post fail) ∧ (¬p → m'.Ends s post fail) := by
  by_cases h : p <;> simp [h]

end

/-! ## Loops -/

section
variable {s : Session σ} {inv : Session σ → Prop} {fail : Error → Session σ → Prop}

/-- Each turn extends what holds of the part that is done. -/
theorem ends_forM_met {P : List α → Session σ → Prop} {f : α → Action σ PUnit} {l : List α}
    (step : ∀ met a rest s, l = met ++ a :: rest → P met s →
      (f a).Ends s (fun _ => P (met ++ [a])) fail) (h : P [] s) :
    (l.forM f).Ends s (fun _ => P l) fail := by
  suffices hrest : ∀ met rest s, l = met ++ rest → P met s →
      (rest.forM f).Ends s (fun _ => P l) fail from hrest [] l s rfl h
  intro met rest
  induction rest generalizing met with
  | nil =>
    intro s hl hs
    rw [hl, List.append_nil]
    exact hs
  | cons a rest ih =>
    intro s hl hs
    change Ends (f a >>= fun _ => rest.forM f) s _ _
    rw [ends_bind]
    refine (step met a rest s hl hs).mono (fun _ s' hs' => ?_) (fun _ _ => id)
    exact ih (met ++ [a]) s' (by simp [hl]) hs'

/-- What every turn keeps, the loop keeps. -/
theorem ends_forM {f : α → Action σ PUnit} {l : List α}
    (step : ∀ a ∈ l, ∀ s, inv s → (f a).Ends s (fun _ => inv) fail) (h : inv s) :
    (l.forM f).Ends s (fun _ => inv) fail :=
  ends_forM_met (P := fun _ => inv) (fun _ a _ s hl hs => step a (by simp [hl]) s hs) h

theorem ends_mapM {f : α → Action σ β} {l : List α}
    (step : ∀ a ∈ l, ∀ s, inv s → (f a).Ends s (fun _ => inv) fail) (h : inv s) :
    (l.mapM f).Ends s (fun _ => inv) fail := by
  induction l generalizing s with
  | nil => exact h
  | cons a l ih =>
    rw [List.mapM_cons, ends_bind]
    refine (step a (by simp) s h).mono (fun _ s' hs' => ?_) (fun _ _ => id)
    rw [ends_bind]
    exact (ih (fun b hb => step b (by simp [hb])) hs').mono (fun _ _ => id) (fun _ _ => id)

/-- Turns that change nothing. -/
theorem mapM_of_forall₂ {f : α → Action σ β} {l : List α} {bs : List β}
    (h : List.Forall₂ (fun a b => f a s = .ok b s) l bs) : l.mapM f s = .ok bs s := by
  induction h with
  | nil => rfl
  | cons hab _ ih =>
    rw [List.mapM_cons, bind_of_ok hab, bind_of_ok ih]
    rfl

/-- What each turn finds stays true in the turns after it. -/
theorem ends_mapM_forall₂ (inv : Session σ → Prop) (le : Session σ → Session σ → Prop)
    (rel : α → β → Session σ → Prop) {f : α → Action σ β} {l : List α} (hrefl : ∀ s, le s s)
    (htrans : ∀ s s' s'', le s s' → le s' s'' → le s s'')
    (hmono : ∀ a b s s', inv s → inv s' → le s s' → rel a b s → rel a b s')
    (step : ∀ a ∈ l, ∀ s, inv s →
      (f a).Ends s (fun b s' => inv s' ∧ le s s' ∧ rel a b s') fail) (h : inv s) :
    (l.mapM f).Ends s
      (fun bs s' => inv s' ∧ le s s' ∧ List.Forall₂ (fun a b => rel a b s') l bs) fail := by
  induction l generalizing s with
  | nil => exact ⟨h, hrefl s, .nil⟩
  | cons a l ih =>
    rw [List.mapM_cons, ends_bind]
    refine (step a (by simp) s h).mono (fun b s₁ hs₁ => ?_) (fun _ _ => id)
    obtain ⟨h₁, hle, hb⟩ := hs₁
    rw [ends_bind]
    refine (ih (fun b hb => step b (by simp [hb])) h₁).mono (fun bs s₂ hs₂ => ?_) (fun _ _ => id)
    obtain ⟨h₂, hle', hbs⟩ := hs₂
    exact ⟨h₂, htrans _ _ _ hle hle', .cons (hmono a b s₁ s₂ h₁ h₂ hle' hb) hbs⟩

/-- Each turn extends what holds of the part that is done. -/
theorem ends_foldlM_met {P : List α → β → Session σ → Prop} {f : β → α → Action σ β} {b : β}
    {l : List α}
    (step : ∀ met a rest b s, l = met ++ a :: rest → P met b s →
      (f b a).Ends s (P (met ++ [a])) fail) (h : P [] b s) : (l.foldlM f b).Ends s (P l) fail := by
  suffices hrest : ∀ met rest b s, l = met ++ rest → P met b s →
      (rest.foldlM f b).Ends s (P l) fail from hrest [] l b s rfl h
  intro met rest
  induction rest generalizing met with
  | nil =>
    intro b s hl hs
    rw [hl, List.append_nil]
    exact hs
  | cons a rest ih =>
    intro b s hl hs
    rw [List.foldlM_cons, ends_bind]
    refine (step met a rest b s hl hs).mono (fun b' s' hs' => ?_) (fun _ _ => id)
    exact ih (met ++ [a]) b' s' (by simp [hl]) hs'

theorem ends_foldlM (inv : β → Session σ → Prop) {f : β → α → Action σ β} {b : β} {l : List α}
    (step : ∀ a ∈ l, ∀ b s, inv b s → (f b a).Ends s inv fail) (h : inv b s) :
    (l.foldlM f b).Ends s inv fail :=
  ends_foldlM_met (P := fun _ => inv) (fun _ a _ b s hl hs => step a (by simp [hl]) b s hs) h

/-! ## Loops that stop -/

variable {t s' : Session σ} {e : Error} {f : α → Action σ PUnit} {l : List α}

theorem forM_cons_of_ok {x : α} (h : f x s = .ok ⟨⟩ t) :
    (x :: l).forM f s = l.forM f t :=
  bind_of_ok h

theorem forM_cons_of_error {x : α} (h : f x s = .error e s') :
    (x :: l).forM f s = .error e s' :=
  bind_of_error h

/-- A loop fails where the first of its elements does. -/
theorem forM_eq_error : l.forM f s = .error e s' ↔ ∃ before a after t, l = before ++ a :: after ∧
      before.forM f s = .ok ⟨⟩ t ∧ f a t = .error e s' := by
  constructor
  · intro h
    induction l generalizing s with
    | nil => cases h
    | cons x l ih =>
      cases hx : f x s with
      | error e₁ s₁ =>
        rw [forM_cons_of_error hx] at h
        exact ⟨[], x, l, s, rfl, rfl, hx.trans h⟩
      | ok u s₁ =>
        rw [forM_cons_of_ok hx] at h
        obtain ⟨before, a, after, t, rfl, hbefore, ha⟩ := ih h
        exact ⟨x :: before, a, after, t, rfl, (forM_cons_of_ok hx).trans hbefore, ha⟩
  · rintro ⟨before, a, after, t, rfl, hbefore, ha⟩
    induction before generalizing s with
    | nil =>
      cases hbefore
      exact forM_cons_of_error ha
    | cons x before ih =>
      cases hx : f x s with
      | error e₁ s₁ => cases (forM_cons_of_error hx).symm.trans hbefore
      | ok u s₁ =>
        rw [forM_cons_of_ok hx] at hbefore
        exact (forM_cons_of_ok hx).trans (ih hbefore)

/-- An element that fails everywhere lets the loop fail, at this element or before it. -/
theorem forM_fails {a : α} (ha : a ∈ l)
    (hf : ∀ s, ∃ e s', f a s = .error e s') : ∃ e s', l.forM f s = .error e s' := by
  induction l generalizing s with
  | nil => cases ha
  | cons x l ih =>
    cases hx : f x s with
    | error e s' => exact ⟨e, s', forM_cons_of_error hx⟩
    | ok u t =>
      rw [forM_cons_of_ok hx]
      rcases List.mem_cons.1 ha with rfl | ha
      · obtain ⟨e, s', hfails⟩ := hf s
        cases hx.symm.trans hfails
      · exact ih ha

end
end Action
end RecordGraph
