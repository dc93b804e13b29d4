import RecordGraph.Proofs.Evolution
import RecordGraph.Proofs.PostOrder

/-!
# What resolving keeps

Resolving a path is a number of registrations and of readings of foreign keys. A
relation of sessions that holds across each of them holds across the whole, and one
for the place where it fails may be another. Fetching, saving and deleting by path
follow from it.
-/
namespace RecordGraph.Action

variable {σ α β : Type} {b : Backend σ} {R : Session σ → Session σ → Prop} {s : Session σ}

/-- The session moves by `R`, whether the action succeeds or fails. -/
def Moves (R : Session σ → Session σ → Prop) (m : Action σ α) (s : Session σ) : Prop :=
  m.Ends s (fun _ => R s) (fun _ => R s)

theorem Moves.of_after {m : Action σ α} (h : m.Moves R s) : R s (m.after s) := Ends.of_after h

theorem Moves.discard {m : Action σ α} (h : m.Moves R s) :
    (discard m : Action σ Unit).Moves R s :=
  ends_discard.2 h

/-- A value is given without a step, or after a read of its node. -/
theorem value_moves (hrefl : R s s) (hread : ∀ n, (fetchNode b n).Moves R s) (c : ColumnId) :
    (value b c).Moves R s := by
  rw [Moves, value, ends_bind, ends_requireColumn]
  refine ⟨fun column _ => ?_, fun _ => hrefl⟩
  simp only [ends_bind, ends_graph, ends_ite, ends_pure]
  exact ⟨fun _ => hrefl, fun _ => ⟨fun _ => hrefl, fun _ => hread column.node⟩⟩

theorem key_moves (hrefl : R s s) (n : NodeId) : (key n).Moves R s := by
  rw [Moves, key, ends_bind, ends_requireNode]
  exact ⟨fun _ _ => hrefl, fun _ => hrefl⟩

theorem result?_key {n : NodeId} (hn : s.graph.IsNode n) :
    (Action.key n).result? s = some (s.graph.key n) := by
  have hends : (Action.key n : Action σ Value).Ends s (fun v _ => v = s.graph.key n)
      (fun _ _ => False) := by
    rw [Action.key, ends_bind, ends_requireNode, Graph.node?_eq_none]
    exact ⟨fun _ _ => rfl, fun hno => hno hn⟩
  obtain ⟨v, s', hok, rfl⟩ := hends.exists_ok
  exact result?_eq_some.2 ⟨s', hok⟩

/-- Success moves the session by `R`, and failure by `F`. -/
def Goes (R : Session σ → Session σ → Prop) (F : Error → Session σ → Session σ → Prop)
    (m : Action σ α) (s : Session σ) : Prop :=
  m.Ends s (fun _ => R s) (fun e => F e s)

variable {F : Error → Session σ → Session σ → Prop}

theorem Goes.discard {m : Action σ α} (h : m.Goes R F s) : (discard m : Action σ Unit).Goes R F s :=
  ends_discard.2 h

/-- `R` and `F` go together along actions that follow each other. -/
structure Composes (R : Session σ → Session σ → Prop) (F : Error → Session σ → Session σ → Prop) :
    Prop where
  refl : ∀ s, R s s
  trans : ∀ {s s' s''}, s.graph.WellFormed → R s s' → R s' s'' → R s s''
  stops : ∀ {e s s' s''}, s.graph.WellFormed → R s s' → F e s' s'' → F e s s''
  halts : ∀ e s, F e s s
  evolves : ∀ {s s'}, R s s' → s.graph.Evolves s'.graph

/-- What a path registers moves the session by `R`, and it moves by `F` where the path stops. -/
structure Explores (b : Backend σ) (R : Session σ → Session σ → Prop)
    (F : Error → Session σ → Session σ → Prop) : Prop extends Composes R F where
  column : ∀ {s n name}, s.graph.WellFormed → s.graph.IsNode n →
    s.graph.findColumn? n name = none → R s { s with graph := s.graph.withColumn n name }
  join : ∀ {s n fk} table childColumn, s.graph.WellFormed → fk ∈ s.graph.columnsOf n →
    (joinFrom b fk table childColumn).Goes R F s

namespace Composes

variable (h : Composes R F)

include h

theorem wellFormed {s' : Session σ} (hg : s.graph.WellFormed) (hs' : R s s') :
    s'.graph.WellFormed :=
  (h.evolves hs').wellFormed hg

theorem bind {m : Action σ α} {f : α → Action σ β} (hg : s.graph.WellFormed) (hm : m.Goes R F s)
    (hf : ∀ a s', m s = .ok a s' → R s s' → s'.graph.WellFormed → (f a).Goes R F s') :
    (m >>= f).Goes R F s := by
  refine ends_bind.2 (ends_of_forall (fun a s' he => ?_) (fun e s' he => hm.of_error he))
  have hs' : R s s' := hm.of_ok he
  exact (hf a s' he hs' (h.wellFormed hg hs')).mono (fun _ _ => h.trans hg hs')
    (fun _ _ => h.stops hg hs')

/-! ## Loops -/

theorem forM {f : α → Action σ PUnit} {l : List α} (hg : s.graph.WellFormed)
    (hf : ∀ a ∈ l, ∀ s', R s s' → s'.graph.WellFormed → (f a).Goes R F s') :
    (l.forM f).Goes R F s :=
  ends_forM (fun a ha s' hs' => (hf a ha s' hs' (h.wellFormed hg hs')).mono
    (fun _ _ => h.trans hg hs') (fun _ _ => h.stops hg hs')) (h.refl s)

theorem mapM {f : α → Action σ β} {l : List α} (hg : s.graph.WellFormed)
    (hf : ∀ a ∈ l, ∀ s', s'.graph.WellFormed → (f a).Goes R F s') : (l.mapM f).Goes R F s :=
  ends_mapM (fun a ha s' hs' => (hf a ha s' (h.wellFormed hg hs')).mono
    (fun _ _ => h.trans hg hs') (fun _ _ => h.stops hg hs')) (h.refl s)

/-! ## Subtrees -/

theorem saveNode (n : NodeId) (hg : s.graph.WellFormed)
    (hwrite : ∀ {s n}, s.graph.WellFormed → s.graph.IsNode n → (writeNode b n).Goes R F s)
    (hlink : ∀ {s e}, s.graph.WellFormed → e ∈ s.graph.edgesOf e.parent →
      R s { s with graph := s.graph.link e }) : (saveNode b n).Goes R F s := by
  rw [Goes, Action.saveNode, ends_bind, ends_requireNode]
  refine ⟨fun node hnode => ?_, fun _ => h.halts _ s⟩
  have hedges : ((s.graph.edgesBelow n).forM (writeEdge b)).Goes R F s := by
    refine h.forM hg fun e he s' hs' hg' => ?_
    have hedge := (hg.edge_of_mem_edgesBelow he).1
    obtain ⟨-, -, -, -, hchild, -⟩ := hg.edge_of_mem hedge
    have hgrows := (h.evolves hs').grows hg
    refine h.bind hg' (hwrite hg' (hgrows.node hchild).1) fun _ s'' _ hs'' hg'' => ?_
    exact hlink hg'' (((h.evolves hs'').grows hg').mem_edgesOf (hgrows.mem_edgesOf hedge))
  rw [ends_bind, ends_graph]
  refine h.bind hg hedges fun _ s' _ hs' hg' => hwrite hg' ?_
  exact (((h.evolves hs').grows hg).node (Graph.node?_eq_some hnode)).1

theorem deleteNode (n : NodeId) (hg : s.graph.WellFormed)
    (herase : ∀ {s n}, s.graph.WellFormed → s.graph.IsNode n → (eraseNode b n).Goes R F s) :
    (deleteNode b n).Goes R F s := by
  rw [Goes, Action.deleteNode, ends_bind, ends_requireNode]
  refine ⟨fun node hnode => ?_, fun _ => h.halts _ s⟩
  rw [ends_bind, ends_graph]
  refine ends_foldlM (fun _ s' => R s s') (fun m hm count s' hs' => ends_bind.2 ?_) (h.refl s)
  have hm' := hg.isNode_of_mem_postOrder (Graph.node?_eq_some hnode) hm
  exact (herase (h.wellFormed hg hs') (((h.evolves hs').grows hg).node hm').1).mono
    (fun _ _ => h.trans hg hs') (fun _ _ => h.stops hg hs')

end Composes

namespace Explores

variable (h : Explores b R F) {n : NodeId}

include h

/-! ## Registering -/

theorem addColumn {name : String} (hg : s.graph.WellFormed) (hn : s.graph.IsNode n) :
    (addColumn n name).Goes R F s := by
  rw [Goes, Action.addColumn, ends_register]
  cases hfind : s.graph.findColumn? n name with
  | some c =>
    rw [Graph.addColumn_of_some hfind]
    exact h.refl s
  | none =>
    rw [Graph.addColumn_of_none hfind]
    exact h.column hg hn hfind

theorem follow (hops : List Hop) (hg : s.graph.WellFormed) (hn : s.graph.IsNode n) :
    (follow b n hops).Goes R F s := by
  induction hops generalizing s n with
  | nil => exact h.refl s
  | cons j hops ih =>
    rw [Action.follow]
    refine h.bind hg (h.addColumn hg hn) fun fk s₁ hcolumn _ hg₁ => ?_
    obtain ⟨-, hfind⟩ := (addColumn_ends hg hn).of_ok hcolumn
    have hfk := (hg₁.findColumn?_mem hfind).1
    refine h.bind hg₁ (h.join _ _ hg₁ hfk) fun child s₂ hchild _ hg₂ => ?_
    obtain ⟨-, hfound⟩ := (joinFrom_ends b hg₁ hfk).of_ok hchild
    exact ih hg₂ (hg₂.isNode_of_findChild? hfound)

theorem registerColumn (p : ColumnPath) (hg : s.graph.WellFormed) (hn : s.graph.IsNode n) :
    (registerColumn b n p).Goes R F s := by
  rw [registerColumn_eq]
  refine h.bind hg (h.follow p.hops hg hn) fun k s' hok hs' hg' => h.addColumn hg' ?_
  obtain ⟨-, hk⟩ := Ends.of_ok (follow_descends b p.hops hg hn) hok
  exact hg'.isNode_of_descend (((h.evolves hs').grows hg).node hn).1 hk

/-! ## Paths -/

theorem resolveColumn (n : NodeId) (path : String) (hg : s.graph.WellFormed) :
    (resolveColumn b n path).Goes R F s :=
  (ends_resolveColumn b).2 ⟨fun _ => h.halts _ s, fun hn =>
    ⟨fun _ _ => h.halts _ s, fun p _ => h.registerColumn p hg hn⟩⟩

theorem resolveTable (n : NodeId) (path : String) (hg : s.graph.WellFormed) :
    (resolveTable b n path).Goes R F s :=
  (ends_resolveTable b).2 ⟨fun _ => h.halts _ s, fun hn =>
    ⟨fun _ _ => h.halts _ s, fun _ _ => h.follow _ hg hn⟩⟩

theorem fetchAt (n : NodeId) (paths : List String) (hg : s.graph.WellFormed)
    (hvalue : ∀ {s} c, s.graph.WellFormed → (value b c).Goes R F s) :
    (fetchAt b n paths).Goes R F s := by
  rw [Goes, Action.fetchAt, ends_bind, ends_requireNode]
  refine ⟨fun node _ => ?_, fun _ => h.halts _ s⟩
  exact h.bind hg (h.mapM hg fun path _ _ => h.resolveColumn n path) fun _ _ _ _ hg' =>
    h.mapM hg' fun c _ _ => hvalue c

/-! ## Writing -/

theorem saveAt (n : NodeId) (values : List (String × Value)) (hg : s.graph.WellFormed)
    (hassign : ∀ {s m c path v}, (path, v) ∈ values → s.graph.WellFormed →
      s.graph.Denotes n path c → c ∈ s.graph.columnsOf m →
      R s { s with graph := s.graph.assign c v })
    (hsave : ∀ {s}, s.graph.WellFormed → (Action.saveNode b n).Goes R F s) :
    (saveAt b n values).Goes R F s := by
  rw [Goes, Action.saveAt, ends_bind, ends_requireNode]
  refine ⟨fun node _ => ?_, fun _ => h.halts _ s⟩
  refine h.bind hg (h.forM hg fun pair hpair s' _ hg' => ?_) fun _ _ _ _ hg' => hsave hg'
  refine h.bind hg' (h.resolveColumn n pair.1 hg') fun c s'' hok _ hg'' => ?_
  obtain ⟨-, hdenotes⟩ := (resolveColumn_ends b n pair.1 hg').of_ok hok
  obtain ⟨p, -, hlocate⟩ := id hdenotes
  obtain ⟨k, -, hfind⟩ := Graph.locate_eq_some.1 hlocate
  exact hassign hpair hg'' hdenotes (hg''.findColumn?_mem hfind).1

theorem deleteAt (n : NodeId) (tables : List String) (hg : s.graph.WellFormed)
    (hdelete : ∀ {s}, s.graph.WellFormed → (Action.deleteNode b n).Goes R F s) :
    (deleteAt b n tables).Goes R F s := by
  rw [Goes, Action.deleteAt, ends_bind, ends_requireNode]
  refine ⟨fun node _ => ?_, fun _ => h.halts _ s⟩
  exact h.bind hg (h.forM hg fun path _ _ _ hg' => (h.resolveTable n path hg').discard)
    fun _ _ _ _ hg' => hdelete hg'

end Explores

/-- What a path does step by step moves the session by `R`, wherever it stops. -/
structure Resolves (b : Backend σ) (R : Session σ → Session σ → Prop) : Prop where
  refl : ∀ s, R s s
  trans : ∀ {s s' s''}, s.graph.WellFormed → R s s' → R s' s'' → R s s''
  evolves : ∀ {s s'}, R s s' → s.graph.Evolves s'.graph
  column : ∀ {s n name}, s.graph.WellFormed → s.graph.IsNode n →
    s.graph.findColumn? n name = none → R s { s with graph := s.graph.withColumn n name }
  child : ∀ {s n fk table childColumn}, s.graph.WellFormed → fk ∈ s.graph.columnsOf n →
    s.graph.findChild? n ⟨table, childColumn, s.graph.name fk⟩ = none →
      R s { s with graph := s.graph.withChild n fk table childColumn (s.graph.current fk) }
  value : ∀ {s} c, s.graph.WellFormed → (Action.value b c).Moves R s

namespace Resolves

variable (h : Resolves b R)

include h

theorem explores : Explores b R fun _ => R where
  refl := h.refl
  trans := h.trans
  stops := h.trans
  halts _ := h.refl
  evolves := h.evolves
  column := h.column
  join {s n fk} table childColumn hg hfk := by
    refine joinFrom_cases b hg hfk (fun _ _ => h.refl s) fun _ => ?_
    refine ((h.value fk hg).and (value_current b fk)).mono
      (fun key s' hs' hevolves hfk' hfind => ?_) (fun _ _ => And.left)
    obtain ⟨hs', rfl⟩ := hs'
    exact h.trans hg hs' (h.child (hevolves.wellFormed hg) hfk' hfind)

theorem forM {f : α → Action σ PUnit} {l : List α} (hg : s.graph.WellFormed)
    (hf : ∀ a ∈ l, ∀ s', R s s' → s'.graph.WellFormed → (f a).Moves R s') :
    (l.forM f).Moves R s :=
  h.explores.forM hg hf

theorem resolveColumn (n : NodeId) (path : String) (hg : s.graph.WellFormed) :
    (resolveColumn b n path).Moves R s :=
  h.explores.resolveColumn n path hg

theorem resolveTable (n : NodeId) (path : String) (hg : s.graph.WellFormed) :
    (resolveTable b n path).Moves R s :=
  h.explores.resolveTable n path hg

theorem fetchAt (n : NodeId) (paths : List String) (hg : s.graph.WellFormed) :
    (fetchAt b n paths).Moves R s :=
  h.explores.fetchAt n paths hg h.value

theorem saveNode (n : NodeId) (hg : s.graph.WellFormed)
    (hwrite : ∀ {s n}, s.graph.WellFormed → s.graph.IsNode n → (writeNode b n).Moves R s)
    (hlink : ∀ {s e}, s.graph.WellFormed → e ∈ s.graph.edgesOf e.parent →
      R s { s with graph := s.graph.link e }) : (saveNode b n).Moves R s :=
  h.explores.saveNode n hg hwrite hlink

theorem saveAt (n : NodeId) (values : List (String × Value)) (hg : s.graph.WellFormed)
    (hassign : ∀ {s m c path v}, (path, v) ∈ values → s.graph.WellFormed →
      s.graph.Denotes n path c → c ∈ s.graph.columnsOf m →
      R s { s with graph := s.graph.assign c v })
    (hsave : ∀ {s}, s.graph.WellFormed → (Action.saveNode b n).Moves R s) :
    (saveAt b n values).Moves R s :=
  h.explores.saveAt n values hg hassign hsave

theorem deleteNode (n : NodeId) (hg : s.graph.WellFormed)
    (herase : ∀ {s n}, s.graph.WellFormed → s.graph.IsNode n → (eraseNode b n).Moves R s) :
    (deleteNode b n).Moves R s :=
  h.explores.deleteNode n hg herase

theorem deleteAt (n : NodeId) (tables : List String) (hg : s.graph.WellFormed)
    (hdelete : ∀ {s}, s.graph.WellFormed → (Action.deleteNode b n).Moves R s) :
    (deleteAt b n tables).Moves R s :=
  h.explores.deleteAt n tables hg hdelete

end Resolves

/-! ## Changes of the graph -/

section
variable (b)

/-- Resolving changes the graph by steps only. -/
theorem resolves_evolves : Resolves b fun s s' : Session σ => s.graph.Evolves s'.graph where
  refl _ := .refl _
  trans _ := .trans
  evolves h := h
  column _ hn hnew := (Graph.Step.column hn hnew).evolves
  child _ hfk hnew := (Graph.Step.child _ hfk hnew).evolves
  value c _ := (value_revalues b c).evolves

theorem fetchAt_evolves (n : NodeId) (paths : List String) (hg : s.graph.WellFormed) :
    (fetchAt b n paths).Changes Graph.Evolves s :=
  (resolves_evolves b).fetchAt n paths hg

theorem saveAt_evolves (n : NodeId) (values : List (String × Value)) (hg : s.graph.WellFormed) :
    (saveAt b n values).Changes Graph.Evolves s :=
  (resolves_evolves b).saveAt n values hg (fun _ _ _ _ => (Graph.revalues_assign ..).1)
    fun _ => (saveNode_revalues b n).evolves

theorem deleteAt_evolves (n : NodeId) (tables : List String) (hg : s.graph.WellFormed) :
    (deleteAt b n tables).Changes Graph.Evolves s :=
  (resolves_evolves b).deleteAt n tables hg fun _ => (deleteNode_revalues b n).evolves

end
end RecordGraph.Action
