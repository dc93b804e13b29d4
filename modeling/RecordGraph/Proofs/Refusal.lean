import RecordGraph.Proofs.CascadeWalk
import RecordGraph.Proofs.SaveCalls
import RecordGraph.Store.Backend

/-!
# Refused values

A save refuses a value that has no exact literal when it comes to the node of the
value. The nodes before it in the order of the save are written by then, so
nothing was sent only if they had nothing to send.
-/
namespace RecordGraph

namespace Graph

section
variable (g : Graph) (m : NodeId)

/-- A save has nothing to send for the node: its row exists, nothing waits to be written, and it
has no joins. -/
def Silent : Prop :=
  ¬ g.IsNew m ∧ ¬ (g.edgesOf m ≠ [] ∨ ∃ c ∈ g.columnsOf m, g.IsDirty c)

instance : Decidable (g.Silent m) := inferInstanceAs (Decidable (_ ∧ _))

/-- A value without an exact literal waits for a column that is no foreign key. -/
def Unwritable : Prop :=
  ∃ c ∈ g.columnsOf m, g.IsDirty c ∧ ¬ (g.current c).IsWritable ∧
    ∀ e ∈ g.edgesOf m, e.foreignKey ≠ c

instance : Decidable (g.Unwritable m) := inferInstanceAs (Decidable (∃ _ ∈ _, _))

end

section
variable {g g₁ : Graph} {n m : NodeId} {ids : NodeId → Value} {done nodes : List NodeId}
  {linked : List Edge} {assignments : List Assignment} {id : Value}

theorem saveCalls_eq_nil : g.saveCalls m assignments id = [] ↔ g.Silent m := by
  unfold saveCalls Silent
  split
  · simp [*]
  · split <;> simp_all

theorem plannedCalls_eq_nil : g.plannedCalls g₁ ids nodes = [] ↔ ∀ m ∈ nodes, g.Silent m := by
  rw [plannedCalls, List.flatMap_eq_nil_iff]
  simp only [List.map_eq_nil_iff, saveCalls_eq_nil]

theorem mem_plannedCalls {call : NodeId × Call} (h : call ∈ g.plannedCalls g₁ ids nodes) :
    call.1 ∈ nodes := by
  obtain ⟨m, hm, hcall⟩ := List.mem_flatMap.1 h
  obtain ⟨_, -, rfl⟩ := List.mem_map.1 hcall
  exact hm

theorem Silent.writtenColumns_eq_nil (h : g.Silent m) (hg : g.WellFormed) :
    g.writtenColumns m = [] :=
  hg.writtenColumns_eq_nil.2 h.2

/-- Nothing changes when a silent node is written. -/
theorem Cascade.written_silent (h : Cascade g ids done linked g₁) (hsilent : g.Silent n)
    (hg : g.WellFormed) (hn : g.IsNode n) (hnew : n ∉ done)
    (hlinks : linked.filter (·.parent = n) = g.edgesOf n) : g₁.written n id = g₁ := by
  have hold : ¬ g₁.IsNew n := by
    rw [h.isNew_next hg hn hnew]
    exact hsilent.1
  have hclean : ¬ g₁.dirtyColumns n ≠ [] := by
    rw [h.dirtyColumns_next hg hnew hlinks, hsilent.writtenColumns_eq_nil hg]
    exact not_not.2 rfl
  exact written_of_clean hold hclean id

/-- The key of a silent node stays. -/
theorem Cascade.key_silent (h : Cascade g ids done linked g₁) (hsilent : g.Silent m)
    (hg : g.WellFormed) (hm : m ∈ done) : g₁.key m = g.key m := by
  rw [h.writtenKey hm, keyAfter, writtenAssignments, hsilent.writtenColumns_eq_nil hg,
    if_neg hsilent.1]
  rfl

/-- A value without a literal is among the values that a save would write. -/
theorem Unwritable.not_allWritable (h : g.Unwritable m) (g' : Graph) :
    ¬ AllWritable (g.writtenAssignments g' m) := by
  obtain ⟨c, hc, hdirty, hbad, hfk⟩ := h
  have hnone : lastLink? (g.edgesOf m) c = none := by
    rw [← Option.not_isSome_iff_eq_none, lastLink?_isSome]
    rintro ⟨e, he, hec⟩
    exact hfk e he hec
  have hwritten : c ∈ g.writtenColumns m := List.mem_filter.2 ⟨hc, by simp [hdirty]⟩
  intro hall
  have hvalue := hall _ (List.mem_map_of_mem hwritten)
  rw [writtenValue, hnone, Option.elim_none] at hvalue
  exact hbad hvalue

theorem Unwritable.not_silent (h : g.Unwritable m) : ¬ g.Silent m := by
  obtain ⟨c, hc, hdirty, -, -⟩ := h
  exact fun hsilent => hsilent.2 (.inr ⟨c, hc, hdirty⟩)

theorem Unwritable.isNode (h : g.Unwritable m) (hg : g.WellFormed) (hm : m ∈ g.postOrder n) :
    g.IsNode n := by
  obtain ⟨c, hc, -⟩ := h
  rcases (hg.mem_postOrder.1 hm).eq_or_child hg with rfl | ⟨x, hx, -⟩
  · exact hg.isNode_of_column hc
  · obtain ⟨-, -, -, hfk, -⟩ := hg.edge_of_mem hx
    exact hg.isNode_of_column hfk

/-- The first node for which a save has something to send. -/
theorem exists_first_not_silent (hm : m ∈ nodes) (h : ¬ g.Silent m) : ∃ before k after,
    nodes = before ++ k :: after ∧ (∀ j ∈ before, g.Silent j) ∧ ¬ g.Silent k := by
  have hsome : (nodes.find? fun j => ¬ g.Silent j).isSome := by
    rw [List.find?_isSome]
    exact ⟨m, hm, by simpa using h⟩
  obtain ⟨k, hk⟩ := Option.isSome_iff_exists.1 hsome
  obtain ⟨hnot, before, after, hsplit, hbefore⟩ := List.find?_eq_some_iff_append.1 hk
  refine ⟨before, k, after, hsplit, fun j hj => ?_, by simpa using hnot⟩
  simpa using hbefore j hj

end
end Graph

namespace Action

open RecordGraph.Graph

variable {σ : Type} (b : Backend σ) {s s₁ s' : Session σ} {n m k : NodeId} {e : Error}
  {done : List NodeId} {linked : List Edge}

/-- The error names a value without an exact literal that was to be written to the node. -/
def NamesValue (s : Session σ) (k : NodeId) (e : Error) : Prop :=
  ∃ column v, e = .invalidValue column (s.graph.table k) v ∧ ¬ v.IsWritable

/-- A stage of a save at which, if all nodes so far were silent, the graph is changed by links
only. -/
def LinkStage (s : Session σ) (done : List NodeId) (linked : List Edge) (s₁ : Session σ) : Prop :=
  Stage b s done linked s₁ ∧
    ((∀ j ∈ done, s.graph.Silent j) → s₁.graph = linked.foldl Graph.link s.graph)

theorem saveNode_linkStage (n : NodeId) (hg : s.graph.WellFormed) : (saveNode b n).Ends s
    (fun _ s' => s.graph.IsNode n ∧
      LinkStage b s (s.graph.postOrder n) (s.graph.edgesBelow n) s')
    (fun e s' => (¬ s.graph.IsNode n ∧ e = .unknownNode n ∧ s' = s) ∨
      s.graph.IsNode n ∧ ∃ m, StopsAt b (LinkStage b s) s n m e s') := by
  refine saveNode_stages b hg ⟨start_stage b s, fun _ => rfl⟩ ?_ ?_ n
  · rintro done linked m s₁ s₂ hm hnew hlinks ⟨hstage, hgraph⟩ hok
    refine ⟨writeNode_stage b hg hm hnew hlinks hstage hok, fun hsilent => ?_⟩
    obtain ⟨⟨ids, hcascade, -, -⟩, -⟩ := hstage
    obtain ⟨-, id, hwritten, -, -⟩ := (writeNode_ends b m).of_ok hok
    rw [hwritten, hcascade.written_silent (hsilent m (by simp)) hg hm hnew hlinks]
    exact hgraph fun j hj => hsilent j (by simp [hj])
  · rintro done linked e s₁ he hchild hparent ⟨hstage, hgraph⟩
    refine ⟨link_stage b hg he hchild hparent hstage, fun hsilent => ?_⟩
    rw [List.foldl_append, ← hgraph hsilent]
    rfl

/-- The node where a save stops has something to send. If nothing was sent for it, a value of it
was refused. -/
theorem LinkStage.stops (h : LinkStage b s done linked s₁) (hg : s.graph.WellFormed)
    (hn : s.graph.IsNode k) (hk : k ∉ done)
    (hlinks : linked.filter (·.parent = k) = s.graph.edgesOf k)
    (hfails : writeNode b k s₁ = .error e s') : ¬ s.graph.Silent k ∧
      (NamesValue s k e ∨ ∃ f, e = .statement f) ∧ ∃ calls,
        s'.calls = s₁.calls ++ calls ∧ (∀ call ∈ calls, call.1 = k) ∧
        (calls = [] ↔ ¬ AllWritable (s.graph.writtenAssignments s₁.graph k)) ∧
        (calls = [] → s'.graph = s₁.graph ∧ NamesValue s k e) := by
  obtain ⟨⟨⟨ids, hcascade, -, -⟩, -⟩, -⟩ := h
  have hassignments : s₁.graph.assignments (s₁.graph.dirtyColumns k) =
      s.graph.writtenAssignments s₁.graph k := by
    rw [hcascade.dirtyColumns_next hg hk hlinks, hcascade.assignments_next hg hk hlinks]
  have htable : s₁.graph.table k = s.graph.table k := table_of_shape_eq hcascade.shape k
  have hfailure := (writeNode_ends b k).of_error hfails
  rw [Refuses, hassignments, htable] at hfailure
  rcases hfailure with ⟨rfl, a, ha, hbad, rfl⟩ | ⟨hall, -, hbreaks⟩
  · have hnot : ¬ AllWritable (s.graph.writtenAssignments s'.graph k) :=
      fun hall => hbad (hall a ha)
    have hnames : NamesValue s k (.invalidValue a.1 (s.graph.table k) a.2) :=
      ⟨a.1, a.2, rfl, hbad⟩
    refine ⟨fun hsilent => ?_, .inl hnames, [], (List.append_nil _).symm, List.forall_mem_nil _,
      iff_of_true rfl hnot, fun _ => ⟨rfl, hnames⟩⟩
    rw [writtenAssignments, hsilent.writtenColumns_eq_nil hg] at ha
    cases ha
  · obtain ⟨statement, f, calls, hexec, herror, hcalls, -, hkind⟩ := hbreaks
    have hne : calls.map (fun call => (k, call)) ≠ [] := by
      rcases hkind with rfl | ⟨-, rfl⟩ <;> simp
    refine ⟨fun hsilent => ?_, .inr ⟨f, herror⟩, _, hcalls, fun call hcall => ?_, ?_,
      fun hnil => absurd hnil hne⟩
    · rw [hcascade.writeCalls_next hg hk hlinks hn, saveCalls_eq_nil.2 hsilent] at hexec
      cases hexec
    · obtain ⟨_, -, rfl⟩ := List.mem_map.1 hcall
      rfl
    · exact iff_of_false hne (not_not.2 hall)

/-- A save of `n` that failed at the node `p`, after the nodes `done`; `g₁` is the graph at that
moment. -/
structure Halts (s : Session σ) (n : NodeId) (e : Error) (s' : Session σ) (done : List NodeId)
    (p : NodeId) (g₁ : Graph) : Prop where
  order : ∃ rest, s.graph.postOrder n = done ++ p :: rest
  not_silent : ¬ s.graph.Silent p
  error : NamesValue s p e ∨ ∃ f, e = .statement f
  writable : ∀ j ∈ done, AllWritable (s.graph.writtenAssignments g₁ j)
  key : ∀ j ∈ done, s.graph.Silent j → g₁.key j = s.graph.key j
  calls : ∃ calls, s'.calls = s.calls ++ calls ∧ ∀ call ∈ calls,
    call.1 ∈ done ∨ call.1 = p ∧ AllWritable (s.graph.writtenAssignments g₁ p)
  nothing_sent : s'.calls = s.calls ↔
    (∀ j ∈ done, s.graph.Silent j) ∧ ¬ AllWritable (s.graph.writtenAssignments g₁ p)
  refused : s'.calls = s.calls → NamesValue s p e ∧
    s'.graph = ((s.graph.edgesBelow n).take done.length).foldl Graph.link s.graph

theorem saveNode_halts (hg : s.graph.WellFormed) (hn : s.graph.IsNode n)
    (hsave : saveNode b n s = .error e s') : ∃ done p g₁, Halts s n e s' done p g₁ := by
  rcases (saveNode_linkStage b n hg).of_error hsave with ⟨hno, -⟩ | ⟨-, p, linked, rest, s₁,
    hprefix, hsplit, hlinks, hstage, hfails⟩
  · exact absurd hn hno
  have hpmem : p ∈ s.graph.postOrder n := by simp [hsplit]
  have hp : p ∉ linked.map Edge.child := by
    have hnodup := hg.postOrder_nodup n
    rw [hsplit, List.nodup_append] at hnodup
    exact fun hmem => hnodup.2.2 p hmem p (by simp) rfl
  obtain ⟨hsilent, herror, calls, hcalls, hcallsAt, hnil, hrefused⟩ :=
    hstage.stops b hg (hg.isNode_of_mem_postOrder hn hpmem) hp hlinks hfails
  obtain ⟨⟨⟨ids, hcascade, hplanned, -⟩, hwritable⟩, hgraph⟩ := hstage
  have htotal : s'.calls = s.calls ++
      (s.graph.plannedCalls s₁.graph ids (linked.map Edge.child) ++ calls) := by
    rw [hcalls, hplanned, List.append_assoc]
  have hnothing : s'.calls = s.calls ↔
      (∀ j ∈ linked.map Edge.child, s.graph.Silent j) ∧ calls = [] := by
    rw [htotal, List.append_right_eq_self, List.append_eq_nil_iff, plannedCalls_eq_nil]
  refine ⟨linked.map Edge.child, p, s₁.graph, {
    order := ⟨rest, hsplit⟩
    not_silent := hsilent
    error := herror
    writable := hwritable
    key := fun j hj hsilent => hcascade.key_silent hsilent hg hj
    calls := ⟨_, htotal, fun call hcall => ?_⟩
    nothing_sent := by rw [hnothing, hnil]
    refused := fun hsame => ?_ }⟩
  · refine (List.mem_append.1 hcall).imp mem_plannedCalls fun hcall => ⟨hcallsAt call hcall, ?_⟩
    by_contra hnot
    rw [hnil.2 hnot] at hcall
    cases hcall
  · obtain ⟨hsilent, hcalls⟩ := hnothing.1 hsame
    obtain ⟨hsame', hrefused⟩ := hrefused hcalls
    refine ⟨hrefused, ?_⟩
    rw [hsame', hgraph hsilent, List.length_map, ← List.prefix_iff_eq_take.1 hprefix]

namespace Halts

variable {p : NodeId} {g₁ : Graph} {before after : List NodeId}
  (h : Halts s n e s' done p g₁)

include h

/-- A value without a literal is not before the place where the save failed. -/
theorem calls_before (hbad : s.graph.Unwritable m) : ∃ calls, s'.calls = s.calls ++ calls ∧
    ∀ l r, s.graph.postOrder n = l ++ m :: r → ∀ call ∈ calls, call.1 ∈ l := by
  obtain ⟨rest, hsplit⟩ := h.order
  obtain ⟨calls, hcalls, hcallsAt⟩ := h.calls
  refine ⟨calls, hcalls, fun l r hlr call hcall => ?_⟩
  have hne : ∀ x ∈ done, x ≠ m := by
    rintro x hx rfl
    exact hbad.not_allWritable g₁ (h.writable x hx)
  have hplace := eq_or_append_of_split (hsplit.symm.trans hlr) hne (not_not.2 rfl)
  rcases hcallsAt call hcall with hmem | ⟨hcall, hall⟩
  · rcases hplace with ⟨rfl, -⟩ | ⟨t, rfl⟩
    · exact hmem
    · exact List.mem_append_left _ hmem
  · rcases hplace with ⟨-, rfl⟩ | ⟨t, rfl⟩
    · exact absurd hall (hbad.not_allWritable g₁)
    · simp [hcall]

variable (hfirst : s.graph.postOrder n = before ++ k :: after)
  (hbefore : ∀ j ∈ before, s.graph.Silent j)

include hfirst hbefore

/-- The save came to the first node that is not silent. -/
theorem place : (done = before ∧ p = k) ∨ ∃ t, done = before ++ k :: t := by
  obtain ⟨rest, hsplit⟩ := h.order
  exact eq_or_append_of_split (hfirst.symm.trans hsplit) hbefore h.not_silent

/-- What is written of the first node that is not silent does not depend on the save. -/
theorem writtenAssignments_first (hg : s.graph.WellFormed) :
    s.graph.writtenAssignments g₁ k = s.graph.writtenAssignments s.graph k := by
  refine writtenAssignments_congr fun x hx => ?_
  have hx := hg.child_mem_of_postOrder hfirst hx
  refine h.key _ ?_ (hbefore _ hx)
  rcases h.place hfirst hbefore with ⟨rfl, -⟩ | ⟨t, rfl⟩
  · exact hx
  · exact List.mem_append_left _ hx

/-- Nothing was sent exactly if the save failed at the first node that is not silent, by a value
of it. -/
theorem nothing_sent_iff (hg : s.graph.WellFormed) (hk : ¬ s.graph.Silent k) :
    (s'.calls = s.calls ↔
      ¬ AllWritable (s.graph.writtenAssignments s.graph k)) ∧
    (s'.calls = s.calls → done = before ∧ p = k) := by
  rw [h.nothing_sent, ← h.writtenAssignments_first hfirst hbefore hg]
  rcases h.place hfirst hbefore with ⟨rfl, rfl⟩ | ⟨t, rfl⟩
  · exact ⟨⟨And.right, fun hnot => ⟨hbefore, hnot⟩⟩, fun _ => ⟨rfl, rfl⟩⟩
  · have hnot : ¬ ((∀ j ∈ before ++ k :: t, s.graph.Silent j) ∧
        ¬ AllWritable (s.graph.writtenAssignments g₁ p)) := fun hall => hk (hall.1 k (by simp))
    exact ⟨iff_of_false hnot (not_not.2 (h.writable k (by simp))), fun hall => absurd hall hnot⟩

end Halts

/-- A save with a value that has no exact literal fails, by such a value or by the backend, and
makes no call for the node of the value or one after it. Let `k` be the first node of the order
for which there is something to send. Exactly if a value of `k` itself has no literal, nothing
is sent; the failure then names the value, and the graph is as before but for the links to the
nodes before `k`. -/
theorem saveNode_refuses (hs : s.graph.Reachable) (hm : m ∈ s.graph.postOrder n)
    (hbad : s.graph.Unwritable m) : ∃ e s' before k after,
      saveNode b n s = .error e s' ∧
      ((∃ j ∈ s.graph.postOrder n, NamesValue s j e) ∨ ∃ f, e = .statement f) ∧
      (∃ calls, s'.calls = s.calls ++ calls ∧
        ∀ l r, s.graph.postOrder n = l ++ m :: r → ∀ call ∈ calls, call.1 ∈ l) ∧
      s.graph.postOrder n = before ++ k :: after ∧ (∀ j ∈ before, s.graph.Silent j) ∧
      ¬ s.graph.Silent k ∧
      (s'.calls = s.calls ↔ ¬ AllWritable (s.graph.writtenAssignments s.graph k)) ∧
      (s'.calls = s.calls → NamesValue s k e ∧
        s'.graph = ((s.graph.edgesBelow n).take before.length).foldl Graph.link s.graph) := by
  have hg := hs.wellFormed
  obtain ⟨before, k, after, hfirst, hbefore, hk⟩ := exists_first_not_silent hm hbad.not_silent
  cases hsave : saveNode b n s with
  | ok u s' =>
    obtain ⟨-, -, hwritable⟩ := (saveNode_stage b n hg).of_ok hsave
    exact absurd (hwritable m hm) (hbad.not_allWritable _)
  | error e s' =>
    obtain ⟨done, p, g₁, hhalts⟩ := saveNode_halts b hg (hbad.isNode hg hm) hsave
    obtain ⟨rest, hsplit⟩ := hhalts.order
    obtain ⟨hnothing, hplace⟩ := hhalts.nothing_sent_iff hfirst hbefore hg hk
    refine ⟨e, s', before, k, after, rfl, hhalts.error.imp_left fun h => ⟨p, by simp [hsplit], h⟩,
      hhalts.calls_before hbad, hfirst, hbefore, hk, hnothing, fun hsame => ?_⟩
    obtain ⟨rfl, rfl⟩ := hplace hsame
    exact hhalts.refused hsame

/-- The value of the parent is refused after the row of the child was inserted. -/
theorem saveNode_refuses_late :
    let store : Store := ⟨[⟨"t0", some "id", ["title", "t1_id"], []⟩,
      ⟨"t1", some "id", ["title"], []⟩], 0⟩
    let b := Store.backend
    let s := (Session.start "t0" "id" .null store).performAll b
      [.resolveColumn root "t1.title", .setValue ⟨3⟩ (.text "x"), .resolveColumn root "title",
        .setValue ⟨4⟩ (.real .nan)]
    s.graph.Unwritable root ∧ (saveNode b root).result? s = none ∧
      ((saveNode b root).after s).calls ≠ s.calls := by
  intro store b s
  have hs : s.graph.Reachable := reachable_performAll b "t0" "id" .null store _
  have hbad : s.graph.Unwritable root := by decide +kernel
  have horder : s.graph.postOrder root = [⟨1⟩, root] := by decide +kernel
  have hchild : ¬ s.graph.Silent ⟨1⟩ := by decide +kernel
  have hwritable : AllWritable (s.graph.writtenAssignments s.graph ⟨1⟩) := by decide +kernel
  obtain ⟨e, s', before, k, after, hsave, -, -, hsplit, hbefore, -, hnothing, -⟩ :=
    saveNode_refuses b hs (by simp [horder] : root ∈ s.graph.postOrder root) hbad
  have hk : k = ⟨1⟩ := by
    rw [horder] at hsplit
    cases before with
    | nil => exact (List.cons.inj hsplit).1.symm
    | cons j before =>
      obtain ⟨rfl, -⟩ := List.cons.inj hsplit
      exact absurd (hbefore _ (by simp)) hchild
  rw [hk] at hnothing
  refine ⟨hbad, ?_, ?_⟩
  · rw [result?, hsave]
  · rw [Action.after, hsave]
    exact fun hsame => hnothing.1 hsame hwritable

end Action
end RecordGraph
