import RecordGraph.Proofs.FetchWalk
import RecordGraph.Proofs.NewRecord
import RecordGraph.Proofs.SaveCalls
import RecordGraph.Proofs.StoreRows

/-!
# Save and fetch

A save of a new record inserts a row for each node, the joined rows first, and
the generated keys go into the foreign keys. So every join leads in the store
where it leads in the graph, and a fetch of a second record, which only knows
the key of the root, reads what was written.
-/
namespace RecordGraph

namespace Graph

/-- The rows of a graph can be inserted: none exists yet, each table has the key column of
its nodes, and only a foreign key may write a column with the name of the key. -/
structure Insertable (g : Graph) (store : Store) : Prop where
  wellFormed : g.WellFormed
  new : ∀ {n}, g.IsNode n → g.IsNew n
  hasKey : ∀ {n}, g.IsNode n → store.HasKey (g.table n) (g.keyName n)
  key : ∀ {n c}, c ∈ g.writtenColumns n → g.name c = g.keyName n →
    ∃ e ∈ g.edgesOf n, e.foreignKey = c

section
variable {g g' : Graph} {n m : NodeId} {c : ColumnId} {store mid store' : Store}

theorem mem_edges {e : EdgeId} {x : Edge} (hshape : g'.shape = g.shape)
    (he : g.edge? e = some x) : x ∈ g'.edges.toList := by
  rw [edge?_of_shape_eq hshape.symm] at he
  exact Array.mem_toList_iff.2 (Array.mem_of_getElem? he)

theorem mem_writtenAssignments (g' : Graph) (hc : c ∈ g.writtenColumns n) :
    (g.name c, g.writtenValue g' n c) ∈ g.writtenAssignments g' n :=
  List.mem_map.2 ⟨c, hc, rfl⟩

/-- A statement names each column once. -/
theorem WellFormed.writtenNames_nodup (hg : g.WellFormed) :
    ((g.writtenAssignments g' n).map Prod.fst).Nodup := by
  rw [writtenAssignments, List.map_map]
  refine List.Nodup.map_on ?_ ((hg.columns_nodup n).filter _)
  intro c hc d hd hname
  exact hg.names (List.mem_of_mem_filter hc) (List.mem_of_mem_filter hd) hname

theorem writtenValue_of_edge (g' : Graph) {e : Edge} (he : e ∈ g.edgesOf n) :
    ∃ d ∈ g.edgesOf n, d.foreignKey = e.foreignKey ∧
      g.writtenValue g' n e.foreignKey = g'.key d.child := by
  obtain ⟨d, hd⟩ := Option.isSome_iff_exists.1 (lastLink?_isSome.2 ⟨e, he, rfl⟩)
  obtain ⟨hmem, hfk⟩ := mem_of_lastLink? hd
  exact ⟨d, hmem, hfk, by rw [writtenValue, hd, Option.elim_some]⟩

/-- One node: its row is found by the key that the node has afterwards. -/
theorem Insertable.replays_saveCalls (h : g.Insertable store) (hext : store.Extends mid)
    (hn : g.IsNode n) {id : Value}
    (hkey : g'.key n = g.keyAfter n (g.writtenAssignments g' n) id)
    (hchildren : ∀ e ∈ g.edgesOf n, ∃ i, g'.key e.child = .integer i)
    (hreplays : Store.backend.Replays (g.saveCalls n (g.writtenAssignments g' n) id) mid store') :
    mid.Extends store' ∧
      store'.HasRow ⟨g.table n, ⟨g.keyName n, g'.key n⟩⟩ (g.writtenAssignments g' n) := by
  have hnew := h.new hn
  rw [saveCalls, if_pos hnew] at hreplays
  obtain ⟨added, hexec, last, hid, rfl⟩ := hreplays
  obtain ⟨hanswer, rfl⟩ := Prod.mk.inj hid
  have hinteger : ∀ v, (g.keyName n, v) ∈ g.writtenAssignments g' n → ∃ i, v = .integer i := by
    intro v hv
    obtain ⟨c, hc, hpair⟩ := List.mem_map.1 hv
    obtain ⟨hname, rfl⟩ := Prod.mk.inj hpair
    obtain ⟨e, he, rfl⟩ := h.key hc hname
    obtain ⟨d, hd, -, hvalue⟩ := writtenValue_of_edge g' he
    rw [hvalue]
    exact hchildren d hd
  obtain ⟨hadded, hrow, hassigned⟩ := Store.hasRow_of_exec_insert hexec
    ((h.hasKey hn).extends hext) h.wellFormed.writtenNames_nodup hinteger
  refine ⟨hadded, ?_⟩
  have hkey' : g'.key n = .integer added.lastInsertId := by
    rw [hkey, keyAfter, if_pos hnew]
    cases hlookup : (g.writtenAssignments g' n).lookup (g.keyName n) with
    | none => exact (Except.ok.inj hanswer).symm
    | some v => exact hassigned v (mem_of_lookup hlookup)
  rw [hkey']
  exact hrow

/-- Values that are set aside can be inserted, if each table has its key column and no value
was assigned to a column with the name of a key. -/
theorem Drafts.insertable {assigned : List (ColumnId × Value)} (h : Drafts assigned g)
    (hjoined : ∀ {n}, g.IsNode n → n ≠ root → store.HasKey (g.table n) (g.keyName n))
    (hroot : store.HasKey (g.table root) (g.keyName root))
    (hassigned : ∀ {c v}, (c, v) ∈ assigned → ∀ n, c ∈ g.columnsOf n →
      g.name c ≠ g.keyName n) : g.Insertable store where
  wellFormed := h.wellFormed
  new := h.new
  hasKey {n} hn := by
    by_cases hnroot : n = root
    · rw [hnroot]
      exact hroot
    · exact hjoined hn hnroot
  key {n c} hc hkey := by
    obtain ⟨hmem, hwritten⟩ := List.mem_filter.1 hc
    rcases of_decide_eq_true hwritten with hdirty | hfk
    · obtain ⟨v, hv⟩ := (h.isDirty_iff hmem).1 hdirty
      exact absurd hkey (hassigned hv n hmem)
    · exact hfk

/-- All nodes: in an order with the children first, each node ends with a row. -/
theorem Insertable.replays_plannedCalls (h : g.Insertable store) {ids : NodeId → Value}
    {nodes : List NodeId} (hnodes : ∀ m ∈ nodes, g.IsNode m)
    (hkey : ∀ m ∈ nodes, g'.key m = g.keyAfter m (g.writtenAssignments g' m) (ids m))
    (horder : ∀ before m after, nodes = before ++ m :: after →
      ∀ e ∈ g.edgesOf m, e.child ∈ before)
    (hreplays : Store.backend.Replays ((g.plannedCalls g' ids nodes).map Prod.snd) store store') :
    store.Extends store' ∧ ∀ m ∈ nodes,
      store'.HasRow ⟨g.table m, ⟨g.keyName m, g'.key m⟩⟩ (g.writtenAssignments g' m) := by
  -- from the end: the rows of the children are there when the last node is inserted
  induction nodes using List.reverseRecOn generalizing store' with
  | nil =>
    obtain rfl : store' = store := hreplays
    exact ⟨.refl _, fun m hm => by cases hm⟩
  | append_singleton nodes n ih =>
    have hlast : ((g.plannedCalls g' ids [n]).map Prod.snd) =
        g.saveCalls n (g.writtenAssignments g' n) (ids n) := by
      rw [plannedCalls, List.flatMap_singleton, List.map_map]
      exact List.map_id _
    rw [plannedCalls, List.flatMap_append, List.map_append, Backend.replays_append] at hreplays
    obtain ⟨mid, hbefore, hn⟩ := hreplays
    obtain ⟨hext, hrows⟩ := ih (fun m hm => hnodes m (by simp [hm]))
      (fun m hm => hkey m (by simp [hm]))
      (fun before m after hsplit => horder before m (after ++ [n]) (by simp [hsplit])) hbefore
    have hchildren : ∀ e ∈ g.edgesOf n, ∃ i, g'.key e.child = .integer i := by
      intro e he
      obtain ⟨-, -, i, -, -, hi, -⟩ := hrows e.child (horder nodes n [] rfl e he)
      exact ⟨i, hi⟩
    have hcalls : Store.backend.Replays (g.saveCalls n (g.writtenAssignments g' n) (ids n)) mid
        store' := hlast ▸ hn
    obtain ⟨hext', hrow⟩ := h.replays_saveCalls hext (hnodes n (by simp)) (hkey n (by simp))
      hchildren hcalls
    refine ⟨hext.trans hext', fun m hm => ?_⟩
    rcases List.mem_append.1 hm with hm | hm
    · exact (hrows m hm).extends hext'
    · rw [List.mem_singleton.1 hm]
      exact hrow

/-- Each node has a row in the store, which holds what was written. -/
def Inserted (g g' : Graph) (store : Store) : Prop :=
  ∀ n, g.IsNode n → store.HasRow (g'.row n) (g.writtenAssignments g' n)

section
variable (hrows : g.Inserted g' store) (hg : g.WellFormed) (hshape : g'.shape = g.shape)

include hrows hg hshape

theorem Inserted.cell? (hc : c ∈ g.writtenColumns n) :
    store.cell? (g'.row n) (g'.name c) = some (g.writtenValue g' n c).kept := by
  have hname : g'.name c = g.name c := name_of_shape_eq hshape _
  have hrow := hrows n (hg.isNode_of_column (List.mem_of_mem_filter hc))
  have hcell := hrow.cell? (mem_writtenAssignments g' hc)
  rw [hname]
  exact hcell

/-- Where no two joins share a foreign key, each join leads to the row of its child. -/
theorem Inserted.leads (hshared : ∀ n x y, x ∈ g.edgesOf n → y ∈ g.edgesOf n →
    x.foreignKey = y.foreignKey → x = y) (n : NodeId) (x : Edge) (hx : x ∈ g'.edgesOf n) :
    g'.Leads store n x := by
  have hedges : g'.edgesOf n = g.edgesOf n := edgesOf_of_shape_eq hshape _
  rw [hedges] at hx
  obtain ⟨-, -, -, hfk, hchild, -⟩ := hg.edge_of_mem hx
  obtain ⟨d, hd, hdx, hvalue⟩ := writtenValue_of_edge g' hx
  obtain rfl := hshared n d x hd hx hdx
  have hwritten : d.foreignKey ∈ g.writtenColumns n := by
    refine List.mem_filter.2 ⟨hfk, ?_⟩
    rw [decide_eq_true_eq]
    exact .inr ⟨d, hx, rfl⟩
  obtain ⟨-, -, i, -, -, hi, -⟩ := hrows d.child hchild
  have hkey : (g'.key d.child).kept = g'.key d.child := by
    change (g'.row d.child).key.value.kept = (g'.row d.child).key.value
    rw [hi]
    rfl
  refine ⟨g'.key d.child, ?_, .inl ?_⟩
  · rw [hrows.cell? hg hshape hwritten, hvalue, hkey]
  · rw [row, keyMatch, hop, Hop.row]

/-- A walk along a path ends at the value that was written to its column. -/
theorem Inserted.valueAt? (hshared : ∀ n x y, x ∈ g.edgesOf n → y ∈ g.edgesOf n →
    x.foreignKey = y.foreignKey → x = y) {path : String} (hpath : g'.Denotes n path c)
    (hm : c ∈ g.writtenColumns m) :
    store.valueAt? (g'.row n) path = some (g.writtenValue g' m c).kept := by
  have hg' := hg.of_shape_eq hshape
  have hcolumns : g'.columnsOf m = g.columnsOf m := columnsOf_of_shape_eq hshape _
  obtain ⟨p, hp, hlocate⟩ := hpath
  rw [ColumnPath.flatten_eq, locate_eq_some] at hlocate
  obtain ⟨k, hk, hfind⟩ := hlocate
  dsimp only at hk hfind
  obtain ⟨hmem, hname⟩ := hg'.findColumn?_mem hfind
  have hm' : c ∈ g'.columnsOf m := hcolumns ▸ List.mem_of_mem_filter hm
  obtain rfl := hg'.eq_of_mem_columnsOf hmem hm'
  rw [Store.valueAt?_of_parse hp, ← List.append_nil p.hops,
    walk?_descend hg' (hrows.leads hg hshape hshared) hk, Store.walk?, ← hname]
  exact hrows.cell? hg hshape hm

end

/-- Growth keeps the row of the root. -/
theorem Grows.root_single {table keyName : String} {key : Value}
    (h : Grows (single table keyName key) g) :
    g.table root = table ∧ g.keyName root = keyName := by
  have hsingle := wellFormed_single table keyName key
  have hroot : (single table keyName key).IsNode root := isNode_single.2 rfl
  refine ⟨(h.node hroot).2.1.trans rfl, ?_⟩
  rw [h.keyName hsingle hroot, keyName_eq keyColumn?_single, name, column?_single]
  split <;> rfl

/-- An assigned column that is no foreign key is written with the value assigned last. -/
theorem Drafts.writtenValue_eq (g' : Graph) {assigned : List (ColumnId × Value)} {v : Value}
    (h : Drafts assigned g) (hc : c ∈ g.columnsOf n) (hv : (c, v) ∈ assigned)
    (hfk : ∀ e ∈ g.edgesOf n, e.foreignKey ≠ c) : c ∈ g.writtenColumns n ∧
      assigned.reverse.lookup c = some (g.writtenValue g' n c) := by
  have hdirty : g.IsDirty c := (h.isDirty_iff hc).2 ⟨v, hv⟩
  have hnone : lastLink? (g.edgesOf n) c = none := by
    rw [← Option.not_isSome_iff_eq_none, lastLink?_isSome]
    rintro ⟨e, he, hec⟩
    exact hfk e he hec
  have hlookup : (assigned.reverse.lookup c).isSome := by
    rw [List.lookup_isSome_iff]
    exact ⟨(c, v), List.mem_reverse.2 hv, beq_self_eq_true c⟩
  refine ⟨List.mem_filter.2 ⟨hc, by simp [hdirty]⟩, ?_⟩
  rw [writtenValue, hnone, Option.elim_none, h.current_eq hc]
  obtain ⟨w, hw⟩ := Option.isSome_iff_exists.1 hlookup
  rw [hw, Option.getD_some]

/-- A walk along a path of an assigned column ends at the value assigned last. -/
theorem Inserted.valueAt?_assigned {assigned : List (ColumnId × Value)} {a : ColumnId × Value}
    (hrows : g.Inserted g' store) (hdrafts : Drafts assigned g) (hshape : g'.shape = g.shape)
    (hshared : ∀ n x y, x ∈ g.edgesOf n → y ∈ g.edgesOf n → x.foreignKey = y.foreignKey → x = y)
    (ha : a ∈ assigned) (hfk : ∀ e x, g.edge? e = some x → x.foreignKey ≠ a.1) :
    ∃ v, assigned.reverse.lookup a.1 = some v ∧ ∀ path, g'.Denotes n path a.1 →
      store.valueAt? (g'.row n) path = some v.kept := by
  have hg := hdrafts.wellFormed
  obtain ⟨m, hm⟩ := hdrafts.known ha
  have hfk' : ∀ x ∈ g.edgesOf m, x.foreignKey ≠ a.1 := by
    intro x hx
    obtain ⟨e, he, -⟩ := hg.edge_of_mem hx
    exact hfk e x he
  obtain ⟨hwritten, hlookup⟩ := hdrafts.writtenValue_eq g' hm ha hfk'
  exact ⟨_, hlookup, fun path hpath => hrows.valueAt? hg hshape hshared hpath hwritten⟩

end
end Graph

namespace Action

open RecordGraph.Graph

variable {σ : Type} {b : Backend σ} {s s' : Session σ}

/-- The value of the last pair whose path resolves to the same column as `path`. -/
def lastAssigned? (b : Backend σ) (s : Session σ) (pairs : List (String × Value))
    (path : String) : Option Value :=
  (pairs.reverse.find? fun q => (resolveColumn b root q.1).result? s =
    (resolveColumn b root path).result? s).map Prod.snd

variable {pairs : List (String × Value)} {assigned : List (ColumnId × Value)}

theorem resolves_of_assigns (hg : s.graph.WellFormed)
    (hpairs : List.Forall₂ (Assigns s.graph root) pairs assigned) :
    List.Forall₂ (fun q a => (resolveColumn b root q.1).result? s = some a.1 ∧ a.2 = q.2)
      pairs assigned :=
  hpairs.imp fun _ _ h => ⟨resolveColumn_of_denotes b hg hg.root h.1, h.2⟩

theorem lastAssigned?_eq_lookup {path : String} {c : ColumnId} (hg : s.graph.WellFormed)
    (hpairs : List.Forall₂ (Assigns s.graph root) pairs assigned)
    (hpath : s.graph.Denotes root path c) :
    lastAssigned? b s pairs path = assigned.reverse.lookup c := by
  rw [lastAssigned?, resolveColumn_of_denotes b hg hg.root hpath]
  have hreverse := List.forall₂_reverse_iff.2 (resolves_of_assigns (b := b) hg hpairs)
  generalize pairs.reverse = qs at hreverse
  generalize assigned.reverse = as at hreverse
  induction hreverse with
  | nil => rfl
  | @cons q a qs as hq _ ih =>
    rw [List.find?_cons, List.lookup_cons, hq.1]
    by_cases hc : c = a.1
    · simp [hc, hq.2]
    · rw [beq_false_of_ne hc]
      simp only [Option.some.injEq, Ne.symm hc, decide_false]
      exact ih

/-- A save of a new record ends with a row for each node. -/
theorem save_start_inserted {store : Store} {table keyName : String} {key : Value}
    (hblank : key.IsBlank) :
    (save Store.backend pairs).Ends (.start table keyName key store)
      (fun _ s' => ∃ g assigned, g.WellFormed ∧ Grows (.single table keyName key) g ∧
        s'.graph.shape = g.shape ∧ List.Forall₂ (Assigns g root) pairs assigned ∧
        (Overlaps assigned g ∨ Drafts assigned g ∧
          (g.Insertable store → g.Inserted s'.graph s'.backend)))
      (fun _ _ => True) := by
  have hsingle := wellFormed_single table keyName key
  have hstart : Prepares store [] (.start table keyName key store) :=
    .inr ⟨rfl, drafts_single hblank⟩
  refine saveAt_prepares Store.backend hsingle hstart
    fun s assigned hevolves hpairs hprepares => ?_
  have hg := hevolves.wellFormed hsingle
  refine (saveNode_cascades Store.backend root hg).mono (fun _ s' h' => ?_) (fun _ _ => id)
  obtain ⟨-, ids, hcascade, -, hreplays⟩ := h'
  refine ⟨s.graph, assigned, hg, hevolves.grows hsingle, hcascade.shape, hpairs, ?_⟩
  rcases hprepares with hoverlaps | ⟨hstate, hdrafts⟩
  · exact .inl hoverlaps
  · refine .inr ⟨hdrafts, fun hinsertable n hn => ?_⟩
    rw [hstate] at hreplays
    obtain ⟨-, hrows⟩ := hinsertable.replays_plannedCalls
      (fun m hm => hg.isNode_of_mem_postOrder hg.root hm) (fun m hm => hcascade.writtenKey hm)
      (fun before m after hsplit e he => hg.child_mem_of_postOrder hsplit he) hreplays
    have hrow := hrows n (hg.mem_postOrder_of_below (hg.below_root hn))
    have htable : s'.graph.table n = s.graph.table n := table_of_shape_eq hcascade.shape _
    rw [row, keyMatch, hcascade.keyName_eq, htable]
    exact hrow

/-- Where no join goes by an assigned column, all rows of the graph are in the store. -/
theorem save_start_rows {store : Store} {table keyName : String} {key : Value}
    {s' : Session Store} (hblank : key.IsBlank) (hroot : store.HasKey table keyName)
    (hjoins : ∀ x ∈ s'.graph.edges.toList,
      store.HasKey (s'.graph.table x.child) (s'.graph.keyName x.child))
    (hassigned : ∀ q ∈ pairs, ∀ c ∈ (resolveColumn Store.backend root q.1).result? s',
      c ∉ s'.graph.edges.toList.map Edge.foreignKey ∧
        ∀ col ∈ s'.graph.column? c, col.name ≠ s'.graph.keyName col.node)
    (hsave : save Store.backend pairs (.start table keyName key store) = .ok () s') :
    ∃ g assigned, Drafts assigned g ∧ Grows (.single table keyName key) g ∧
      s'.graph.shape = g.shape ∧ List.Forall₂ (Assigns s'.graph root) pairs assigned ∧
      g.Inserted s'.graph s'.backend ∧
      ∀ a ∈ assigned, a.1 ∉ s'.graph.edges.toList.map Edge.foreignKey := by
  obtain ⟨g, assigned, hg, hgrow, hshape, hassigns, hcases⟩ :=
    (save_start_inserted hblank).of_ok hsave
  have hg' := hg.of_shape_eq hshape
  have htable (n) : s'.graph.table n = g.table n := table_of_shape_eq hshape _
  have hkeyName (n) : s'.graph.keyName n = g.keyName n := keyName_of_shape_eq hshape _
  have hpairs : List.Forall₂ (Assigns s'.graph root) pairs assigned :=
    hassigns.imp fun _ _ h => ⟨h.1.grows hg hg' (.of_shape_eq hshape), h.2⟩
  have hplain {a} (ha : a ∈ assigned) : a.1 ∉ s'.graph.edges.toList.map Edge.foreignKey ∧
      ∀ col ∈ s'.graph.column? a.1, col.name ≠ s'.graph.keyName col.node := by
    obtain ⟨q, hq, hresult, -⟩ := exists_of_forall₂ (resolves_of_assigns hg' hpairs) ha
    exact hassigned q hq a.1 hresult
  rcases hcases with ⟨e, x, v, he, hv⟩ | ⟨hdrafts, hinserted⟩
  · -- an overlap stays, so it would be a join by an assigned column
    exact absurd (List.mem_map_of_mem (mem_edges hshape he)) (hplain hv).1
  refine ⟨g, assigned, hdrafts, hgrow, hshape, hpairs, hinserted ?_, fun a ha => (hplain ha).1⟩
  refine hdrafts.insertable (fun {n} hn hnroot => ?_) ?_ fun {c v} hv n hc => ?_
  · obtain ⟨e, x, he, rfl⟩ := hg.joined hn hnroot
    rw [← htable, ← hkeyName]
    exact hjoins x (mem_edges hshape he)
  · obtain ⟨hrootTable, hrootKey⟩ := hgrow.root_single
    rwa [hrootTable, hrootKey]
  · have howner : s'.graph.owner? c = some n := by
      rw [owner?_of_shape_eq hshape]
      exact (hg.column hc).1
    obtain ⟨col, hcol, rfl⟩ := column?_of_owner howner
    have hname : g.name c = col.name := by
      rw [name_of_shape_eq hshape.symm, Graph.name, hcol, Option.elim_some]
    rw [hname, ← hkeyName]
    exact (hplain hv).2 col hcol

/-- What a save of a new record writes, a fetch of a second record reads as the store keeps
it. These are the stored forms exactly if every real is read back from its literal. -/
theorem save_fetch (store : Store) (table keyName : String) (key : Value)
    (pairs : List (String × Value)) (s' : Session Store) (hblank : key.IsBlank)
    (hroot : store.HasKey table keyName)
    (hjoins : ∀ x ∈ s'.graph.edges.toList,
      store.HasKey (s'.graph.table x.child) (s'.graph.keyName x.child))
    (hshared : (s'.graph.edges.toList.map Edge.foreignKey).Nodup)
    (hassigned : ∀ q ∈ pairs, ∀ c ∈ (resolveColumn Store.backend root q.1).result? s',
      c ∉ s'.graph.edges.toList.map Edge.foreignKey ∧
        ∀ col ∈ s'.graph.column? c, col.name ≠ s'.graph.keyName col.node)
    (hsave : save Store.backend pairs (.start table keyName key store) = .ok () s') :
    ∃ newKey values, (Action.key root).result? s' = some newKey ∧
      (pairs.mapM fun q => lastAssigned? Store.backend s' pairs q.1) = some values ∧
      (fetch Store.backend (pairs.map Prod.fst)).result?
        (.start table keyName newKey s'.backend) = some (values.map Value.kept) ∧
      ((fetch Store.backend (pairs.map Prod.fst)).result?
          (.start table keyName newKey s'.backend) = some (values.map Value.stored) ↔
        ∀ x, Value.real x ∈ values → x.IsFinite → x.reread = x) := by
  obtain ⟨g, assigned, hdrafts, hgrow, hshape, hpairs, hrows, hplain⟩ :=
    save_start_rows hblank hroot hjoins hassigned hsave
  have hg := hdrafts.wellFormed
  have hg' := hg.of_shape_eq hshape
  have hshared' : ∀ n x y, x ∈ g.edgesOf n → y ∈ g.edgesOf n → x.foreignKey = y.foreignKey →
      x = y := by
    intro n x y hx hy hxy
    obtain ⟨e, he, -⟩ := hg.edge_of_mem hx
    obtain ⟨f, hf, -⟩ := hg.edge_of_mem hy
    exact List.inj_on_of_nodup_map hshared (mem_edges hshape he) (mem_edges hshape hf) hxy
  have hrow : s'.graph.row root = ⟨table, ⟨keyName, s'.graph.key root⟩⟩ := by
    obtain ⟨hrootTable, hrootKey⟩ := hgrow.root_single
    rw [row, keyMatch, table_of_shape_eq hshape, keyName_of_shape_eq hshape, hrootTable, hrootKey]
  have hvalue : ∀ q ∈ pairs, ∃ v, lastAssigned? Store.backend s' pairs q.1 = some v ∧
      s'.backend.valueAt? ⟨table, ⟨keyName, s'.graph.key root⟩⟩ q.1 = some v.kept := by
    intro q hq
    obtain ⟨a, ha, hpath, -⟩ := exists_of_forall₂ hpairs.flip hq
    obtain ⟨v, hlookup, hwalk⟩ := hrows.valueAt?_assigned hdrafts hshape hshared' ha
      fun e x he hx => hplain a ha (List.mem_map.2 ⟨x, mem_edges hshape he, hx⟩)
    refine ⟨v, ?_, ?_⟩
    · rw [lastAssigned?_eq_lookup hg' hpairs hpath, hlookup]
    · rw [← hrow]
      exact hwalk q.1 hpath
  obtain ⟨values, hvalues⟩ := exists_forall₂ hvalue
  have hfetch : (fetch Store.backend (pairs.map Prod.fst)).result?
      (.start table keyName (s'.graph.key root) s'.backend) = some (values.map Value.kept) := by
    rw [fetch_start_result?, mapM_eq_some, List.forall₂_map_left_iff, List.forall₂_map_right_iff]
    exact hvalues.imp fun _ _ => And.right
  refine ⟨s'.graph.key root, values, result?_key hg'.root,
    mapM_eq_some.2 (hvalues.imp fun _ _ => And.left), hfetch, ?_⟩
  rw [hfetch, Option.some.injEq, List.map_inj_left]
  constructor
  · intro h x hx
    exact Value.kept_eq_stored_iff.1 (h _ hx) x rfl
  · intro h v hv
    refine Value.kept_eq_stored_iff.2 fun x hx => h x ?_
    rwa [← hx]

/-- Two new rows, one of them in a table with a row, and a column with two spellings. -/
theorem save_fetch_joined :
    let store : Store := ⟨[⟨"t0", some "id", ["title", "t1_id"], []⟩,
      ⟨"t1", some "id", ["title"], [⟨7, [("title", .text "x")]⟩]⟩], 0⟩
    let half : Binary64 := .ofParts false (Nat.pow 2 52) 1021
    let pairs := [("t1.title", Value.text "a"), ("title", .real half),
      ("t1[t1_id].title", .text "b")]
    let s' := (save Store.backend pairs).after (.start "t0" "id" .null store)
    (fetch Store.backend ["t1.title", "title", "t1[t1_id].title"]).result?
      (.start "t0" "id" (.integer 1) s'.backend) =
        some [.text "b", .real half, .text "b"] := by
  intro store half pairs s'
  have hsave : (save Store.backend pairs).result? (.start "t0" "id" .null store) = some () := by
    decide +kernel
  have hroot : store.HasKey "t0" "id" := by decide +kernel
  have hjoins : ∀ x ∈ s'.graph.edges.toList,
      store.HasKey (s'.graph.table x.child) (s'.graph.keyName x.child) := by decide +kernel
  have hshared : (s'.graph.edges.toList.map Edge.foreignKey).Nodup := by decide +kernel
  have hassigned : ∀ q ∈ pairs, ∀ c ∈ (resolveColumn Store.backend root q.1).result? s',
      c ∉ s'.graph.edges.toList.map Edge.foreignKey ∧
        ∀ col ∈ s'.graph.column? c, col.name ≠ s'.graph.keyName col.node := by decide +kernel
  obtain ⟨newKey, values, hkey, hvalues, -, hstored⟩ :=
    save_fetch store "t0" "id" .null pairs s' trivial hroot hjoins hshared hassigned
      (eq_ok_of_result? hsave)
  have hkey' : (Action.key root).result? s' = some (.integer 1) := by decide +kernel
  have hvalues' : (pairs.mapM fun q => lastAssigned? Store.backend s' pairs q.1) =
      some [.text "b", .real half, .text "b"] := by decide +kernel
  have hexact : half.reread = half := by decide +kernel
  obtain rfl := Option.some.inj (hkey.symm.trans hkey')
  obtain rfl := Option.some.inj (hvalues.symm.trans hvalues')
  refine hstored.2 fun x hx _ => ?_
  have hx' : x = half := by simpa using hx
  rw [hx', hexact]

end Action
end RecordGraph
