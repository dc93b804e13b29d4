import RecordGraph.Proofs.Evolution

/-!
# Writing one node

What the statements of one node say, and what is left in the graph after they
were carried out: the written columns are clean, and the key is the value that
was written under its name, else the generated one of a new row.
-/
namespace RecordGraph

/-- Each value has an exact literal. -/
def AllWritable (assignments : List Assignment) : Prop := ∀ a ∈ assignments, a.2.IsWritable

instance (assignments : List Assignment) : Decidable (AllWritable assignments) :=
  inferInstanceAs (Decidable (∀ _ ∈ _, _))

namespace Graph

section
variable (g : Graph) (n : NodeId)

/-- The statements for one node, with the answers of a backend that does not fail. -/
def writeCalls (id : Value) : List Call :=
  if g.IsNew n then
    [.exec (.insert (g.table n) (g.assignments (g.dirtyColumns n))) (.ok ()),
      .lastInsertId (.ok id)]
  else if g.dirtyColumns n ≠ [] then
    [.exec (.update (g.table n) (g.keyMatch n) (g.assignments (g.dirtyColumns n))) (.ok ())]
  else []

/-- The graph after the statements for one node. -/
def written (id : Value) : Graph :=
  if g.IsNew n then
    ((g.assignKey n id).settleWritten n (g.dirtyColumns n)).setFresh n true
  else if g.dirtyColumns n ≠ [] then (g.settleWritten n (g.dirtyColumns n)).setFresh n true
  else g

/-- The key of a node after some columns of it were written. -/
def keyAfter (assignments : List Assignment) (id : Value) : Value :=
  (assignments.lookup (g.keyName n)).getD (if g.IsNew n then id else g.key n)

end

section
variable {g : Graph} {n m : NodeId} {c d k : ColumnId} {columns : List ColumnId}

theorem writeCalls_of_isNew (hnew : g.IsNew n) (id : Value) : g.writeCalls n id =
    [.exec (.insert (g.table n) (g.assignments (g.dirtyColumns n))) (.ok ()),
      .lastInsertId (.ok id)] := if_pos hnew

theorem writeCalls_of_dirty (hnew : ¬ g.IsNew n) (hdirty : g.dirtyColumns n ≠ []) (id : Value) :
    g.writeCalls n id =
      [.exec (.update (g.table n) (g.keyMatch n) (g.assignments (g.dirtyColumns n))) (.ok ())] := by
  rw [writeCalls, if_neg hnew, if_pos hdirty]

theorem writeCalls_of_clean (hnew : ¬ g.IsNew n) (hclean : ¬ g.dirtyColumns n ≠ []) (id : Value) :
    g.writeCalls n id = [] := by
  rw [writeCalls, if_neg hnew, if_neg hclean]

theorem written_of_isNew (hnew : g.IsNew n) (id : Value) : g.written n id =
    ((g.assignKey n id).settleWritten n (g.dirtyColumns n)).setFresh n true := if_pos hnew

theorem written_of_dirty (hnew : ¬ g.IsNew n) (hdirty : g.dirtyColumns n ≠ []) (id : Value) :
    g.written n id = (g.settleWritten n (g.dirtyColumns n)).setFresh n true := by
  rw [written, if_neg hnew, if_pos hdirty]

theorem written_of_clean (hnew : ¬ g.IsNew n) (hclean : ¬ g.dirtyColumns n ≠ []) (id : Value) :
    g.written n id = g := by
  rw [written, if_neg hnew, if_neg hclean]

theorem column?_assignKey (hk : g.keyColumn? n = some k) (v : Value) :
    (g.assignKey n v).column? d = if k = d then (g.column? d).map (.assign v) else g.column? d := by
  rw [assignKey, hk]
  exact column?_assign ..

theorem shape_assignKey (v : Value) : (g.assignKey n v).shape = g.shape := revalues_assignKey.2

/-- One turn of the loop over the written columns. -/
def settleOne (g : Graph) (n : NodeId) (c : ColumnId) : Graph :=
  (if g.name c = g.keyName n then g.assignKey n (g.current c) else g).settle c (g.current c)

theorem shape_settleOne : (g.settleOne n c).shape = g.shape := by
  unfold settleOne
  split
  · rw [shape_settle, shape_assignKey]
  · rw [shape_settle]

theorem settleWritten_cons : g.settleWritten n (c :: columns) =
    (g.settleOne n c).settleWritten n columns := by
  have hname : (g.settleOne n c).keyName n = g.keyName n := keyName_of_shape_eq shape_settleOne _
  simp only [settleWritten, List.foldl_cons, hname]
  rfl

theorem column?_settleOne (hg : g.WellFormed) (hk : g.keyColumn? n = some k)
    (hc : c ∈ g.columnsOf n) : (g.settleOne n c).column? d =
      if c = d then (g.column? d).map fun col => col.settle col.current
      else if k = d ∧ g.name c = g.keyName n then (g.column? d).map (.assign (g.current c))
      else g.column? d := by
  have hkc : k ≠ c := by
    rintro rfl
    exact hg.notMem_columnsOf hk hc
  obtain ⟨col, hcol, -⟩ := column?_of_owner (hg.column hc).1
  have hcurrent : g.current c = col.current := by simp [current, hcol]
  unfold settleOne
  by_cases hname : g.name c = g.keyName n
  · rw [if_pos hname, column?_settle, column?_assignKey hk]
    by_cases hcd : c = d
    · subst hcd
      simp [hkc, hcol, hcurrent, Column.settle]
    · simp [hcd, hname]
  · rw [if_neg hname, column?_settle]
    by_cases hcd : c = d
    · subst hcd
      simp [hcol, hcurrent, Column.settle]
    · simp [hcd, hname]

/-- The written columns are clean with what waited for them, other columns are as before. -/
theorem column?_settleWritten (hg : g.WellFormed) (hn : g.IsNode n)
    (hcolumns : columns ⊆ g.columnsOf n) (hnodup : columns.Nodup)
    (hd : g.keyColumn? n ≠ some d) : (g.settleWritten n columns).column? d =
      if d ∈ columns then (g.column? d).map fun col => col.settle col.current
      else g.column? d := by
  obtain ⟨k, hk, -⟩ := hg.key hn
  have hkd : k ≠ d := by
    rintro rfl
    exact hd hk
  induction columns generalizing g with
  | nil => rfl
  | cons c columns ih =>
    have hc : c ∈ g.columnsOf n := hcolumns (by simp)
    have hshape : (g.settleOne n c).shape = g.shape := shape_settleOne
    rw [settleWritten_cons, ih (hg.of_shape_eq hshape), column?_settleOne hg hk hc]
    · rw [List.nodup_cons] at hnodup
      by_cases hcd : c = d
      · subst hcd
        simp [hnodup.1]
      · simp [hcd, hkd, Ne.symm hcd]
    · rwa [isNode_of_shape_eq hshape]
    · rw [columnsOf_of_shape_eq hshape]
      exact fun x hx => hcolumns (by simp [hx])
    · exact (List.nodup_cons.1 hnodup).2
    · rwa [keyColumn?_of_shape_eq hshape]
    · rwa [keyColumn?_of_shape_eq hshape]

theorem assignments_cons : g.assignments (c :: columns) =
    (g.name c, g.current c) :: g.assignments columns := rfl

theorem assignments_settleOne (hg : g.WellFormed) (hk : g.keyColumn? n = some k)
    (hc : c ∈ g.columnsOf n) (hcolumns : columns ⊆ g.columnsOf n) (hnot : c ∉ columns) :
    (g.settleOne n c).assignments columns = g.assignments columns := by
  refine List.map_congr_left fun d hd => ?_
  have hcd : c ≠ d := by
    rintro rfl
    exact hnot hd
  have hkd : k ≠ d := by
    rintro rfl
    exact hg.notMem_columnsOf hk (hcolumns hd)
  have hcolumn : (g.settleOne n c).column? d = g.column? d := by
    rw [column?_settleOne hg hk hc, if_neg hcd, if_neg fun h => hkd h.1]
  rw [name, current, hcolumn, name, current]

/-- What waits for registered columns does not depend on the key. -/
theorem assignments_assignKey (hg : g.WellFormed) (hk : g.keyColumn? n = some k)
    (hcolumns : columns ⊆ g.columnsOf n) (v : Value) :
    (g.assignKey n v).assignments columns = g.assignments columns := by
  refine List.map_congr_left fun d hd => ?_
  have hkd : k ≠ d := by
    rintro rfl
    exact hg.notMem_columnsOf hk (hcolumns hd)
  rw [name, current, column?_assignKey hk, if_neg hkd, name, current]

theorem lookup_assignments_eq_none {name : String} :
    (g.assignments columns).lookup name = none ↔ ∀ c ∈ columns, g.name c ≠ name := by
  rw [assignments, List.lookup_eq_none_iff, List.forall_mem_map]
  simp only [bne_iff_ne, ne_comm]

/-- The names of a node's columns are distinct, so each finds its own value. -/
theorem lookup_assignments (hg : g.WellFormed) (hcolumns : columns ⊆ g.columnsOf n)
    (hc : c ∈ columns) : (g.assignments columns).lookup (g.name c) = some (g.current c) := by
  cases hlookup : (g.assignments columns).lookup (g.name c) with
  | none => exact absurd rfl (lookup_assignments_eq_none.1 hlookup c hc)
  | some v =>
    obtain ⟨d, hd, hpair⟩ := List.mem_map.1 (mem_of_lookup hlookup)
    obtain ⟨hname, rfl⟩ := Prod.mk.inj hpair
    rw [hg.names (hcolumns hd) (hcolumns hc) hname]

/-- The key takes over what was written under its name. -/
theorem column?_key_settleWritten (hg : g.WellFormed) (hk : g.keyColumn? n = some k)
    (hcolumns : columns ⊆ g.columnsOf n) (hnodup : columns.Nodup) :
    (g.settleWritten n columns).column? k =
      ((g.assignments columns).lookup (g.keyName n)).elim (g.column? k)
        fun v => (g.column? k).map (.assign v) := by
  induction columns generalizing g with
  | nil => rfl
  | cons c columns ih =>
    have hc : c ∈ g.columnsOf n := hcolumns (by simp)
    have hrest : columns ⊆ g.columnsOf n := fun x hx => hcolumns (by simp [hx])
    obtain ⟨hnot, hnodup⟩ := List.nodup_cons.1 hnodup
    have hck : c ≠ k := by
      rintro rfl
      exact hg.notMem_columnsOf hk hc
    have hshape : (g.settleOne n c).shape = g.shape := shape_settleOne
    have hkeyName : (g.settleOne n c).keyName n = g.keyName n := keyName_of_shape_eq hshape n
    have hih : (g.settleWritten n (c :: columns)).column? k =
        ((g.assignments columns).lookup (g.keyName n)).elim ((g.settleOne n c).column? k)
          fun v => ((g.settleOne n c).column? k).map (.assign v) := by
      rw [settleWritten_cons, ih (hg.of_shape_eq hshape), hkeyName,
        assignments_settleOne hg hk hc hrest hnot]
      · rwa [keyColumn?_of_shape_eq hshape]
      · rwa [columnsOf_of_shape_eq hshape]
      · exact hnodup
    rw [hih, column?_settleOne hg hk hc, if_neg hck, assignments_cons, List.lookup_cons]
    by_cases hname : g.name c = g.keyName n
    · -- no other column of the node has this name
      have hnone : (g.assignments columns).lookup (g.keyName n) = none := by
        refine lookup_assignments_eq_none.2 fun d hd hdname => hnot ?_
        rwa [hg.names hc (hrest hd) (hname.trans hdname.symm)]
      rw [hnone, if_pos ⟨rfl, hname⟩, hname, beq_self_eq_true]
      rfl
    · rw [if_neg fun h => hname h.2, beq_false_of_ne fun h => hname h.symm]

theorem key_settleWritten (hg : g.WellFormed) (hn : g.IsNode n)
    (hcolumns : columns ⊆ g.columnsOf n) (hnodup : columns.Nodup) :
    (g.settleWritten n columns).key n =
      ((g.assignments columns).lookup (g.keyName n)).getD (g.key n) := by
  obtain ⟨k, hk, hkn⟩ := hg.key hn
  obtain ⟨col, hcol, -⟩ := column?_of_owner hkn
  have hk' : (g.settleWritten n columns).keyColumn? n = some k := by
    rwa [keyColumn?_of_shape_eq (revalues_settleWritten hcolumns).2]
  rw [key_eq hk', key_eq hk, current, column?_key_settleWritten hg hk hcolumns hnodup, current,
    hcol]
  cases (g.assignments columns).lookup (g.keyName n) <;> rfl

/-! ## The whole node -/

theorem dirtyColumns_subset : g.dirtyColumns n ⊆ g.columnsOf n := List.filter_subset_self _

theorem dirtyColumns_nodup (hg : g.WellFormed) : (g.dirtyColumns n).Nodup :=
  (hg.columns_nodup n).filter _

theorem dirtyColumns_subset_assignKey {v : Value} :
    g.dirtyColumns n ⊆ (g.assignKey n v).columnsOf n := by
  rw [columnsOf_of_shape_eq (shape_assignKey v)]
  exact dirtyColumns_subset

theorem shape_written {id : Value} : (g.written n id).shape = g.shape := by
  unfold written
  split
  · rw [shape_setFresh, (revalues_settleWritten dirtyColumns_subset_assignKey).2, shape_assignKey]
  · split
    · rw [shape_setFresh, (revalues_settleWritten dirtyColumns_subset).2]
    · rfl

/-- Whatever was sent, no column of the node waits any more, and nothing else changes but
the key. -/
theorem column?_written (hg : g.WellFormed) (hn : g.IsNode n) {id : Value}
    (hd : g.keyColumn? n ≠ some d) : (g.written n id).column? d =
      if d ∈ g.dirtyColumns n then (g.column? d).map fun col => col.settle col.current
      else g.column? d := by
  have hnodup := dirtyColumns_nodup (n := n) hg
  unfold written
  split
  · have hshape : (g.assignKey n id).shape = g.shape := shape_assignKey id
    obtain ⟨k, hk, -⟩ := hg.key hn
    have hkd : k ≠ d := by
      rintro rfl
      exact hd hk
    change ((g.assignKey n id).settleWritten n _).column? d = _
    rw [column?_settleWritten (hg.of_shape_eq hshape) ?_ dirtyColumns_subset_assignKey hnodup ?_,
      column?_assignKey hk, if_neg hkd]
    · rwa [isNode_of_shape_eq hshape]
    · rwa [keyColumn?_of_shape_eq hshape]
  · split
    · exact column?_settleWritten hg hn dirtyColumns_subset hnodup hd
    · next hnone => rw [not_not.1 hnone, if_neg (List.not_mem_nil)]

theorem key_setFresh {fresh : Bool} : (g.setFresh m fresh).key n = g.key n := by
  rw [key, keyColumn?_of_shape_eq (shape_setFresh g m fresh), key]
  rfl

/-- The key of a node after its statements. -/
theorem key_written (hg : g.WellFormed) (hn : g.IsNode n) {id : Value} :
    (g.written n id).key n = g.keyAfter n (g.assignments (g.dirtyColumns n)) id := by
  have hnodup := dirtyColumns_nodup (n := n) hg
  unfold written keyAfter
  split
  · have hshape : (g.assignKey n id).shape = g.shape := shape_assignKey id
    obtain ⟨k, hk, hkn⟩ := hg.key hn
    obtain ⟨col, hcol, -⟩ := column?_of_owner hkn
    have hkey : (g.assignKey n id).key n = id := by
      have hk' : (g.assignKey n id).keyColumn? n = some k := by
        rwa [keyColumn?_of_shape_eq hshape]
      rw [key_eq hk', current, column?_assignKey hk, if_pos rfl, hcol]
      rfl
    rw [key_setFresh, key_settleWritten (hg.of_shape_eq hshape) ?_ dirtyColumns_subset_assignKey
      hnodup, assignments_assignKey hg hk dirtyColumns_subset, hkey, keyName_of_shape_eq hshape]
    rwa [isNode_of_shape_eq hshape]
  · split
    · rw [key_setFresh]
      exact key_settleWritten hg hn dirtyColumns_subset hnodup
    · next hnone =>
      rw [not_not.1 hnone]
      rfl

/-- Keys of other nodes stay. -/
theorem column?_written_of_key (hg : g.WellFormed) (hn : g.IsNode n) {id : Value} (hmn : m ≠ n)
    (hk : g.keyColumn? m = some k) : (g.written n id).column? k = g.column? k := by
  have hkn : g.keyColumn? n ≠ some k := by
    intro hkn
    exact hmn (Option.some.inj ((hg.owner_of_keyColumn? hk).symm.trans
      (hg.owner_of_keyColumn? hkn)))
  rw [column?_written hg hn hkn, if_neg]
  exact fun hmem => hg.notMem_columnsOf hk (dirtyColumns_subset hmem)

theorem key_written_of_ne (hg : g.WellFormed) (hn : g.IsNode n) {id : Value} (hmn : m ≠ n) :
    (g.written n id).key m = g.key m := by
  have hkeyColumn : (g.written n id).keyColumn? m = g.keyColumn? m :=
    keyColumn?_of_shape_eq shape_written m
  rw [key, key, hkeyColumn]
  cases hk : g.keyColumn? m with
  | none => rfl
  | some k => rw [Option.elim_some, Option.elim_some, current, column?_written_of_key hg hn hmn hk,
      current]

end
end Graph

namespace Action

variable {σ : Type} (b : Backend σ) {s : Session σ}

/-- A value that waits for the node has no exact literal, and nothing was sent. -/
def Refuses (s : Session σ) (n : NodeId) (e : Error) (s' : Session σ) : Prop :=
  s' = s ∧ ∃ a ∈ s.graph.assignments (s.graph.dirtyColumns n),
    ¬ a.2.IsWritable ∧ e = .invalidValue a.1 (s.graph.table n) a.2

/-- The backend failed at the statement for the node, or at the question for the key that
follows it for a new one. -/
def Breaks (s : Session σ) (n : NodeId) (e : Error) (s' : Session σ) : Prop :=
  s'.graph = s.graph ∧ ∃ statement f calls,
    .exec statement (.ok ()) ∈ s.graph.writeCalls n .null ∧ e = .statement f ∧
    s'.calls = s.calls ++ calls.map (fun call => (n, call)) ∧
    b.Replays calls s.backend s'.backend ∧
    (calls = [.exec statement (.error f)] ∨
      s.graph.IsNew n ∧ calls = [.exec statement (.ok ()), .lastInsertId (.error f)])

/-- A node that is written sends its statements and nothing else. One that is not written
leaves the graph as it was. -/
theorem writeNode_ends (n : NodeId) : (writeNode b n).Ends s
    (fun _ s' => AllWritable (s.graph.assignments (s.graph.dirtyColumns n)) ∧
      ∃ id, s'.graph = s.graph.written n id ∧
        s'.calls = s.calls ++ (s.graph.writeCalls n id).map (fun call => (n, call)) ∧
        b.Replays (s.graph.writeCalls n id) s.backend s'.backend)
    (fun e s' => Refuses s n e s' ∨
      AllWritable (s.graph.assignments (s.graph.dirtyColumns n)) ∧ Breaks b s n e s') := by
  rw [writeNode, ends_bind, ends_graph]
  dsimp only
  split
  · next a v hfind =>
    have hbad : ¬ v.IsWritable := by simpa using List.find?_some hfind
    exact .inl ⟨rfl, (a, v), List.mem_of_find?_eq_some hfind, hbad, rfl⟩
  · next hnone =>
    have hall : AllWritable (s.graph.assignments (s.graph.dirtyColumns n)) := by
      intro a ha
      simpa using List.find?_eq_none.1 hnone a ha
    rw [ends_ite]
    refine ⟨fun hnew => ?_, fun hnew => ends_ite.2 ⟨fun hdirty => ?_, fun hclean => ?_⟩⟩
    · have hcalls := Graph.writeCalls_of_isNew hnew
      refine ends_bind.2 (ends_send.2 ⟨fun _ state hexec => ?_, fun f state hexec => ?_⟩)
      · refine ends_bind.2 (ends_send.2 ⟨fun id state' hid => ?_, fun f state' hid => ?_⟩)
        · rw [ends_updateGraph]
          refine ⟨hall, id, (Graph.written_of_isNew hnew id).symm, by simp [hcalls], ?_⟩
          rw [hcalls]
          exact ⟨state, hexec, state', hid, rfl⟩
        · exact .inr ⟨hall, rfl, _, f, [.exec _ (.ok ()), .lastInsertId (.error f)],
            hcalls _ ▸ List.mem_cons_self, rfl, by simp, ⟨state, hexec, state', hid, rfl⟩,
            .inr ⟨hnew, rfl⟩⟩
      · exact .inr ⟨hall, rfl, _, f, [.exec _ (.error f)], hcalls _ ▸ List.mem_cons_self, rfl,
          by simp, ⟨state, hexec, rfl⟩, .inl rfl⟩
    · have hcalls := Graph.writeCalls_of_dirty hnew hdirty
      refine ends_bind.2 (ends_send.2 ⟨fun _ state hexec => ?_, fun f state hexec => ?_⟩)
      · rw [ends_updateGraph]
        refine ⟨hall, .null, (Graph.written_of_dirty hnew hdirty _).symm, by simp [hcalls], ?_⟩
        rw [hcalls]
        exact ⟨state, hexec, rfl⟩
      · exact .inr ⟨hall, rfl, _, f, [.exec _ (.error f)], hcalls _ ▸ List.mem_cons_self, rfl,
          by simp, ⟨state, hexec, rfl⟩, .inl rfl⟩
    · have hcalls := Graph.writeCalls_of_clean hnew hclean
      refine ⟨hall, .null, (Graph.written_of_clean hnew hclean _).symm, by simp [hcalls], ?_⟩
      rw [hcalls]
      rfl

end Action
end RecordGraph
