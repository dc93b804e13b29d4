import RecordGraph.Proofs.Keys
import RecordGraph.Proofs.WrittenNode

/-!
# Unread columns

A column is unread while nothing is known of it and nothing waits for it. A fresh
node of an existing row hides its unread columns, as it answers for them without
a read. Registering, assigning and reading hide nothing; the write of a row hides
what it does not write.
-/
namespace RecordGraph.Graph

/-- Nothing is known of the column, and nothing waits for it. -/
def Unread (g : Graph) (c : ColumnId) : Prop :=
  ∃ col, g.column? c = some col ∧ col.clean = none ∧ col.pending = none

instance (g : Graph) (c : ColumnId) : Decidable (g.Unread c) :=
  decidable_of_iff ((g.column? c).any (fun col => col.clean = none ∧ col.pending = none) = true)
    (by simp [Unread, Option.any_eq_true])

/-- A row exists and its node is fresh, although a column of it is unread. -/
structure Hides (g : Graph) (n : NodeId) (c : ColumnId) : Prop where
  existing : ¬ g.IsNew n
  fresh : g.IsFresh n
  registered : c ∈ g.columnsOf n
  unread : g.Unread c

instance (g : Graph) (n : NodeId) (c : ColumnId) : Decidable (g.Hides n c) :=
  decidable_of_iff (¬ g.IsNew n ∧ g.IsFresh n ∧ c ∈ g.columnsOf n ∧ g.Unread c)
    ⟨fun ⟨hexisting, hfresh, hc, hunread⟩ => ⟨hexisting, hfresh, hc, hunread⟩,
      fun h => ⟨h.existing, h.fresh, h.registered, h.unread⟩⟩

/-- What `g'` hides, `g` hides too. -/
def HidesNoMore (g g' : Graph) : Prop := ∀ {n c}, g'.Hides n c → g.Hides n c

section
variable {g g' : Graph} {n m : NodeId} {c d k : ColumnId}

theorem Unread.not_isDirty (h : g.Unread c) : ¬ g.IsDirty c := by
  obtain ⟨col, hcol, -, hpending⟩ := h
  simp [IsDirty, hcol, Column.IsDirty, hpending]

/-- A column that does not wait is known or unread. -/
theorem known_or_unread (hg : g.WellFormed) (hc : c ∈ g.columnsOf n) (hclean : ¬ g.IsDirty c) :
    (∃ v, (g.column? c).bind Column.clean = some v ∧ g.current c = v) ∨ g.Unread c := by
  obtain ⟨col, hcol, -⟩ := column?_of_owner (hg.column hc).1
  have hcolumn : ¬ col.IsDirty := by simpa [IsDirty, hcol] using hclean
  have hpending : col.pending = none := Option.not_isSome_iff_eq_none.1 hcolumn
  cases hknown : col.clean with
  | none => exact .inr ⟨col, hcol, hknown, hpending⟩
  | some v =>
    refine .inl ⟨v, by rw [hcol, Option.bind_some, hknown], ?_⟩
    simp [current, hcol, Column.current, hpending, hknown]

/-- A node that did not change hides what it hid. -/
theorem Hides.of_node?_eq (h : g'.Hides n c) (hnode : g'.node? n = g.node? n)
    (hkey : ∀ {k}, g.keyColumn? n = some k → g'.column? k = g.column? k)
    (hcolumn : g'.column? c = g.column? c) : g.Hides n c := by
  obtain ⟨hexisting, hfresh, hc, hunread⟩ := h
  have hnew : g'.IsNew n ↔ g.IsNew n := isNew_congr (by rw [keyColumn?, hnode, keyColumn?]) hkey
  refine ⟨fun h => hexisting (hnew.2 h), ?_, ?_, ?_⟩
  · rwa [IsFresh, hnode] at hfresh
  · rwa [columnsOf, hnode] at hc
  · rwa [Unread, hcolumn] at hunread

/-! ## Registering -/

theorem hidesNoMore_withColumn {name : String} (hg : g.WellFormed) :
    g.HidesNoMore (g.withColumn n name) := by
  intro m c h
  have hmn : n ≠ m := by
    rintro rfl
    -- the new column makes its node stale
    have hfresh := h.fresh
    rw [IsFresh, node?_withColumn, if_pos rfl] at hfresh
    cases hnode : g.node? n <;> simp [hnode] at hfresh
  have hnode : (g.withColumn n name).node? m = g.node? m := by rw [node?_withColumn, if_neg hmn]
  have hc : c ∈ g.columnsOf m := by
    have hc := h.registered
    rwa [columnsOf, hnode] at hc
  refine h.of_node?_eq hnode (fun hk => ?_) ?_
  · rw [column?_withColumn, if_neg (ne_size_of_owner (hg.owner_of_keyColumn? hk))]
  · rw [column?_withColumn, if_neg (ne_size_of_owner (hg.column hc).1)]

theorem hidesNoMore_withChild {fk : ColumnId} {table childColumn : String} {key : Value}
    (hg : g.WellFormed) (hn : g.IsNode n) :
    g.HidesNoMore (g.withChild n fk table childColumn key) := by
  intro m c h
  obtain ⟨hexisting, hfresh, hc, hunread⟩ := h
  rw [columnsOf_withChild hn] at hc
  have hm := hg.isNode_of_column hc
  refine ⟨fun hnew => hexisting (((keepsKeys_withChild hg hn).isNew_iff hm).2 hnew), ?_, hc, ?_⟩
  · rw [IsFresh, node?_withChild hn, if_neg hm.ne_size] at hfresh
    rw [IsFresh]
    split at hfresh
    · cases hnode : g.node? m with
      | none => simp [hnode] at hfresh
      | some node => simpa [hnode] using hfresh
    · exact hfresh
  · rwa [Unread, column?_withChild, if_neg (ne_size_of_owner (hg.column hc).1)] at hunread

/-! ## Assigning and forgetting -/

/-- A value for the key of a new node makes it an existing one; any other value hides nothing. -/
theorem Hides.of_assign {v : Value} (h : (g.assign k v).Hides n c) :
    g.Hides n c ∨ g.keyColumn? n = some k ∧ g.IsNew n := by
  obtain ⟨hexisting, hfresh, hc, col, hcol, hknown, hpending⟩ := h
  have hkc : k ≠ c := by
    rintro rfl
    rw [column?_assign, if_pos rfl] at hcol
    obtain ⟨col', -, rfl⟩ := Option.map_eq_some_iff.1 hcol
    cases hpending
  rw [column?_assign, if_neg hkc] at hcol
  by_cases hnew : g.IsNew n
  · refine .inr ⟨?_, hnew⟩
    by_contra hkey
    have hkeep : (g.assign k v).IsNew n ↔ g.IsNew n := by
      refine isNew_congr rfl fun {k'} hk' => ?_
      rw [column?_assign, if_neg]
      rintro rfl
      exact hkey hk'
    exact hexisting (hkeep.2 hnew)
  · exact .inl ⟨hnew, hfresh, hc, col, hcol, hknown, hpending⟩

theorem hidesNoMore_assign {v : Value} (hg : g.WellFormed) (hk : k ∈ g.columnsOf m) :
    g.HidesNoMore (g.assign k v) := by
  intro n c h
  refine h.of_assign.resolve_right ?_
  rintro ⟨hkey, -⟩
  exact hg.notMem_columnsOf hkey hk

theorem Hides.of_setFresh {fresh : Bool} (h : (g.setFresh n fresh).Hides m c) (hmn : n ≠ m) :
    g.Hides m c :=
  h.of_node?_eq ((node?_updateNode ..).trans (if_neg hmn)) (fun _ => rfl) rfl

/-- The node of a column that is forgotten is stale. -/
theorem hidesNoMore_forget (hg : g.WellFormed) (hk : k ∈ g.columnsOf n) :
    g.HidesNoMore ((g.updateColumn k .forget).setFresh n false) := by
  intro m c h
  have hmn : n ≠ m := by
    rintro rfl
    have hfresh := isFresh_setFresh.1 h.fresh
    simp at hfresh
  have h' := h.of_setFresh hmn
  refine h'.of_node?_eq rfl (fun {k'} hk' => ?_) ?_
  · rw [column?_updateColumn, if_neg]
    rintro rfl
    exact hg.notMem_columnsOf hk' hk
  · rw [column?_updateColumn, if_neg]
    rintro rfl
    exact hmn (hg.eq_of_mem_columnsOf hk h'.registered)

/-! ## Reading -/

theorem hidesNoMore_setFresh_new (hn : g.IsNew n) : g.HidesNoMore (g.setFresh n true) := by
  intro m c h
  refine h.of_setFresh ?_
  rintro rfl
  exact h.existing ((isNew_congr (keyColumn?_of_shape_eq (shape_setFresh ..) n) fun _ => rfl).2 hn)

/-- A read leaves no column of its node unread. -/
theorem hidesNoMore_read {found : Row} (hg : g.WellFormed) :
    g.HidesNoMore ((g.settleRow (g.cleanColumns n) found).setFresh n true) := by
  intro m c h
  have hc : c ∈ g.columnsOf m := by
    have hc := h.registered
    rwa [columnsOf_of_shape_eq (shape_setFresh ..),
      columnsOf_of_shape_eq (revalues_settleRow cleanColumns_subset).2] at hc
  have hunread : (g.settleRow (g.cleanColumns n) found).Unread c := h.unread
  by_cases hmn : n = m
  · subst hmn
    by_cases hmem : c ∈ g.cleanColumns n
    · obtain ⟨col, hcol, hknown, -⟩ := hunread
      rw [column?_settleRow, if_pos hmem] at hcol
      obtain ⟨col', -, rfl⟩ := Option.map_eq_some_iff.1 hcol
      cases hknown
    · rw [Unread, column?_settleRow, if_neg hmem] at hunread
      exact absurd (List.mem_filter.2 ⟨hc, by simpa using Unread.not_isDirty hunread⟩) hmem
  · refine (h.of_setFresh hmn).of_node?_eq node?_settleRow (fun hk => ?_) ?_
    · rw [column?_settleRow, if_neg fun hmem => hg.notMem_columnsOf hk (cleanColumns_subset hmem)]
    · rw [column?_settleRow, if_neg]
      exact fun hmem => hmn (hg.eq_of_mem_columnsOf (cleanColumns_subset hmem) hc)

/-! ## Writing -/

theorem nodes_assignKey (v : Value) : (g.assignKey n v).nodes = g.nodes := by
  unfold assignKey
  cases g.keyColumn? n <;> rfl

theorem nodes_settleWritten (columns : List ColumnId) :
    (g.settleWritten n columns).nodes = g.nodes := by
  induction columns generalizing g with
  | nil => rfl
  | cons c columns ih =>
    rw [settleWritten_cons, ih]
    unfold settleOne
    split
    · exact nodes_assignKey _
    · rfl

theorem node?_written {id : Value} (hmn : n ≠ m) : (g.written n id).node? m = g.node? m := by
  unfold written
  split
  · refine ((node?_updateNode ..).trans (if_neg hmn)).trans ?_
    rw [node?, nodes_settleWritten, nodes_assignKey, node?]
  · split
    · refine ((node?_updateNode ..).trans (if_neg hmn)).trans ?_
      rw [node?, nodes_settleWritten, node?]
    · rfl

/-- The write of a row hides no column that it names. -/
theorem Hides.of_written {id : Value} (hg : g.WellFormed) (hn : g.IsNode n)
    (h : (g.written n id).Hides m c) : g.Hides m c ∨
      m = n ∧ g.written n id ≠ g ∧ g.name c ∉ (g.assignments (g.dirtyColumns n)).map Prod.fst := by
  have hc : c ∈ g.columnsOf m := by
    have hc := h.registered
    rwa [columnsOf_of_shape_eq shape_written] at hc
  have hkey : g.keyColumn? n ≠ some c := fun hk => hg.notMem_columnsOf hk hc
  by_cases hmn : n = m
  · subst hmn
    by_cases hsame : g.written n id = g
    · rw [hsame] at h
      exact .inl h
    · refine .inr ⟨rfl, hsame, fun hname => ?_⟩
      rw [assignments, List.map_map] at hname
      obtain ⟨d, hd, hdc⟩ := List.mem_map.1 hname
      obtain rfl := hg.names (dirtyColumns_subset hd) hc hdc
      -- a written column is known
      obtain ⟨col, hcol, hknown, -⟩ := h.unread
      rw [column?_written hg hn hkey, if_pos hd] at hcol
      obtain ⟨col', -, rfl⟩ := Option.map_eq_some_iff.1 hcol
      cases hknown
  · refine .inl (h.of_node?_eq (node?_written hmn)
      (fun hk => column?_written_of_key hg hn (Ne.symm hmn) hk) ?_)
    rw [column?_written hg hn hkey, if_neg]
    exact fun hd => hmn (hg.eq_of_mem_columnsOf (dirtyColumns_subset hd) hc)

end
end RecordGraph.Graph
