import RecordGraph.Proofs.PostOrder
import RecordGraph.Proofs.WrittenNode

/-!
# The cascade of a save

The invariant of a save, relative to the graph at its start. A node that was
written is clean and has its new key. A node that waits is as it was, but for
the foreign keys of its joins that were met: each holds the key of the last
child that it names.
-/
namespace RecordGraph

/-- The last of some joins that use a column as their foreign key. -/
def lastLink? (edges : List Edge) (c : ColumnId) : Option Edge :=
  edges.reverse.find? fun e => e.foreignKey = c

section
variable {edges : List Edge} {c : ColumnId} {e : Edge}

theorem lastLink?_concat : lastLink? (edges ++ [e]) c =
    if e.foreignKey = c then some e else lastLink? edges c := by
  rw [lastLink?, List.reverse_append, List.reverse_singleton, List.singleton_append,
    List.find?_cons]
  by_cases h : e.foreignKey = c
  · simp [h]
  · simp [h, lastLink?]

theorem mem_of_lastLink? (h : lastLink? edges c = some e) : e ∈ edges ∧ e.foreignKey = c :=
  ⟨List.mem_reverse.1 (List.mem_of_find?_eq_some h), by simpa using List.find?_some h⟩

theorem lastLink?_isSome : (lastLink? edges c).isSome ↔ ∃ e ∈ edges, e.foreignKey = c := by
  simp [lastLink?]

theorem lastLink?_filter {p : Edge → Bool} (h : ∀ e ∈ edges, e.foreignKey = c → p e = true) :
    lastLink? (edges.filter p) c = lastLink? edges c := by
  induction edges using List.reverseRecOn with
  | nil => rfl
  | append_singleton edges e ih =>
    rw [lastLink?_concat, List.filter_append, ← ih fun d hd => h d (by simp [hd])]
    by_cases hc : e.foreignKey = c
    · rw [List.filter_singleton, h e (by simp) hc, if_pos hc]
      exact lastLink?_concat.trans (if_pos hc)
    · rw [List.filter_singleton, if_neg hc]
      cases p e
      · rw [cond_false, List.append_nil]
      · exact lastLink?_concat.trans (if_neg hc)

end

namespace Graph

section
variable (g g' : Graph) (n : NodeId)

/-- The columns that a save writes to the row of a node: those that wait, and the foreign
keys of its joins. -/
def writtenColumns : List ColumnId :=
  (g.columnsOf n).filter fun c => g.IsDirty c ∨ ∃ e ∈ g.edgesOf n, e.foreignKey = c

/-- The value that is written to a column: what waits for it, and for a foreign key the key
that the child of the last join by it has in `g'`. -/
def writtenValue (c : ColumnId) : Value :=
  (lastLink? (g.edgesOf n) c).elim (g.current c) fun e => g'.key e.child

def writtenAssignments : List Assignment :=
  (g.writtenColumns n).map fun c => (g.name c, g.writtenValue g' n c)

/-- The calls for one node: an insertion and the question for the generated key of a new
node, an update of another one, if it has joins or anything waits. -/
def saveCalls (assignments : List Assignment) (id : Value) : List Call :=
  if g.IsNew n then [.exec (.insert (g.table n) assignments) (.ok ()), .lastInsertId (.ok id)]
  else if g.edgesOf n ≠ [] ∨ ∃ c ∈ g.columnsOf n, g.IsDirty c then
    [.exec (.update (g.table n) (g.keyMatch n) assignments) (.ok ())]
  else []

end

/-- The graph `g₁` stands amid a save that began with `g`: the nodes `done` were written,
and the joins `linked` were linked. -/
structure Cascade (g : Graph) (ids : NodeId → Value) (done : List NodeId) (linked : List Edge)
    (g₁ : Graph) : Prop where
  shape : g₁.shape = g.shape
  waiting : ∀ {m c}, m ∉ done → c ∈ g.columnsOf m → g₁.column? c = (g.column? c).map fun col =>
    (lastLink? linked c).elim col fun e => col.assign (g₁.key e.child)
  waitingKey : ∀ {m k}, m ∉ done → g.keyColumn? m = some k → g₁.column? k = g.column? k
  written : ∀ {m c}, m ∈ done → c ∈ g.columnsOf m → g₁.column? c = (g.column? c).map fun col =>
    if c ∈ g.writtenColumns m then col.settle (g.writtenValue g₁ m c) else col
  writtenKey : ∀ {m}, m ∈ done → g₁.key m = g.keyAfter m (g.writtenAssignments g₁ m) (ids m)
  closed : ∀ {m e}, m ∈ done → e ∈ g.edgesOf m → e.child ∈ done
  linked : ∀ {e}, e ∈ linked → e.child ∈ done ∧ e ∈ g.edgesOf e.parent

section
variable {g g' g₁ g₂ : Graph} {n m : NodeId} {c : ColumnId} {e : Edge}
  {ids : NodeId → Value} {done : List NodeId} {linked : List Edge}

theorem WellFormed.writtenColumns_eq_nil (hg : g.WellFormed) : g.writtenColumns n = [] ↔
    ¬ (g.edgesOf n ≠ [] ∨ ∃ c ∈ g.columnsOf n, g.IsDirty c) := by
  rw [writtenColumns, List.filter_eq_nil_iff]
  simp only [decide_eq_true_eq, not_or, not_not, not_exists, not_and]
  constructor
  · intro h
    refine ⟨List.eq_nil_iff_forall_not_mem.2 fun e he => ?_, fun c hc => (h c hc).1⟩
    obtain ⟨-, -, -, hfk, -⟩ := hg.edge_of_mem he
    exact (h e.foreignKey hfk).2 e he rfl
  · rintro ⟨hedges, hclean⟩ c hc
    refine ⟨hclean c hc, fun e he => ?_⟩
    rw [hedges] at he
    cases he

/-- What is written depends on the keys of the children only. -/
theorem writtenValue_congr (h : ∀ e ∈ g.edgesOf n, g₂.key e.child = g₁.key e.child) :
    g.writtenValue g₂ n c = g.writtenValue g₁ n c := by
  unfold writtenValue
  cases hlast : lastLink? (g.edgesOf n) c with
  | none => rfl
  | some e => exact h e (mem_of_lastLink? hlast).1

theorem writtenAssignments_congr (h : ∀ e ∈ g.edgesOf n, g₂.key e.child = g₁.key e.child) :
    g.writtenAssignments g₂ n = g.writtenAssignments g₁ n :=
  List.map_congr_left fun c _ => by rw [writtenValue_congr h]

theorem Cascade.start (g : Graph) (ids : NodeId → Value) : Cascade g ids [] [] g where
  shape := rfl
  waiting {m c} _ _ := by simp [lastLink?]
  waitingKey _ _ := rfl
  written h _ := absurd h List.not_mem_nil
  writtenKey h := absurd h List.not_mem_nil
  closed h := absurd h List.not_mem_nil
  linked h := absurd h List.not_mem_nil

namespace Cascade

section
variable (h : Cascade g ids done linked g₁)

include h

theorem keyColumn?_eq (m : NodeId) : g₁.keyColumn? m = g.keyColumn? m :=
  keyColumn?_of_shape_eq h.shape m

theorem columnsOf_eq (m : NodeId) : g₁.columnsOf m = g.columnsOf m :=
  columnsOf_of_shape_eq h.shape m

theorem name_eq (c : ColumnId) : g₁.name c = g.name c := name_of_shape_eq h.shape c

theorem keyName_eq (m : NodeId) : g₁.keyName m = g.keyName m := keyName_of_shape_eq h.shape m

theorem child_mem_done (hlinks : linked.filter (·.parent = n) = g.edgesOf n)
    (he : e ∈ g.edgesOf n) : e.child ∈ done := by
  rw [← hlinks] at he
  exact (h.linked (List.mem_of_mem_filter he)).1

end

variable (hg : g.WellFormed) (h : Cascade g ids done linked g₁)

include hg h

/-- A foreign key is no key, so that linking changes no key. -/
theorem key_link (he : e ∈ g.edgesOf e.parent) (m : NodeId) : (g₁.link e).key m = g₁.key m := by
  obtain ⟨-, -, -, hfk, -⟩ := hg.edge_of_mem he
  have hkeyColumn : (g₁.link e).keyColumn? m = g₁.keyColumn? m := rfl
  rw [key, key, hkeyColumn, h.keyColumn?_eq]
  cases hk : g.keyColumn? m with
  | none => rfl
  | some k =>
    have hne : e.foreignKey ≠ k := by
      rintro rfl
      exact hg.notMem_columnsOf hk hfk
    change Option.elim ((g₁.assign e.foreignKey _).column? k) _ _ = _
    rw [column?_assign, if_neg hne]
    rfl

/-- One more join is linked to a child that was written. -/
theorem link (he : e ∈ g.edgesOf e.parent) (hchild : e.child ∈ done) (hparent : e.parent ∉ done) :
    Cascade g ids done (linked ++ [e]) (g₁.link e) := by
  have hkey := h.key_link hg he
  obtain ⟨-, -, -, hfk, -⟩ := hg.edge_of_mem he
  have hcolumn (d : ColumnId) : (g₁.link e).column? d =
      if e.foreignKey = d then (g₁.column? d).map (.assign (g₁.key e.child))
      else g₁.column? d := column?_assign ..
  exact {
    shape := (shape_assign ..).trans h.shape
    waiting := fun {m c} hm hc => by
      rw [hcolumn, h.waiting hm hc, lastLink?_concat]
      by_cases hfkc : e.foreignKey = c
      · rw [if_pos hfkc, if_pos hfkc, Option.map_map]
        congr 1
        funext col
        rw [Option.elim_some, hkey, Function.comp_apply]
        cases lastLink? linked c <;> rfl
      · simp only [if_neg hfkc, hkey]
    waitingKey := fun {m k} hm hk => by
      have hne : e.foreignKey ≠ k := by
        rintro rfl
        exact hg.notMem_columnsOf hk hfk
      rw [hcolumn, if_neg hne, h.waitingKey hm hk]
    written := fun {m c} hm hc => by
      have hne : e.foreignKey ≠ c := by
        rintro rfl
        exact hparent (hg.eq_of_mem_columnsOf hfk hc ▸ hm)
      rw [hcolumn, if_neg hne, h.written hm hc]
      simp only [writtenValue_congr fun e _ => hkey e.child]
    writtenKey := fun hm => by
      rw [hkey, h.writtenKey hm, writtenAssignments_congr fun e _ => hkey e.child]
    closed := h.closed
    linked := fun hd => by
      rcases List.mem_append.1 hd with hd | hd
      · exact h.linked hd
      · obtain rfl := List.mem_singleton.1 hd
        exact ⟨hchild, he⟩ }

section
variable (hn : g.IsNode n) (hnew : n ∉ done)

include hn hnew

theorem key_next : g₁.key n = g.key n := by
  obtain ⟨k, hk, -⟩ := hg.key hn
  rw [key_eq hk, key_eq ((h.keyColumn?_eq n).trans hk), current, h.waitingKey hnew hk, current]

theorem isNew_next : g₁.IsNew n ↔ g.IsNew n := by
  obtain ⟨k, hk, -⟩ := hg.key hn
  rw [isNew_iff hk, isNew_iff ((h.keyColumn?_eq n).trans hk), h.waitingKey hnew hk]

theorem keyAfter_next (assignments : List Assignment) (id : Value) :
    g₁.keyAfter n assignments id = g.keyAfter n assignments id := by
  rw [keyAfter, keyAfter, h.keyName_eq, h.key_next hg hn hnew]
  simp only [h.isNew_next hg hn hnew]

/-- The keys of the written nodes stay. -/
theorem key_written {m : NodeId} (hm : m ∈ done) (id : Value) :
    (g₁.written n id).key m = g₁.key m := by
  have hn₁ : g₁.IsNode n := by rwa [isNode_of_shape_eq h.shape]
  refine key_written_of_ne (hg.of_shape_eq h.shape) hn₁ ?_
  rintro rfl
  exact hnew hm

end

section
variable (hnew : n ∉ done) (hlinks : linked.filter (·.parent = n) = g.edgesOf n)

include hnew hlinks

/-- What waits for a column of the next node. -/
theorem column?_next (hc : c ∈ g.columnsOf n) : g₁.column? c = (g.column? c).map fun col =>
    (lastLink? (g.edgesOf n) c).elim col fun e => col.assign (g₁.key e.child) := by
  rw [h.waiting hnew hc, ← hlinks, lastLink?_filter]
  intro e he hfk
  obtain ⟨-, hedge⟩ := h.linked he
  obtain ⟨-, -, -, hfk', -⟩ := hg.edge_of_mem hedge
  simpa using hg.eq_of_mem_columnsOf hfk' (hfk ▸ hc)

/-- A node is written when all its joins are linked; then the columns that wait are the
columns that a save writes. -/
theorem dirtyColumns_next : g₁.dirtyColumns n = g.writtenColumns n := by
  rw [dirtyColumns, writtenColumns, h.columnsOf_eq]
  refine List.filter_congr fun c hc => ?_
  obtain ⟨col, hcol, -⟩ := column?_of_owner (hg.column hc).1
  rw [decide_eq_decide, ← lastLink?_isSome, IsDirty, IsDirty,
    h.column?_next hg hnew hlinks hc, hcol]
  cases lastLink? (g.edgesOf n) c <;> simp [Column.IsDirty, Column.assign]

theorem current_next (hc : c ∈ g.columnsOf n) : g₁.current c = g.writtenValue g₁ n c := by
  obtain ⟨col, hcol, -⟩ := column?_of_owner (hg.column hc).1
  rw [current, h.column?_next hg hnew hlinks hc, hcol, writtenValue, current, hcol]
  cases lastLink? (g.edgesOf n) c <;> rfl

theorem assignments_next :
    g₁.assignments (g.writtenColumns n) = g.writtenAssignments g₁ n :=
  List.map_congr_left fun c hc => by
    rw [h.name_eq, h.current_next hg hnew hlinks (List.mem_of_mem_filter hc)]

variable (hn : g.IsNode n)

include hn

/-- The statements of the next node are those of the plan. -/
theorem writeCalls_next (id : Value) :
    g₁.writeCalls n id = g.saveCalls n (g.writtenAssignments g₁ n) id := by
  have htable : g₁.table n = g.table n := table_of_shape_eq h.shape n
  rw [writeCalls, saveCalls, h.dirtyColumns_next hg hnew hlinks, h.assignments_next hg hnew hlinks,
    keyMatch, h.keyName_eq, h.key_next hg hn hnew, htable]
  simp only [h.isNew_next hg hn hnew, ne_eq, hg.writtenColumns_eq_nil, not_not]
  rfl

/-- The next node gives its values to the columns that are written, and to no other column. -/
theorem column?_written_next (id : Value) (hc : c ∈ g.columnsOf m) :
    (g₁.written n id).column? c = if c ∈ g.writtenColumns n then
      (g₁.column? c).map fun col => col.settle col.current else g₁.column? c := by
  have hn₁ : g₁.IsNode n := by rwa [isNode_of_shape_eq h.shape]
  have hkc : g₁.keyColumn? n ≠ some c := by
    rw [h.keyColumn?_eq]
    exact fun hk => hg.notMem_columnsOf hk hc
  rw [column?_written (hg.of_shape_eq h.shape) hn₁ hkc, h.dirtyColumns_next hg hnew hlinks]

/-- The columns of other nodes are not written. -/
theorem column?_written_of_ne (id : Value) (hm : m ≠ n) (hc : c ∈ g.columnsOf m) :
    (g₁.written n id).column? c = g₁.column? c := by
  rw [h.column?_written_next hg hnew hlinks hn id hc, if_neg]
  exact fun hmem => hm (hg.eq_of_mem_columnsOf hc (List.mem_of_mem_filter hmem))

/-- The written columns of the node itself are clean with the written values. -/
theorem column?_written_self (id : Value) (hc : c ∈ g.columnsOf n) :
    (g₁.written n id).column? c = (g.column? c).map fun col =>
      if c ∈ g.writtenColumns n then col.settle (g.writtenValue g₁ n c) else col := by
  obtain ⟨col, hcol, -⟩ := column?_of_owner (hg.column hc).1
  have hcurrent := h.current_next hg hnew hlinks hc
  rw [current, h.column?_next hg hnew hlinks hc, hcol] at hcurrent
  rw [h.column?_written_next hg hnew hlinks hn id hc, h.column?_next hg hnew hlinks hc, hcol]
  by_cases hmem : c ∈ g.writtenColumns n
  · simp only [if_pos hmem, Option.map_some]
    rw [← hcurrent]
    cases lastLink? (g.edgesOf n) c <;> rfl
  · -- a column that is not written is not a foreign key
    have hlast : lastLink? (g.edgesOf n) c = none := by
      rw [← Option.not_isSome_iff_eq_none, lastLink?_isSome]
      exact fun hfk => hmem (List.mem_filter.2 ⟨hc, by simp [hfk]⟩)
    simp only [if_neg hmem, hlast, Option.elim_none, Option.map_some]

/-- One more node is written, after all its joins were linked. -/
theorem write (id : Value) :
    Cascade g (Function.update ids n id) (done ++ [n]) linked (g₁.written n id) := by
  have hg₁ := hg.of_shape_eq h.shape
  have hn₁ : g₁.IsNode n := by rwa [isNode_of_shape_eq h.shape]
  have hne {m} (hm : m ∈ done) : m ≠ n := by
    rintro rfl
    exact hnew hm
  have hkey {m} (hm : m ∈ done) := h.key_written hg hn hnew hm id
  have hdone {m} (hm : m ∈ done) : ∀ e ∈ g.edgesOf m,
      (g₁.written n id).key e.child = g₁.key e.child := fun e he => hkey (h.closed hm he)
  have hchildren : ∀ e ∈ g.edgesOf n, (g₁.written n id).key e.child = g₁.key e.child :=
    fun e he => hkey (h.child_mem_done hlinks he)
  exact {
    shape := shape_written.trans h.shape
    waiting := fun {m c} hm hc => by
      rw [List.mem_append, List.mem_singleton, not_or] at hm
      rw [h.column?_written_of_ne hg hnew hlinks hn id hm.2 hc, h.waiting hm.1 hc]
      congr 1
      funext col
      cases hlast : lastLink? linked c with
      | none => rfl
      | some e => rw [Option.elim_some, Option.elim_some,
          hkey (h.linked (mem_of_lastLink? hlast).1).1]
    waitingKey := fun {m k} hm hk => by
      rw [List.mem_append, List.mem_singleton, not_or] at hm
      rw [column?_written_of_key hg₁ hn₁ hm.2 ((h.keyColumn?_eq m).trans hk), h.waitingKey hm.1 hk]
    written := fun {m c} hm hc => by
      rcases List.mem_append.1 hm with hm | hm
      · rw [h.column?_written_of_ne hg hnew hlinks hn id (hne hm) hc, h.written hm hc]
        simp only [writtenValue_congr (hdone hm)]
      · obtain rfl := List.mem_singleton.1 hm
        rw [h.column?_written_self hg hnew hlinks hn id hc]
        simp only [writtenValue_congr hchildren]
    writtenKey := fun {m} hm => by
      rcases List.mem_append.1 hm with hm | hm
      · rw [hkey hm, h.writtenKey hm, writtenAssignments_congr (hdone hm),
          Function.update_of_ne (hne hm)]
      · obtain rfl := List.mem_singleton.1 hm
        rw [Graph.key_written hg₁ hn₁, h.dirtyColumns_next hg hnew hlinks,
          h.assignments_next hg hnew hlinks, h.keyAfter_next hg hn hnew,
          writtenAssignments_congr hchildren, Function.update_self]
    closed := fun {m e} hm he => by
      rcases List.mem_append.1 hm with hm | hm
      · exact List.mem_append_left _ (h.closed hm he)
      · obtain rfl := List.mem_singleton.1 hm
        exact List.mem_append_left _ (h.child_mem_done hlinks he)
    linked := fun he => ⟨List.mem_append_left _ (h.linked he).1, (h.linked he).2⟩ }

end
end Cascade
end
end Graph
end RecordGraph
