import RecordGraph.Proofs.Keys

/-!
# The life of a row

A node is registered, and then it is new until its row is inserted or a caller gives
a key to it. Nothing leads back, and each phase has its own calls: insertions while
the node is new, and anything else once its row exists.
-/
namespace RecordGraph

/-- Where a node stands: not registered yet, without a row, or with one. -/
inductive Phase where
  | absent
  | new
  | existing
  deriving DecidableEq

namespace Call

/-- The call inserts a row, or tries to. -/
def IsInsert (call : Call) : Prop :=
  ∃ table assignments answer, call = .exec (.insert table assignments) answer

/-- The backend refused to insert a row. -/
def IsRefusedInsert (call : Call) : Prop :=
  ∃ table assignments f, call = .exec (.insert table assignments) (.error f)

/-- A row was inserted. -/
def inserted : Call → Bool
  | exec (.insert ..) (.ok _) => true
  | _ => false

/-- The backend did not tell the key of a row that it had inserted. -/
def untold : Call → Bool
  | lastInsertId (.error _) => true
  | _ => false

theorem IsInsert.of_inserted {call : Call} (h : call.inserted = true) : call.IsInsert := by
  unfold inserted at h
  split at h
  · exact ⟨_, _, _, rfl⟩
  · cases h

theorem not_isInsert_query {s : Statement} {answer : Except Failure (Option Row)} :
    ¬ (query s answer).IsInsert := by
  rintro ⟨_, _, _, ⟨⟩⟩

theorem not_isInsert_exec {s : Statement} {answer : Except Failure Unit}
    (h : ∀ table assignments, s ≠ .insert table assignments) : ¬ (exec s answer).IsInsert := by
  rintro ⟨table, assignments, _, hinsert⟩
  exact h table assignments (exec.inj hinsert).1

end Call

/-! ## Lives -/

/-- One thing that happens to a node, with the calls that are made for it. If `keyed` holds, a
caller may give a key to a new node. -/
inductive LifeStep (keyed : Prop) : Phase → List Call → Phase → Prop
  | registered (p : Phase) : LifeStep keyed .absent [] p
  | given (h : keyed) : LifeStep keyed .new [] .existing
  | refused {call : Call} (h : call.IsRefusedInsert) : LifeStep keyed .new [call] .new
  | inserted (table : String) (assignments : List Assignment) (id : Value) : LifeStep keyed .new
      [.exec (.insert table assignments) (.ok ()), .lastInsertId (.ok id)] .existing
  | untold (table : String) (assignments : List Assignment) (f : Failure) : LifeStep keyed .new
      [.exec (.insert table assignments) (.ok ()), .lastInsertId (.error f)] .new
  | used {call : Call} (h : ¬ call.IsInsert) : LifeStep keyed .existing [call] .existing

/-- What happens to a node from one phase to another, with all calls that are made for it. -/
inductive Life (keyed : Prop) (p : Phase) : List Call → Phase → Prop
  | refl : Life keyed p [] p
  | tail {q r : Phase} {calls calls' : List Call} (h : Life keyed p calls q)
      (h' : LifeStep keyed q calls' r) : Life keyed p (calls ++ calls') r

namespace Life

variable {keyed keyed' : Prop} {p q r : Phase} {calls calls' : List Call}

theorem single (h : LifeStep keyed p calls q) : Life keyed p calls q := .tail .refl h

theorem trans (h : Life keyed p calls q) (h' : Life keyed q calls' r) :
    Life keyed p (calls ++ calls') r := by
  induction h' with
  | refl => rwa [List.append_nil]
  | tail _ hstep ih =>
    rw [← List.append_assoc]
    exact ih.tail hstep

theorem mono (h : Life keyed p calls q) (himp : keyed → keyed') : Life keyed' p calls q := by
  induction h with
  | refl => exact .refl
  | tail _ hstep ih =>
    refine ih.tail ?_
    cases hstep with
    | registered => exact .registered _
    | given h => exact .given (himp h)
    | refused h => exact .refused h
    | inserted => exact .inserted ..
    | untold => exact .untold ..
    | used h => exact .used h

/-- Nothing leads back from an existing row. -/
theorem eq_existing (h : Life keyed .existing calls q) : q = .existing := by
  induction h with
  | refl => rfl
  | tail _ hstep ih =>
    subst ih
    cases hstep
    rfl

theorem calls_eq_nil (h : Life keyed p calls .absent) : calls = [] := by
  generalize hq : Phase.absent = q at h
  induction h with
  | refl => rfl
  | tail _ hstep ih =>
    subst hq
    cases hstep
    rw [ih rfl]
    rfl

/-- As long as a node is new, all that is sent for it are insertions that are refused. -/
theorem refused_of_new (h : Life keyed p calls .new) (htold : ∀ call ∈ calls, ¬ call.untold) :
    ∀ call ∈ calls, call.IsRefusedInsert := by
  generalize hq : Phase.new = q at h
  induction h with
  | refl => exact List.forall_mem_nil _
  | tail hlife hstep ih =>
    subst hq
    obtain ⟨hbefore, hlast⟩ := List.forall_mem_append.1 htold
    cases hstep with
    | registered =>
      rw [hlife.calls_eq_nil]
      exact List.forall_mem_nil _
    | refused hrefused =>
      refine List.forall_mem_append.2 ⟨ih hbefore rfl, ?_⟩
      rwa [List.forall_mem_singleton]
    | untold table assignments f => exact absurd rfl (hlast (.lastInsertId (.error f)) (by simp))

/-- At most one row is inserted, and none before the node exists, but for those whose keys were
not told. -/
theorem countP_inserted_le (h : Life keyed p calls q) : calls.countP Call.inserted ≤
    (if q = .existing then 1 else 0) + calls.countP Call.untold := by
  induction h with
  | refl => exact Nat.zero_le _
  | tail _ hstep ih =>
    rw [List.countP_append, List.countP_append]
    cases hstep with
    | registered => exact ih.trans (by simp)
    | given => exact ih.trans (by simp)
    | refused hrefused =>
      obtain ⟨table, assignments, f, rfl⟩ := hrefused
      exact ih
    | inserted table assignments id =>
      rw [if_neg (by decide)] at ih
      simp only [List.countP_cons, List.countP_nil, Call.inserted, Call.untold]
      simp
      omega
    | untold table assignments f =>
      simp only [List.countP_cons, List.countP_nil, Call.inserted, Call.untold]
      simp at ih ⊢
      omega
    | @used call hcall =>
      have hnone : [call].countP Call.inserted = 0 := by
        rw [List.countP_eq_zero, List.forall_mem_singleton]
        exact fun hinserted => hcall (.of_inserted hinserted)
      omega

end Life

/-! ## The phases of a graph -/

namespace Graph

/-- A node has a row while a key waits for it: a key is never settled. -/
def phase (g : Graph) (n : NodeId) : Phase :=
  ((g.keyColumn? n).bind g.column?).elim .absent fun k => if k.IsDirty then .existing else .new

/-- Nothing is known of the keys but what waits. -/
def KeysWait (g : Graph) : Prop :=
  ∀ n k, g.keyColumn? n = some k → (g.column? k).bind Column.clean = none

section
variable {g g' : Graph} {n m : NodeId} {c k : ColumnId} {v : Value}

theorem phase_congr (hkey : g'.keyColumn? n = g.keyColumn? n)
    (hcolumn : ∀ {k}, g.keyColumn? n = some k → g'.column? k = g.column? k) :
    g'.phase n = g.phase n := by
  rw [phase, phase, hkey]
  cases hk : g.keyColumn? n with
  | none => rfl
  | some k => rw [Option.bind_some, Option.bind_some, hcolumn hk]

theorem phase_eq_new : g.phase n = .new ↔ g.IsNew n := by
  rw [phase, IsNew]
  cases (g.keyColumn? n).bind g.column? with
  | none => simp
  | some k => by_cases hk : k.IsDirty <;> simp [hk]

theorem phase_eq_existing (hg : g.WellFormed) (hn : g.IsNode n) (hnew : ¬ g.IsNew n) :
    g.phase n = .existing := by
  obtain ⟨k, hk, hkn⟩ := hg.key hn
  obtain ⟨col, hcol, -⟩ := column?_of_owner hkn
  have hdirty : col.IsDirty := by
    by_contra hnot
    exact hnew ((isNew_iff hk).2 ⟨col, hcol, hnot⟩)
  rw [phase, hk, Option.bind_some, hcol, Option.elim_some, if_pos hdirty]

theorem phase_eq_existing_of_assign (hg : g.WellFormed) (hk : g.keyColumn? n = some k)
    (hk' : g'.keyColumn? n = some k) (hcolumn : g'.column? k = (g.column? k).map (.assign v)) :
    g'.phase n = .existing := by
  obtain ⟨col, hcol, -⟩ := column?_of_owner (hg.owner_of_keyColumn? hk)
  rw [phase, hk', Option.bind_some, hcolumn, hcol]
  rfl

/-- A node whose key stays is in the same phase, and a new node is registered. -/
theorem KeepsKeys.life (h : KeepsKeys g g') (n : NodeId) :
    Life False (g.phase n) [] (g'.phase n) := by
  cases hk : g.keyColumn? n with
  | none =>
    have habsent : g.phase n = .absent := by
      rw [phase, hk]
      rfl
    rw [habsent]
    exact .single (.registered _)
  | some k =>
    rw [phase_congr (h.grows.node (isNode_of_keyColumn? hk)).2.2 h.keys]
    exact .refl

theorem keepsKeys_forget (hg : g.WellFormed) (hc : c ∈ g.columnsOf n) :
    KeepsKeys g (g.updateColumn c .forget) where
  grows := .of_shape_eq (by simp)
  keys hk := by
    rw [column?_updateColumn, if_neg]
    rintro rfl
    exact hg.notMem_columnsOf hk hc

theorem life_assign (hg : g.WellFormed) (c : ColumnId) (v : Value) (n : NodeId) :
    Life (g.keyColumn? n = some c ∧ g.IsNew n) (g.phase n) [] ((g.assign c v).phase n) := by
  by_cases hk : g.keyColumn? n = some c
  · have hcolumn : (g.assign c v).column? c = (g.column? c).map (.assign v) := by
      rw [column?_assign, if_pos rfl]
    have hexisting : (g.assign c v).phase n = .existing :=
      phase_eq_existing_of_assign hg hk hk hcolumn
    rw [hexisting]
    by_cases hnew : g.IsNew n
    · rw [phase_eq_new.2 hnew]
      exact .single (.given ⟨hk, hnew⟩)
    · rw [phase_eq_existing hg (isNode_of_keyColumn? hk) hnew]
      exact .refl
  · have hsame : (g.assign c v).phase n = g.phase n := by
      refine phase_congr rfl fun {k} hk' => ?_
      rw [column?_assign, if_neg]
      rintro rfl
      exact hk hk'
    rw [hsame]
    exact .refl

/-! ## Keys that wait -/

theorem Step.keysWait (hg : g.WellFormed) (h : Step g g') (hkeys : g.KeysWait) : g'.KeysWait := by
  have hsame {g' : Graph} (hshape : g'.shape = g.shape)
      (hcolumn : ∀ {n k}, g.keyColumn? n = some k →
        (g'.column? k).bind Column.clean = (g.column? k).bind Column.clean) : g'.KeysWait := by
    intro n k hk
    rw [keyColumn?_of_shape_eq hshape] at hk
    rw [hcolumn hk, hkeys _ _ hk]
  have hkeep {n : NodeId} {c : ColumnId} {f : Column → Column} (hc : c ∈ g.columnsOf n)
      {m : NodeId} {k : ColumnId} (hk : g.keyColumn? m = some k) :
      (g.updateColumn c f).column? k = g.column? k := by
    rw [column?_updateColumn, if_neg]
    rintro rfl
    exact hg.notMem_columnsOf hk hc
  cases h with
  | @column n name hn hnew =>
    intro m k hk
    rw [keyColumn?_withColumn] at hk
    rw [column?_withColumn, if_neg (ne_size_of_owner (hg.owner_of_keyColumn? hk)), hkeys _ _ hk]
  | @child n fk table childColumn key hfk hnew =>
    intro m k hk
    rw [keyColumn?_withChild (hg.isNode_of_column hfk)] at hk
    rw [column?_withChild]
    by_cases hm : m = ⟨g.nodes.size⟩
    · rw [if_pos hm] at hk
      rw [if_pos (Option.some.inj hk).symm]
      split <;> rfl
    · rw [if_neg hm] at hk
      rw [if_neg (ne_size_of_owner (hg.owner_of_keyColumn? hk)), hkeys _ _ hk]
  | assign c v =>
    refine hsame (shape_assign ..) fun {n k} _ => ?_
    rw [column?_assign]
    by_cases hck : c = k
    · rw [if_pos hck]
      cases g.column? k <;> rfl
    · rw [if_neg hck]
  | settle v hc => exact hsame (shape_settle ..) fun hk => by rw [Graph.settle, hkeep hc hk]
  | forget hc => exact hsame (shape_forget ..) fun hk => by rw [hkeep hc hk]
  | setFresh n fresh => exact hsame (shape_setFresh ..) fun _ => rfl

theorem Evolves.keysWait (h : g.Evolves g') (hg : g.WellFormed) (hkeys : g.KeysWait) :
    g'.KeysWait := by
  induction h with
  | refl => exact hkeys
  | tail hevolves hstep ih => exact hstep.keysWait (Evolves.wellFormed hevolves hg) ih

theorem keysWait_single (table keyName : String) (key : Value) :
    (single table keyName key).KeysWait := by
  intro n k hk
  obtain rfl := isNode_single.1 (isNode_of_keyColumn? hk)
  obtain rfl := Option.some.inj (keyColumn?_single.symm.trans hk)
  rw [column?_single]
  split <;> rfl

/-- The key of a new node is null. -/
theorem KeysWait.key_eq_null (h : g.KeysWait) (hnew : g.IsNew n) : g.key n = .null := by
  cases hk : g.keyColumn? n with
  | none => rw [key, hk]; rfl
  | some k =>
    obtain ⟨col, hcol, hclean⟩ := (isNew_iff hk).1 hnew
    have hknown := h _ _ hk
    rw [hcol, Option.bind_some] at hknown
    have hpending : col.pending = none := Option.not_isSome_iff_eq_none.1 hclean
    rw [key_eq hk, current, hcol, Option.elim_some, Column.current, hpending, hknown]
    rfl

end
end Graph

end RecordGraph
