import RecordGraph.Proofs.SaveCalls
import RecordGraph.Proofs.StoreRows

/-!
# The key of an inserted row

After the insertion of its row a node reports the value that was written under
the name of its key, else the generated row id. The statements that follow find
the row by a written value that is not null, and by the row id if it is what the
key column holds.
-/
namespace RecordGraph

/-! ## Keys as they are kept -/

theorem Binary64.ofParts_ne_nan (negative : Bool) (significand exponent : Nat) :
    ofParts negative significand exponent ≠ nan := by
  unfold ofParts
  split <;> simp

theorem Binary64.ofUnits_ne_nan (negative : Bool) (num den : Nat) :
    ofUnits negative num den ≠ .nan := by
  unfold ofUnits
  dsimp only
  split
  · exact ofParts_ne_nan _ _ _
  · exact ofParts_ne_nan _ _ _

theorem Binary64.reread_ne_nan {x : Binary64} (h : x ≠ .nan) : x.reread ≠ .nan := by
  cases x with
  | nan => exact absurd rfl h
  | infinite negative => exact h
  | finite negative m =>
    unfold reread Extended.read
    dsimp only
    split
    · simp
    · unfold Extended.toBinary64
      split
      · dsimp only
        split
        · simp
        · exact ofUnits_ne_nan _ _ _
      · exact ofUnits_ne_nan _ _ _

theorem Value.kept_ne_null {v : Value} (hwritable : v.IsWritable) (hv : v ≠ .null) :
    v.kept ≠ .null := by
  cases v with
  | null => exact absurd rfl hv
  | real x =>
    cases x with
    | finite negative m => simp [kept, stored]
    | infinite negative => exact hwritable.elim
    | nan => exact hwritable.elim
  | integer n => simp [kept, stored]
  | text s => simp [kept, stored]
  | blob bytes => simp [kept, stored]
  | dateTime d => simp [kept, stored]

/-- A condition by a value meets what is kept of the value. -/
theorem Value.agrees_kept {v : Value} (hwritable : v.IsWritable) (hv : v ≠ .null) :
    v.kept.Agrees v.kept := by
  cases v with
  | null => exact absurd rfl hv
  | real x =>
    cases x with
    | finite negative m =>
      have hnan : (Binary64.finite negative m).reread ≠ .nan := Binary64.reread_ne_nan (by simp)
      have hkept : (Value.real (.finite negative m)).kept =
          .real (Binary64.finite negative m).reread := rfl
      rw [hkept]
      generalize (Binary64.finite negative m).reread = x at hnan ⊢
      cases x with
      | finite negative m => exact ⟨rfl, rfl⟩
      | infinite negative => exact rfl
      | nan => exact absurd rfl hnan
    | infinite negative => exact hwritable.elim
    | nan => exact hwritable.elim
  | integer n => exact ⟨rfl, rfl⟩
  | text s => exact rfl
  | blob bytes => exact rfl
  | dateTime d => exact rfl

/-! ## Rows and conditions -/

namespace Table

/-- A condition finds a row of the table, which holds what is kept of the value. On an integer
key column it finds no other row, and the value stands for the id. -/
structure Addresses (t : Table) (row : StoredRow) (key : KeyMatch) : Prop where
  mem : row ∈ t.rows
  meets : t.Meets row key
  holds : t.key ≠ some key.column → t.get row key.column = key.value.kept
  alone : t.key = some key.column → t.get row key.column = .integer row.id ∧
    t.find? key = some row

section
variable {t t' : Table} {assignments : List Assignment} {id : Int64} {name : String} {v : Value}

/-- A value that stands for the id of the new row addresses it. -/
theorem insert_addresses_of_rowId? (h : t.insert assignments = .ok (t', id))
    (hkey : t.key = some name) (hid : v.kept.rowId? = some id) :
    t'.Addresses ⟨id, t.cellsOf assignments⟩ ⟨name, v⟩ := by
  obtain ⟨-, -, hadd⟩ := insert_eq_ok h
  obtain ⟨-, hext, hrow⟩ := addRow_eq_ok hadd
  have hkey' : t'.key = some name := hext.key.trans hkey
  exact {
    mem := List.mem_of_find?_eq_some hrow
    meets := by
      rw [Meets, if_pos hkey']
      exact hid
    holds := fun hne => absurd hkey' hne
    alone := fun _ => ⟨by rw [get, if_pos hkey'], by rw [find?_of_rowId? hkey' hid, hrow]⟩ }

/-- A column that is not the key holds what is kept of its assigned value in the new row. -/
theorem get_insert_assigned (h : t.insert assignments = .ok (t', id))
    (hlookup : assignments.lookup name = some v) (hkey : t.key ≠ some name) :
    t'.get ⟨id, t.cellsOf assignments⟩ name = v.kept := by
  obtain ⟨-, -, hadd⟩ := insert_eq_ok h
  obtain ⟨-, hext, -⟩ := addRow_eq_ok hadd
  rw [hext.get_eq, get_insert_cell h hlookup hkey]

/-- A value that was assigned to a column addresses the new row by it. -/
theorem insert_addresses (h : t.insert assignments = .ok (t', id))
    (hlookup : assignments.lookup name = some v) (hwritable : v.IsWritable) (hv : v ≠ .null) :
    t'.Addresses ⟨id, t.cellsOf assignments⟩ ⟨name, v⟩ := by
  obtain ⟨-, hassigned, hadd⟩ := insert_eq_ok h
  obtain ⟨-, hext, hrow⟩ := addRow_eq_ok hadd
  by_cases hkey : t.key = some name
  · refine insert_addresses_of_rowId? h hkey ?_
    have hid := hassigned v (by rw [assignedKey?, hkey, Option.bind_some, hlookup])
    exact hid.resolve_left (Value.kept_ne_null hwritable hv)
  · have hkey' : t'.key ≠ some name := by rwa [hext.key]
    have hget := get_insert_assigned h hlookup hkey
    exact {
      mem := List.mem_of_find?_eq_some hrow
      meets := by
        rw [Meets, if_neg hkey', hget]
        exact Value.agrees_kept hwritable hv
      holds := fun _ => hget
      alone := fun hsome => absurd hsome hkey' }

/-- A column that was not assigned holds null in the new row, unless it is the key. -/
theorem get_insert_unassigned (h : t.insert assignments = .ok (t', id))
    (hlookup : assignments.lookup name = none) (hkey : t.key ≠ some name) :
    t'.get ⟨id, t.cellsOf assignments⟩ name = .null := by
  obtain ⟨-, -, hadd⟩ := insert_eq_ok h
  obtain ⟨-, hext, -⟩ := addRow_eq_ok hadd
  rw [hext.get_eq, get, if_neg hkey, Row.get, lookup_cellsOf hkey, hlookup]
  split <;> rfl

end
end Table

/-! ## Insertions of a save -/

/-- Between the two sessions a statement for the node was executed, which took the backend from
`state` to `state'`. -/
def Session.Executes {σ : Type} (b : Backend σ) (s s' : Session σ) (m : NodeId)
    (statement : Statement) (state state' : σ) : Prop :=
  ∃ earlier later, s'.calls = s.calls ++ (earlier ++ (m, .exec statement (.ok ())) :: later) ∧
    b.Replays (earlier.map Prod.snd) s.backend state ∧
    b.exec statement state = (.ok (), state') ∧
    b.Replays (later.map Prod.snd) state' s'.backend

theorem Session.Executes.exec_eq {σ : Type} {b : Backend σ} {s s' : Session σ} {m : NodeId}
    {statement : Statement} {state state' : σ} (h : s.Executes b s' m statement state state') :
    b.exec statement state = (.ok (), state') := by
  obtain ⟨-, -, -, -, hexec, -⟩ := h
  exact hexec

namespace Action

open RecordGraph.Graph

variable {σ : Type} {b : Backend σ} {n m : NodeId}

/-- A save inserts the row of each new node, and the node then has the key that was written, else
the one that was generated right after. -/
theorem saveNode_executes {s s' : Session σ} (hg : s.graph.WellFormed)
    (h : saveNode b n s = .ok () s') (hm : m ∈ s.graph.postOrder n) (hnew : s.graph.IsNew m) :
    AllWritable (s.graph.writtenAssignments s'.graph m) ∧ ∃ state state' state'' id,
      s.Executes b s' m (.insert (s.graph.table m) (s.graph.writtenAssignments s'.graph m)) state
        state' ∧
      b.lastInsertId state' = (.ok id, state'') ∧
      s'.graph.key m =
        ((s.graph.writtenAssignments s'.graph m).lookup (s.graph.keyName m)).getD id ∧
      s'.graph.keyName m = s.graph.keyName m := by
  obtain ⟨-, ⟨ids, hcascade, hcalls, hreplays⟩, hwritable⟩ := (saveNode_stage b n hg).of_ok h
  refine ⟨hwritable m hm, ?_⟩
  obtain ⟨before, after, hsplit⟩ := List.append_of_mem hm
  have hplan : s.graph.plannedCalls s'.graph ids (s.graph.postOrder n) =
      s.graph.plannedCalls s'.graph ids before ++
        (m, .exec (.insert (s.graph.table m) (s.graph.writtenAssignments s'.graph m)) (.ok ())) ::
        (m, .lastInsertId (.ok (ids m))) :: s.graph.plannedCalls s'.graph ids after := by
    rw [hsplit, plannedCalls, List.flatMap_append, List.flatMap_cons, saveCalls, if_pos hnew]
    rfl
  rw [hplan, List.map_append, Backend.replays_append] at hreplays
  obtain ⟨state, hbefore, state', hexec, hafter⟩ := hreplays
  rw [hplan] at hcalls
  refine ⟨state, state', ?_⟩
  obtain ⟨state'', hid, -⟩ := id hafter
  refine ⟨state'', ids m, ⟨_, _, hcalls, hbefore, hexec, hafter⟩, hid, ?_, hcascade.keyName_eq m⟩
  rw [hcascade.writtenKey hm, keyAfter, if_pos hnew]

/-- What the row of a new node holds in the key column after its insertion. If a value other than
null was written under the name of the key, the node reports it, and the statements that follow
find the row by it. If null was written to a column that is no integer key, the row holds null
and the node reports it. If nothing was written, the node reports the row id, which is what an
integer key column holds; another column holds null. -/
theorem saveNode_addresses {s s' : Session Store} (hs : s.graph.Reachable)
    (h : saveNode Store.backend n s = .ok () s') (hm : m ∈ s.graph.postOrder n)
    (hnew : s.graph.IsNew m) : ∃ store store' t t' row,
      s.Executes Store.backend s' m
        (.insert (s.graph.table m) (s.graph.writtenAssignments s'.graph m)) store store' ∧
      store.table? (s.graph.table m) = some t ∧ store'.table? (s.graph.table m) = some t' ∧
      t.addRow row = .ok t' ∧
      (∀ v, (s.graph.writtenAssignments s'.graph m).lookup (s.graph.keyName m) = some v →
        v ≠ .null → s'.graph.key m = v ∧ t'.Addresses row (s'.graph.keyMatch m)) ∧
      ((s.graph.writtenAssignments s'.graph m).lookup (s.graph.keyName m) = some .null →
        t.key ≠ some (s.graph.keyName m) →
        s'.graph.key m = .null ∧ t'.get row (s.graph.keyName m) = .null) ∧
      ((s.graph.writtenAssignments s'.graph m).lookup (s.graph.keyName m) = none →
        s'.graph.key m = .integer row.id ∧
        (t.key = some (s.graph.keyName m) → t'.Addresses row (s'.graph.keyMatch m)) ∧
        (t.key ≠ some (s.graph.keyName m) → t'.get row (s.graph.keyName m) = .null)) := by
  have hg := hs.wellFormed
  obtain ⟨hwritable, store, store', last, key, hexecutes, hid, hkey, hkeyName⟩ :=
    saveNode_executes hg h hm hnew
  have hexec := hexecutes.exec_eq
  obtain ⟨-, t, t', ht, hinsert, ht', -⟩ := Store.exec_insert hexec
  obtain ⟨-, -, hadd⟩ := Table.insert_eq_ok hinsert
  obtain rfl : Value.integer store'.lastInsertId = key := Except.ok.inj (Prod.mk.inj hid).1
  refine ⟨store, store', t, t', _, hexecutes, ht, ht', hadd,
    fun v hlookup hv => ?_, fun hlookup hordinary => ?_, fun hlookup => ?_⟩
  · rw [hlookup, Option.getD_some] at hkey
    refine ⟨hkey, ?_⟩
    rw [keyMatch, hkeyName, hkey]
    exact Table.insert_addresses hinsert hlookup (hwritable _ (mem_of_lookup hlookup)) hv
  · rw [hlookup, Option.getD_some] at hkey
    exact ⟨hkey, Table.get_insert_assigned hinsert hlookup hordinary⟩
  · rw [hlookup, Option.getD_none] at hkey
    refine ⟨hkey, fun hinteger => ?_, Table.get_insert_unassigned hinsert hlookup⟩
    rw [keyMatch, hkeyName, hkey]
    exact Table.insert_addresses_of_rowId? hinsert hinteger rfl

/-- The joined row is found by the text that was written to its key column. -/
theorem saveNode_addresses_written :
    let store : Store := ⟨[⟨"t0", some "id", ["t1_ref"], []⟩,
      ⟨"t1", some "id", ["ref", "title"], []⟩], 0⟩
    let b := Store.backend
    let s := (Session.start "t0" "id" .null store).performAll b
      [.resolveColumn root "t1[ref = t1_ref].ref", .setValue ⟨3⟩ (.text "a")]
    let s' := (saveNode b root).after s
    (⟨1⟩ ∈ s.graph.postOrder root ∧ s.graph.IsNew ⟨1⟩) ∧ s'.graph.key ⟨1⟩ = .text "a" ∧
      ∃ (t' : Table) (row : StoredRow), t'.Addresses row ⟨"ref", .text "a"⟩ := by
  intro store b s s'
  have hs : s.graph.Reachable := reachable_performAll b "t0" "id" .null store _
  have hsave : (saveNode b root).result? s = some () := by decide +kernel
  have horder : s.graph.postOrder root = [⟨1⟩, root] := by decide +kernel
  have hm : (⟨1⟩ : NodeId) ∈ s.graph.postOrder root := by simp [horder]
  have hnew : s.graph.IsNew ⟨1⟩ := by decide +kernel
  have hlookup : (s.graph.writtenAssignments s'.graph ⟨1⟩).lookup (s.graph.keyName ⟨1⟩) =
      some (.text "a") := by decide +kernel
  have hmatch : s'.graph.keyMatch ⟨1⟩ = ⟨"ref", .text "a"⟩ := by decide +kernel
  obtain ⟨-, -, t, t', row, -, -, -, -, hwritten, -⟩ :=
    saveNode_addresses hs (eq_ok_of_result? hsave) hm hnew
  obtain ⟨hkey, haddresses⟩ := hwritten _ hlookup (by simp)
  rw [hmatch] at haddresses
  exact ⟨⟨hm, hnew⟩, hkey, t', row, haddresses⟩

/-- The key column is not the integer key of the table and was not written: the row holds null in
it, and the node reports the row id. -/
theorem saveNode_unwritten_key :
    let store : Store := ⟨[⟨"t0", some "id", ["ref", "title"], []⟩], 0⟩
    let b := Store.backend
    let s := (Session.start "t0" "ref" .null store).performAll b
      [.resolveColumn root "title", .setValue ⟨1⟩ (.text "x")]
    let s' := (saveNode b root).after s
    (s.graph.IsNew root ∧ (saveNode b root).result? s = some ()) ∧
      s'.graph.keyMatch root = ⟨"ref", .integer 1⟩ ∧
      (s'.backend.table? "t0").map (fun t => t.rows.map fun row => t.get row "ref") =
        some [.null] := by
  decide +kernel

end Action
end RecordGraph
