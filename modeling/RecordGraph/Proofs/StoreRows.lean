import RecordGraph.Proofs.Outcome
import RecordGraph.Proofs.Walk

/-!
# Rows that a store keeps

An insertion gives its row an id that no row of the table has, so every row that
was there is found as before. The new row is found by the generated key, and its
cells hold what is kept of the assigned values.
-/
namespace RecordGraph

theorem Value.rowId?_of_rowId {v : Value} {id : Int64} (h : v.rowId = .ok id) :
    v.rowId? = some id := by
  rw [rowId] at h
  split at h
  · next hid =>
    cases h
    exact hid
  · cases h

/-- A real that is read from its literal as another one is kept as the other one. -/
theorem Value.kept_eq_stored_iff {v : Value} :
    v.kept = v.stored ↔ ∀ x, v = .real x → x.IsFinite → x.reread = x := by
  cases v with
  | real x =>
    cases x with
    | finite negative m =>
      constructor
      · intro h x hx _
        obtain rfl := Value.real.inj hx
        exact Value.real.inj h
      · intro h
        exact congrArg Value.real (h _ rfl trivial)
    | infinite negative => exact iff_of_true rfl fun x hx hfinite => by cases hx; cases hfinite
    | nan => exact iff_of_true rfl fun x hx hfinite => by cases hx; cases hfinite
  | null | integer n | text s | blob bytes | dateTime d =>
    exact iff_of_true rfl fun x hx => by cases hx

/-- The largest number is one of these reals. -/
example : (Value.real (.ofParts false (Nat.pow 2 53 - 1) 2045)).kept =
    .real (.infinite false) := by decide +kernel

/-! ## Tables -/

namespace Table

/-- The row with an id. -/
def row? (t : Table) (id : Int64) : Option StoredRow := t.rows.find? (·.id = id)

/-- A table with the same columns and at least the rows of `t`. -/
structure Extends (t t' : Table) : Prop where
  key : t'.key = t.key
  columns : t'.columns = t.columns
  row : ∀ {id r}, t.row? id = some r → t'.row? id = some r

section
variable {t t' t'' : Table} {row : StoredRow} {id : Int64} {assignments : List Assignment}

theorem Extends.refl (t : Table) : t.Extends t := ⟨rfl, rfl, id⟩

theorem Extends.trans (h : t.Extends t') (h' : t'.Extends t'') : t.Extends t'' where
  key := h'.key.trans h.key
  columns := h'.columns.trans h.columns
  row hr := h'.row (h.row hr)

theorem Extends.get_eq (h : t.Extends t') (row : StoredRow) (column : String) :
    t'.get row column = t.get row column := by
  simp only [get, h.key, h.columns]

/-- On an integer key column a condition asks for the id that its value stands for. -/
theorem find?_of_rowId? {key : String} {v : Value} (hkey : t.key = some key)
    (hid : v.kept.rowId? = some id) : t.find? ⟨key, v⟩ = t.row? id := by
  unfold find? row?
  congr 1
  funext r
  simp only [Meets, hkey, if_true, hid, Option.some.injEq]
  exact decide_eq_decide.2 eq_comm

theorem find?_eq_row? {key : String} (hkey : t.key = some key) :
    t.find? ⟨key, .integer id⟩ = t.row? id :=
  find?_of_rowId? hkey rfl

/-- A row is added under an id that was free; the other rows are found as before. -/
theorem addRow_eq_ok (h : t.addRow row = .ok t') : t'.name = t.name ∧ t.Extends t' ∧
    t'.row? row.id = some row := by
  rw [addRow] at h
  split at h
  · cases h
  · next hfree =>
    cases h
    have hnone : t.row? row.id = none := by
      rw [row?, List.find?_eq_none]
      intro r hr hid
      exact hfree (List.any_eq_true.2 ⟨r, hr, hid⟩)
    have hparts : (t.rows.takeWhile (·.id < row.id)).find? (·.id = row.id) = none := by
      rw [row?, ← List.takeWhile_append_dropWhile (p := (·.id < row.id)) (l := t.rows),
        List.find?_append, Option.or_eq_none_iff] at hnone
      exact hnone.1
    refine ⟨rfl, ⟨rfl, rfl, fun {id r} hr => ?_⟩, ?_⟩
    · have hid : row.id ≠ id := by
        rintro rfl
        rw [hnone] at hr
        cases hr
      rw [row?, List.find?_append, List.find?_cons]
      simp only [hid, decide_false]
      rw [← List.find?_append, List.takeWhile_append_dropWhile]
      exact hr
    · rw [row?, List.find?_append, hparts, List.find?_cons]
      simp

theorem check_eq_ok (h : t.check assignments = .ok ()) :
    ∀ a ∈ assignments, a.1 ∈ t.allColumns := by
  rw [check] at h
  split at h
  · cases h
  · next hnone =>
    intro a ha
    simpa using List.find?_eq_none.1 hnone a ha

/-- A key that is assigned and not null is the id. -/
theorem insert_eq_ok (h : t.insert assignments = .ok (t', id)) :
    (∀ a ∈ assignments, a.1 ∈ t.allColumns) ∧
      (∀ v, t.assignedKey? assignments = some v → v.kept = .null ∨ v.kept.rowId? = some id) ∧
      t.addRow ⟨id, t.cellsOf assignments⟩ = .ok t' := by
  rw [insert] at h
  obtain ⟨_, hcheck, h⟩ := bind_eq_ok.1 h
  -- whatever the id is, the row is added under it
  have hadd {id'} (hid : (do return (← t.addRow ⟨id', t.cellsOf assignments⟩, id')) =
      (.ok (t', id) : Except StoreFault (Table × Int64))) :
      id' = id ∧ t.addRow ⟨id, t.cellsOf assignments⟩ = .ok t' := by
    obtain ⟨added, hrow, hpair⟩ := bind_eq_ok.1 hid
    cases hpair
    exact ⟨rfl, hrow⟩
  refine ⟨check_eq_ok hcheck, ?_⟩
  dsimp only at h
  split at h
  · next hnone =>
    obtain ⟨id', -, h⟩ := bind_eq_ok.1 h
    refine ⟨fun v hv => ?_, (hadd h).2⟩
    rw [hnone] at hv
    cases hv
  · next v hsome =>
    rw [hsome]
    split at h
    · next hnull =>
      obtain ⟨id', -, h⟩ := bind_eq_ok.1 h
      refine ⟨fun w hw => .inl ?_, (hadd h).2⟩
      rw [← Option.some.inj hw, hnull]
    · obtain ⟨id', hid, h⟩ := bind_eq_ok.1 h
      obtain ⟨rfl, hrow⟩ := hadd h
      refine ⟨fun w hw => .inr ?_, hrow⟩
      rw [← Option.some.inj hw]
      exact Value.rowId?_of_rowId hid

theorem lookup_cellsOf {name : String} (hk : t.key ≠ some name) :
    (t.cellsOf assignments).lookup name = (assignments.lookup name).map Value.kept := by
  unfold cellsOf
  induction assignments with
  | nil => rfl
  | cons a assignments ih =>
    rw [List.lookup_cons]
    by_cases hname : name = a.1
    · have hka : t.key ≠ some a.1 := hname ▸ hk
      simp [hname, hka]
    · rw [beq_false_of_ne hname]
      dsimp only
      rw [← ih]
      by_cases hka : t.key ≠ some a.1
      · rw [List.filter_cons_of_pos (by simpa using hka), List.map_cons, List.lookup_cons,
          beq_false_of_ne hname]
      · rw [List.filter_cons_of_neg (by simpa using hka)]

/-- In a column that is not the key, the new row holds what is kept of the assigned value. -/
theorem get_insert_cell {name : String} {v : Value} (h : t.insert assignments = .ok (t', id))
    (hlookup : assignments.lookup name = some v) (hk : t.key ≠ some name) :
    t.get ⟨id, t.cellsOf assignments⟩ name = v.kept := by
  obtain ⟨hknown, -, -⟩ := insert_eq_ok h
  have hcolumn : name ∈ t.columns := by
    have hmem := hknown (name, v) (mem_of_lookup hlookup)
    rw [allColumns, List.mem_append, Option.mem_toList] at hmem
    exact hmem.resolve_left hk
  have hcells : (t.cellsOf assignments).lookup name = some v.kept := by
    rw [lookup_cellsOf hk, hlookup]
    rfl
  rw [get, if_neg hk, if_pos hcolumn, Row.get, hcells, Option.getD_some]

/-- The new row holds what is kept of the assigned values. -/
theorem get_insert (h : t.insert assignments = .ok (t', id))
    (hnodup : (assignments.map Prod.fst).Nodup)
    (hkey : ∀ a ∈ assignments, t.key = some a.1 → ∃ i, a.2 = .integer i) {a : Assignment}
    (ha : a ∈ assignments) : t.get ⟨id, t.cellsOf assignments⟩ a.1 = a.2.kept := by
  obtain ⟨-, hassigned, -⟩ := insert_eq_ok h
  have hlookup : assignments.lookup a.1 = some a.2 := lookup_of_mem_nodup hnodup ha
  by_cases hk : t.key = some a.1
  · -- the row id stands for the key column
    obtain ⟨i, hi⟩ := hkey a ha hk
    have hid := hassigned a.2 (by rw [assignedKey?, hk, Option.bind_some, hlookup])
    have hkept : (Value.integer i).kept = .integer i := rfl
    have hrow : (Value.integer i).rowId? = some i := rfl
    rw [hi, hkept, hrow] at hid
    rw [get, if_pos hk, hi, hkept]
    rcases hid with hnull | hid
    · cases hnull
    · rw [Option.some.inj hid]
  · exact get_insert_cell h hlookup hk

end
end Table

/-! ## Texts without a NUL character -/

section
variable {table column : String} {assignments : List Assignment} {c : Char}

theorem Sql.mem_quoteIdentifier (hc : c ≠ '"') :
    c ∈ (quoteIdentifier column).toList ↔ c ∈ column.toList := by
  rw [quoteIdentifier, String.toList_ofList, enclose]
  simp only [List.mem_cons, List.mem_append, hc, false_or, List.not_mem_nil, or_false]
  rw [double, List.mem_flatMap]
  constructor
  · rintro ⟨d, hd, hcd⟩
    split at hcd
    · simp [hc] at hcd
    · rw [List.mem_singleton.1 hcd]
      exact hd
  · intro hcolumn
    refine ⟨c, hcolumn, ?_⟩
    rw [if_neg hc]
    exact List.mem_singleton_self c

theorem notMem_signedDigits (n : Int) : '\x00' ∉ Text.signedDigits n := by
  have hdigits : '\x00' ∉ Text.digits n.natAbs := by
    intro h
    have hdigit := Nat.isDigit_of_mem_toDigits (by decide) (by decide) h
    revert hdigit
    decide
  unfold Text.signedDigits
  split
  · intro h
    rcases List.mem_cons.1 h with h | h
    · revert h
      decide
    · exact hdigits h
  · exact hdigits

namespace Store

theorem notMem_of_isReadable_insert (h : IsReadable (.insert table assignments)) :
    '\x00' ∉ table.toList ∧ ∀ a ∈ assignments, '\x00' ∉ a.1.toList := by
  have hseparator : '\x00' ∉ (", " : String).toList := by decide
  have hquote : '\x00' ≠ '"' := by decide
  cases assignments with
  | nil =>
    simp only [IsReadable, Statement.render, Dialect.standard, String.toList_append,
      List.mem_append, Sql.mem_quoteIdentifier hquote, not_or] at h
    exact ⟨h.1.2, by simp⟩
  | cons a assignments =>
    simp only [IsReadable, Statement.render, Dialect.standard, String.toList_append,
      List.mem_append, mem_intercalate hseparator, Sql.mem_quoteIdentifier hquote, not_or] at h
    refine ⟨h.1.1.1.1.1.2, fun d hd hmem => h.1.1.1.2 ⟨_, List.mem_map_of_mem hd, ?_⟩⟩
    exact (Sql.mem_quoteIdentifier hquote).2 hmem

theorem isReadable_select_integer {key : String} {id : Int64} (htable : '\x00' ∉ table.toList)
    (hkey : '\x00' ∉ key.toList) (hcolumn : '\x00' ∉ column.toList) :
    IsReadable (.select table ⟨key, .integer id⟩ [column]) := by
  have hquote : '\x00' ≠ '"' := by decide
  have hliteral : '\x00' ∉ (Sql.quoteLiteral (.integer id)).toList := by
    rw [Sql.quoteLiteral, String.toList_ofList]
    exact notMem_signedDigits _
  simp only [IsReadable, Statement.render, Dialect.standard, Dialect.condition, Dialect.equation,
    String.toList_append, List.mem_append, List.map_cons, List.map_nil,
    String.intercalate_singleton, Sql.mem_quoteIdentifier hquote, htable, hkey, hcolumn, hliteral]
  decide

end Store
end

/-! ## Stores -/

namespace Store

/-- A table has an integer key column of this name, which the text of a statement can
name. -/
def HasKey (store : Store) (table key : String) : Prop :=
  (store.table? table).bind Table.key = some key ∧ '\x00' ∉ key.toList

instance (store : Store) (table key : String) : Decidable (store.HasKey table key) :=
  inferInstanceAs (Decidable (_ ∧ _))

/-- A store with the same tables, each with at least its rows. -/
def Extends (store store' : Store) : Prop :=
  ∀ name t, store.table? name = some t → ∃ t', store'.table? name = some t' ∧ t.Extends t'

/-- A row is there, and holds what is kept of the assigned values. -/
def HasRow (store : Store) (row : RowName) (assignments : List Assignment) : Prop :=
  ∃ t r id, store.table? row.table = some t ∧ t.key = some row.key.column ∧
    row.key.value = .integer id ∧ t.row? id = some r ∧
    ∀ a ∈ assignments, IsReadable (.select row.table row.key [a.1]) ∧ t.get r a.1 = a.2.kept

section
variable {store store' store'' : Store} {row : RowName} {assignments : List Assignment}
  {table key name : String} {t : Table}

theorem Extends.refl (store : Store) : store.Extends store :=
  fun _ t ht => ⟨t, ht, .refl t⟩

theorem Extends.trans (h : store.Extends store') (h' : store'.Extends store'') :
    store.Extends store'' := by
  intro name t ht
  obtain ⟨t', ht', hext⟩ := h name t ht
  obtain ⟨t'', ht'', hext'⟩ := h' name t' ht'
  exact ⟨t'', ht'', hext.trans hext'⟩

theorem HasKey.extends (h : store.HasKey table key) (hext : store.Extends store') :
    store'.HasKey table key := by
  obtain ⟨htable, hname⟩ := h
  obtain ⟨t, ht, hkey⟩ := Option.bind_eq_some_iff.1 htable
  obtain ⟨t', ht', htext⟩ := hext table t ht
  exact ⟨Option.bind_eq_some_iff.2 ⟨t', ht', htext.key.trans hkey⟩, hname⟩

theorem HasRow.extends (h : store.HasRow row assignments) (hext : store.Extends store') :
    store'.HasRow row assignments := by
  obtain ⟨t, r, id, ht, hkey, hid, hr, hcells⟩ := h
  obtain ⟨t', ht', htext⟩ := hext _ t ht
  refine ⟨t', r, id, ht', htext.key.trans hkey, hid, htext.row hr, fun a ha => ?_⟩
  rw [htext.get_eq]
  exact hcells a ha

/-- The cells of a row that is there. -/
theorem HasRow.cell? (h : store.HasRow row assignments) {a : Assignment} (ha : a ∈ assignments) :
    store.cell? row a.1 = some a.2.kept := by
  obtain ⟨t, r, id, ht, hkey, hid, hr, hcells⟩ := h
  obtain ⟨hread, hget⟩ := hcells a ha
  have hblank : ¬ row.IsBlank := by
    rw [RowName.IsBlank, hid]
    exact not_false
  have hfind : t.find? row.key = some r := by
    rw [← hr, ← Table.find?_eq_row? hkey, ← hid]
  rw [Store.cell?, if_neg hblank, if_pos hread, ht, Option.bind_some, hfind, Option.map_some, hget]

theorem table?_setTable : (store.setTable t).table? name =
    (store.table? name).map fun u => if u.name = t.name then t else u := by
  rw [table?, setTable, List.find?_map]
  congr 2
  funext u
  dsimp only [Function.comp_apply]
  split
  · next hu => rw [hu]
  · rfl

theorem table?_of_table (h : store.table name = .ok t) : store.table? name = some t := by
  rw [Store.table] at h
  split at h
  · next ht =>
    cases h
    exact ht
  · cases h

theorem table?_name {u : Table} (hu : store.table? name = some u) : u.name = name := by
  simpa using List.find?_some hu

theorem exec_insert (h : backend.exec (.insert table assignments) store = (.ok (), store')) :
    IsReadable (.insert table assignments) ∧ ∃ t t', store.table? table = some t ∧
      t.insert assignments = .ok (t', store'.lastInsertId) ∧ store'.table? table = some t' ∧
      store.Extends store' := by
  rw [backend] at h
  dsimp only at h
  split at h
  · next hread =>
    refine ⟨hread, ?_⟩
    split at h
    · next added hexec =>
      obtain rfl : added = store' := (Prod.mk.inj h).2
      rw [Store.exec] at hexec
      obtain ⟨t, ht, hexec⟩ := bind_eq_ok.1 hexec
      obtain ⟨⟨t', id⟩, hinsert, hexec⟩ := bind_eq_ok.1 hexec
      cases hexec
      have ht₀ := table?_of_table ht
      obtain ⟨-, -, hadd⟩ := Table.insert_eq_ok hinsert
      obtain ⟨hname, hext, -⟩ := Table.addRow_eq_ok hadd
      have hset {name} : ({ store.setTable t' with lastInsertId := id } : Store).table? name =
          (store.setTable t').table? name := rfl
      refine ⟨t, t', ht₀, hinsert, ?_, fun name u hu => ?_⟩
      · rw [hset, table?_setTable, ht₀, Option.map_some, if_pos hname.symm]
      · rw [hset, table?_setTable, hu, Option.map_some]
        split
        · next hut =>
          -- a table of the same name is the same table
          rw [hname, table?_name hu, table?_name ht₀] at hut
          subst hut
          obtain rfl := Option.some.inj (ht₀.symm.trans hu)
          exact ⟨t', rfl, hext⟩
        · exact ⟨u, rfl, .refl u⟩
    · cases (Prod.mk.inj h).1
  · cases (Prod.mk.inj h).1

/-- The row that an insertion adds is found by the generated key. -/
theorem hasRow_of_exec_insert
    (h : backend.exec (.insert table assignments) store = (.ok (), store'))
    (hkey : store.HasKey table key) (hnodup : (assignments.map Prod.fst).Nodup)
    (hinteger : ∀ v, (key, v) ∈ assignments → ∃ i, v = .integer i) :
    store.Extends store' ∧
      store'.HasRow ⟨table, ⟨key, .integer store'.lastInsertId⟩⟩ assignments ∧
      ∀ v, (key, v) ∈ assignments → v = .integer store'.lastInsertId := by
  obtain ⟨hread, t, t', ht, hinsert, ht', hext⟩ := exec_insert h
  obtain ⟨htableName, hnames⟩ := notMem_of_isReadable_insert hread
  obtain ⟨hkeyed, hkeyName⟩ := hkey
  rw [ht, Option.bind_some] at hkeyed
  have hinteger' : ∀ a ∈ assignments, t.key = some a.1 → ∃ i, a.2 = .integer i := by
    intro a ha hka
    obtain rfl : key = a.1 := Option.some.inj (hkeyed.symm.trans hka)
    exact hinteger a.2 ha
  obtain ⟨-, -, hadd⟩ := Table.insert_eq_ok hinsert
  obtain ⟨-, htext, hrow⟩ := Table.addRow_eq_ok hadd
  have hget {a} (ha : a ∈ assignments) :
      t.get ⟨store'.lastInsertId, t.cellsOf assignments⟩ a.1 = a.2.kept :=
    Table.get_insert hinsert hnodup hinteger' ha
  refine ⟨hext, ⟨t', _, _, ht', htext.key.trans hkeyed, rfl, hrow, fun a ha => ⟨?_, ?_⟩⟩, ?_⟩
  · exact isReadable_select_integer htableName hkeyName (hnames a ha)
  · rw [htext.get_eq, hget ha]
  · intro v hv
    obtain ⟨i, rfl⟩ := hinteger v hv
    have hid := hget hv
    rw [Table.get, if_pos hkeyed] at hid
    exact hid.symm

end
end Store
end RecordGraph
