import RecordGraph.Backend.Basic
import RecordGraph.Value.Stored

/-!
# Row stores

Tables of rows in memory. Every row has a row id, and rows stand in the order
of their ids. A table may have a key column, which holds the row id, and takes
what stands for one; the other columns hold what is kept of any value.

This is less than SQLite. Names of tables and columns are told apart by case,
and no name but that of the key column stands for the row id. Once the largest
row id is taken, a table is full, and no smaller id is looked for. A text stands
for a row id by the number that all of its digits spell, also where they are more
than the nineteen or so that SQLite takes into account.
-/
namespace RecordGraph

/-- A row: its id and the values of its columns, the key column apart. -/
structure StoredRow where
  id : Int64
  cells : Row
  deriving DecidableEq

/-- A table; `rows` are in ascending order of their ids. -/
structure Table where
  name : String
  key : Option String
  columns : List String
  rows : List StoredRow
  deriving DecidableEq

/-- Why a store refuses a statement. -/
inductive StoreFault where
  | unknownTable (name : String)
  | unknownColumn (table column : String)
  | duplicateKey (table : String)
  | invalidKey
  | full
  | unreadable
  | readOnly
  deriving DecidableEq

namespace StoreFault

def message : StoreFault → String
  | unknownTable name => "no such table: " ++ name
  | unknownColumn table column => "table " ++ table ++ " has no column named " ++ column
  | duplicateKey table => "duplicate key in " ++ table
  | invalidKey => "datatype mismatch"
  | full => "no row id is left"
  | unreadable => "unrecognized token"
  | readOnly => "attempt to write a readonly database"

end StoreFault

namespace Binary64

/-- The row id that a whole real stands for; the smallest integer is left out. -/
def rowId? : Binary64 → Option Int64
  | finite negative m =>
    let whole : Int := m.units / Magnitude.unitsPerOne
    let n := if negative then -whole else whole
    if m.IsWhole ∧ Int64.minValue.toInt < n ∧ n ≤ Int64.maxValue.toInt then some (Int64.ofInt n)
    else none
  | _ => none

end Binary64

namespace Value

def isAsciiBlank (c : Char) : Bool := Text.isBlank c && c.toNat < 0x80

/-- The row id that a value stands for: an integer, a whole real, or a text of
one of them with ASCII blanks around it. -/
def rowId? : Value → Option Int64
  | integer n => some n
  | real x => x.rowId?
  | text s =>
    let s := ((s.toList.dropWhile isAsciiBlank).reverse.dropWhile isAsciiBlank).reverse
    (Text.readInt64 s).or ((Binary64.read s).bind Binary64.rowId?)
  | _ => none

def rowId (v : Value) : Except StoreFault Int64 :=
  match v.rowId? with
  | some id => .ok id
  | none => .error .invalidKey

end Value

namespace Table

variable (t : Table)

/-- All columns, the key first. -/
def allColumns : List String := t.key.toList ++ t.columns

/-- The value of a column in a row, null for an unknown column. -/
def get (row : StoredRow) (column : String) : Value :=
  if t.key = some column then .integer row.id
  else if column ∈ t.columns then Row.get row.cells column
  else .null

/-- Whether a row meets a condition: on the key column by the row id, on other
columns by the kept value. -/
def Meets (row : StoredRow) (key : KeyMatch) : Prop :=
  if t.key = some key.column then key.value.kept.rowId? = some row.id
  else (t.get row key.column).Agrees key.value.kept

instance (row : StoredRow) (key : KeyMatch) : Decidable (t.Meets row key) := by
  unfold Meets; infer_instance

def find? (key : KeyMatch) : Option StoredRow := t.rows.find? fun r => t.Meets r key

/-- The known columns of the first row that meets a condition. -/
def select (key : KeyMatch) (columns : List String) : Option Row :=
  (t.find? key).map fun r =>
    (columns.filter (· ∈ t.allColumns)).map fun c => (c, t.get r c)

/-- One above the largest id, 1 in an empty table. -/
def nextId : Except StoreFault Int64 :=
  match t.rows.getLast? with
  | none => .ok 1
  | some r => if r.id = Int64.maxValue then .error .full else .ok (r.id + 1)

/-- Every assigned column must be known. -/
def check (assignments : List Assignment) : Except StoreFault Unit :=
  match assignments.find? fun a => a.1 ∉ t.allColumns with
  | some (column, _) => .error (.unknownColumn t.name column)
  | none => .ok ()

/-- The value that the assignments give to the key column. -/
def assignedKey? (assignments : List Assignment) : Option Value :=
  t.key.bind fun key => assignments.lookup key

/-- The kept values that the assignments give to the other columns. -/
def cellsOf (assignments : List Assignment) : Row :=
  (assignments.filter fun a => t.key ≠ some a.1).map fun a => (a.1, a.2.kept)

/-- Adds a row where its id belongs; the id must be free. -/
def addRow (row : StoredRow) : Except StoreFault Table :=
  if t.rows.any (·.id = row.id) then .error (.duplicateKey t.name)
  else
    .ok { t with
      rows := t.rows.takeWhile (·.id < row.id) ++ row :: t.rows.dropWhile (·.id < row.id) }

/-- Adds a row with the given values; without a key, or with a null one, the id
is generated. -/
def insert (assignments : List Assignment) : Except StoreFault (Table × Int64) := do
  t.check assignments
  let id ← match t.assignedKey? assignments with
    | none => t.nextId
    | some v => if v.kept = .null then t.nextId else v.kept.rowId
  return (← t.addRow ⟨id, t.cellsOf assignments⟩, id)

/-- Gives a row new values. -/
def changeRow (assignments : List Assignment) (row : StoredRow) : Except StoreFault Table := do
  let id ← match t.assignedKey? assignments with
    | none => .ok row.id
    | some v => v.kept.rowId
  { t with rows := t.rows.filter (·.id ≠ row.id) }.addRow ⟨id, t.cellsOf assignments ++ row.cells⟩

/-- Gives every row that meets the condition new values, in order. -/
def update (key : KeyMatch) (assignments : List Assignment) : Except StoreFault Table := do
  t.check assignments
  (t.rows.filter fun r => t.Meets r key).foldlM (fun t row => t.changeRow assignments row) t

/-- Removes every row that meets the condition. -/
def delete (key : KeyMatch) : Table :=
  { t with rows := t.rows.filter fun r => ¬ t.Meets r key }

end Table

/-- Tables with different names, and the id of the last row that was inserted. -/
structure Store where
  tables : List Table
  lastInsertId : Int64
  deriving DecidableEq

namespace Store

def empty : Store := ⟨[], 0⟩

variable (store : Store)

def table? (name : String) : Option Table := store.tables.find? (·.name = name)

def table (name : String) : Except StoreFault Table :=
  match store.table? name with
  | some t => .ok t
  | none => .error (.unknownTable name)

/-- Replaces the table of the same name. -/
def setTable (t : Table) : Store :=
  { store with tables := store.tables.map fun u => if u.name = t.name then t else u }

/-- The row that a selection finds; other statements find none. -/
def query : Statement → Except StoreFault (Option Row)
  | .select table key columns => return (← store.table table).select key columns
  | _ => .ok none

/-- The store after a change; a selection changes nothing. -/
def exec : Statement → Except StoreFault Store
  | .select .. => .ok store
  | .insert table assignments => do
    let (t, id) ← (← store.table table).insert assignments
    return { store.setTable t with lastInsertId := id }
  | .update table key assignments => do
    return store.setTable (← (← store.table table).update key assignments)
  | .delete table key => do
    return store.setTable ((← store.table table).delete key)

end Store
end RecordGraph
