import RecordGraph.Sql.Reader
import RecordGraph.Store.Basic

/-!
# Row stores as text

A store is kept as the statements that make it: a definition for each table,
and an insertion for each of its rows. Ids of rows without a key column are
counted anew when the text is read.
-/
namespace RecordGraph.Store

/-- The statement that defines a table without rows. -/
def definition (t : Table) : String :=
  let key := t.key.toList.map fun k => Sql.quoteIdentifier k ++ " integer primary key"
  "create table " ++ Sql.quoteIdentifier t.name ++
    "(" ++ ", ".intercalate (key ++ t.columns.map Sql.quoteIdentifier) ++ ")"

/-- A value with a literal that is read as the given one: for an infinity, the
largest number. -/
def written : Value → Value
  | .real (.infinite negative) => .real (.ofParts negative (Nat.pow 2 53 - 1) 2045)
  | v => v

/-- The statements that insert the rows of a table. -/
def insertions (t : Table) : List Statement :=
  t.rows.map fun row => .insert t.name (t.allColumns.map fun c => (c, written (t.get row c)))

/-- The statements of a store, one a line, each with a semicolon. -/
def dump (store : Store) : String :=
  String.join <| store.tables.flatMap fun t =>
    (definition t :: (insertions t).map (·.render .standard)).map (· ++ ";\n")

/-- The columns of a definition up to its closing bracket; the flag says that a
column is the key. -/
def readColumns : List Sql.Token → Option (List (String × Bool) × List Sql.Token)
  | .name c :: .word "integer" :: .word "primary" :: .word "key" :: ts => more (c, true) ts
  | .name c :: ts => more (c, false) ts
  | _ => none
where
  more (column : String × Bool) :
      List Sql.Token → Option (List (String × Bool) × List Sql.Token)
    | .mark ',' :: .name c :: .word "integer" :: .word "primary" :: .word "key" :: ts =>
      (more (c, true) ts).map fun (columns, ts) => (column :: columns, ts)
    | .mark ',' :: .name c :: ts =>
      (more (c, false) ts).map fun (columns, ts) => (column :: columns, ts)
    | .mark ')' :: ts => some ([column], ts)
    | _ => none

/-- Carries out one statement or definition. -/
def readStep (store : Store) : List Sql.Token → Option (Store × List Sql.Token)
  | .word "create" :: .word "table" :: .name name :: .mark '(' :: ts => do
    let (columns, ts) ← readColumns ts
    let key := (columns.find? Prod.snd).map Prod.fst
    let others := (columns.filter fun c => !c.2).map Prod.fst
    if (store.table? name).isSome then none
    else some ({ store with tables := store.tables ++ [⟨name, key, others, []⟩] }, ts)
  | ts => do
    let (o, ts) ← Sql.readOutline ts
    let store ← (store.exec (← o.statement?)).toOption
    return (store, ts)

/-- Carries out statements with semicolons behind them; `fuel` bounds their number. -/
def readSteps : Nat → Store → List Sql.Token → Option Store
  | _, store, [] => some store
  | 0, _, _ => none
  | fuel + 1, store, ts => do
    match ← readStep store ts with
    | (store, .mark ';' :: ts) => readSteps fuel store ts
    | _ => none

/-- The store that a text makes. -/
def ofDump? (text : String) : Option Store := do
  let ts ← Sql.tokens? text
  let store ← readSteps ts.length .empty ts
  return { store with lastInsertId := 0 }

end RecordGraph.Store
