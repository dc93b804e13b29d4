import RecordGraph.Sql.Statement
import RecordGraph.Sql.Token
import RecordGraph.Value.Stored

/-!
# Reading statements

The four statements in the standard dialect. What is read first is the outline
of a statement, with its literals as they are written; a value is then read in
its stored form.
-/
namespace RecordGraph

/-- A statement with literals in place of its values. -/
inductive Outline where
  | select (table : String) (key : String × List Char) (columns : List String)
  | insert (table : String) (assignments : List (String × List Char))
  | update (table : String) (key : String × List Char) (assignments : List (String × List Char))
  | delete (table : String) (key : String × List Char)
  deriving DecidableEq

namespace Sql

/-- Names with commas between them, at least one. -/
def readNames : List Token → Option (List String × List Token)
  | .name c :: .mark ',' :: ts => (readNames ts).map fun (names, ts) => (c :: names, ts)
  | .name c :: ts => some ([c], ts)
  | _ => none

/-- Literals with commas between them, at least one. -/
def readLiterals : List Token → Option (List (List Char) × List Token)
  | .literal l :: .mark ',' :: ts => (readLiterals ts).map fun (literals, ts) => (l :: literals, ts)
  | .literal l :: ts => some ([l], ts)
  | _ => none

/-- Equations `name = literal` with commas between them, at least one. -/
def readEquations : List Token → Option (List (String × List Char) × List Token)
  | .name c :: .mark '=' :: .literal l :: .mark ',' :: ts =>
    (readEquations ts).map fun (equations, ts) => ((c, l) :: equations, ts)
  | .name c :: .mark '=' :: .literal l :: ts => some ([(c, l)], ts)
  | _ => none

/-- The condition on the key. -/
def readCondition : List Token → Option ((String × List Char) × List Token)
  | .word "where" :: .name c :: .mark '=' :: .literal l :: ts => some ((c, l), ts)
  | _ => none

/-- The outline of a statement and the tokens after it. -/
def readOutline : List Token → Option (Outline × List Token)
  | .word "select" :: ts => do
    let (columns, ts) ← readNames ts
    match ts with
    | .word "from" :: .name table :: ts =>
      let (key, ts) ← readCondition ts
      return (.select table key columns, ts)
    | _ => none
  | .word "insert" :: .word "into" :: .name table :: .word "default" :: .word "values" :: ts =>
    some (.insert table [], ts)
  | .word "insert" :: .word "into" :: .name table :: .mark '(' :: ts => do
    let (columns, ts) ← readNames ts
    match ts with
    | .mark ')' :: .word "values" :: .mark '(' :: ts =>
      let (literals, ts) ← readLiterals ts
      match ts with
      | .mark ')' :: ts =>
        if columns.length = literals.length then return (.insert table (columns.zip literals), ts)
        else none
      | _ => none
    | _ => none
  | .word "update" :: .name table :: .word "set" :: ts => do
    let (equations, ts) ← readEquations ts
    let (key, ts) ← readCondition ts
    return (.update table key equations, ts)
  | .word "delete" :: .word "from" :: .name table :: ts => do
    let (key, ts) ← readCondition ts
    return (.delete table key, ts)
  | _ => none

/-- The value of an upper-case hexadecimal digit. -/
def hexValue? (c : Char) : Option Nat :=
  if '0' ≤ c ∧ c ≤ '9' then some (c.toNat - '0'.toNat)
  else if 'A' ≤ c ∧ c ≤ 'F' then some (c.toNat - 'A'.toNat + 10)
  else none

/-- The bytes of pairs of digits. -/
def readBytes : List Char → Option (List UInt8)
  | [] => some []
  | [_] => none
  | a :: b :: s => do return UInt8.ofNat ((← hexValue? a) * 16 + (← hexValue? b)) :: (← readBytes s)

/-- A number: a real if it has a point, an integer otherwise. -/
def readNumber (s : List Char) : Option Value :=
  if '.' ∈ s then (Binary64.read s).map .real else (Text.readInt64 s).map .integer

/-- The text of a literal up to its closing quote. -/
def readWholeQuoted (s : List Char) : Option (List Char) :=
  (readQuoted '\'' s).bind fun (text, rest) => if rest = [] then some text else none

/-- The stored form of the value that a literal denotes. -/
def readLiteral : List Char → Option Value
  | '\'' :: s => (readWholeQuoted s).map fun text => .text (String.ofList text)
  | 'X' :: s => match s with
    | '\'' :: s => ((readWholeQuoted s).bind readBytes).map .blob
    | _ => none
  | s => if s = ['N', 'U', 'L', 'L'] then some .null else readNumber s

/-- Reads the literals of some assignments. -/
def readAssignments (assignments : List (String × List Char)) : Option (List Assignment) :=
  assignments.mapM fun (column, literal) => do return (column, ← readLiteral literal)

end Sql

namespace Outline

/-- Reads the outline of a statement from its text. -/
def read? (text : String) : Option Outline := do
  match ← Sql.readOutline (← Sql.tokens? text) with
  | (o, []) => some o
  | _ => none

/-- The statement of an outline. -/
def statement? : Outline → Option Statement
  | select table key columns => do
    return .select table ⟨key.1, ← Sql.readLiteral key.2⟩ columns
  | insert table assignments => do return .insert table (← Sql.readAssignments assignments)
  | update table key assignments => do
    return .update table ⟨key.1, ← Sql.readLiteral key.2⟩ (← Sql.readAssignments assignments)
  | delete table key => do return .delete table ⟨key.1, ← Sql.readLiteral key.2⟩

end Outline
end RecordGraph
