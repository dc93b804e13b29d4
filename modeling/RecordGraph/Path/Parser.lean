import RecordGraph.Path.Basic
import RecordGraph.Path.Token

/-!
# Reading paths

The grammar, over tokens:

    columnPath := (table '.')* name
    table      := name ('[' (name '=')? columnPath ']')?
    tablePath  := table ('.' table)*

Brackets nest at most 32 deep. A reader returns what it has read and the tokens
that follow, which are fewer. An error stands at the token that cannot be, at
the end of the text, or, for a bracket that is never closed, at that bracket.
-/
namespace RecordGraph

/-- Why a text is no path. -/
inductive PathFault where
  | expectedName (found : Option Char)
  | expectedClosing (found : Char)
  | expectedColumn
  | unclosedBracket
  | unbalancedBracket
  | nestedTooDeeply
  | unexpected (found : Char)
  deriving DecidableEq

namespace PathFault

def message : PathFault → String
  | expectedName none => "expected identifier, found end of path"
  | expectedName (some c) => "expected identifier, found '" ++ c.toString ++ "'"
  | expectedClosing c => "expected ']', found '" ++ c.toString ++ "'"
  | expectedColumn => "expected '.' and a column name after ']'"
  | unclosedBracket => "unclosed '['"
  | unbalancedBracket => "unbalanced ']'"
  | nestedTooDeeply => "path nested too deeply"
  | unexpected c => "unexpected '" ++ c.toString ++ "'"

end PathFault

/-- A text that is no path, and the character at which that shows. -/
structure PathError where
  path : String
  position : Nat
  fault : PathFault
  deriving DecidableEq

namespace PathError

def message (e : PathError) : String :=
  "invalid path `" ++ e.path ++ "` at position " ++ toString e.position ++ ": " ++ e.fault.message

end PathError

namespace Path

def maxNesting : Nat := 32

structure Fault where
  position : Nat
  fault : PathFault
  deriving DecidableEq

/-- Fewer tokens than `ts`. -/
abbrev Rest (ts : List Token) := { rest : List Token // rest.length < ts.length }

/-- Where the next token begins, or the end of the text. -/
def nextPosition (finish : Nat) : List Token → Nat
  | [] => finish
  | t :: _ => t.position

/-- A name and an equals sign, if the tokens begin so, and the tokens after them. -/
def splitChild : List Token → Option String × List Token
  | ⟨.name c more, _⟩ :: ⟨.equals, _⟩ :: ts => (some (String.ofList (c :: more)), ts)
  | ts => (none, ts)

theorem length_splitChild_le (ts : List Token) : (splitChild ts).2.length ≤ ts.length := by
  unfold splitChild
  split
  · simp only [List.length_cons]; omega
  · exact Nat.le_refl _

/-- The bracket that closes the one opened at `opening`. -/
def expectClosing (opening : Nat) : (ts : List Token) → Except Fault (Rest ts)
  | ⟨.closing, _⟩ :: rest => .ok ⟨rest, by simp⟩
  | t :: _ => .error ⟨t.position, .expectedClosing t.symbol.first⟩
  | [] => .error ⟨opening, .unclosedBracket⟩

/-- Reads a column path inside `depth` brackets of a text of `finish` characters. -/
def columnPath (finish depth : Nat) (ts : List Token) : Except Fault (ColumnPath × Rest ts) :=
  match ts with
  | ⟨.name c more, _⟩ :: ⟨.dot, _⟩ :: ts => do
    let (path, ⟨rest, h⟩) ← columnPath finish depth ts
    return (.through (String.ofList (c :: more)) path,
      ⟨rest, by simp only [List.length_cons]; omega⟩)
  | ⟨.name c more, _⟩ :: ⟨.opening, opening⟩ :: ts =>
    have := length_splitChild_le ts
    if maxNesting ≤ depth then .error ⟨opening, .nestedTooDeeply⟩
    else do
      let (foreignKey, ⟨after, h⟩) ← columnPath finish (depth + 1) (splitChild ts).2
      let ⟨after, h'⟩ ← expectClosing opening after
      match e : after with
      | ⟨.dot, _⟩ :: after => do
        let (path, ⟨rest, h''⟩) ← columnPath finish depth after
        return (.joined (String.ofList (c :: more)) (splitChild ts).1 foreignKey path,
          ⟨rest, by have := congrArg List.length e; simp only [List.length_cons] at *; omega⟩)
      | after => .error ⟨nextPosition finish after, .expectedColumn⟩
  | ⟨.name c more, _⟩ :: rest => .ok (.column (String.ofList (c :: more)), ⟨rest, by simp⟩)
  | t :: _ => .error ⟨t.position, .expectedName (some t.symbol.first)⟩
  | [] => .error ⟨finish, .expectedName none⟩
termination_by ts.length
decreasing_by
  · simp only [List.length_cons]; omega
  · simp only [List.length_cons]; omega
  · have := congrArg List.length e; simp only [List.length_cons] at *; omega

/-- Reads a table with its join. -/
def tableSpec (finish : Nat) (ts : List Token) : Except Fault (TableSpec × Rest ts) :=
  match ts with
  | ⟨.name c more, _⟩ :: ⟨.opening, opening⟩ :: ts => do
    have := length_splitChild_le ts
    let (foreignKey, ⟨after, h⟩) ← columnPath finish 1 (splitChild ts).2
    let ⟨rest, h'⟩ ← expectClosing opening after
    return (⟨String.ofList (c :: more), some ⟨(splitChild ts).1, foreignKey⟩⟩,
      ⟨rest, by simp only [List.length_cons]; omega⟩)
  | ⟨.name c more, _⟩ :: rest => .ok (⟨String.ofList (c :: more), none⟩, ⟨rest, by simp⟩)
  | t :: _ => .error ⟨t.position, .expectedName (some t.symbol.first)⟩
  | [] => .error ⟨finish, .expectedName none⟩

/-- Reads tables separated by dots. -/
def tableSpecs (finish : Nat) (ts : List Token) : Except Fault (List TableSpec × Rest ts) := do
  let (table, ⟨after, h⟩) ← tableSpec finish ts
  match e : after with
  | ⟨.dot, _⟩ :: more => do
    let (tables, ⟨rest, h'⟩) ← tableSpecs finish more
    return (table :: tables,
      ⟨rest, by have := congrArg List.length e; simp only [List.length_cons] at *; omega⟩)
  | _ => return ([table], ⟨after, h⟩)
termination_by ts.length
decreasing_by have := congrArg List.length e; simp only [List.length_cons] at *; omega

/-- Nothing may follow a path. -/
def expectEnd : List Token → Except Fault Unit
  | [] => .ok ()
  | ⟨.closing, position⟩ :: _ => .error ⟨position, .unbalancedBracket⟩
  | t :: _ => .error ⟨t.position, .unexpected t.symbol.first⟩

/-- Runs a reader on all tokens of a text. -/
def readAll {α : Type} (reader : Nat → (ts : List Token) → Except Fault (α × Rest ts))
    (text : String) : Except PathError α :=
  let s := text.toList
  let result := do
    let (value, ⟨rest, _⟩) ← reader s.length (tokens 0 s)
    expectEnd rest
    return value
  result.mapError fun e => ⟨text, e.position, e.fault⟩

end Path

/-- Reads a column path. -/
def ColumnPath.parse (text : String) : Except PathError ColumnPath :=
  Path.readAll (Path.columnPath · 0) text

/-- Reads a table path; the list of tables is not empty. -/
def TableSpec.parsePath (text : String) : Except PathError (List TableSpec) :=
  Path.readAll Path.tableSpecs text

end RecordGraph
