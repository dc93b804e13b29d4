import RecordGraph.Value.Reader

/-!
# Assignments on the command line

An argument `PATH=VALUE` is split at its first equals sign outside brackets, so
that a path keeps the equals signs of its joins.
-/
namespace RecordGraph.CommandLine

/-- Why an argument is no assignment. -/
inductive AssignmentError where
  | missingPath (raw : String)
  | missingEquals (raw : String)
  deriving DecidableEq

namespace AssignmentError

def message : AssignmentError → String
  | missingPath raw => "missing path in assignment `" ++ raw ++ "`"
  | missingEquals raw => "expected PATH=VALUE, got `" ++ raw ++ "`"

end AssignmentError

/-- What stands before and after the first equals sign outside brackets, when
`depth` brackets are open. A closing bracket too many is passed over. -/
def splitAtEquals (depth : Nat) : List Char → Option (List Char × List Char)
  | [] => none
  | c :: s =>
    if c = '=' ∧ depth = 0 then some ([], s)
    else
      let depth := if c = '[' then depth + 1 else if c = ']' then depth - 1 else depth
      (splitAtEquals depth s).map fun (before, after) => (c :: before, after)

/-- Splits an assignment into a path without blanks around it, and a value. -/
def splitAssignment (raw : String) : Except AssignmentError (String × Value) :=
  match splitAtEquals 0 raw.toList with
  | none => .error (.missingEquals raw)
  | some (before, after) =>
    let path := Text.trim before
    if path = [] then .error (.missingPath raw)
    else .ok (String.ofList path, Value.ofTyped (String.ofList after))

end RecordGraph.CommandLine
