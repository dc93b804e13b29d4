import RecordGraph.Json
import RecordGraph.Value.Basic

/-!
# Values as JSON

A blob is an array of numbers, and a date is a string.
-/
namespace RecordGraph.Value

def toJson : Value → Json
  | null => .null
  | integer n => .integer n.toInt
  | real x => .real x
  | text s => .string s
  | blob bytes => .array (bytes.map fun b => .integer b.toNat)
  | dateTime d => .string (String.ofList d.toText)

end RecordGraph.Value
