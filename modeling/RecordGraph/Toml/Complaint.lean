import RecordGraph.Toml.Reader

/-!
# Complaints about a document

A complaint shows the line of a document that it is about, with marks under the
part that is wrong.
-/
namespace RecordGraph.Toml

/-- The bytes of a text. -/
def size (s : List Char) : Nat := (String.ofList s).utf8ByteSize

/-- Shows a part of a text on its line. Places count characters. There is a mark
for each byte of the part as far as the line goes, and one at least. -/
def excerpt (before part after : List Char) : String :=
  let left := (before.reverse.takeWhile (· ≠ '\n')).reverse
  let line := left ++ (part ++ after).takeWhile (· ≠ '\n')
  let number := toString (before.count '\n' + 1)
  let gutter := String.ofList (List.replicate (number.length + 1) ' ') ++ "|"
  let marks := max 1 (min (size part) (size line - left.length))
  "TOML parse error at line " ++ number ++ ", column " ++ toString (left.length + 1) ++ "\n" ++
    gutter ++ "\n" ++
    number ++ " | " ++ String.ofList line ++ "\n" ++
    gutter ++ String.ofList (List.replicate (left.length + 1) ' ' ++ List.replicate marks '^') ++
    "\n"

/-- A number as displayed, where a finite one has a point. -/
def pointedFloat (x : Binary64) : String :=
  String.ofList (if x.IsFinite ∧ '.' ∉ x.display then x.display ++ ['.', '0'] else x.display)

/-- What an item is called when something else is expected. -/
def Item.kind : Item → String
  | .scalar (.string _) => "string"
  | .scalar (.integer n) => "integer `" ++ String.ofList (Text.signedDigits n.toInt) ++ "`"
  | .scalar (.float x) => "floating point `" ++ pointedFloat x ++ "`"
  | .scalar (.boolean b) => "boolean `" ++ toString b ++ "`"
  | .scalar (.moment _) | .table .. => "map"
  | .array _ | .tables _ => "sequence"

/-- Complains that the value of an entry of a text is not what is expected. -/
def PlacedEntry.complaint (e : PlacedEntry) (text expected : String) : String :=
  let s := text.toList
  let before := s.take (s.length - e.start.length)
  let value := e.start.take (e.start.length - e.rest.length)
  excerpt before value e.rest ++
    "invalid type: " ++ e.item.kind ++ ", expected " ++ expected ++ "\n"

end RecordGraph.Toml
