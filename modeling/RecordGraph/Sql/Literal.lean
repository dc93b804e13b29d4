import RecordGraph.Value.Basic

/-!
# Quoted names and literals

A quoted text ends at the first quote that is not doubled, so a quote inside it
is written twice.
-/
namespace RecordGraph.Sql

/-- Writes every `quote` twice. -/
def double (quote : Char) (s : List Char) : List Char :=
  s.flatMap fun c => if c = quote then [quote, quote] else [c]

/-- A text between two quotes. -/
def enclose (quote : Char) (s : List Char) : List Char := quote :: (double quote s ++ [quote])

/-- A name in double quotes. -/
def quoteIdentifier (name : String) : String := String.ofList (enclose '"' name.toList)

/-- The upper-case hexadecimal digit of a number below sixteen. -/
def hexDigit (n : Nat) : Char := (Nat.digitChar n).toUpper

/-- The literal of a value. A real keeps a point so that it stays a real, and
is null where it is not finite; a date is the text that shows it. -/
def literal : Value → List Char
  | .null => ['N', 'U', 'L', 'L']
  | .integer n => Text.signedDigits n.toInt
  | .real (.finite negative m) => Binary64.pointed negative m
  | .real _ => ['N', 'U', 'L', 'L']
  | .text s => enclose '\'' s.toList
  | .blob bytes => 'X' :: '\'' :: (bytes.flatMap (Value.hexByte hexDigit) ++ ['\''])
  | .dateTime d => enclose '\'' d.toText

def quoteLiteral (v : Value) : String := String.ofList (literal v)

end RecordGraph.Sql
