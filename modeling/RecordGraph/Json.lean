import RecordGraph.Binary64.Notation

/-!
# JSON text

JSON values and their text, without spaces or indented by two.
-/
namespace RecordGraph

inductive Json where
  | null
  | boolean (b : Bool)
  | integer (n : Int)
  | real (x : Binary64)
  | string (s : String)
  | array (items : List Json)
  | object (fields : List (String × Json))

namespace Json

/-- Letters or a code of four digits for the control characters; a quote and a
backslash are escaped, and nothing else is. -/
def escape (c : Char) : List Char :=
  if c = '"' then ['\\', '"']
  else if c = '\\' then ['\\', '\\']
  else if c = '\x08' then ['\\', 'b']
  else if c = '\x0c' then ['\\', 'f']
  else if c = '\n' then ['\\', 'n']
  else if c = '\r' then ['\\', 'r']
  else if c = '\t' then ['\\', 't']
  else if c.toNat < 0x20 then
    ['\\', 'u', '0', '0', Nat.digitChar (c.toNat / 16), Nat.digitChar (c.toNat % 16)]
  else [c]

def quoted (s : List Char) : List Char := '"' :: s.flatMap escape ++ ['"']

/-- Positional with a point from `0.00001` up to `10 ^ 16`, scientific beyond;
a tie between two shortest decimals goes to the even digit, and numbers that
are not finite are null. -/
def number : Binary64 → List Char
  | .nan | .infinite _ => ['n', 'u', 'l', 'l']
  | .finite negative m =>
    let d := m.shortest .even
    Binary64.signed negative <|
      if -5 ≤ d.leading ∧ d.leading < 16 then
        if 0 ≤ d.exponent then d.positional ++ ['.', '0'] else d.positional
      else d.scientific

/-- The text of a value that holds no others. -/
def atom : Json → List Char
  | boolean true => ['t', 'r', 'u', 'e']
  | boolean false => ['f', 'a', 'l', 's', 'e']
  | integer n => Text.signedDigits n
  | real x => number x
  | string s => quoted s.toList
  | _ => ['n', 'u', 'l', 'l']

mutual

/-- Text without spaces. -/
def compact : Json → List Char
  | array items => '[' :: (compactItems items ++ [']'])
  | object fields => '{' :: (compactFields fields ++ ['}'])
  | j => atom j

def compactItems : List Json → List Char
  | [] => []
  | [j] => compact j
  | j :: js => compact j ++ ',' :: compactItems js

def compactFields : List (String × Json) → List Char
  | [] => []
  | [(k, j)] => quoted k.toList ++ ':' :: compact j
  | (k, j) :: fields => quoted k.toList ++ ':' :: (compact j ++ ',' :: compactFields fields)

end

/-- A line end and the indentation of the next line. -/
def newLine (depth : Nat) : List Char := '\n' :: List.replicate (2 * depth) ' '

mutual

/-- Text with one item or field a line. -/
def indented (depth : Nat) : Json → List Char
  | array [] => ['[', ']']
  | array items => '[' :: (indentedItems (depth + 1) items ++ newLine depth ++ [']'])
  | object [] => ['{', '}']
  | object fields => '{' :: (indentedFields (depth + 1) fields ++ newLine depth ++ ['}'])
  | j => atom j

def indentedItems (depth : Nat) : List Json → List Char
  | [] => []
  | [j] => newLine depth ++ indented depth j
  | j :: js => newLine depth ++ indented depth j ++ ',' :: indentedItems depth js

def indentedFields (depth : Nat) : List (String × Json) → List Char
  | [] => []
  | [(k, j)] => newLine depth ++ quoted k.toList ++ ':' :: ' ' :: indented depth j
  | (k, j) :: fields =>
    newLine depth ++ quoted k.toList ++ ':' :: ' ' :: (indented depth j ++
      ',' :: indentedFields depth fields)

end

end Json
end RecordGraph
