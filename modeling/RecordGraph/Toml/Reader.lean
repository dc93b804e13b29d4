import RecordGraph.Toml.Document
import RecordGraph.Toml.Quoted

/-!
# Reading TOML

Keys, values and lines of a document. A reader gives what it has read and the
rest of the text, or nothing if the text is no TOML. Values nest less than 80
deep, and keys have less than 80 parts. Nested values take `fuel`, of which the
length of the text is enough.
-/
namespace RecordGraph.Toml

/-- Drops spaces and tabs. -/
def skipSpace (s : List Char) : List Char := s.dropWhile isSpace

/-- Drops spaces, line ends and comments; `inComment` says where the text begins. -/
def skipLayout (inComment : Bool) : List Char → List Char
  | [] => []
  | '\n' :: s => skipLayout false s
  | '\r' :: '\n' :: s => skipLayout false s
  | c :: s =>
    if inComment then if isPlain c then skipLayout true s else c :: s
    else if isSpace c then skipLayout false s
    else if c = '#' then skipLayout true s
    else c :: s

/-- The rest of a line: at most spaces and a comment. Gives the next line. -/
def endLine (s : List Char) : Option (List Char) :=
  let s := skipSpace s
  let s := if s.head? = some '#' then s.dropWhile isPlain else s
  match s with
  | [] => some []
  | '\n' :: s => some s
  | '\r' :: '\n' :: s => some s
  | _ => none

def isBareChar (c : Char) : Bool := c.isAlphanum || c == '_' || c == '-'

/-- One part of a key: bare, or a string of one line. -/
def readKeyPart (s : List Char) : Option (String × List Char) :=
  match s with
  | '"' :: s => (readBasic false .text s).map fun (text, s) => (String.ofList text, s)
  | '\'' :: s => (readLiteral s).map fun (text, s) => (String.ofList text, s)
  | s =>
    let bare := s.takeWhile isBareChar
    if bare = [] then none else some (String.ofList bare, s.dropWhile isBareChar)

/-- The number of brackets and of parts of a key that a document may not reach. -/
def maxNesting : Nat := 80

/-- Parts of a key with dots between them; there are fewer than `limit`. -/
def readParts : Nat → List Char → Option (List String × List Char)
  | 0, _ | 1, _ => none
  | limit + 1, s => do
    let (part, s) ← readKeyPart (skipSpace s)
    match skipSpace s with
    | '.' :: s => (readParts limit s).map fun (parts, s) => (part :: parts, s)
    | s => some ([part], s)

/-- A key: parts with dots between them. -/
def readKey (s : List Char) : Option (List String × List Char) := readParts maxNesting s

mutual

/-- A value inside `depth` brackets. -/
def readValue (depth : Nat) : Nat → List Char → Option (Item × List Char)
  | 0, _ => none
  | fuel + 1, s =>
    match s with
    | '[' :: s =>
      if maxNesting ≤ depth + 1 then none
      else (readItems (depth + 1) fuel s).map fun (items, s) => (.array items, s)
    | '{' :: s =>
      if maxNesting ≤ depth + 1 then none
      else match skipSpace s with
        | '}' :: s => some (.table .inline [], s)
        | s => (readFields (depth + 1) fuel [] s).map fun (entries, s) =>
          (.table .inline entries, s)
    | '"' :: _ | '\'' :: _ =>
      (unquote? s).map fun (text, s) => (.scalar (.string (String.ofList text)), s)
    | s => (readScalar s).map fun (v, s) => (.scalar v, s)

/-- The items of an array up to its closing bracket. -/
def readItems (depth : Nat) : Nat → List Char → Option (List Item × List Char)
  | 0, _ => none
  | fuel + 1, s =>
    match skipLayout false s with
    | ']' :: s => some ([], s)
    | s => do
      let (item, s) ← readValue depth fuel s
      match skipLayout false s with
      | ',' :: s => (readItems depth fuel s).map fun (items, s) => (item :: items, s)
      | ']' :: s => some ([item], s)
      | _ => none

/-- The entries of an inline table, at least one, up to its closing brace. -/
def readFields (depth : Nat) : Nat → Entries → List Char → Option (Entries × List Char)
  | 0, _, _ => none
  | fuel + 1, entries, s => do
    let (key, s) ← readKey s
    let (item, s) ← readValue depth fuel (skipSpace (← ['='].isPrefixOf? s))
    let entries ← Entries.insert true item key entries
    match skipSpace s with
    | ',' :: s => readFields depth fuel entries s
    | '}' :: s => some (entries, s)
    | _ => none

end

/-- An entry of a line with the text from its value on and the text behind it. -/
structure PlacedEntry where
  key : List String
  item : Item
  start : List Char
  rest : List Char

/-- A key with its value. -/
def readEntry (fuel : Nat) (s : List Char) : Option PlacedEntry := do
  let (key, s) ← readKey s
  let start := skipSpace (← ['='].isPrefixOf? s)
  let (item, rest) ← readValue 0 fuel start
  return ⟨key, item, start, rest⟩

/-- One header or entry, up to the end of its line. -/
def readLine (fuel : Nat) (d : Document) (s : List Char) : Option (Document × List Char) :=
  match s with
  | '[' :: '[' :: s => do
    let (key, s) ← readKey s
    let s ← endLine (← [']', ']'].isPrefixOf? s)
    return (← d.openElement key, s)
  | '[' :: s => do
    let (key, s) ← readKey s
    let s ← endLine (← [']'].isPrefixOf? s)
    return (← d.openTable key, s)
  | s => do
    let e ← readEntry fuel s
    let s ← endLine e.rest
    return (← d.insert e.key e.item, s)

/-- All lines of a document. -/
def readLines : Nat → Document → List Char → Option Document
  | 0, _, _ => none
  | fuel + 1, d, s =>
    match skipLayout false s with
    | [] => some d
    | s => do
      let (d, s) ← readLine (fuel + 1) d s
      readLines fuel d s

/-- The lines of a text; a byte order mark in front is passed over. -/
def lines (text : String) : List Char :=
  match text.toList with
  | '\uFEFF' :: s => s
  | s => s

/-- The entries of a document. -/
def parse (text : String) : Option Entries :=
  let s := lines text
  (readLines (s.length + 1) .empty s).map Document.entries

/-- The entries before the first header, as far as they can be read. -/
def leadingEntries : Nat → List Char → List PlacedEntry
  | 0, _ => []
  | fuel + 1, s =>
    match skipLayout false s with
    | '[' :: _ => []
    | s => match readEntry (fuel + 1) s with
      | none => []
      | some e => match endLine e.rest with
        | none => [e]
        | some s => e :: leadingEntries fuel s

end RecordGraph.Toml
