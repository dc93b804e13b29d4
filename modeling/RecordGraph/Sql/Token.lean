import RecordGraph.Sql.Literal
import RecordGraph.Text.Blank

/-!
# Tokens of SQL

A text in the standard dialect, cut from left to right. A quoted name or text
ends at the first quote that is not doubled. Literals are kept as they are written.
-/
namespace RecordGraph.Sql

inductive Token where
  | word (s : String)
  | name (s : String)
  | literal (text : List Char)
  | mark (c : Char)
  deriving DecidableEq

/-- The text up to the first `quote` that is not doubled, and what follows it. -/
def readQuoted (quote : Char) : List Char → Option (List Char × List Char)
  | [] => none
  | [c] => if c = quote then some ([], []) else none
  | c :: d :: s =>
    if c = quote then
      if d = quote then (readQuoted quote s).map fun (text, rest) => (quote :: text, rest)
      else some ([], d :: s)
    else (readQuoted quote (d :: s)).map fun (text, rest) => (c :: text, rest)

def isNumberChar (c : Char) : Bool := c.isDigit || c == '-' || c == '.'

def isWordChar (c : Char) : Bool := c.isAlphanum || c == '_'

/-- One token and what follows it. -/
def readToken : List Char → Option (Token × List Char)
  | '"' :: s => (readQuoted '"' s).map fun (text, s) => (.name (String.ofList text), s)
  | '\'' :: s => (readQuoted '\'' s).map fun (text, s) => (.literal (enclose '\'' text), s)
  | 'X' :: '\'' :: s =>
    (readQuoted '\'' s).map fun (text, s) => (.literal ('X' :: enclose '\'' text), s)
  | s@(c :: rest) =>
    if isNumberChar c then
      some (.literal (s.takeWhile isNumberChar), s.dropWhile isNumberChar)
    else if isWordChar c then
      let word := s.takeWhile isWordChar
      some (if word = ['N', 'U', 'L', 'L'] then .literal word else .word (String.ofList word),
        s.dropWhile isWordChar)
    else some (.mark c, rest)
  | [] => none

/-- All tokens of a text, blanks between them dropped. There are at most `fuel`. -/
def tokenize : Nat → List Char → Option (List Token)
  | 0, s => if Text.trimStart s = [] then some [] else none
  | fuel + 1, s =>
    match Text.trimStart s with
    | [] => some []
    | s => do
      let (token, s) ← readToken s
      return token :: (← tokenize fuel s)

def tokens? (text : String) : Option (List Token) := tokenize text.length text.toList

end RecordGraph.Sql
