import RecordGraph.Text.Digits

/-!
# TOML strings

The four string forms of TOML: basic and literal, on one line or on several.
The writer takes the first form in which a text needs no escapes, tabs apart,
and falls back to escapes. The reader takes all four.
-/
namespace RecordGraph.Toml

/-! ## Characters -/

/-- What no form holds as it is: control characters but tab and newline. -/
def isControl (c : Char) : Bool :=
  (c.toNat < 0x20 && c != '\t' && c != '\n') || c == '\x7f'

/-- What may stand in a comment or in a string of one line. -/
def isPlain (c : Char) : Bool := !isControl c && c != '\n'

def isSpace (c : Char) : Bool := c == ' ' || c == '\t'

/-- The character with a code, if there is one. -/
def charOfCode? (n : Nat) : Option Char :=
  if n.isValidChar then some (Char.ofNat n) else none

/-! ## Writing -/

inductive Style where
  | basic
  | literal
  | multilineBasic
  | multilineLiteral
  deriving DecidableEq

/-- Whether a text has the character three times in a row. -/
def hasTriple (q : Char) : List Char → Bool
  | [] => false
  | c :: s => (c == q && s.take 2 == [q, q]) || hasTriple q s

/-- The form in which a text is written. -/
def Style.ofText (s : List Char) : Style :=
  let plain := !s.any isControl
  let oneLine := !s.contains '\n'
  if plain && oneLine && !s.contains '\\' && !s.contains '"' then basic
  else if plain && oneLine && !s.contains '\'' then literal
  else if plain && !s.contains '\\' && !hasTriple '"' s then multilineBasic
  else if plain && !hasTriple '\'' s then multilineLiteral
  else if oneLine then basic
  else multilineBasic

/-- A character within a basic string of one line. -/
def escape (c : Char) : List Char :=
  if c = '"' then ['\\', '"']
  else if c = '\\' then ['\\', '\\']
  else if c = '\x08' then ['\\', 'b']
  else if c = '\t' then ['\\', 't']
  else if c = '\n' then ['\\', 'n']
  else if c = '\x0c' then ['\\', 'f']
  else if c = '\r' then ['\\', 'r']
  else if isControl c then
    ['\\', 'u', '0', '0', Nat.digitChar (c.toNat / 16), (Nat.digitChar (c.toNat % 16)).toUpper]
  else [c]

/-- The text within a basic string of several lines, after `run` quotes: a
third quote in a row is escaped. -/
def escapeLines (run : Nat) : List Char → List Char
  | [] => []
  | c :: s =>
    if c = '"' then
      if run = 2 then '\\' :: '"' :: escapeLines 0 s else '"' :: escapeLines (run + 1) s
    else if c = '\n' then '\n' :: escapeLines 0 s
    else escape c ++ escapeLines 0 s

/-- A text of several lines begins on a line of its own. -/
def openLines (s : List Char) : List Char := if s.contains '\n' then ['\n'] else []

/-- A text as a TOML string. -/
def quote (s : List Char) : List Char :=
  match Style.ofText s with
  | .basic => '"' :: (s.flatMap escape ++ ['"'])
  | .literal => '\'' :: (s ++ ['\''])
  | .multilineBasic => '"' :: '"' :: '"' :: (openLines s ++ escapeLines 0 s ++ ['"', '"', '"'])
  | .multilineLiteral => '\'' :: '\'' :: '\'' :: (openLines s ++ s ++ ['\'', '\'', '\''])

/-! ## Reading -/

/-- Adds a character to a text that was read. -/
def cons (c : Char) : Option (List Char × List Char) → Option (List Char × List Char) :=
  Option.map fun (text, rest) => (c :: text, rest)

/-- What follows three closing quotes: up to two more quotes belong to the text. -/
def closeLines (q : Char) : List Char → List Char × List Char
  | a :: b :: s => if a = q then if b = q then ([q, q], s) else ([q], b :: s) else ([], a :: b :: s)
  | [a] => if a = q then ([q], []) else ([], [a])
  | [] => ([], [])

/-- The text up to a single quote, on one line. -/
def readLiteral : List Char → Option (List Char × List Char)
  | [] => none
  | c :: s =>
    if c = '\'' then some ([], s)
    else if isPlain c then cons c (readLiteral s)
    else none

/-- The text up to three single quotes. -/
def readLiteralLines : List Char → Option (List Char × List Char)
  | '\'' :: '\'' :: '\'' :: s => some (closeLines '\'' s)
  | '\r' :: '\n' :: s => cons '\n' (readLiteralLines s)
  | c :: s => if isPlain c || c == '\n' then cons c (readLiteralLines s) else none
  | [] => none

/-- The character that follows a backslash, for escapes of one letter. -/
def unescape? (c : Char) : Option Char :=
  if c = '"' then some '"'
  else if c = '\\' then some '\\'
  else if c = 'b' then some '\x08'
  else if c = 't' then some '\t'
  else if c = 'n' then some '\n'
  else if c = 'f' then some '\x0c'
  else if c = 'r' then some '\r'
  else none

/-- Where a basic string is read: in text, after a backslash, within the
digits of a code, or in the blanks around a line end that a backslash removes. -/
inductive Position where
  | text
  | escape
  | code (left value : Nat)
  | beforeLineEnd
  | afterLineEnd

/-- The text of a basic string up to its closing quotes, on one line or on
several. -/
def readBasic (multiline : Bool) : Position → List Char → Option (List Char × List Char)
  | _, [] => none
  | .escape, c :: s =>
    if c = 'u' then readBasic multiline (.code 4 0) s
    else if c = 'U' then readBasic multiline (.code 8 0) s
    else match unescape? c with
      | some d => cons d (readBasic multiline .text s)
      | none =>
        if !multiline then none
        else if isSpace c || (c == '\r' && s.head? == some '\n') then
          readBasic multiline .beforeLineEnd s
        else if c = '\n' then readBasic multiline .afterLineEnd s
        else none
  | .code left value, c :: s =>
    match Text.hexValue? c with
    | none => none
    | some d =>
      if left = 1 then
        match charOfCode? (value * 16 + d) with
        | some c => cons c (readBasic multiline .text s)
        | none => none
      else readBasic multiline (.code (left - 1) (value * 16 + d)) s
  | .beforeLineEnd, c :: s =>
    if isSpace c || (c == '\r' && s.head? == some '\n') then readBasic multiline .beforeLineEnd s
    else if c = '\n' then readBasic multiline .afterLineEnd s
    else none
  | position, c :: s =>
    let skips := match position with | .afterLineEnd => true | _ => false
    if skips && (isSpace c || c == '\n' || (c == '\r' && s.head? == some '\n')) then
      readBasic multiline .afterLineEnd s
    else if c = '\\' then readBasic multiline .escape s
    else if c = '"' then
      if !multiline then some ([], s)
      else if s.take 2 = ['"', '"'] then some (closeLines '"' (s.drop 2))
      else cons c (readBasic multiline .text s)
    else if isPlain c then cons c (readBasic multiline .text s)
    else if multiline && c == '\n' then cons c (readBasic multiline .text s)
    else if multiline && c == '\r' && s.head? == some '\n' then readBasic multiline .text s
    else none

/-- A newline directly after opening quotes does not belong to the text. -/
def dropLineEnd : List Char → List Char
  | '\n' :: s => s
  | '\r' :: '\n' :: s => s
  | s => s

/-- Reads a string in any of its forms; gives its text and what follows. -/
def unquote? : List Char → Option (List Char × List Char)
  | '"' :: '"' :: '"' :: s => readBasic true .text (dropLineEnd s)
  | '"' :: s => readBasic false .text s
  | '\'' :: '\'' :: '\'' :: s => readLiteralLines (dropLineEnd s)
  | '\'' :: s => readLiteral s
  | _ => none

end RecordGraph.Toml
