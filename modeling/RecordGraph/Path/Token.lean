import RecordGraph.Text.Blank

/-!
# Tokens of paths

A path consists of names and four marks, with blanks anywhere between them.
Every text has tokens; each knows at which character it begins.
-/
namespace RecordGraph.Path

/-- A name is given by its first character and the others. -/
inductive Symbol where
  | name (first : Char) (more : List Char)
  | dot
  | opening
  | closing
  | equals
  deriving DecidableEq

structure Token where
  symbol : Symbol
  position : Nat
  deriving DecidableEq

def isMark (c : Char) : Bool := c == '.' || c == '[' || c == ']' || c == '='

def isNameChar (c : Char) : Bool := !Text.isBlank c && !isMark c

namespace Symbol

def ofMark : Char → Symbol
  | '.' => dot
  | '[' => opening
  | ']' => closing
  | '=' => equals
  | c => name c []

/-- The character at which a token begins. -/
def first : Symbol → Char
  | name c _ => c
  | dot => '.'
  | opening => '['
  | closing => ']'
  | equals => '='

end Symbol

private theorem length_dropWhile_le (p : Char → Bool) (s : List Char) :
    (s.dropWhile p).length ≤ s.length :=
  (List.dropWhile_suffix p).length_le

/-- The tokens of a text whose first character has the given position. -/
def tokens (position : Nat) : List Char → List Token
  | [] => []
  | c :: s =>
    if Text.isBlank c then tokens (position + 1) s
    else if isMark c then ⟨.ofMark c, position⟩ :: tokens (position + 1) s
    else
      ⟨.name c (s.takeWhile isNameChar), position⟩ ::
        tokens (position + 1 + (s.takeWhile isNameChar).length) (s.dropWhile isNameChar)
termination_by s => s.length
decreasing_by
  · simp
  · simp
  · exact Nat.lt_succ_of_le (length_dropWhile_le isNameChar s)

end RecordGraph.Path
