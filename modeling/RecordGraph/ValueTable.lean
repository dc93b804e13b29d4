import RecordGraph.Text.Columns
import RecordGraph.Value.Basic

/-!
# Tables of values

Paths and their values in a box of two columns. A cell may have several lines;
every line is padded to the width of its column.
-/
namespace RecordGraph.ValueTable

/-- A cell as its lines. -/
abbrev Cell := List (List Char)

/-- The lines of a text; an empty text has one empty line. -/
def lines (s : String) : Cell := s.toList.splitOn '\n'

/-- Columns that the widest line takes. -/
def width (cells : List Cell) : Nat :=
  (cells.flatten.map Text.columns).foldl max 0

/-- A line with a blank before it, filled up behind. -/
def pad (width : Nat) (line : List Char) : List Char :=
  ' ' :: line ++ List.replicate (width - Text.columns line + 1) ' '

/-- The characters of a horizontal rule. -/
structure Rule where
  left : Char
  middle : Char
  right : Char

def top : Rule := ⟨'╭', '┬', '╮'⟩
def separator : Rule := ⟨'├', '┼', '┤'⟩
def bottom : Rule := ⟨'╰', '┴', '╯'⟩

def Rule.line (r : Rule) (w₁ w₂ : Nat) : List Char :=
  r.left :: List.replicate (w₁ + 2) '─' ++ r.middle :: List.replicate (w₂ + 2) '─' ++ [r.right]

/-- The printed lines of a row; the shorter cell is filled up with empty lines. -/
def rowLines (w₁ w₂ : Nat) (row : Cell × Cell) : List (List Char) :=
  (List.range (max row.1.length row.2.length)).map fun i =>
    '│' :: pad w₁ (row.1.getD i []) ++ '│' :: pad w₂ (row.2.getD i []) ++ ['│']

def header : Cell × Cell := (lines "Path", lines "Value")

/-- The table of as many rows as there are both paths and values; without rows
there is no table. -/
def render (paths : List String) (values : List Value) : String :=
  let rows := (paths.zip values).map fun (p, v) => (lines p, lines v.display)
  if rows = [] then ""
  else
    let w₁ := width ((header :: rows).map Prod.fst)
    let w₂ := width ((header :: rows).map Prod.snd)
    let body := rows.flatMap (rowLines w₁ w₂)
    let all := top.line w₁ w₂ :: rowLines w₁ w₂ header ++ separator.line w₁ w₂ :: body ++
      [bottom.line w₁ w₂]
    String.ofList (['\n'].intercalate all)

end RecordGraph.ValueTable
