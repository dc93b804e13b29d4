/-!
# Blank characters

The code points with the Unicode property White_Space, and trimming by them.
-/
namespace RecordGraph.Text

/-- The property White_Space of Unicode: 25 code points. -/
def isBlank (c : Char) : Bool :=
  let n := c.toNat
  (9 ≤ n && n ≤ 13) || n == 0x20 || n == 0x85 || n == 0xA0 || n == 0x1680 ||
    (0x2000 ≤ n && n ≤ 0x200A) || n == 0x2028 || n == 0x2029 || n == 0x202F ||
    n == 0x205F || n == 0x3000

/-- Drops blanks at the front. -/
def trimStart (s : List Char) : List Char := s.dropWhile isBlank

/-- Drops blanks at the back. -/
def trimEnd (s : List Char) : List Char := (s.reverse.dropWhile isBlank).reverse

/-- Drops blanks at both ends. -/
def trim (s : List Char) : List Char := trimEnd (trimStart s)

end RecordGraph.Text
