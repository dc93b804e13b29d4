import RecordGraph.Binary64.Shortest

/-!
# Binary64 numbers as text

Positional and scientific notation of a decimal, the shortest positional text
of a number, the text of a whole number in full, and the reader of decimal
numbers.
-/
namespace RecordGraph

namespace Decimal

/-- Digits with a point where the exponent puts it, and no point for a whole
number. -/
def positional (d : Decimal) : List Char :=
  let ds := Text.digits d.digits
  match d.exponent with
  | .ofNat e => if d.digits = 0 then ['0'] else ds ++ List.replicate e '0'
  | .negSucc e =>
    let places := e + 1
    if places < ds.length then ds.take (ds.length - places) ++ '.' :: ds.drop (ds.length - places)
    else '0' :: '.' :: (List.replicate (places - ds.length) '0' ++ ds)

/-- One digit, a point if more follow, and a signed exponent. -/
def scientific (d : Decimal) : List Char :=
  let ds := Text.digits d.digits
  let exponent := d.exponent + (ds.length - 1 : Nat)
  let sign := if exponent < 0 then '-' else '+'
  let fraction := if ds.length = 1 then [] else '.' :: ds.drop 1
  ds.take 1 ++ fraction ++ 'e' :: sign :: Text.digits exponent.natAbs

/-- The power of ten of the first digit. -/
def leading (d : Decimal) : Int := d.exponent + ((Text.digits d.digits).length - 1 : Nat)

end Decimal

namespace Binary64

def signed (negative : Bool) (text : List Char) : List Char :=
  if negative then '-' :: text else text

/-- The shortest digits that read back, always positional: `-0`, `0.1`, `NaN`, `-inf`. -/
def display : Binary64 → List Char
  | nan => ['N', 'a', 'N']
  | infinite negative => signed negative ['i', 'n', 'f']
  | finite negative m => signed negative (m.shortest .upper).positional

/-- A whole number with all its digits and `.0`, any other number as displayed. -/
def pointed (negative : Bool) (m : Magnitude) : List Char :=
  if m.IsWhole then
    signed negative (Text.digits (m.units / Magnitude.unitsPerOne) ++ ['.', '0'])
  else signed negative (m.shortest .upper).positional

/-- The exponent part of a decimal number: nothing, or `e` with an optional
sign and digits. -/
def readExponent : List Char → Option Int
  | [] => some 0
  | c :: s =>
    if c = 'e' ∨ c = 'E' then do
      let (negative, s) := Text.splitSign s
      let n ← Text.readNat s
      some (if negative then -n else n)
    else none

/-- A decimal number without a sign: digits with an optional point, at least
one digit, and an optional exponent. -/
def readDecimal (s : List Char) : Option Decimal :=
  let (whole, s) := Text.spanDigits s
  let (fraction, s) := match s with
    | '.' :: s => Text.spanDigits s
    | s => ([], s)
  if whole = [] ∧ fraction = [] then none
  else do
    let exponent ← readExponent s
    some ⟨Text.ofDigits (whole ++ fraction), exponent - fraction.length⟩

/-- Rounds a decimal of any exponent; beyond `10 ^ 310` all numbers are
infinite, and below `10 ^ -330` all are zero. -/
def ofWideDecimal (negative : Bool) (d : Decimal) : Binary64 :=
  let reach := d.exponent + Text.digitCount d.digits
  if d.digits = 0 ∨ reach < -330 then finite negative .zero
  else if 310 < reach then infinite negative
  else ofDecimal negative d

/-- Reads an optional sign and a decimal number. -/
def read (s : List Char) : Option Binary64 := do
  let (negative, s) := Text.splitSign s
  let d ← readDecimal s
  some (ofWideDecimal negative d)

end Binary64
end RecordGraph
