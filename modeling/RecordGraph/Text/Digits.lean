/-!
# Digits

Natural numbers and integers written in ASCII digits, and the reader that
undoes it. Numbers are decimal, single digits may be hexadecimal.
-/
namespace RecordGraph.Text

/-- The decimal digits of `n`, without leading zeros; zero is one digit. -/
def digits (n : Nat) : List Char := Nat.toDigits 10 n

/-- The number that a run of decimal digits denotes. -/
def ofDigits (s : List Char) : Nat := Nat.ofDigitChars 10 s 0

@[simp] theorem ofDigits_digits (n : Nat) : ofDigits (digits n) = n := by
  simp [ofDigits, digits, Nat.ofDigitChars_toDigits]

/-- How many decimal digits `n` takes; zero takes none. -/
def digitCount (n : Nat) : Nat := if n = 0 then 0 else (digits n).length

/-- Zeros in front until `width` digits are reached; longer numbers stay whole. -/
def paddedDigits (width n : Nat) : List Char :=
  List.replicate (width - (digits n).length) '0' ++ digits n

/-- A minus sign where there is one, then the digits of the magnitude. -/
def signedDigits (n : Int) : List Char :=
  if n < 0 then '-' :: digits n.natAbs else digits n.natAbs

/-- The leading digits of a text and what follows them. -/
def spanDigits (s : List Char) : List Char × List Char :=
  (s.takeWhile Char.isDigit, s.dropWhile Char.isDigit)

/-- Digits and nothing else, at least one of them. -/
def readNat (s : List Char) : Option Nat :=
  if s ≠ [] ∧ s.all Char.isDigit = true then some (ofDigits s) else none

/-- Splits an optional sign from the front; the flag says that it is a minus. -/
def splitSign : List Char → Bool × List Char
  | '-' :: s => (true, s)
  | '+' :: s => (false, s)
  | s => (false, s)

/-- An optional sign and digits, within the range of a signed 64-bit word. -/
def readInt64 (s : List Char) : Option Int64 := do
  let (negative, s) := splitSign s
  let n ← readNat s
  let n : Int := if negative then -n else n
  if Int64.minValue.toInt ≤ n ∧ n ≤ Int64.maxValue.toInt then some (Int64.ofInt n) else none

/-- The value of a hexadecimal digit. -/
def hexValue? (c : Char) : Option Nat :=
  if '0' ≤ c ∧ c ≤ '9' then some (c.toNat - '0'.toNat)
  else if 'a' ≤ c ∧ c ≤ 'f' then some (c.toNat - 'a'.toNat + 10)
  else if 'A' ≤ c ∧ c ≤ 'F' then some (c.toNat - 'A'.toNat + 10)
  else none

/-- Reads hexadecimal digits on from a number, as far as there are any. -/
def leadingHex (n : Nat) : List Char → Nat
  | [] => n
  | c :: s =>
    match hexValue? c with
    | some d => leadingHex (n * 16 + d) s
    | none => n

end RecordGraph.Text
