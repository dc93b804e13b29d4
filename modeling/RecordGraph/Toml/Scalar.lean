import RecordGraph.Binary64.Notation
import RecordGraph.Calendar

/-!
# TOML scalars without quotes

Booleans, integers in four bases, floats, dates and times. Underscores may
stand between two digits.
-/
namespace RecordGraph.Toml

inductive Scalar where
  | string (s : String)
  | integer (n : Int64)
  | float (x : Binary64)
  | boolean (b : Bool)
  | moment (s : String)
  deriving DecidableEq

/-- Digits of the given kind, with single underscores between them; gives the
digits alone. -/
def digitRun (isDigit : Char → Bool) (s : List Char) : Option (List Char) :=
  let groups := s.splitOn '_'
  if groups.all fun g => g ≠ [] ∧ g.all isDigit = true then some groups.flatten else none

/-- A decimal number without needless zeros in front. -/
def decimalRun (s : List Char) : Option (List Char) := do
  let ds ← digitRun Char.isDigit s
  if ds.length ≠ 1 ∧ ds.head? = some '0' then none else some ds

def isHexDigit (c : Char) : Bool :=
  c.isDigit || ('a' ≤ c && c ≤ 'f') || ('A' ≤ c && c ≤ 'F')

def isOctalDigit (c : Char) : Bool := '0' ≤ c && c ≤ '7'

def isBinaryDigit (c : Char) : Bool := c == '0' || c == '1'

/-- The value of a digit of any base up to sixteen. -/
def digitValue (c : Char) : Nat :=
  if c.isDigit then c.toNat - '0'.toNat else c.toLower.toNat - 'a'.toNat + 10

def ofBase (base : Nat) (ds : List Char) : Nat :=
  ds.foldl (fun n c => n * base + digitValue c) 0

def ofRange? (n : Int) : Option Int64 :=
  if Int64.minValue.toInt ≤ n ∧ n ≤ Int64.maxValue.toInt then some (Int64.ofInt n) else none

def integer? : List Char → Option Int64
  | '0' :: 'x' :: s => do ofRange? (ofBase 16 (← digitRun isHexDigit s))
  | '0' :: 'o' :: s => do ofRange? (ofBase 8 (← digitRun isOctalDigit s))
  | '0' :: 'b' :: s => do ofRange? (ofBase 2 (← digitRun isBinaryDigit s))
  | s => do
    let (negative, s) := Text.splitSign s
    let n : Int := Text.ofDigits (← decimalRun s)
    ofRange? (if negative then -n else n)

/-- A float has a fraction, an exponent or both; positive numbers beyond the
format are refused. -/
def float? (s : List Char) : Option Binary64 := do
  let (negative, s) := Text.splitSign s
  if s = ['i', 'n', 'f'] then some (.infinite negative)
  else if s = ['n', 'a', 'n'] then some .nan
  else
    let isNumeral := fun c : Char => c.isDigit || c == '_'
    let (whole, s) := s.span isNumeral
    let whole ← decimalRun whole
    let (fraction, s) ← match s with
      | '.' :: s =>
        let (fraction, s) := s.span isNumeral
        (digitRun Char.isDigit fraction).map fun ds => (ds, s)
      | s => some ([], s)
    let exponent ← match s with
      | [] => if fraction = [] then none else some 0
      | c :: s =>
        if c = 'e' ∨ c = 'E' then
          let (negative, s) := Text.splitSign s
          (digitRun Char.isDigit s).map fun ds =>
            let n : Int := Text.ofDigits ds
            if negative then -n else n
        else none
    let x := Binary64.ofWideDecimal negative
      ⟨Text.ofDigits (whole ++ fraction), exponent - fraction.length⟩
    if x = .infinite false then none else some x

/-- A number of exactly as many digits. -/
def fixedDigits? (s : List Char) : Option Nat := Text.readNat s

/-- `YYYY-MM-DD`. -/
def isDate : List Char → Bool
  | [y₁, y₂, y₃, y₄, '-', m₁, m₂, '-', d₁, d₂] =>
    match fixedDigits? [y₁, y₂, y₃, y₄], fixedDigits? [m₁, m₂], fixedDigits? [d₁, d₂] with
    | some y, some m, some d => (Date.ofFields? y m d).isSome
    | _, _, _ => false
  | _ => false

/-- `hh:mm` within a day. -/
def isClock (h₁ h₂ m₁ m₂ : Char) : Bool :=
  match fixedDigits? [h₁, h₂], fixedDigits? [m₁, m₂] with
  | some h, some m => h < 24 && m < 60
  | _, _ => false

/-- What follows a time `hh:mm:ss`, with a fraction of the second or without. -/
def afterTime? : List Char → Option (List Char)
  | h₁ :: h₂ :: ':' :: m₁ :: m₂ :: ':' :: s₁ :: s₂ :: s =>
    match isClock h₁ h₂ m₁ m₂, fixedDigits? [s₁, s₂] with
    | true, some second =>
      if 60 < second then none
      else match s with
        | '.' :: s =>
          if (s.takeWhile Char.isDigit) = [] then none else some (s.dropWhile Char.isDigit)
        | s => some s
    | _, _ => none
  | _ => none

def isTime (s : List Char) : Bool := afterTime? s == some []

/-- `Z` or a signed distance `hh:mm`. -/
def isOffset : List Char → Bool
  | [c] => c == 'Z' || c == 'z'
  | [c, h₁, h₂, ':', m₁, m₂] => (c == '+' || c == '-') && isClock h₁ h₂ m₁ m₂
  | _ => false

/-- A time that may have an offset. -/
def isZonedTime (s : List Char) : Bool :=
  match afterTime? s with
  | some rest => rest == [] || isOffset rest
  | none => false

/-- A date, a time, or a date and a time with the letter `T` between them. -/
def isMoment (s : List Char) : Bool :=
  isTime s || isDate s ||
    (isDate (s.take 10) &&
      match s.drop 10 with
      | c :: s => (c == 'T' || c == 't') && isZonedTime s
      | [] => false)

def scalar? (s : List Char) : Option Scalar :=
  if s = ['t', 'r', 'u', 'e'] then some (.boolean true)
  else if s = ['f', 'a', 'l', 's', 'e'] then some (.boolean false)
  else match integer? s with
    | some n => some (.integer n)
    | none => match float? s with
      | some x => some (.float x)
      | none => if isMoment s then some (.moment (String.ofList s)) else none

/-- The characters of which scalars without quotes consist. -/
def isScalarChar (c : Char) : Bool :=
  c.isAlphanum || c == '_' || c == '+' || c == '-' || c == '.' || c == ':'

/-- Reads a scalar without quotes. A time may follow a date after one space. -/
def readScalar (s : List Char) : Option (Scalar × List Char) :=
  let token := s.takeWhile isScalarChar
  let rest := s.dropWhile isScalarChar
  let time := (rest.drop 1).takeWhile isScalarChar
  if isDate token && rest.head? == some ' ' && isZonedTime time then
    some (.moment (String.ofList (token ++ ' ' :: time)), (rest.drop 1).dropWhile isScalarChar)
  else (scalar? token).map fun v => (v, rest)

end RecordGraph.Toml
