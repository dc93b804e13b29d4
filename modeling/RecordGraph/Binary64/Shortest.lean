import RecordGraph.Binary64.Rounding
import RecordGraph.Text.Digits

/-!
# Shortest decimals

The decimal with the fewest digits that rounds back to a magnitude, and of
those the nearest one. For each count of digits only the two neighbours of the
magnitude on that decimal grid are tried, and each is tested by reading it back.
-/
namespace RecordGraph.Magnitude

/-- Which of two equally near decimals is taken. -/
inductive Tie where
  | upper
  | even
  deriving DecidableEq

/-- Whether the decimal, read as a number, is this magnitude. -/
def ReadsBack (m : Magnitude) (d : Decimal) : Prop :=
  Binary64.ofDecimal false d = .finite false m

instance (m : Magnitude) (d : Decimal) : Decidable (m.ReadsBack d) :=
  inferInstanceAs (Decidable (_ = _))

/-- The exponent of the first decimal digit of a magnitude above zero. -/
def leadingExponent (m : Magnitude) : Int :=
  if unitsPerOne ≤ m.units then (Text.digitCount (m.units / unitsPerOne) : Int) - 1
  else -(Text.digitCount ((unitsPerOne - 1) / m.units) : Int)

/-- The magnitude in steps of `10 ^ exponent`, as a ratio. -/
def gridRatio (m : Magnitude) : Int → Nat × Nat
  | .ofNat e => (m.units, unitsPerOne * Nat.pow 10 e)
  | .negSucc e => (m.units * Nat.pow 10 (e + 1), unitsPerOne)

/-- The nearer of the two neighbours on the grid `10 ^ exponent` that read back. -/
def onGrid? (tie : Tie) (m : Magnitude) (exponent : Int) : Option Decimal :=
  let (num, den) := m.gridRatio exponent
  let lower : Decimal := ⟨num / den, exponent⟩
  let upper : Decimal := ⟨num / den + 1, exponent⟩
  let rest := num % den
  let preferLower := 2 * rest < den ∨
    (2 * rest = den ∧ tie = .even ∧ lower.digits % 2 = 0)
  if m.ReadsBack lower then
    if m.ReadsBack upper ∧ ¬ preferLower then some upper else some lower
  else if m.ReadsBack upper then some upper
  else none

/-- All digits of the magnitude. -/
def exact (m : Magnitude) : Decimal := ⟨m.units * Nat.pow 5 1074, -1074⟩

/-- The shortest decimal that reads back; 17 digits always suffice. -/
def shortest (tie : Tie) (m : Magnitude) : Decimal :=
  let leading := m.leadingExponent
  let found := (List.range 17).findSome? fun (n : Nat) => m.onGrid? tie (leading - n)
  (found.getD m.exact).normalize

end RecordGraph.Magnitude
