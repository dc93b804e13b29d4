import RecordGraph.Binary64.Basic

/-!
# Rounding to binary64

A ratio of natural numbers goes to the nearest number of the format, and a tie
to the neighbour with an even significand. Decimal numbers are read through
this one function.
-/
namespace RecordGraph

/-- The quotient rounded to the nearest whole number, a tie to the even one. -/
def divEven (num den : Nat) : Nat :=
  let quotient := num / den
  let rest := num % den
  if 2 * rest < den then quotient
  else if den < 2 * rest then quotient + 1
  else quotient + quotient % 2

/-- The number `digits * 10 ^ exponent`. -/
structure Decimal where
  digits : Nat
  exponent : Int
  deriving DecidableEq

namespace Decimal

/-- Moves zeros from the end of the digits into the exponent. -/
def normalize (d : Decimal) : Decimal :=
  if h : 0 < d.digits ∧ d.digits % 10 = 0 then
    normalize ⟨d.digits / 10, d.exponent + 1⟩
  else d
termination_by d.digits
decreasing_by exact Nat.div_lt_self h.1 (by decide)

end Decimal

namespace Binary64

/-- The number nearest to `num / den` units of `2 ^ -1074`. -/
def ofUnits (negative : Bool) (num den : Nat) : Binary64 :=
  let exponent := Nat.log2 (num / den) - 52
  let significand := divEven num (den * Nat.pow 2 exponent)
  if significand = Nat.pow 2 53 then ofParts negative (Nat.pow 2 52) (exponent + 1)
  else ofParts negative significand exponent

/-- The number nearest to a decimal. -/
def ofDecimal (negative : Bool) (d : Decimal) : Binary64 :=
  match d.exponent with
  | .ofNat e => ofUnits negative (d.digits * Nat.pow 10 e * Magnitude.unitsPerOne) 1
  | .negSucc e => ofUnits negative (d.digits * Magnitude.unitsPerOne) (Nat.pow 10 (e + 1))

/-- Widens the 32-bit format `sign, 8 bits of exponent, 23 bits of fraction`;
every such number is a number of the wider format. -/
def ofSingleWord (word : Nat) : Binary64 :=
  let fraction := word % Nat.pow 2 23
  let exponent := word / Nat.pow 2 23 % Nat.pow 2 8
  let negative := word / Nat.pow 2 31 % 2 == 1
  if exponent = 255 then if fraction = 0 then infinite negative else nan
  else if exponent = 0 then ofUnits negative (fraction * Nat.pow 2 925) 1
  else ofUnits negative ((Nat.pow 2 23 + fraction) * Nat.pow 2 (exponent + 924)) 1

end Binary64
end RecordGraph
