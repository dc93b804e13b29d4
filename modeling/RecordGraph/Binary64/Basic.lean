/-!
# Binary64 numbers

Numbers of the 64-bit binary interchange format as data: a sign, a 53-bit
significand and an exponent. Every finite magnitude is a whole number of units
of `2 ^ -1074`, the smallest one above zero. Not-a-number is one value, without
a payload. No machine arithmetic is used.
-/
namespace RecordGraph

/-- The magnitude `significand * 2 ^ (exponent - 1074)`, where the exponent is
the smallest that a significand of 53 bits allows. -/
structure Magnitude where
  significand : Nat
  exponent : Nat
  significand_lt : significand < Nat.pow 2 53
  exponent_le : exponent ≤ 2045
  canonical : exponent = 0 ∨ Nat.pow 2 52 ≤ significand
  deriving DecidableEq

/-- A number of the binary64 format. -/
inductive Binary64 where
  | nan
  | infinite (negative : Bool)
  | finite (negative : Bool) (magnitude : Magnitude)
  deriving DecidableEq

namespace Magnitude

/-- The magnitude counted in units of `2 ^ -1074`. -/
def units (m : Magnitude) : Nat := m.significand * Nat.pow 2 m.exponent

/-- How many units make one. -/
def unitsPerOne : Nat := Nat.pow 2 1074

def zero : Magnitude := ⟨0, 0, by decide, by decide, .inl rfl⟩

def IsWhole (m : Magnitude) : Prop := m.units % unitsPerOne = 0

instance (m : Magnitude) : Decidable m.IsWhole := inferInstanceAs (Decidable (_ = _))

end Magnitude

namespace Binary64

def IsFinite : Binary64 → Prop
  | finite .. => True
  | _ => False

instance : DecidablePred IsFinite
  | finite .. => isTrue trivial
  | nan | infinite _ => isFalse id

/-- The number with this significand and exponent; an exponent beyond the
format gives an infinity. -/
def ofParts (negative : Bool) (significand exponent : Nat) : Binary64 :=
  if h : significand < Nat.pow 2 53 ∧ exponent ≤ 2045 ∧
      (exponent = 0 ∨ Nat.pow 2 52 ≤ significand) then
    finite negative ⟨significand, exponent, h.1, h.2.1, h.2.2⟩
  else infinite negative

/-- Decodes the word `sign, 11 bits of exponent, 52 bits of fraction`. -/
def ofWord (word : Nat) : Binary64 :=
  let fraction := word % Nat.pow 2 52
  let exponent := word / Nat.pow 2 52 % Nat.pow 2 11
  let negative := word / Nat.pow 2 63 % 2 == 1
  if exponent = 2047 then if fraction = 0 then infinite negative else nan
  else if exponent = 0 then ofParts negative fraction 0
  else ofParts negative (Nat.pow 2 52 + fraction) (exponent - 1)

/-- Encodes as a word; not-a-number has the word `0x7ff8000000000000`. -/
def toWord : Binary64 → Nat
  | nan => 0x7ff8000000000000
  | infinite negative => signWord negative + 0x7ff0000000000000
  | finite negative m =>
    signWord negative +
      if m.significand < Nat.pow 2 52 then m.significand
      else (m.exponent + 1) * Nat.pow 2 52 + (m.significand - Nat.pow 2 52)
where
  signWord (negative : Bool) : Nat := if negative then Nat.pow 2 63 else 0

end Binary64
end RecordGraph
