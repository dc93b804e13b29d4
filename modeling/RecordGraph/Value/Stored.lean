import RecordGraph.Binary64.Extended
import RecordGraph.Value.Basic

/-!
# Stored values

What is left of a value once it was written as a literal: a date is its text,
and a real that is not finite is null. A row store reads literals with 64 bits,
so that what it keeps of a real may be another one. Conditions compare what is
kept.
-/
namespace RecordGraph

namespace Value

/-- How a value is kept: a date as its text, a real without a literal as null. -/
def stored : Value → Value
  | dateTime d => text (String.ofList d.toText)
  | real (.finite negative m) => real (.finite negative m)
  | real _ => null
  | v => v

/-- What a row store keeps of a value: the stored form, read from its literal. -/
def kept (v : Value) : Value :=
  match v.stored with
  | real x => real x.reread
  | v => v

/-- The size of a number in units of `2 ^ -1074`. -/
def units? : Value → Option Int
  | integer n => some (n.toInt * Magnitude.unitsPerOne)
  | real (.finite negative m) => some (if negative then -m.units else m.units)
  | _ => none

/-- Equality of kept values in a condition: numbers by size, infinities, texts and
blobs exactly. Null equals nothing. -/
def Agrees (v w : Value) : Prop :=
  match v with
  | text _ | blob _ | real (.infinite _) => v = w
  | _ => v.units?.isSome = true ∧ v.units? = w.units?

instance (v w : Value) : Decidable (v.Agrees w) :=
  match v with
  | text s => inferInstanceAs (Decidable (text s = w))
  | blob s => inferInstanceAs (Decidable (blob s = w))
  | real (.infinite n) => inferInstanceAs (Decidable (real (.infinite n) = w))
  | null | integer _ | real .nan | real (.finite ..) | dateTime _ =>
    inferInstanceAs (Decidable (_ ∧ _))

end Value

end RecordGraph
