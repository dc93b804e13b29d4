import RecordGraph.Binary64.Notation
import RecordGraph.Calendar

/-!
# Values

The scalars that a column can hold, their text, and the two tests that the
record graph asks of them: whether a value is blank as a key, and whether it
has an exact literal.
-/
namespace RecordGraph

/-- A scalar of a column. `null` also stands for a value that is not known. -/
inductive Value where
  | null
  | integer (n : Int64)
  | real (x : Binary64)
  | text (s : String)
  | blob (bytes : List UInt8)
  | dateTime (d : DateTime)
  deriving DecidableEq

namespace Value

/-- No usable key: null, or text of blanks only. -/
def IsBlank : Value → Prop
  | null => True
  | text s => Text.trim s.toList = []
  | _ => False

instance : DecidablePred IsBlank
  | null => isTrue trivial
  | text s => inferInstanceAs (Decidable (Text.trim s.toList = []))
  | integer _ | real _ | blob _ | dateTime _ => isFalse id

/-- Every value but the reals that are not finite has an exact literal. -/
def IsWritable : Value → Prop
  | real x => x.IsFinite
  | _ => True

instance : DecidablePred IsWritable
  | real x => inferInstanceAs (Decidable x.IsFinite)
  | null | integer _ | text _ | blob _ | dateTime _ => isTrue trivial

def text? : Value → Option String
  | text s => some s
  | _ => none

/-- Two digits for a byte; `digit` chooses the case of the letters. -/
def hexByte (digit : Nat → Char) (b : UInt8) : List Char :=
  [digit (b.toNat / 16), digit (b.toNat % 16)]

/-- The text shown to people: blobs in lower-case hexadecimal, null as `NULL`. -/
def display : Value → String
  | null => "NULL"
  | integer n => String.ofList (Text.signedDigits n.toInt)
  | real x => String.ofList x.display
  | text s => s
  | blob bytes => String.ofList (bytes.flatMap (hexByte Nat.digitChar))
  | dateTime d => String.ofList d.toText

end Value
end RecordGraph
