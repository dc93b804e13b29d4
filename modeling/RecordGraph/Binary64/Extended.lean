import RecordGraph.Binary64.Notation

/-!
# Reading with 64 bits

A reader of decimal numbers that computes with significands of 64 bits. It takes
as many digits as fit, scales them by powers of ten in steps, and rounds after
each step. Most numbers come out as they were written, a few as a neighbour, and
the largest one as an infinity.
-/
namespace RecordGraph

/-- The number `significand * 2 ^ exponent`. -/
structure Extended where
  significand : Nat
  exponent : Int
  deriving DecidableEq

namespace Extended

/-! ## Arithmetic -/

/-- Rounds to 64 bits, a tie to the even significand. -/
def round (x : Extended) : Extended :=
  let excess := Nat.log2 x.significand - 63
  ⟨divEven x.significand (Nat.pow 2 excess), x.exponent + excess⟩

def mul (x y : Extended) : Extended :=
  round ⟨x.significand * y.significand, x.exponent + y.exponent⟩

/-- The number nearest to `10 ^ n`. -/
def tens (n : Nat) : Extended := round ⟨Nat.pow 10 n, 0⟩

/-- The number nearest to `10 ^ -n`, for `n` above zero. -/
def tenths (n : Nat) : Extended :=
  let bits := Nat.log2 (Nat.pow 10 n) + 64
  ⟨divEven (Nat.pow 2 bits) (Nat.pow 10 n), -bits⟩

/-- Multiplies by a power of ten: by hundreds of tens, by tens of them, and one
by one. -/
def scale (x : Extended) : Int → Extended
  | .ofNat e => stepwise tens e
  | .negSucc e => stepwise tenths (e + 1)
where
  stepwise (power : Nat → Extended) (e : Nat) : Extended :=
    (List.replicate (e / 100) (power 100) ++ List.replicate (e / 10 % 10) (power 10) ++
      List.replicate (e % 10) (power 1)).foldl mul x

/-- Units of the largest number of the binary64 format. -/
def mostUnits : Nat := (Nat.pow 2 53 - 1) * Nat.pow 2 2045

/-- The nearest number of the binary64 format; what is beyond the largest one,
however little, is infinite. -/
def toBinary64 (negative : Bool) (x : Extended) : Binary64 :=
  match x.exponent + 1074 with
  | .ofNat e =>
    let units := x.significand * Nat.pow 2 e
    if mostUnits < units then .infinite negative else .ofUnits negative units 1
  | .negSucc e => .ofUnits negative x.significand (Nat.pow 2 (e + 1))

/-! ## Digits -/

/-- Below this a number has room for any further digit. -/
def digitLimit : Nat := (Nat.pow 2 64 - 10) / 10

/-- Below this a number may be multiplied by ten. -/
def growLimit : Nat := (Nat.pow 2 64 - 2048) / 10

def digitValue (c : Char) : Nat := c.toNat - '0'.toNat

/-- Takes digits before the point as long as there is room; with them goes the
count of those left over. -/
def takeWhole (n : Nat) : List Char → Nat × Nat
  | [] => (n, 0)
  | c :: s =>
    let n := n * 10 + digitValue c
    if n < digitLimit then takeWhole n s else (n, s.length)

/-- Takes digits behind the point as long as there is room, and counts them. -/
def takeFraction (n : Nat) : List Char → Nat × Nat
  | [] => (n, 0)
  | c :: s =>
    if n < digitLimit then
      let (n, taken) := takeFraction (n * 10 + digitValue c) s
      (n, taken + 1)
    else (n, 0)

/-- Moves tens from the exponent into the digits. -/
def grow (n : Nat) : Nat → Nat × Nat
  | 0 => (n, 0)
  | e + 1 => if n < growLimit then grow (n * 10) e else (n, e + 1)

/-- Moves zeros at the end of the digits into a negative exponent. -/
def shrink (n : Nat) : Nat → Nat × Nat
  | 0 => (n, 0)
  | e + 1 => if n % 10 = 0 then shrink (n / 10) e else (n, e + 1)

/-- The number with these digits before and behind the point. -/
def read (negative : Bool) (whole fraction : List Char) : Binary64 :=
  let (n, left) := takeWhole 0 whole
  let (n, taken) := takeFraction n fraction
  if n = 0 then .finite negative .zero
  else
    let (n, up) := grow n (left - taken)
    let (n, down) := shrink n (taken - left)
    (scale ⟨n, 0⟩ (up - down)).toBinary64 negative

end Extended

/-- What a number becomes if it is written with a point and read with 64 bits. -/
def Binary64.reread : Binary64 → Binary64
  | .finite negative m =>
    let (whole, rest) := Text.spanDigits (pointed false m)
    Extended.read negative whole rest.tail
  | x => x

end RecordGraph
