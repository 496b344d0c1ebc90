import IgaArchive.Text.Numeral

/-!
Double-precision numbers in fixed notation. A finite double is a whole number times a power of two,
so its decimal digits are computed exactly; a half goes to the even neighbour.
-/

namespace IgaArchive.Fixed

/-- The quotient rounded to the nearest whole number, a half to the even neighbour. -/
def roundDiv (num den : Nat) : Nat :=
  let quotient := num / den
  let twice := 2 * (num % den)
  if twice < den then quotient
  else if den < twice then quotient + 1
  else quotient + quotient % 2

inductive Value where
  /-- The number `±mantissa · 2^exponent`. -/
  | finite (negative : Bool) (mantissa : Nat) (exponent : Int)
  | infinite (negative : Bool)
  | notANumber
  deriving Repr

def Value.ofFloat (x : Float) : Value :=
  let bits := x.toBits.toNat
  let negative : Bool := 0x8000000000000000 ≤ bits
  let exponent : Nat := bits / 0x10000000000000 % 0x800
  let fraction : Nat := bits % 0x10000000000000
  if exponent = 2047 then if fraction = 0 then .infinite negative else .notANumber
  else if exponent = 0 then .finite negative fraction (-1074)
  else .finite negative (fraction + 0x10000000000000) (exponent - 1075)

def scaled (scale mantissa : Nat) (exponent : Int) : Nat :=
  if 0 ≤ exponent then scale * mantissa * Nat.pow 2 exponent.toNat
  else roundDiv (scale * mantissa) (Nat.pow 2 (-exponent).toNat)

def wholePart (mantissa : Nat) (exponent : Int) : Nat :=
  if 0 ≤ exponent then mantissa * Nat.pow 2 exponent.toNat else mantissa / Nat.pow 2 (-exponent).toNat

def tenths (x : Float) : Bytes :=
  match Value.ofFloat x with
  | .finite negative mantissa exponent =>
    let n := scaled 10 mantissa exponent
    (if negative then utf8 "-" else []) ++ Numeral.decimal (n / 10) ++ utf8 "." ++
      Numeral.decimal (n % 10)
  | .infinite negative => utf8 (if negative then "-Inf" else "+Inf")
  | .notANumber => utf8 "NaN"

/-- The whole part of a nonnegative number as 64 bits; what exceeds them becomes `2^63`. -/
def toUInt64 (x : Float) : UInt64 :=
  match Value.ofFloat x with
  | .finite false mantissa exponent =>
    let n := wholePart mantissa exponent
    if n < UInt64.size then n.toUInt64 else 0x8000000000000000
  | _ => 0x8000000000000000

/-- The whole part of a number as a signed 64-bit number; what exceeds it becomes `-2^63`. -/
def toInt64 (x : Float) : Int64 :=
  match Value.ofFloat x with
  | .finite negative mantissa exponent =>
    let n := wholePart mantissa exponent
    let z : Int := if negative then -n else n
    if Int64.minValue.toInt ≤ z ∧ z ≤ Int64.maxValue.toInt then Int64.ofInt z else Int64.minValue
  | _ => Int64.minValue

end IgaArchive.Fixed
