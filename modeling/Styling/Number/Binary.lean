/-!
# Binary64 numbers

What values need of binary64 arithmetic beyond its basic operations: the nearest number to a
decimal or to a quotient of integers, truncation, and comparisons whose result is one of the operands
also where one of them is not a number.
-/

namespace Styling.Number.Binary

def infinity : Float := Float.ofBits 0x7FF0000000000000

def largest : Float := Float.ofBits 0x7FEFFFFFFFFFFFFF

/-- The nearest number to `coefficient * 10 ^ exponent`. Exponents far beyond the range of binary64
are answered without computing the power. -/
def ofDecimal (coefficient : Nat) (exponent : Int) : Float :=
  if coefficient = 0 then 0
  else if exponent > 400 then infinity
  else if (coefficient.log2 : Int) + 3 * exponent < -1200 then 0
  else Float.ofScientific coefficient (exponent < 0) exponent.natAbs

/-- The nearest number to `n / d`, infinite if that is out of range. Beyond the integers that are
exact in binary64 the quotient is taken with spare bits, the last of which records a remainder. -/
def ofQuotient (n d : Nat) : Float :=
  if n < Nat.pow 2 53 then Float.ofNat n / Float.ofNat d
  else
    let spare := if n < Nat.pow 2 512 then 64 else 0
    let m := n * Nat.pow 2 spare
    let q := if m % d = 0 then m / d else m / d ||| 1
    Float.ofNat q / Float.ofNat (Nat.pow 2 spare)

def ofSignedQuotient (n : Int) (d : Nat) : Float :=
  if n < 0 then -ofQuotient n.natAbs d else ofQuotient n.natAbs d

/-- The lesser operand: the second only if it is less. -/
def least (a b : Float) : Float := if b < a then b else a

/-- The greater operand: the second only if it is greater. -/
def greatest (a b : Float) : Float := if b > a then b else a

def clampToFinite (x : Float) : Float :=
  if x.isNaN then 0 else greatest (-largest) (least x largest)

/-- The integral part of a finite number; zero has no sign. -/
def truncate (x : Float) : Float :=
  let bits := x.toBits
  let exponent := ((bits >>> 52) &&& 0x7FF).toNat
  if exponent < 1023 then 0
  else if 1075 ≤ exponent then x
  else
    let places := (1075 - exponent).toUInt64
    Float.ofBits ((bits >>> places) <<< places)

/-- The integral part of a finite number, as an integer. -/
def toInteger? (x : Float) : Option Int :=
  match x.toModel.unpack with
  | .notANumber | .infinity _ => none
  | .zero _ => some 0
  | .finite sign mantissa exponent _ =>
    let magnitude :=
      if 0 ≤ exponent then mantissa * Nat.pow 2 exponent.toNat
      else mantissa / Nat.pow 2 (-exponent).toNat
    some (sign.apply magnitude)

/-- The number nearest to an integer, unless that is out of range. -/
def ofInteger? (n : Int) : Option Float :=
  let x := Float.ofModel (.ofInt n)
  if x.isFinite then some x else none

/-- Truncation by way of an integer, which infinities and what is not a number do not have. -/
def truncate? (x : Float) : Option Float := do ofInteger? (← toInteger? x)

end Styling.Number.Binary
