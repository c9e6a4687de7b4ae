import Styling.Number.Binary
import Styling.Source.CodePoint

/-!
# Numeric literals

A numeric literal is kept as the parts it was written in. Its value is the decimal number the parts
denote, rounded to 28 significant digits with a tie going to the even neighbour; it is an integer
if neither a fraction nor an exponent was written, and the nearest binary64 number otherwise.
-/

namespace Styling.Number

inductive Sign where
  | plus
  | minus
deriving DecidableEq, Repr

namespace Sign

def toChar : Sign → Char
  | plus => '+'
  | minus => '-'

def ofChar? (c : Char) : Option Sign :=
  if c == '+' then some plus else if c == '-' then some minus else none

end Sign

/-- How a number was written: without, or with, a fraction or exponent. -/
inductive Form where
  | integer
  | number
deriving DecidableEq, Repr

inductive Value where
  | integer (n : Int)
  | real (x : Float)

/-- Why a number has no value. -/
inductive RangeError where
  /-- Zero times a power of ten that is out of range. -/
  | invalidOperation
  /-- An integer out of range. -/
  | overflow
deriving DecidableEq, Repr

/-- A numeric literal in the parts it was written in; a part not written is empty. -/
structure Literal where
  sign : Option Sign
  whole : List Char
  fraction : List Char
  exponentSign : Option Sign
  exponent : List Char
deriving DecidableEq, Repr

def ofDigits (ds : List Char) : Nat := ds.foldl (fun n d => 10 * n + (d.toNat - 0x30)) 0

/-- A decimal number of limited precision, its sign apart. -/
inductive Magnitude where
  | finite (coefficient : Nat) (exponent : Int)
  | infinite
deriving DecidableEq, Repr

namespace Magnitude

def precision : Nat := 28

/-- Numbers of `10 ^ exponentLimit` and more are infinite. -/
def exponentLimit : Nat := 1000000

/-- The least exponent of a power of ten that is not zero. Below the numbers of full precision there are those of
fewer digits, down to a single one. -/
def leastExponent : Int := -(exponentLimit - 1 + (precision - 1) : Nat)

/-- The quotient `n / 10 ^ k` rounded to the nearest integer, a tie to the even one. -/
def roundedQuotient (n k : Nat) : Nat :=
  let unit := Nat.pow 10 k
  let q := n / unit
  let r := n % unit
  if 2 * r > unit || (2 * r == unit && q % 2 == 1) then q + 1 else q

/-- The number `digits * 10 ^ exponent` rounded to the precision, the digits having no leading zero. -/
def rounded (digits : List Char) (exponent : Int) : Magnitude :=
  let surplus := digits.length - precision
  let coefficient := roundedQuotient (ofDigits digits) surplus
  let carried := if coefficient = Nat.pow 10 precision then 1 else 0
  if ((digits.length + carried : Nat) : Int) + exponent > exponentLimit then .infinite
  else .finite coefficient (exponent + surplus)

end Magnitude

namespace Literal

def form (l : Literal) : Form :=
  if l.fraction.isEmpty && l.exponent.isEmpty then .integer else .number

def isNegative (l : Literal) : Bool := l.sign == some .minus

def powerOfTen (l : Literal) : Int :=
  let n : Int := ofDigits l.exponent
  if l.exponentSign == some .minus then -n else n

/-- All digits of the coefficient but leading zeros. -/
def significantDigits (l : Literal) : List Char :=
  (l.whole ++ l.fraction).dropWhile (· == '0')

/-- The decimal number the literal denotes, its sign apart. A power of ten above the range is infinite, and
zero times it has no value; one below the range is zero. -/
def magnitude (l : Literal) : Except RangeError Magnitude :=
  if l.powerOfTen ≥ Magnitude.exponentLimit then
    if l.significantDigits.isEmpty then .error .invalidOperation else .ok .infinite
  else if l.significantDigits.isEmpty || l.powerOfTen < Magnitude.leastExponent then .ok (.finite 0 0)
  else .ok (.rounded l.significantDigits (l.powerOfTen - l.fraction.length))

private def signed (l : Literal) (x : Float) : Float := if l.isNegative then -x else x

/-- The value of the literal, as an integer or a binary64 number by its form. -/
def value (l : Literal) : Except RangeError Value := do
  match ← l.magnitude, l.form with
  | .infinite, .integer => .error .overflow
  | .infinite, .number => .ok (.real (signed l Binary.infinity))
  | .finite c e, .integer =>
    let n : Int := (c * Nat.pow 10 e.toNat : Nat)
    .ok (.integer (if l.isNegative then -n else n))
  | .finite c e, .number => .ok (.real (signed l (Binary.ofDecimal c e)))

end Literal

private def isDigit (c : Char) : Bool := Source.CodePoint.isDigit c.toNat

/-- The digits at the front and what follows them. -/
def scanDigits (cs : List Char) : List Char × List Char :=
  (cs.takeWhile isDigit, cs.dropWhile isDigit)

/-- The sign at the front, if there is one, and what follows it. -/
def scanSign : List Char → Option Sign × List Char
  | [] => (none, [])
  | c :: cs =>
    match Sign.ofChar? c with
    | some s => (some s, cs)
    | none => (none, c :: cs)

/-- The digits after a point at the front, if there are any, and what follows them. -/
def scanFraction : List Char → List Char × List Char
  | '.' :: d :: cs => if isDigit d then scanDigits (d :: cs) else ([], '.' :: d :: cs)
  | cs => ([], cs)

/-- The digits of an exponent with their sign, if an exponent is at the front, and what follows. -/
def scanExponent : List Char → Option Sign × List Char × List Char
  | [] => (none, [], [])
  | e :: cs =>
    let (sign, rest) := scanSign cs
    let (digits, after) := scanDigits rest
    if (e == 'e' || e == 'E') && !digits.isEmpty then (sign, digits, after) else (none, [], e :: cs)

/-- The literal at the front of the characters, in its parts, and what follows it. An exponent mark
without a digit, like a point without one, is not part of the literal. -/
def scanLiteral (cs : List Char) : Literal × List Char :=
  let (sign, cs) := scanSign cs
  let (whole, cs) := scanDigits cs
  let (fraction, cs) := scanFraction cs
  let (exponentSign, exponent, cs) := scanExponent cs
  (⟨sign, whole, fraction, exponentSign, exponent⟩, cs)

theorem isSuffix_scanDigits (cs : List Char) : (scanDigits cs).2 <:+ cs :=
  List.dropWhile_suffix isDigit

theorem isSuffix_scanSign (cs : List Char) : (scanSign cs).2 <:+ cs := by
  fun_cases scanSign cs with
  | case1 => exact List.suffix_rfl
  | case2 c cs => exact List.suffix_cons c cs
  | case3 => exact List.suffix_rfl

theorem isSuffix_scanFraction (cs : List Char) : (scanFraction cs).2 <:+ cs := by
  fun_cases scanFraction cs with
  | case1 d cs => exact (isSuffix_scanDigits (d :: cs)).trans (List.suffix_cons _ _)
  | case2 => exact List.suffix_rfl
  | case3 => exact List.suffix_rfl

theorem isSuffix_scanExponent (cs : List Char) : (scanExponent cs).2.2 <:+ cs := by
  cases cs with
  | nil => exact List.suffix_rfl
  | cons e cs =>
    simp only [scanExponent]
    split
    · exact (isSuffix_scanDigits _).trans ((isSuffix_scanSign cs).trans (List.suffix_cons e cs))
    · exact List.suffix_rfl

private theorem scanLiteral_rest (cs : List Char) : (scanLiteral cs).2 =
    (scanExponent (scanFraction (scanDigits (scanSign cs).2).2).2).2.2 := rfl

/-- What follows a literal that begins with a sign, a digit, or a point and a digit, which takes a
character at least. -/
theorem isSuffix_scanLiteral (c : Char) (cs : List Char)
    (h : (Sign.ofChar? c).isSome ∨ Source.CodePoint.isDigit c.toNat ∨
      (c = '.' ∧ ∃ d ds, cs = d :: ds ∧ Source.CodePoint.isDigit d.toNat)) :
    (scanLiteral (c :: cs)).2 <:+ cs := by
  rw [scanLiteral_rest]
  refine (isSuffix_scanExponent _).trans ?_
  by_cases hs : (Sign.ofChar? c).isSome
  · obtain ⟨s, hs⟩ := Option.isSome_iff_exists.1 hs
    have hscan : (scanSign (c :: cs)).2 = cs := by simp [scanSign, hs]
    rw [hscan]
    exact (isSuffix_scanFraction _).trans (isSuffix_scanDigits cs)
  · have hn : Sign.ofChar? c = none := by simpa using hs
    have hscan : (scanSign (c :: cs)).2 = c :: cs := by simp [scanSign, hn]
    rw [hscan]
    by_cases hd : isDigit c
    · refine (isSuffix_scanFraction _).trans ?_
      simp only [scanDigits, List.dropWhile_cons, hd, if_true]
      exact isSuffix_scanDigits cs
    · obtain ⟨rfl, d, ds, rfl, hdd⟩ : c = '.' ∧ ∃ d ds, cs = d :: ds ∧
          Source.CodePoint.isDigit d.toNat := by
        rcases h with h | h | h
        · exact absurd h hs
        · exact absurd h hd
        · exact h
      have hdd' : isDigit d := hdd
      have hpoint : (scanDigits ('.' :: d :: ds)).2 = '.' :: d :: ds := by
        simp [scanDigits, hd]
      rw [hpoint]
      simp only [scanFraction, hdd', if_true]
      exact isSuffix_scanDigits (d :: ds)

end Styling.Number
