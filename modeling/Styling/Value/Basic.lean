import Styling.Component.Cursor
import Styling.Number.Binary

/-!
# Numbers and percentages

What values made of one number have in common: the range they are restricted to, and reading them
from numeric tokens. `NonNegative` and `OrAuto` add a restriction or a keyword to another value.
-/

namespace Styling

/-- A restriction on the numbers that are permitted. -/
inductive Range where
  | all
  | nonNegative
  | atLeastOne
deriving DecidableEq, Repr

namespace Range

def name : Range → String
  | all => "all"
  | nonNegative => "non_negative"
  | atLeastOne => "at_least_one"

def ofName? (s : String) : Option Range := [all, nonNegative, atLeastOne].find? (·.name == s)

def permits : Range → Float → Bool
  | all, _ => true
  | nonNegative, x => x ≥ 0
  | atLeastOne, x => x ≥ 1

/-- The number brought into the range. -/
def clamp : Range → Float → Float
  | all, x => x
  | nonNegative, x => if x < 0 then 0 else x
  | atLeastOne, x => if x < 1 then 1 else x

end Range

/-- A value known not to be negative. -/
structure NonNegative (α : Type) where
  value : α

/-- A value, or the keyword `auto` in place of it. -/
inductive OrAuto (α : Type) where
  | auto
  | value (v : α)

namespace OrAuto

def isAuto : OrAuto α → Bool
  | auto => true
  | value _ => false

def value? : OrAuto α → Option α
  | auto => none
  | value v => some v

def getD (a : OrAuto α) (substitute : α) : α := a.value?.getD substitute

end OrAuto

/-- A fraction of some reference length: 50% is one half. The clamping, set only on percentages that
were calculated, is the range `get` brings them into. -/
structure Percentage where
  value : Float
  clamping : Option Range

namespace Percentage

def ofValue (x : Float) : Percentage := ⟨x, none⟩

def zero : Percentage := ofValue 0

def one : Percentage := ofValue 1

def hundred : Percentage := ofValue 1

def isHundred (p : Percentage) : Bool := p.value == 1

def isCalculated (p : Percentage) : Bool := p.clamping.isSome

/-- The fraction, within the clamping if there is one. -/
def get (p : Percentage) : Float :=
  match p.clamping with
  | some range => range.clamp p.value
  | none => p.value

def complement (p : Percentage) : Percentage := { p with value := 1 - p.value }

def limitToHundred (p : Percentage) : Percentage := { p with value := Number.Binary.least p.value 1 }

/-- The sum of two percentages; a clamping is lost. -/
def add (p q : Percentage) : Percentage := ofValue (p.value + q.value)

def scale (p : Percentage) (factor : Float) : Percentage := ofValue (p.value * factor)

def toNumber (p : Percentage) : Float := p.value * 100

end Percentage

namespace ValueReader

open ParseError

/-- The value of a numeric token as a finite binary64 number. -/
def finite (value : Number.Value) (source : String) (place : Option Source.Location) :
    ValueReader Float := do
  let x := match value with
    | .integer n => Float.ofInt n
    | .real x => x
  if x.isFinite then return x
  else fail (.ofCategory .value place (some (source ++ " is out of range")))

/-- Fails unless a number read from the given text is permitted. -/
def expectPermitted (range : Range) (x : Float) (source : String)
    (place : Option Source.Location) : ValueReader Unit :=
  if range.permits x then return
  else fail (.ofCategory .value place (some (source ++ " is not " ++ range.name)))

/-- Fails as nothing of the kind asked for can begin with `value`; a function in place of a number is
named as not supported. -/
def refuse (value : Component) (place : Option Source.Location) : ValueReader α :=
  match value with
  | .group ⟨.function name, _, _⟩ _ _ =>
    fail ⟨.value, .functionNotSupported, place, some name⟩
  | value => fail (unexpected .value value place)

def number (range : Range) : ValueReader Float := do
  let place ← location
  match ← next with
  | .token ⟨.number value _ _, source, _⟩ =>
    let x ← finite value source place
    expectPermitted range x source place
    return x
  | value => refuse value place

def percentage (range : Range) : ValueReader Percentage := do
  let place ← location
  match ← next with
  | .token ⟨.percentage value _, source, _⟩ =>
    let x := (← finite value source place) / 100
    expectPermitted range x source place
    return .ofValue x
  | value => refuse value place

def nonNegativeNumber : ValueReader (NonNegative Float) := return ⟨← number .nonNegative⟩

def orAuto (r : ValueReader α) : ValueReader (OrAuto α) := do
  match ← attempt (expectIdentMatching "auto") with
  | some _ => return .auto
  | none => return .value (← r)

end ValueReader

end Styling
