import Styling.Value.Basic

/-!
# Colours

A colour is written as a single component value. What its text denotes is left to a resolver: it may know a
colour, or that the colour of the text itself is meant, or nothing, and it may break off.
-/

namespace Styling

/-- A colour, whose components are fractions of one; they are not clamped. -/
structure Color where
  red : Float
  green : Float
  blue : Float
  alpha : Float

namespace Color

open Number

def white : Color := ⟨1, 1, 1, 1⟩

def black : Color := ⟨0, 0, 0, 1⟩

/-- The colour of components on the scale from 0 to 255; refused if one is out of the range of
binary64. -/
def ofIntegers (red green blue : Int) (alpha : Float) : Except RangeError Color := do
  let component (n : Int) : Except RangeError Float :=
    let x := Binary.ofSignedQuotient n 255
    if x.isFinite then .ok x else .error .overflow
  return ⟨← component red, ← component green, ← component blue, alpha⟩

/-- What a text denotes as a colour. -/
inductive Reference where
  | color (c : Color)
  /-- The colour of the text itself, which is not known here. -/
  | current
  | unknown

/-- What the texts of component values are resolved by. -/
abbrev Resolver := String → Except Fault Reference

end Color

namespace ValueReader

open ParseError

/-- Reads a colour, which is a single component value. -/
def color (resolve : Color.Resolver) : ValueReader Color := do
  let place ← location
  let value ← next
  match resolve value.source with
  | .ok (.color c) => return c
  | .ok .current => fail ⟨.value, .invalidKeyword, place, some value.source⟩
  | .ok .unknown => fail (.ofCategory .value place (some (value.source ++ " is not a colour")))
  | .error f => throw (.fault f)

end ValueReader

end Styling
