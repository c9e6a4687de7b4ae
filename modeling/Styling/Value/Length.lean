import Styling.Context
import Styling.Value.Basic

/-!
# Lengths

Absolute lengths are resolved into pixels by fixed ratios, font-relative lengths by the font sizes
of a context, and viewport-relative lengths by its viewport. The ratios of absolute units go by app
units, 60 to the pixel and 96 pixels to the inch.
-/

namespace Styling

inductive AbsoluteUnit where
  | px
  | mm
  | cm
  /-- Quarter millimetres. -/
  | q
  | inch
  | pc
  | pt
deriving DecidableEq, Repr

inductive FontUnit where
  | em
  | rem
  | ex
  | ch
deriving DecidableEq, Repr

inductive ViewportUnit where
  | vw
  | vh
  | vmin
  | vmax
deriving DecidableEq, Repr

inductive LengthUnit where
  | absolute (u : AbsoluteUnit)
  | font (u : FontUnit)
  | viewport (u : ViewportUnit)
deriving DecidableEq, Repr

def pixelUnits : Float := 60

def inchUnits : Float := pixelUnits * 96

def centimetreUnits : Float := pixelUnits / 2.54

def millimetreUnits : Float := centimetreUnits / 10

/-- App units to an absolute unit. -/
def appUnits : AbsoluteUnit → Float
  | .px => pixelUnits
  | .mm => millimetreUnits
  | .cm => centimetreUnits
  | .q => millimetreUnits / 4
  | .inch => inchUnits
  | .pc => inchUnits / 6
  | .pt => inchUnits / 72

namespace LengthUnit

def all : List LengthUnit :=
  [AbsoluteUnit.px, .mm, .cm, .q, .inch, .pc, .pt].map absolute ++
    [FontUnit.em, .rem, .ex, .ch].map font ++ [ViewportUnit.vw, .vh, .vmin, .vmax].map viewport

def name : LengthUnit → String
  | absolute .px => "px"
  | absolute .mm => "mm"
  | absolute .cm => "cm"
  | absolute .q => "q"
  | absolute .inch => "in"
  | absolute .pc => "pc"
  | absolute .pt => "pt"
  | font .em => "em"
  | font .rem => "rem"
  | font .ex => "ex"
  | font .ch => "ch"
  | viewport .vw => "vw"
  | viewport .vh => "vh"
  | viewport .vmin => "vmin"
  | viewport .vmax => "vmax"

/-- The unit of a name in small letters. -/
def ofName? (s : String) : Option LengthUnit := all.find? (·.name == s)

end LengthUnit

structure Length where
  value : Float
  unit : LengthUnit

namespace Length

open Number

def zero : Length := ⟨0, .absolute .px⟩

def scale (l : Length) (factor : Float) : Length := { l with value := l.value * factor }

def absolutePixels (value : Float) (u : AbsoluteUnit) : Float :=
  Binary.clampToFinite (value * (appUnits u / pixelUnits))

/-- The pixels of a font-relative length, not clamped. -/
def fontPixels (value : Float) (u : FontUnit) (fontSize : Float) (isVertical : Bool)
    (rootFontSize : Float) : Float :=
  match u with
  | .em => fontSize * value
  | .rem => rootFontSize * value
  | .ex => fontSize * value * 0.5
  | .ch => fontSize * value * (if isVertical then 1 else 0.5)

/-- The extent of the viewport that a unit is a hundredth of. -/
def viewportExtent (u : ViewportUnit) (width height : Float) : Float :=
  match u with
  | .vw => width
  | .vh => height
  | .vmin => Binary.least width height
  | .vmax => Binary.greatest width height

/-- The pixels of a viewport-relative length, truncated toward zero. -/
def viewportPixels (value : Float) (u : ViewportUnit) (width height : Float) : Float :=
  let pixels := viewportExtent u width height * value / 100
  Binary.clampToFinite (if pixels.isFinite then Binary.truncate pixels else pixels)

/-- The same by way of an integer, which there is none of if the pixels are not finite. -/
def viewportPixels? (value : Float) (u : ViewportUnit) (width height : Float) : Option Float := do
  let pixels := viewportExtent u width height * value / 100
  return Binary.clampToFinite (← if pixels.isFinite then Binary.truncate? pixels else pure pixels)

/-- The pixels of a length in a context, a finite number. -/
def pixels (context : Context) (l : Length) : Float :=
  match l.unit with
  | .absolute u => absolutePixels l.value u
  | .font u =>
    Binary.clampToFinite
      (fontPixels l.value u context.fontSize context.isVertical context.rootFontSize)
  | .viewport u => viewportPixels l.value u context.viewportWidth context.viewportHeight

/-- The pixels of a length in a context, if each step to them has a result. -/
def pixels? (context : Context) (l : Length) : Option Float :=
  match l.unit with
  | .absolute u => some (absolutePixels l.value u)
  | .font u =>
    some (Binary.clampToFinite
      (fontPixels l.value u context.fontSize context.isVertical context.rootFontSize))
  | .viewport u => viewportPixels? l.value u context.viewportWidth context.viewportHeight

/-- The length of the given value in a unit, whose name is matched up to ASCII case. -/
def ofDimension (unit : String) (value : Float) : Except ParseError Length :=
  let unit := Text.asciiLower unit
  match LengthUnit.ofName? unit with
  | some u => .ok ⟨value, u⟩
  | none => .error ⟨.value, .unexpectedDimension, none, some unit⟩

end Length

inductive LengthPercentage where
  | length (l : Length)
  | percentage (p : Percentage)

namespace ValueReader

open ParseError

/-- Reads a length, or also a percentage if `allowPercentage`. Of numbers only zero is a length. -/
def lengthOrPercentage (range : Range) (allowPercentage : Bool) : ValueReader LengthPercentage := do
  let place ← location
  match ← peek with
  | some (.token ⟨.dimension value unit _ _, source, _⟩) =>
    let _ ← next
    let x ← finite value source place
    expectPermitted range x source place
    match Length.ofDimension unit x with
    | .ok l => return .length l
    | .error e => fail { e with location := place }
  | some (.token ⟨.number value _ _, source, _⟩) =>
    let _ ← next
    let x ← finite value source place
    expectPermitted range x source place
    if x != 0 then fail ⟨.value, .missingDimension, place, some source⟩
    return .length .zero
  | some (.token ⟨.percentage .., _, _⟩) =>
    if allowPercentage then return .percentage (← percentage range)
    else refuse (← next) place
  | _ => refuse (← next) place

def lengthPercentage : ValueReader LengthPercentage := lengthOrPercentage .all true

def lengthPercentageOrAuto : ValueReader (OrAuto LengthPercentage) := orAuto lengthPercentage

end ValueReader

end Styling
