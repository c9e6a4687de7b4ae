import Styling.Value.Color
import Styling.Value.Keyword
import Styling.Value.Length
import Styling.Value.Ratio
import Styling.Value.Sided

/-!
# Properties

The closed set of properties, the type of value each has, and reading a declaration of one. An
`!important` after the value is accepted and has no effect.
-/

namespace Styling

inductive Side where
  | top
  | right
  | bottom
  | left
deriving DecidableEq, Repr

inductive Axis where
  | width
  | height
deriving DecidableEq, Repr

inductive Extent where
  | preferred
  | least
  | greatest
deriving DecidableEq, Repr

inductive Edge where
  | margin
  | padding
  | border
deriving DecidableEq, Repr

inductive Property where
  | display
  | direction
  | extent (e : Extent) (a : Axis)
  | overflow
  | position
  /-- The distance of a side from where it would be. -/
  | inset (s : Side)
  | flexDirection
  | flexWrap
  | flexGrow
  | flexShrink
  | flexBasis
  | aspectRatio
  | alignItems
  | alignSelf
  | alignContent
  | justifyContent
  /-- All four sides of an edge. -/
  | edges (e : Edge)
  | edge (e : Edge) (s : Side)
  | color
deriving DecidableEq, Repr

def Side.name : Side → String
  | top => "top"
  | right => "right"
  | bottom => "bottom"
  | left => "left"

def Side.all : List Side := [top, right, bottom, left]

def Axis.name : Axis → String
  | width => "width"
  | height => "height"

def Edge.name : Edge → String
  | margin => "margin"
  | padding => "padding"
  | border => "border-width"

namespace Property

def all : List Property :=
  [display, direction] ++
    [Extent.preferred, .least, .greatest].flatMap (fun e => [extent e .width, extent e .height]) ++
    [overflow, position] ++ Side.all.map inset ++
    [flexDirection, flexWrap, flexGrow, flexShrink, flexBasis, aspectRatio, alignItems, alignSelf,
      alignContent, justifyContent] ++
    [Edge.margin, .padding, .border].flatMap (fun e => edges e :: Side.all.map (edge e)) ++ [color]

def name : Property → String
  | display => "display"
  | direction => "direction"
  | extent .preferred a => a.name
  | extent .least a => "min-" ++ a.name
  | extent .greatest a => "max-" ++ a.name
  | overflow => "overflow"
  | position => "position"
  | inset s => s.name
  | flexDirection => "flex-direction"
  | flexWrap => "flex-wrap"
  | flexGrow => "flex-grow"
  | flexShrink => "flex-shrink"
  | flexBasis => "flex-basis"
  | aspectRatio => "aspect-ratio"
  | alignItems => "align-items"
  | alignSelf => "align-self"
  | alignContent => "align-content"
  | justifyContent => "justify-content"
  | edges e => e.name
  | edge e s => e.name ++ "-" ++ s.name
  | color => "color"

/-- The customary names of the sides of the border, besides those made up like other names. -/
def aliases : List (String × Property) :=
  Side.all.map fun s => ("border-" ++ s.name ++ "-width", edge .border s)

/-- The property of a name, which is matched up to ASCII case. -/
def ofName? (name : String) : Option Property :=
  let name := Text.asciiLower name
  all.find? (·.name == name) <|> (aliases.find? (·.1 == name)).map (·.2)

abbrev Value : Property → Type
  | display => Display
  | direction => Direction
  | extent .. | inset _ | flexBasis | edge .. => OrAuto LengthPercentage
  | overflow => Overflow
  | position => PositionType
  | flexDirection => FlexDirection
  | flexWrap => FlexWrap
  | flexGrow | flexShrink => NonNegative Float
  | aspectRatio => OrAuto Ratio
  | alignItems => AlignItems
  | alignSelf => AlignSelf
  | alignContent => AlignContent
  | justifyContent => JustifyContent
  | edges _ => Sided (OrAuto LengthPercentage)
  | color => Color

open ValueReader in
def readValue (resolve : Color.Resolver) : (p : Property) → ValueReader p.Value
  | display => keyword Display
  | direction => keyword Direction
  | extent .. | inset _ | flexBasis | edge .. => lengthPercentageOrAuto
  | overflow => keyword Overflow
  | position => keyword PositionType
  | flexDirection => keyword FlexDirection
  | flexWrap => keyword FlexWrap
  | flexGrow | flexShrink => nonNegativeNumber
  | aspectRatio => ratioOrAuto
  | alignItems => keyword AlignItems
  | alignSelf => keyword AlignSelf
  | alignContent => keyword AlignContent
  | justifyContent => keyword JustifyContent
  | edges _ => sided lengthPercentageOrAuto
  | color => ValueReader.color resolve

end Property

/-- A property with a value for it. -/
structure Setting where
  property : Property
  value : property.Value

namespace ValueReader

def important : ValueReader Unit := do
  let _ ← expectDelim "!"
  let _ ← expectIdentMatching "important"

/-- Reads the whole value of the named property; `place` is where the name stands. -/
def setting (resolve : Color.Resolver) (name : String) (place : Option Source.Location) :
    ValueReader Setting := do
  match Property.ofName? name with
  | none => fail (.ofCategory .property place (some name))
  | some p =>
    let value ← p.readValue resolve
    let _ ← attempt important
    expectExhausted
    return ⟨p, value⟩

end ValueReader

end Styling
