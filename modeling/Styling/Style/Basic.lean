import Styling.Property

/-!
# Styles

What layout takes from style text: the fields of a box, in which lengths are resolved into pixels
and percentages are kept. A style starts as the one of a fresh box.
-/

namespace Styling

/-- A length as layout takes it; percentages are on the scale from 0 to 100. -/
inductive Val where
  | auto
  /-- Not set. -/
  | undefined
  | px (x : Float)
  | percent (x : Float)

structure UiRect where
  left : Val
  right : Val
  top : Val
  bottom : Val

structure UiSize where
  width : Val
  height : Val

structure Style where
  display : Display
  direction : Direction
  positionType : PositionType
  flexDirection : FlexDirection
  flexWrap : FlexWrap
  alignItems : AlignItems
  alignSelf : AlignSelf
  alignContent : AlignContent
  justifyContent : JustifyContent
  position : UiRect
  margin : UiRect
  padding : UiRect
  border : UiRect
  flexGrow : Float
  flexShrink : Float
  flexBasis : Val
  size : UiSize
  minSize : UiSize
  maxSize : UiSize
  aspectRatio : Option Float
  overflow : Overflow

namespace UiRect

def undefined : UiRect := ⟨.undefined, .undefined, .undefined, .undefined⟩

def get (r : UiRect) : Side → Val
  | .top => r.top
  | .right => r.right
  | .bottom => r.bottom
  | .left => r.left

def set (r : UiRect) (v : Val) : Side → UiRect
  | .top => { r with top := v }
  | .right => { r with right := v }
  | .bottom => { r with bottom := v }
  | .left => { r with left := v }

end UiRect

namespace UiSize

def auto : UiSize := ⟨.auto, .auto⟩

def get (s : UiSize) : Axis → Val
  | .width => s.width
  | .height => s.height

def set (s : UiSize) (v : Val) : Axis → UiSize
  | .width => { s with width := v }
  | .height => { s with height := v }

end UiSize

namespace Style

/-- The style of a fresh box. -/
def fresh : Style where
  display := .flex
  direction := .inherit
  positionType := .relative
  flexDirection := .row
  flexWrap := .nowrap
  alignItems := .stretch
  alignSelf := .auto
  alignContent := .stretch
  justifyContent := .flexStart
  position := .undefined
  margin := .undefined
  padding := .undefined
  border := .undefined
  flexGrow := 0
  flexShrink := 1
  flexBasis := .auto
  size := .auto
  minSize := .auto
  maxSize := .auto
  aspectRatio := none
  overflow := .visible

end Style

/-- What painting takes from style text. -/
structure Paint where
  color : Color

def Paint.fresh : Paint := ⟨.white⟩

end Styling
