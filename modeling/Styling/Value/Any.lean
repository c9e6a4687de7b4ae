import Styling.Property
import Styling.Selector.Basic

/-!
# Values of any type

All types of values in one, for what is asked of values whatever their type, and the way between
settings and their values.
-/

namespace Styling

inductive AnyValue where
  | number (x : Float)
  | nonNegative (v : AnyValue)
  | length (l : Length)
  | percentage (p : Percentage)
  | auto
  | orAuto (v : AnyValue)
  | ratio (r : Ratio)
  | sided (top right bottom left : AnyValue)
  | color (c : Color)
  | keyword (text : String)
  | specificity (s : Specificity)

namespace AnyValue

/-- A property of the number a value is made of, which `auto` does not have. -/
def hasNumber (p : Float → Bool) : AnyValue → Bool
  | number x => p x
  | length l => p l.value
  | percentage q => p q.value
  | nonNegative v | orAuto v => hasNumber p v
  | _ => false

def isZero : AnyValue → Bool := hasNumber (· == 0)

def isNegative : AnyValue → Bool := hasNumber (· < 0)

def isInfinite : AnyValue → Bool := hasNumber Float.isInf

/-- The value times a number, for the values that can be scaled. -/
def scale? (factor : Float) : AnyValue → Option AnyValue
  | number x => some (number (x * factor))
  | length l => some (length (l.scale factor))
  | percentage p => some (percentage (p.scale factor))
  | _ => none

def toNumber? : AnyValue → Option Float
  | number x => some x
  | nonNegative v => toNumber? v
  | _ => none

def ofLengthPercentage : LengthPercentage → AnyValue
  | .length l => length l
  | .percentage p => percentage p

def ofOrAuto (f : α → AnyValue) : OrAuto α → AnyValue
  | .auto => auto
  | .value v => orAuto (f v)

def ofSided (f : α → AnyValue) (s : Sided α) : AnyValue :=
  sided (f s.top) (f s.right) (f s.bottom) (f s.left)

/-- A length or percentage among values of any type. -/
def toLengthPercentage? : AnyValue → Option LengthPercentage
  | length l => some (.length l)
  | percentage p => some (.percentage p)
  | _ => none

def toOrAuto? (f : AnyValue → Option α) : AnyValue → Option (OrAuto α)
  | auto => some .auto
  | orAuto v => (f v).map .value
  | _ => none

def toRatio? : AnyValue → Option Ratio
  | ratio r => some r
  | _ => none

def toSided? (f : AnyValue → Option α) : AnyValue → Option (Sided α)
  | sided a b c d => return ⟨← f a, ← f b, ← f c, ← f d⟩
  | _ => none

end AnyValue

def Setting.anyValue : Setting → AnyValue
  | ⟨.display, v⟩ => .keyword (Keyword.text v)
  | ⟨.direction, v⟩ => .keyword (Keyword.text v)
  | ⟨.extent .., v⟩ | ⟨.inset _, v⟩ | ⟨.flexBasis, v⟩ | ⟨.edge .., v⟩ =>
    .ofOrAuto .ofLengthPercentage v
  | ⟨.overflow, v⟩ => .keyword (Keyword.text v)
  | ⟨.position, v⟩ => .keyword (Keyword.text v)
  | ⟨.flexDirection, v⟩ => .keyword (Keyword.text v)
  | ⟨.flexWrap, v⟩ => .keyword (Keyword.text v)
  | ⟨.flexGrow, v⟩ | ⟨.flexShrink, v⟩ => .nonNegative (.number v.value)
  | ⟨.aspectRatio, v⟩ => .ofOrAuto .ratio v
  | ⟨.alignItems, v⟩ => .keyword (Keyword.text v)
  | ⟨.alignSelf, v⟩ => .keyword (Keyword.text v)
  | ⟨.alignContent, v⟩ => .keyword (Keyword.text v)
  | ⟨.justifyContent, v⟩ => .keyword (Keyword.text v)
  | ⟨.edges _, v⟩ => .ofSided (.ofOrAuto .ofLengthPercentage) v
  | ⟨.color, v⟩ => .color v

private def keywordOf? (α : Type) [Keyword α] : AnyValue → Option α
  | .keyword text => Keyword.ofText? α text
  | _ => none

/-- The setting of a property to a value of any type, if the value is of the type it has. -/
def Setting.ofAnyValue? (p : Property) (v : AnyValue) : Option Setting :=
  let lengths := AnyValue.toOrAuto? AnyValue.toLengthPercentage?
  match p with
  | .display => (keywordOf? Display v).map (⟨.display, ·⟩)
  | .direction => (keywordOf? Direction v).map (⟨.direction, ·⟩)
  | .extent e a => (lengths v).map (⟨.extent e a, ·⟩)
  | .overflow => (keywordOf? Overflow v).map (⟨.overflow, ·⟩)
  | .position => (keywordOf? PositionType v).map (⟨.position, ·⟩)
  | .inset s => (lengths v).map (⟨.inset s, ·⟩)
  | .flexDirection => (keywordOf? FlexDirection v).map (⟨.flexDirection, ·⟩)
  | .flexWrap => (keywordOf? FlexWrap v).map (⟨.flexWrap, ·⟩)
  | .flexGrow => v.toNumber?.map fun x => ⟨.flexGrow, ⟨x⟩⟩
  | .flexShrink => v.toNumber?.map fun x => ⟨.flexShrink, ⟨x⟩⟩
  | .flexBasis => (lengths v).map (⟨.flexBasis, ·⟩)
  | .aspectRatio => (AnyValue.toOrAuto? AnyValue.toRatio? v).map (⟨.aspectRatio, ·⟩)
  | .alignItems => (keywordOf? AlignItems v).map (⟨.alignItems, ·⟩)
  | .alignSelf => (keywordOf? AlignSelf v).map (⟨.alignSelf, ·⟩)
  | .alignContent => (keywordOf? AlignContent v).map (⟨.alignContent, ·⟩)
  | .justifyContent => (keywordOf? JustifyContent v).map (⟨.justifyContent, ·⟩)
  | .edges e => (AnyValue.toSided? lengths v).map (⟨.edges e, ·⟩)
  | .edge e s => (lengths v).map (⟨.edge e s, ·⟩)
  | .color => match v with
    | .color c => some ⟨.color, c⟩
    | _ => none

end Styling
