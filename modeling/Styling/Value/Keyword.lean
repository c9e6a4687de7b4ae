import Styling.Component.Cursor

/-!
# Keyword values

The closed sets of keywords of the layout properties. A set of keywords is the list of its members
together with the text each is written as, matched up to ASCII case.
-/

namespace Styling

class Keyword (α : Type) where
  all : List α
  text : α → String

/-- The keyword written as the given text in small letters. -/
def Keyword.ofText? (α : Type) [Keyword α] (s : String) : Option α :=
  (Keyword.all (α := α)).find? (Keyword.text · == s)

inductive Display where
  | flex
  | none
deriving DecidableEq, Repr

instance : Keyword Display where
  all := [.flex, .none]
  text
    | .flex => "flex"
    | .none => "none"

inductive Direction where
  | inherit
  | ltr
  | rtl
deriving DecidableEq, Repr

instance : Keyword Direction where
  all := [.inherit, .ltr, .rtl]
  text
    | .inherit => "inherit"
    | .ltr => "ltr"
    | .rtl => "rtl"

inductive Overflow where
  | visible
  | hidden
deriving DecidableEq, Repr

instance : Keyword Overflow where
  all := [.visible, .hidden]
  text
    | .visible => "visible"
    | .hidden => "hidden"

inductive PositionType where
  | relative
  | absolute
deriving DecidableEq, Repr

instance : Keyword PositionType where
  all := [.relative, .absolute]
  text
    | .relative => "relative"
    | .absolute => "absolute"

inductive FlexDirection where
  | row
  | column
  | rowReverse
  | columnReverse
deriving DecidableEq, Repr

instance : Keyword FlexDirection where
  all := [.row, .column, .rowReverse, .columnReverse]
  text
    | .row => "row"
    | .column => "column"
    | .rowReverse => "row-reverse"
    | .columnReverse => "column-reverse"

inductive FlexWrap where
  | nowrap
  | wrap
  | wrapReverse
deriving DecidableEq, Repr

instance : Keyword FlexWrap where
  all := [.nowrap, .wrap, .wrapReverse]
  text
    | .nowrap => "nowrap"
    | .wrap => "wrap"
    | .wrapReverse => "wrap-reverse"

inductive AlignItems where
  | flexStart
  | flexEnd
  | center
  | baseline
  | stretch
deriving DecidableEq, Repr

instance : Keyword AlignItems where
  all := [.flexStart, .flexEnd, .center, .baseline, .stretch]
  text
    | .flexStart => "flex-start"
    | .flexEnd => "flex-end"
    | .center => "center"
    | .baseline => "baseline"
    | .stretch => "stretch"

inductive AlignSelf where
  | auto
  | flexStart
  | flexEnd
  | center
  | baseline
  | stretch
deriving DecidableEq, Repr

instance : Keyword AlignSelf where
  all := [.auto, .flexStart, .flexEnd, .center, .baseline, .stretch]
  text
    | .auto => "auto"
    | .flexStart => "flex-start"
    | .flexEnd => "flex-end"
    | .center => "center"
    | .baseline => "baseline"
    | .stretch => "stretch"

inductive AlignContent where
  | flexStart
  | flexEnd
  | center
  | stretch
  | spaceBetween
  | spaceAround
deriving DecidableEq, Repr

instance : Keyword AlignContent where
  all := [.flexStart, .flexEnd, .center, .stretch, .spaceBetween, .spaceAround]
  text
    | .flexStart => "flex-start"
    | .flexEnd => "flex-end"
    | .center => "center"
    | .stretch => "stretch"
    | .spaceBetween => "space-between"
    | .spaceAround => "space-around"

inductive JustifyContent where
  | flexStart
  | flexEnd
  | center
  | spaceBetween
  | spaceAround
  | spaceEvenly
deriving DecidableEq, Repr

instance : Keyword JustifyContent where
  all := [.flexStart, .flexEnd, .center, .spaceBetween, .spaceAround, .spaceEvenly]
  text
    | .flexStart => "flex-start"
    | .flexEnd => "flex-end"
    | .center => "center"
    | .spaceBetween => "space-between"
    | .spaceAround => "space-around"
    | .spaceEvenly => "space-evenly"

namespace ValueReader

def keyword (α : Type) [Keyword α] : ValueReader α := do
  let place ← location
  match ← next with
  | .token ⟨.ident name, _, _⟩ =>
    match Keyword.ofText? α (Text.asciiLower name) with
    | some k => return k
    | none => fail ⟨.value, .invalidKeyword, place, some name⟩
  | value => fail (unexpected .value value place)

end ValueReader

end Styling
