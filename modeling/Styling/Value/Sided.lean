import Styling.Component.Cursor

/-!
# Values for the four sides of a box

A shorthand gives one to four values, from which the four sides follow: a side without a value of
its own takes that of the opposite side, and the right one takes that of the top.
-/

namespace Styling

structure Sided (α : Type) where
  top : α
  right : α
  bottom : α
  left : α

namespace Sided

/-- The sides that follow from the top one and those given after it, in the order right, bottom,
left. -/
def expand (top : α) (right bottom left : Option α) : Sided α :=
  let right := right.getD top
  ⟨top, right, bottom.getD top, left.getD right⟩

end Sided

namespace ValueReader

/-- Reads one to four values; the first that is none of them is left unread. -/
def sided (r : ValueReader α) : ValueReader (Sided α) := do
  let top ← r
  match ← attempt r with
  | none => return .expand top none none none
  | some right =>
    match ← attempt r with
    | none => return .expand top (some right) none none
    | some bottom => return .expand top (some right) (some bottom) (← attempt r)

end ValueReader

end Styling
