import Styling.Value.Any

/-!
# Comparing values

Values of any type compared with one another. Values of different types are never equal and do not
order; nor do relative lengths in different units. Absolute lengths order by their pixels, whatever
their units, but are equal only in the same unit. The relations are derived from "less" and "equal"
as `Relation.derived` says.
-/

namespace Styling

namespace Length

def equal (a b : Length) : Bool := a.unit == b.unit && a.value == b.value

/-- Whether a length is less than another, if they order. -/
def less? (a b : Length) : Option Bool :=
  match a.unit, b.unit with
  | .absolute u, .absolute v => some (absolutePixels a.value u < absolutePixels b.value v)
  | u, v => if u == v then some (a.value < b.value) else none

end Length

inductive Relation where
  | lt
  | le
  | gt
  | ge
deriving DecidableEq, Repr

namespace Relation

def ofName? (name : String) : Option Relation :=
  match name with
  | "lt" => some lt
  | "le" => some le
  | "gt" => some gt
  | "ge" => some ge
  | _ => none

/-- A relation that numbers have. -/
def onFloat : Relation → Float → Float → Bool
  | lt, a, b => a < b
  | le, a, b => a ≤ b
  | gt, a, b => a > b
  | ge, a, b => a ≥ b

/-- A relation derived from the answers to "less" and "equal". -/
def derived (r : Relation) (less equal : Bool) : Bool :=
  match r with
  | lt => less
  | le => less || equal
  | gt => !less && !equal
  | ge => !less

def isReflexive : Relation → Bool
  | lt | gt => false
  | le | ge => true

end Relation

namespace AnyValue

/-- Equality; the clamping of percentages does not count. -/
def equal : AnyValue → AnyValue → Bool
  | number x, number y => x == y
  | nonNegative v, nonNegative w => equal v w
  | length l, length m => l.equal m
  | percentage p, percentage q => p.value == q.value
  | auto, auto => true
  | orAuto v, orAuto w => equal v w
  | ratio r, ratio s => r.fraction == s.fraction
  | sided a b c d, sided a' b' c' d' => equal a a' && equal b b' && equal c c' && equal d d'
  | color c, color d =>
    c.red == d.red && c.green == d.green && c.blue == d.blue && c.alpha == d.alpha
  | keyword s, keyword t => s == t
  | specificity s, specificity t => s == t
  | _, _ => false

/-- Whether a relation holds between two values, if they order. Equal values that are known not to be
negative are not compared any further. -/
def related? (r : Relation) : AnyValue → AnyValue → Option Bool
  | number x, number y => some (r.onFloat x y)
  | percentage p, percentage q => some (r.onFloat p.value q.value)
  | nonNegative v, nonNegative w => if equal v w then some r.isReflexive else related? r v w
  | length l, length m => (l.less? m).map fun less => r.derived less (l.equal m)
  | ratio p, ratio q =>
    some (r.derived (p.fraction < q.fraction) (p.fraction == q.fraction))
  | keyword s, keyword t => some (r.derived (s < t) (s == t))
  | specificity s, specificity t => some (r.derived (s.less t) (s == t))
  | _, _ => none

/-- Whether two values count as one in a set; ratios of zero to zero do, though they are not equal. -/
def sameKey : AnyValue → AnyValue → Bool
  | ratio r, ratio s =>
    r.fraction == s.fraction ||
      (r.consequent == 0 && r.antecedent == 0 && s.consequent == 0 && s.antecedent == 0)
  | v, w => equal v w

end AnyValue

end Styling
