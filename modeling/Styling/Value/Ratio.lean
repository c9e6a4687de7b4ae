import Styling.Value.Basic

/-!
# Ratios

A ratio of two non-negative numbers, compared by the fraction it stands for.
-/

namespace Styling

structure Ratio where
  antecedent : Float
  consequent : Float

namespace Ratio

private def isZeroOrInfinite (x : Float) : Bool := x == 0 || x.isInf

/-- Whether a term is zero or infinite. -/
def isDegenerate (r : Ratio) : Bool := isZeroOrInfinite r.antecedent || isZeroOrInfinite r.consequent

/-- The quotient of the terms: infinity if only the consequent is zero, no number if both are. -/
def fraction (r : Ratio) : Float :=
  if r.consequent == 0 then
    if r.antecedent == 0 then 0 / 0 else Number.Binary.infinity
  else r.antecedent / r.consequent

end Ratio

namespace ValueReader

/-- Reads a ratio; without a slash the consequent is one. -/
def ratio : ValueReader Ratio := do
  let antecedent ← nonNegativeNumber
  match ← attempt (expectDelim "/") with
  | none => return ⟨antecedent.value, 1⟩
  | some _ => return ⟨antecedent.value, (← nonNegativeNumber).value⟩

def ratioOrAuto : ValueReader (OrAuto Ratio) := orAuto ratio

end ValueReader

end Styling
