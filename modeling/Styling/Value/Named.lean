import Styling.Value.Any

/-!
# Value readers by name

The readers of values, also those that no property uses, under the names of what they read.
-/

namespace Styling.ValueReader

private def lengths (range : Range) (allowPercentage : Bool) : ValueReader AnyValue :=
  return .ofLengthPercentage (← lengthOrPercentage range allowPercentage)

private def numbers (range : Range) : ValueReader AnyValue := return .number (← number range)

private def percentages (range : Range) : ValueReader AnyValue :=
  return .percentage (← percentage range)

private def ratios : ValueReader AnyValue := return .ratio (← ratio)

private def restricted (r : ValueReader AnyValue) : ValueReader AnyValue := return .nonNegative (← r)

private def automatic (r : ValueReader AnyValue) : ValueReader AnyValue :=
  return .ofOrAuto id (← orAuto r)

private def sides (r : ValueReader AnyValue) : ValueReader AnyValue := return .ofSided id (← sided r)

private def keywords (α : Type) [Keyword α] : ValueReader AnyValue :=
  return .keyword (Keyword.text (← keyword α))

/-- The reader of values of the named type. -/
def ofName? (resolve : Color.Resolver) (name : String) : Option (ValueReader AnyValue) :=
  match name with
  | "length" => some (lengths .all false)
  | "non_negative_length" => some (restricted (lengths .nonNegative false))
  | "length_percentage" => some (lengths .all true)
  | "non_negative_length_percentage" => some (restricted (lengths .nonNegative true))
  | "length_percentage_or_auto" => some (automatic (lengths .all true))
  | "length_at_least_one" => some (lengths .atLeastOne true)
  | "number" => some (numbers .all)
  | "non_negative_number" => some (restricted (numbers .nonNegative))
  | "number_at_least_one" => some (numbers .atLeastOne)
  | "number_or_auto" => some (automatic (numbers .all))
  | "percentage" => some (percentages .all)
  | "non_negative_percentage" => some (percentages .nonNegative)
  | "percentage_at_least_one" => some (percentages .atLeastOne)
  | "ratio" => some ratios
  | "ratio_or_auto" => some (automatic ratios)
  | "sided" => some (sides (automatic (lengths .all true)))
  | "sided_number" => some (sides (numbers .all))
  | "color" => some (return .color (← color resolve))
  | "Display" => some (keywords Display)
  | "Direction" => some (keywords Direction)
  | "Overflow" => some (keywords Overflow)
  | "PositionType" => some (keywords PositionType)
  | "FlexDirection" => some (keywords FlexDirection)
  | "FlexWrap" => some (keywords FlexWrap)
  | "AlignItems" => some (keywords AlignItems)
  | "AlignSelf" => some (keywords AlignSelf)
  | "AlignContent" => some (keywords AlignContent)
  | "JustifyContent" => some (keywords JustifyContent)
  | _ => none

end Styling.ValueReader
