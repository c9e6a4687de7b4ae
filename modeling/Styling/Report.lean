import Styling.ParseError

/-!
# Reports

A report tells of the rule or declaration that a parse error cost: what it was, its text, and the
error itself.
-/

namespace Styling

inductive Report.Kind where
  | unsupportedAtRule
  | invalidAtRule
  | unsupportedProperty
  | invalidValue
  | invalidSelector
deriving DecidableEq, Repr

namespace Report.Kind

def all : List Kind :=
  [unsupportedAtRule, invalidAtRule, unsupportedProperty, invalidValue, invalidSelector]

def name : Kind → String
  | unsupportedAtRule => "unsupported_at_rule"
  | invalidAtRule => "invalid_at_rule"
  | unsupportedProperty => "unsupported_property"
  | invalidValue => "invalid_value"
  | invalidSelector => "invalid_selector"

def ofName? (name : String) : Option Kind := all.find? (·.name == name)

end Report.Kind

/-- A report on `css`: the name of an at-rule or a property, a selector list, or a declaration. -/
structure Report where
  kind : Report.Kind
  css : String
  error : ParseError
deriving DecidableEq, Repr

namespace Report

def location (r : Report) : Option Source.Location := r.error.location

def message (r : Report) : String :=
  match r.kind with
  | .unsupportedAtRule => "Unsupported/unrecognised @-rule (" ++ r.css ++ "), " ++ r.error.message
  | .invalidAtRule => "Invalid @-rule (" ++ r.css ++ "), " ++ r.error.message
  | .unsupportedProperty =>
    "Unsupported/unrecognised property name (" ++ r.css ++ "), " ++ r.error.message
  | .invalidValue => "The value of a property is invalid: " ++ r.error.message
  | .invalidSelector => "Invalid selector (" ++ r.css ++ "), " ++ r.error.message

/-- The message with the place it is about, which is line 0, column 0 if unknown. -/
def located (r : Report) : String :=
  let place := r.location.getD ⟨0, 0⟩
  "Failed to parse css at (line: " ++ Nat.repr place.line ++ ", col: " ++ Nat.repr place.column ++
    "): " ++ r.message

end Report

end Styling
