import Styling.Source.Filter

/-!
# Parse errors

What makes a rule or a declaration invalid: what was being read, what went wrong, where, and the
offending text.
-/

namespace Styling

namespace ParseError

inductive Kind where
  | badUrl
  | badString
  | unbalancedCloseParenthesis
  | unbalancedCloseSquareBracket
  | unbalancedCloseCurlyBracket
  /-- Input remained after a value. -/
  | declarationValueNotExhausted
  /-- A dimension whose unit is not valid where it stands. -/
  | unexpectedDimension
  | unexpectedFunction
  | unsupportedAtRule
  | selectorError
  | unknownProperty
  /-- A number other than zero where a length is due. -/
  | missingDimension
  | invalidKeyword
  | invalidValue
  | functionNotSupported
  | unexpectedToken
  | endOfInput
  | qualifiedRuleInvalid
  | unspecified
deriving DecidableEq, Repr

namespace Kind

def all : List Kind :=
  [badUrl, badString, unbalancedCloseParenthesis, unbalancedCloseSquareBracket,
    unbalancedCloseCurlyBracket, declarationValueNotExhausted, unexpectedDimension,
    unexpectedFunction, unsupportedAtRule, selectorError, unknownProperty, missingDimension,
    invalidKeyword, invalidValue, functionNotSupported, unexpectedToken, endOfInput,
    qualifiedRuleInvalid, unspecified]

def name : Kind → String
  | badUrl => "bad_url"
  | badString => "bad_string"
  | unbalancedCloseParenthesis => "unbalanced_close_parenthesis"
  | unbalancedCloseSquareBracket => "unbalanced_close_square_bracket"
  | unbalancedCloseCurlyBracket => "unbalanced_close_curly_bracket"
  | declarationValueNotExhausted => "declaration_value_not_exhausted"
  | unexpectedDimension => "unexpected_dimension"
  | unexpectedFunction => "unexpected_function"
  | unsupportedAtRule => "unsupported_at_rule"
  | selectorError => "selector_error"
  | unknownProperty => "unknown_property"
  | missingDimension => "missing_dimension"
  | invalidKeyword => "invalid_keyword"
  | invalidValue => "invalid_value"
  | functionNotSupported => "function_not_supported"
  | unexpectedToken => "unexpected_token"
  | endOfInput => "end_of_input"
  | qualifiedRuleInvalid => "qualified_rule_invalid"
  | unspecified => "unspecified"

def ofName? (name : String) : Option Kind := all.find? (·.name == name)

def message : Kind → String
  | badUrl => "Bad URL"
  | badString => "Bad string"
  | unbalancedCloseParenthesis => "Unbalanced close parenthesis"
  | unbalancedCloseSquareBracket => "Unbalanced close square bracket"
  | unbalancedCloseCurlyBracket => "Unbalanced close curly bracket"
  | declarationValueNotExhausted => "The declaration value was not exhausted"
  | unexpectedDimension => "Unexpected dimension"
  | unexpectedFunction => "Unexpected function"
  | unsupportedAtRule => "Unsupported @-rule"
  | selectorError => "Invalid selector"
  | unknownProperty => "Unknown property"
  | missingDimension => "A dimension is missing"
  | invalidKeyword => "Invalid keyword"
  | invalidValue => "Invalid value"
  | functionNotSupported => "Function not supported"
  | unexpectedToken => "An unexpected token was found"
  | endOfInput => "The end of input was reached unexpectedly"
  | qualifiedRuleInvalid => "The qualified rule is invalid"
  | unspecified => "Unspecified error"

end Kind

inductive Category where
  | general
  | rule
  | selector
  | property
  | value
deriving DecidableEq, Repr

/-- The kind of an error of which nothing more is known. -/
def Category.defaultKind : Category → Kind
  | general => .unspecified
  | rule => .qualifiedRuleInvalid
  | selector => .selectorError
  | property => .unknownProperty
  | value => .invalidValue

end ParseError

structure ParseError where
  category : ParseError.Category
  kind : ParseError.Kind
  location : Option Source.Location
  detail : Option String
deriving DecidableEq, Repr

namespace ParseError

/-- An error of the default kind of its category. -/
def ofCategory (category : Category) (location : Option Source.Location) (detail : Option String) :
    ParseError :=
  ⟨category, category.defaultKind, location, detail⟩

/-- The kind in words, with the offending text if there is any. -/
def message (e : ParseError) : String :=
  match e.detail with
  | some detail => if detail.isEmpty then e.kind.message else e.kind.message ++ ": " ++ detail
  | none => e.kind.message

end ParseError

end Styling
