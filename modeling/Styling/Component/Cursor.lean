import Styling.Component.Basic
import Styling.Cursor
import Styling.ParseError

/-!
# Reading values

Values are read from a cursor over component values, which passes over white-space and comments on
its own. A reader that fails leaves the cursor where it came to; `attempt` goes back to where it
began.
-/

namespace Styling

/-- A cursor over component values, with the place to report for errors at their end. -/
structure ComponentCursor where
  cursor : Cursor Component
  endLocation : Option Source.Location

namespace ComponentCursor

/-- A cursor at the front of component values. Unless another place is given, errors at the end are
reported at the last of them. -/
def ofList (values : List Component) (endLocation : Option Source.Location) : ComponentCursor :=
  ⟨.ofList values, endLocation <|> values.getLast?.map Component.location⟩

def rest (c : ComponentCursor) : List Component := c.cursor.rest

def advance (c : ComponentCursor) (n : Nat) : ComponentCursor :=
  { c with cursor := c.cursor.advance n }

def skipWhite (c : ComponentCursor) : ComponentCursor :=
  c.advance (c.rest.takeWhile Component.isWhite).length

def mark (c : ComponentCursor) : ComponentCursor := { c with cursor := c.cursor.mark }

def restoreMark (c : ComponentCursor) : ComponentCursor := { c with cursor := c.cursor.restoreMark }

def discardMark (c : ComponentCursor) : ComponentCursor := { c with cursor := c.cursor.discardMark }

end ComponentCursor

/-- A failure of what is asked outside of this library, known by its name. -/
structure Fault where
  name : String
deriving DecidableEq, Repr

/-- Why no value was read. Only parse errors are recovered from. -/
inductive Failure where
  | parse (error : ParseError)
  | fault (fault : Fault)

abbrev ValueReader := EStateM Failure ComponentCursor

namespace ValueReader

open ParseError

def fail (error : ParseError) : ValueReader α := throw (.parse error)

def skipWhite : ValueReader Unit := modify ComponentCursor.skipWhite

/-- The next component value that is not white-space, which is not passed over. -/
def peek : ValueReader (Option Component) := do
  skipWhite
  return (← get).cursor.next?

/-- The next component value that is not white-space, which is passed over. -/
def next : ValueReader Component := do
  match ← peek with
  | some value =>
    modify (·.advance 1)
    return value
  | none => fail ⟨.general, .endOfInput, (← get).endLocation, none⟩

def isExhausted : ValueReader Bool := return (← peek).isNone

/-- The place of the next component value, or of the end. -/
def location : ValueReader (Option Source.Location) := do
  match ← peek with
  | some value => return some value.location
  | none => return (← get).endLocation

/-- Reads a value, or goes back to where it began if there is none. -/
def attempt (r : ValueReader α) : ValueReader (Option α) := fun c =>
  match r c.mark with
  | .ok a c => .ok (some a) c.discardMark
  | .error (.parse _) c => .ok none c.restoreMark
  | .error f c => .error f c

def unexpected (category : Category) (value : Component) (location : Option Source.Location) :
    ParseError :=
  let kind := match value with
    | .token ⟨.badString, _, _⟩ => .badString
    | .token ⟨.badUrl, _, _⟩ => .badUrl
    | .token ⟨.closing .paren, _, _⟩ => .unbalancedCloseParenthesis
    | .token ⟨.closing .square, _, _⟩ => .unbalancedCloseSquareBracket
    | .token ⟨.closing .brace, _, _⟩ => .unbalancedCloseCurlyBracket
    | .group ⟨.function _, _, _⟩ _ _ => .unexpectedFunction
    | _ => .unexpectedToken
  ⟨category, kind, location <|> some value.location, some value.source⟩

/-- Fails if anything but white-space is left. -/
def expectExhausted : ValueReader Unit := do
  match ← peek with
  | some value =>
    fail ⟨.general, .declarationValueNotExhausted, some value.location, some value.source⟩
  | none => return

def expectIdent : ValueReader String := do
  match ← next with
  | .token ⟨.ident name, _, _⟩ => return name
  | value => fail (unexpected .general value none)

/-- Reads an identifier that is the given one up to ASCII case. -/
def expectIdentMatching (name : String) : ValueReader String := do
  let place ← location
  let ident ← expectIdent
  if Text.eqIgnoringAsciiCase ident name then return ident
  else fail ⟨.general, .unexpectedToken, place, some ident⟩

def expectDelim (delim : String) : ValueReader String := do
  match ← next with
  | value@(.token ⟨.delim c, _, _⟩) =>
    if String.singleton c == delim then return delim else fail (unexpected .general value none)
  | value => fail (unexpected .general value none)

end ValueReader

end Styling
