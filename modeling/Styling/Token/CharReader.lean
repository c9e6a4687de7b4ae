import Styling.Source.Reader
import Styling.Token.Sequence
import Styling.Turn

/-!
# Forming tokens from a reader

Tokens can also be formed straight from a reader with look-ahead. The characters of the token being
formed are kept, and the last of them can be put back. What is taken for granted about them is
checked as it goes; where it is not so, there is a fault.
-/

namespace Styling

open Source Lexer PartialReader

/-- A token being formed: the characters ahead, those consumed so far, where none stands for the end
of the text, and the recoverable faults noted. -/
structure Formation where
  input : BufferedReader SourceChar
  consumed : List (Option SourceChar)
  notes : List Note

/-- Why forming tokens breaks off. -/
inductive FormationFault where
  /-- No character has been consumed. -/
  | nothingConsumed
  /-- Another character than the one due. -/
  | unexpected
  /-- A numeric literal without digits. -/
  | noDigits
  | range (e : Number.RangeError)

/-- Forming tokens from characters. -/
abbrev CharReader := PartialReader Formation FormationFault

namespace CharReader

/-- The next characters, `n` at most, which are not passed over. -/
def next (n : Nat) : CharReader (List Char) := fun s =>
  let (items, input) := s.input.peek n
  pure (items.map SourceChar.value, { s with input })

/-- Takes the next characters, `n` at most, or the end of the text if no character is left. -/
def consume (n : Nat) : CharReader Unit := fun s =>
  let (items, input) := s.input.read n
  let items := if items.isEmpty then [none] else items.map some
  pure ((), { s with input, consumed := s.consumed ++ items })

/-- What was consumed last, which has to be there. -/
def current : CharReader (Option SourceChar) := fun s =>
  match s.consumed.getLast? with
  | some c => pure (c, s)
  | none => throw .nothingConsumed

/-- Puts back what was consumed last; the end of the text is only dropped. -/
def reconsume (c : Option SourceChar) : CharReader Unit := fun s =>
  if s.consumed.getLast? = some c then
    pure ((), { s with input := s.input.unread c.toList, consumed := s.consumed.dropLast })
  else throw .unexpected

def note (n : Note) : CharReader Unit := modify fun s => { s with notes := s.notes ++ [n] }

def count : CharReader Nat := return (← get).consumed.length

/-- The characters consumed after the first `n`. -/
def consumedFrom (n : Nat) : CharReader (List Char) :=
  return ((← get).consumed.drop n).filterMap (·.map SourceChar.value)

/-- The token made of what was consumed. -/
def tokenOf (consumed : List (Option SourceChar)) (kind : TokenKind) : Token :=
  let location := match consumed with
    | some c :: _ => c.location
    | _ => ⟨0, 0⟩
  ⟨kind, String.ofList ((consumed.filterMap id).flatMap SourceChar.source), location⟩

def token (kind : TokenKind) : CharReader Token := return tokenOf (← get).consumed kind

def whileTurn (p : Char → Bool) : CharReader (Turn (List Char)) := do
  match ← next 1 with
  | c :: _ =>
    if p c then
      consume 1
      return .more (c :: ·)
    else return .done []
  | [] => return .done []

/-- Takes characters while they satisfy `p`. -/
def consumeWhile (p : Char → Bool) : CharReader (List Char) := untilDone (whileTurn p)

/-- The character consumed last and at most `n` more. -/
def ahead (n : Nat) : CharReader (List Char) := do
  let c ← current
  let cs ← next n
  return (c.map SourceChar.value).toList ++ cs

/-- The characters to ask about; without any, the one consumed last and at most `n` more. -/
def orAhead (n : Nat) (cs : List Char) : CharReader (List Char) :=
  if cs.isEmpty then ahead n else pure cs

/-- Whether an escape comes next; asked of no characters, this is asked of the one consumed last and
the next. -/
def isEscape (cs : List Char) : CharReader Bool := return startsEscape (← orAhead 1 cs)

/-- Whether an identifier comes next; asked of no characters, this is asked of the one consumed last
and the next two. -/
def isName (cs : List Char) : CharReader Bool := do
  match ← orAhead 2 cs with
  | '-' :: cs =>
    if cs.head?.any (fun c => isIdentStart c || c == '-') then return true
    else isEscape (cs.take 2)
  | '\\' :: cs => isEscape ('\\' :: cs.take 1)
  | c :: _ => return isIdentStart c
  | [] => return false

/-! ## Names, strings and URLs -/

def hexDigits : (limit : Nat) → CharReader Unit
  | 0 => return
  | limit + 1 => do
    if (← next 1).any isHexDigit then
      consume 1
      hexDigits limit
    else return

def oneWhitespace : CharReader Unit := do
  if (← next 1).any isWhitespace then consume 1 else return

/-- Reads what stands after the backslash of an escape. -/
def escape : CharReader Char := do
  consume 1
  match ← current with
  | none =>
    note .escapeAtEnd
    return '\uFFFD'
  | some c =>
    if isHexDigit c.value then
      let n ← count
      hexDigits 5
      let digits ← consumedFrom (n - 1)
      oneWhitespace
      return charOfCodePoint (ofHexDigits digits)
    else return c.value

def nameTurn : CharReader (Turn (List Char)) := do
  consume 1
  let c ← current
  match c.filter (isIdent ·.value) with
  | some c => return .more (c.value :: ·)
  | none =>
    if ← isEscape [] then
      let e ← escape
      return .more (e :: ·)
    else
      reconsume c
      return .done []

/-- Reads identifier characters and escapes, and puts back what follows them. -/
def name : CharReader (List Char) := untilDone nameTurn

def badUrlTurn : CharReader (Turn Unit) := do
  consume 1
  match ← current with
  | none => return .done ()
  | some c =>
    if c.value == ')' then return .done ()
    else if ← isEscape [] then
      let _ ← escape
      return .more id
    else return .more id

/-- Passes over what is left of a malformed URL. -/
def badUrl : CharReader Unit := untilDone badUrlTurn

def urlTurn : CharReader (Turn (Option (List Char))) := do
  consume 1
  match ← current with
  | none =>
    note .unterminatedUrl
    return .done (some [])
  | some c =>
    if c.value == ')' then return .done (some [])
    else if isWhitespace c.value then
      let _ ← consumeWhile isWhitespace
      match ← next 1 with
      | [] =>
        consume 1
        note .unterminatedUrl
        return .done (some [])
      | d :: _ =>
        if d == ')' then
          consume 1
          return .done (some [])
        else
          badUrl
          return .done none
    else if c.value == '\x22' || c.value == '\x27' || c.value == '(' ||
        CodePoint.isNonPrintable c.value.toNat then
      note .invalidCodePointInUrl
      badUrl
      return .done none
    else if c.value == '\\' then
      if ← isEscape [] then
        reconsume c
        consume 1
        let e ← escape
        return .more (Option.map (e :: ·))
      else
        note .invalidEscapeInUrl
        badUrl
        return .done none
    else return .more (Option.map (c.value :: ·))

/-- The text of an unquoted URL after the white-space at its start, or none if it is malformed. -/
def urlBody : CharReader (Option (List Char)) := untilDone urlTurn

def url : CharReader Token := do
  let _ ← consumeWhile isWhitespace
  let value ← urlBody
  token (match value with
    | some value => .url (String.ofList value)
    | none => .badUrl)

def leadingTurn : CharReader (Turn Unit) := do
  let cs ← next 2
  if cs.all isWhitespace && !cs.isEmpty then
    consume 1
    return .more id
  else return .done ()

/-- Takes white-space while what follows it is white-space too, or the end. -/
def leadingWhitespace : CharReader Unit := untilDone leadingTurn

/-- Reads what follows a name and a parenthesis: nothing of a function, all of an unquoted URL. -/
def functionOrUrl (name : String) : CharReader Token := do
  if Text.asciiLower name == "url" then
    leadingWhitespace
    if startsQuoted (← next 2) then token (.function name) else url
  else token (.function name)

def identLike : CharReader Token := do
  let name := String.ofList (← name)
  if (← next 1) == ['('] then
    consume 1
    functionOrUrl name
  else token (.ident name)

def stringTurn (ending : Char) : CharReader (Turn (Option (List Char))) := do
  consume 1
  match ← current with
  | none =>
    note .unterminatedString
    return .done (some [])
  | some c =>
    if c.value == ending then return .done (some [])
    else if c.value == '\n' then
      note .newlineInString
      reconsume c
      return .done none
    else if c.value == '\\' then
      match ← next 1 with
      | [] => return .more id
      | d :: _ =>
        if d == '\n' then
          consume 1
          return .more id
        else
          let e ← escape
          return .more (Option.map (e :: ·))
    else return .more (Option.map (c.value :: ·))

/-- The text of a string, or none if a line break cuts it off. -/
def stringBody (ending : Char) : CharReader (Option (List Char)) := untilDone (stringTurn ending)

def string (ending : Char) : CharReader Token := do
  let value ← stringBody ending
  token (match value with
    | some value => .string (String.ofList value)
    | none => .badString)

def commentTurn : CharReader (Turn Nat) := do
  match ← next 1 with
  | [] =>
    note .unterminatedComment
    return .done 0
  | _ =>
    if (← next 2) == ['*', '/'] then
      consume 2
      return .done 2
    else
      consume 1
      return .more id

/-- Passes over the text of a comment and the mark that ends it, of which the length is given. -/
def commentBody : CharReader Nat := untilDone commentTurn

def comment : CharReader Token := do
  if (← next 2) == ['/', '*'] then
    consume 2
    let mark ← commentBody
    let text ← consumedFrom 2
    token (.comment (String.ofList (text.take (text.length - mark))))
  else throw .unexpected

/-! ## Numbers -/

def sign : CharReader (Option Number.Sign) := do
  match (← next 1).head?.bind Number.Sign.ofChar? with
  | some s =>
    consume 1
    return some s
  | none => return none

def fraction : CharReader (List Char) := do
  match ← next 2 with
  | ['.', d] =>
    if isDigit d then
      consume 1
      consumeWhile isDigit
    else return []
  | _ => return []

/-- Whether the mark of an exponent, and its digits or the sign before them, come next. -/
def startsExponent : List Char → Bool
  | e :: cs => (e == 'e' || e == 'E') &&
    match cs with
    | c :: cs => isDigit c || ((Number.Sign.ofChar? c).isSome && cs.head?.any isDigit)
    | [] => false
  | [] => false

def exponent : CharReader (Option Number.Sign × List Char) := do
  if startsExponent (← next 3) then
    consume 1
    let sign ← sign
    let digits ← consumeWhile isDigit
    return (sign, digits)
  else return (none, [])

def literal : CharReader Number.Literal := do
  let sign ← sign
  let whole ← consumeWhile isDigit
  let fraction ← fraction
  let (exponentSign, exponent) ← exponent
  return ⟨sign, whole, fraction, exponentSign, exponent⟩

/-- Reads a numeric literal, which has to have digits wherever there is something else of it, and its
value. -/
def number : CharReader (Number.Literal × Number.Value) := do
  let l ← literal
  if l.whole.isEmpty && l.fraction.isEmpty || l.exponentSign.isSome && l.exponent.isEmpty then
    throw .noDigits
  else match l.value with
    | .ok value => return (l, value)
    | .error e => throw (.range e)

/-- Reads a number with the unit or percent sign that follows it. -/
def numeric : CharReader Token := do
  let (literal, value) ← number
  if ← isName (← next 3) then
    token (.dimension value (String.ofList (← name)) literal.sign literal.form)
  else if (← next 1) == ['%'] then
    consume 1
    token (.percentage value literal.sign)
  else token (.number value literal.sign literal.form)

/-! ## Tokens -/

def delim (c : SourceChar) : CharReader Token := token (.delim c.value)

def whitespace : CharReader Token := do
  let _ ← consumeWhile isWhitespace
  token (.whitespace (String.ofList (← consumedFrom 0)))

def numberSign (c : SourceChar) : CharReader Token := do
  let cs ← next 3
  let escaped ← isEscape (cs.take 2)
  if cs.head?.any isIdent || escaped then
    let named ← isName cs
    token (.hash (String.ofList (← name)) (if named then .id else .unrestricted))
  else delim c

def plusOrPoint (c : SourceChar) : CharReader Token := do
  if startsNumber (← ahead 2) then
    reconsume c
    numeric
  else delim c

def minus (c : SourceChar) : CharReader Token := do
  if startsNumber (← ahead 2) then
    reconsume c
    numeric
  else if (← next 2) == ['-', '>'] then
    consume 2
    token .cdc
  else if ← isName [] then
    reconsume c
    identLike
  else delim c

def lessThan (c : SourceChar) : CharReader Token := do
  if (← next 3) == ['!', '-', '-'] then
    consume 3
    token .cdo
  else delim c

def atSign (c : SourceChar) : CharReader Token := do
  if ← isName (← next 3) then token (.atKeyword (String.ofList (← name))) else delim c

def backslash (c : SourceChar) : CharReader Token := do
  if ← isEscape [] then
    reconsume c
    identLike
  else
    note .invalidEscape
    delim c

def slash (c : SourceChar) : CharReader Token := do
  if (← next 1) == ['*'] then
    reconsume c
    comment
  else delim c

/-- Reads what starts with a digit, a letter or a character that means nothing. -/
def digitOrLetter (c : SourceChar) : CharReader Token := do
  if isDigit c.value then
    reconsume c
    numeric
  else if isIdentStart c.value then
    reconsume c
    identLike
  else delim c

/-- Reads the token whose first character `c` was consumed. -/
def tokenFrom (c : SourceChar) : CharReader Token :=
  if isWhitespace c.value then whitespace
  else match c.value with
  | '\x22' | '\x27' => string c.value
  | '#' => numberSign c
  | '(' => token (.opening .paren)
  | ')' => token (.closing .paren)
  | '+' | '.' => plusOrPoint c
  | ',' => token .comma
  | '-' => minus c
  | ':' => token .colon
  | ';' => token .semicolon
  | '<' => lessThan c
  | '@' => atSign c
  | '[' => token (.opening .square)
  | '\\' => backslash c
  | ']' => token (.closing .square)
  | '{' => token (.opening .brace)
  | '}' => token (.closing .brace)
  | '/' => slash c
  | _ => digitOrLetter c

def tokenTurn : CharReader (Turn (List Token)) := do
  if (← count) == 0 then
    consume 1
    match ← current with
    | none => return .done []
    | some c =>
      let t ← tokenFrom c
      modify fun s => { s with consumed := [] }
      return .more (t :: ·)
  else throw .unexpected

/-- Reads the tokens up to the end of the text. -/
def tokens : CharReader (List Token) := untilDone tokenTurn

end CharReader

/-- The tokens of a text, formed from a reader, and what was noted. -/
def formTokens (text : String) : Option (Except FormationFault (List Token × List Note)) :=
  (CharReader.tokens.run ⟨.ofList (filter text), [], []⟩).run.map
    (·.map fun (tokens, s) => (tokens, s.notes))

end Styling
