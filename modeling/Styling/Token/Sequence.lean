import Styling.Token.Lexer

/-!
# The tokens of a text

Tokens are formed one after another until the text ends. The one thing that stops them earlier is a
numeric literal without a value.
-/

namespace Styling

open Source Lexer

/-- The kind of a token once the value of its literal is known. -/
def Lexer.Lexeme.kind : Lexeme → Except Number.RangeError TokenKind
  | .plain kind => .ok kind
  | .number l => return .number (← l.value) l.sign l.form
  | .percentage l => return .percentage (← l.value) l.sign
  | .dimension l unit => return .dimension (← l.value) unit l.sign l.form

/-- The tokens formed, the faults noted, and what stopped them before the end of the text, if
anything did. -/
structure Tokens where
  tokens : List Token
  notes : List Note
  failure : Option Number.RangeError

namespace Tokens

def ofChars : List SourceChar → Tokens
  | [] => ⟨[], [], none⟩
  | c :: cs =>
    let s := scanLexeme c.value (cs.map SourceChar.value)
    let taken := cs.length - s.rest.length
    match s.value.kind with
    | .error e => ⟨[], s.notes, some e⟩
    | .ok kind =>
      let source := (c :: cs.take taken).flatMap SourceChar.source
      let others := ofChars (cs.drop taken)
      ⟨⟨kind, String.ofList source, c.location⟩ :: others.tokens, s.notes ++ others.notes,
        others.failure⟩
termination_by cs => cs.length
decreasing_by simp only [List.length_drop, List.length_cons]; omega

def ofText (text : String) : Tokens := ofChars (filter text)

/-- All tokens, unless something stopped them. -/
def toExcept (ts : Tokens) : Except Number.RangeError (List Token) :=
  match ts.failure with
  | some e => .error e
  | none => .ok ts.tokens

end Tokens

/-- The tokens of a text. -/
def tokenize (text : String) : Except Number.RangeError (List Token) := (Tokens.ofText text).toExcept

end Styling
