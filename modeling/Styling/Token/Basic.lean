import Styling.Number.Literal
import Styling.Source.Filter

/-!
# Tokens

A token is a piece of source text with a kind, which holds what the text stands for, and the place
where the text starts. White-space and comments are tokens too, so the tokens of a text make up
all of it.
-/

namespace Styling

inductive Bracket where
  | paren
  | square
  | brace
deriving DecidableEq, Repr

/-- Whether the text after a hash mark could also be written without it. -/
inductive HashForm where
  | id
  | unrestricted
deriving DecidableEq, Repr

inductive TokenKind where
  | ident (value : String)
  | function (value : String)
  | atKeyword (value : String)
  | hash (value : String) (form : HashForm)
  | string (value : String)
  | badString
  | url (value : String)
  | badUrl
  | delim (value : Char)
  | number (value : Number.Value) (sign : Option Number.Sign) (form : Number.Form)
  | percentage (value : Number.Value) (sign : Option Number.Sign)
  | dimension (value : Number.Value) (unit : String) (sign : Option Number.Sign)
      (form : Number.Form)
  | whitespace (value : String)
  | comment (value : String)
  | cdo
  | cdc
  | colon
  | semicolon
  | comma
  | opening (bracket : Bracket)
  | closing (bracket : Bracket)

structure Token where
  kind : TokenKind
  source : String
  location : Source.Location

namespace TokenKind

def isWhite : TokenKind → Bool
  | whitespace _ | comment _ => true
  | _ => false

def isSemicolon : TokenKind → Bool
  | semicolon => true
  | _ => false

def isColon : TokenKind → Bool
  | colon => true
  | _ => false

def isClosing (b : Bracket) : TokenKind → Bool
  | closing c => b == c
  | _ => false

/-- The bracket that ends what this token begins, if it begins a function or a block. -/
def closer? : TokenKind → Option Bracket
  | function _ => some .paren
  | opening b => some b
  | _ => none

end TokenKind

namespace Token

def isWhite (t : Token) : Bool := t.kind.isWhite

end Token

def sourceOf (ts : List Token) : String := String.join (ts.map Token.source)

end Styling
