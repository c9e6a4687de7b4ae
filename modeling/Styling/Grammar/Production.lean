import Styling.Token.Basic

/-!
# Grammars

A grammar is built from productions in the style of the value definition notation: tokens,
alternatives, juxtaposition, groups that must not be empty, repetition with or without separators,
and the production of any value at all. A production is data; `Styling.Grammar.Engine` reads tokens
by it.
-/

namespace Styling

inductive TokenClass where
  | ident | function | atKeyword | hash | string | badString | url | badUrl | delim | number
  | percentage | dimension | whitespace | comment | cdo | cdc | colon | semicolon | comma
  | opening (bracket : Bracket)
  | closing (bracket : Bracket)
deriving DecidableEq, Repr

namespace TokenClass

def all : List TokenClass :=
  let brackets : List Bracket := [.paren, .square, .brace]
  [ident, function, atKeyword, hash, string, badString, url, badUrl, delim, number, percentage,
    dimension, whitespace, comment, cdo, cdc, colon, semicolon, comma] ++ brackets.map opening ++
    brackets.map closing

def name : TokenClass → String
  | ident => "Ident"
  | function => "Function"
  | atKeyword => "AtKeyword"
  | hash => "Hash"
  | string => "String"
  | badString => "BadString"
  | url => "URL"
  | badUrl => "BadURL"
  | delim => "Delim"
  | number => "Number"
  | percentage => "Percentage"
  | dimension => "Dimension"
  | whitespace => "Whitespace"
  | comment => "Comment"
  | cdo => "CDO"
  | cdc => "CDC"
  | colon => "Colon"
  | semicolon => "Semicolon"
  | comma => "Comma"
  | opening .paren => "OpenParen"
  | opening .square => "OpenBracket"
  | opening .brace => "OpenBrace"
  | closing .paren => "CloseParen"
  | closing .square => "CloseBracket"
  | closing .brace => "CloseBrace"

def ofName? (name : String) : Option TokenClass := all.find? (·.name == name)

end TokenClass

namespace TokenKind

def tokenClass : TokenKind → TokenClass
  | ident _ => .ident
  | function _ => .function
  | atKeyword _ => .atKeyword
  | hash .. => .hash
  | string _ => .string
  | badString => .badString
  | url _ => .url
  | badUrl => .badUrl
  | delim _ => .delim
  | number .. => .number
  | percentage .. => .percentage
  | dimension .. => .dimension
  | whitespace _ => .whitespace
  | comment _ => .comment
  | cdo => .cdo
  | cdc => .cdc
  | colon => .colon
  | semicolon => .semicolon
  | comma => .comma
  | opening b => .opening b
  | closing b => .closing b

def text? : TokenKind → Option String
  | ident v | function v | atKeyword v | hash v _ | string v | url v | whitespace v
  | comment v => some v
  | delim c => some (String.singleton c)
  | _ => none

/-- The name of the form a token was written in, if it has forms. -/
def formName? : TokenKind → Option String
  | hash _ .id => some "id"
  | hash _ .unrestricted => some "unrestricted"
  | number _ _ .integer | dimension _ _ _ .integer => some "integer"
  | number _ _ .number | dimension _ _ _ .number => some "number"
  | _ => none

end TokenKind

/-- A class of tokens, or the tokens of it that stand for a given text or have a given form. -/
structure TokenPattern where
  tokenClass : TokenClass
  text : Option String
  form : Option String
deriving DecidableEq, Repr

/-- Whether a token is of a class; comments are white-space too. -/
def TokenClass.includes (c : TokenClass) (kind : TokenKind) : Bool :=
  kind.tokenClass == c || (c == .whitespace && kind.tokenClass == .comment)

def TokenPattern.accepts (p : TokenPattern) (t : Token) : Bool :=
  p.tokenClass.includes t.kind && (p.text.isNone || p.text == t.kind.text?) &&
    (p.form.isNone || p.form == t.kind.formName?)

inductive Production where
  | token (pattern : TokenPattern)
  | alternatives (elements : List Production)
  | juxtaposition (elements : List Production)
  /-- An element that has to take a token. -/
  | nonEmpty (element : Production)
  | reference (element : Production)
  /-- At least `least` times the element, and at most `most` times if that is given. -/
  | repetition (element : Production) (least : Nat) (most : Option Nat)
  /-- The same with a separator between every two elements. -/
  | separated (element separator : Production) (least : Nat) (most : Option Nat)
  /-- Any tokens up to one that could not be part of a value. -/
  | anyValue
  /-- A production of no kind, by which nothing can be read. -/
  | bare

namespace Production

def ofClass (c : TokenClass) : Production := .token ⟨c, none, none⟩

def delim (c : Char) : Production := .token ⟨.delim, some (String.singleton c), none⟩

def ident (name : String) : Production := .token ⟨.ident, some name, none⟩

def optional (element : Production) : Production := .repetition element 0 (some 1)

/-- One white-space token or comment, or more. -/
def whitespace : Production := .repetition (ofClass .whitespace) 1 none

/-- A comma, with white-space around it or not. -/
def comma : Production :=
  .juxtaposition [optional whitespace, ofClass .comma, optional whitespace]

/-- One element or more, with commas between them. -/
def commaSeparated (element : Production) : Production := .separated element comma 1 none

/-- A repetition with the given bounds; refused if they are no bounds: the least count is not
negative, the greatest is positive and not below the least. -/
def bounded? (element : Production) (separator : Option Production) (least : Int)
    (most : Option Int) : Option Production :=
  if 0 ≤ least && most.all (fun m => 0 < m && least ≤ m) then
    let bound := most.map Int.toNat
    match separator with
    | some separator => some (.separated element separator least.toNat bound)
    | none => some (.repetition element least.toNat bound)
  else none

end Production

end Styling
