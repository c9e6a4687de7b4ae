import Styling.Source.CodePoint

/-!
# Filtering of source text

Before tokens are formed, every form of line break becomes a line feed and NUL becomes the
replacement character. A filtered character remembers the text it stands for and where that text
starts, so nothing of the source is lost.
-/

namespace Styling.Source

/-- A place in source text; both numbers count from one, columns in code points as written. -/
structure Location where
  line : Nat
  column : Nat
deriving DecidableEq, Repr, Inhabited

namespace Location

def start : Location := ⟨1, 1⟩

/-- The beginning of the line after this place. -/
def nextLine (l : Location) : Location := ⟨l.line + 1, 1⟩

def nextColumn (l : Location) : Location := ⟨l.line, l.column + 1⟩

end Location

/-- A character of filtered text, with the characters written for it and the place of the first. -/
structure SourceChar where
  value : Char
  source : List Char
  location : Location
deriving DecidableEq, Repr

/-- What stands for a single character in filtered text. -/
def filterChar (c : Char) : Char :=
  if c == '\r' || c == '\x0C' then '\n' else if c == '\x00' then '\uFFFD' else c

/-- The place after a single character that starts `here`. -/
def Location.after (here : Location) (c : Char) : Location :=
  if c == '\r' || c == '\n' || c == '\x0C' then here.nextLine else here.nextColumn

/-- Filters text that starts `here`; a carriage return with a line feed is one line break. -/
def filterFrom (here : Location) : List Char → List SourceChar
  | [] => []
  | '\r' :: '\n' :: cs => ⟨'\n', ['\r', '\n'], here⟩ :: filterFrom here.nextLine cs
  | c :: cs => ⟨filterChar c, [c], here⟩ :: filterFrom (here.after c) cs

/-- The filtered form of a whole text. -/
def filter (text : String) : List SourceChar := filterFrom .start text.toList

end Styling.Source
