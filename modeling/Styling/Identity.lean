import Styling.Text.Ascii
import Styling.Text.Blank
import Styling.Text.Quoted

/-!
# Identities

What selectors get to know about an entity: its id, if it has one, and its class names. The notation
`#menu.panel.dark` lists them; of several ids the last one counts, and the classes form a set, which
is kept sorted and without repetition.
-/

namespace Styling

/-- Adds a name to a sorted list without repetition. -/
def insertName (name : String) : List String → List String
  | [] => [name]
  | n :: ns =>
    if name < n then name :: n :: ns
    else if name == n then n :: ns
    else n :: insertName name ns

def sortNames (names : List String) : List String := names.foldr insertName []

structure Identity where
  id : Option String
  classes : List String
deriving DecidableEq, Repr

namespace Identity

/-- Why there is no such identity: no name may contain white-space. -/
inductive Error where
  | blankInId (id : String)
  /-- One of the classes has white-space in it at least. -/
  | blankInClasses (classes : List String)
deriving DecidableEq, Repr

/-- The text of an error. The classes are a set and shown in no order of their own; here they are sorted. -/
def Error.message : Error → String
  | .blankInId id => "White-space in id " ++ Text.quoted id
  | .blankInClasses classes => "White-space in classes " ++ Text.quotedSet classes

inductive Level where
  | debug
  | warning
deriving DecidableEq, Repr

def Level.name : Level → String
  | debug => "debug"
  | warning => "warning"

inductive Note where
  | emptyNotation
  | emptyClasses
  /-- The notation begins with a part that is marked neither as an id nor as a class. -/
  | unmarked (text part : String)
deriving DecidableEq, Repr

namespace Note

def level : Note → Level
  | emptyNotation | emptyClasses => .debug
  | unmarked .. => .warning

def message : Note → String
  | emptyNotation => "Empty identity string"
  | emptyClasses => "Empty class string"
  | unmarked text part =>
    "Text without a \x60#\x60 or \x60.\x60 marker in identity string " ++ Text.quoted text ++
      " is ignored: " ++ Text.quoted part

end Note

def hasBlank (name : String) : Bool := name.toList.any Text.isBlank

/-- The identity with the given id and classes, of which none may contain white-space. -/
def make (id : Option String) (classes : List String) : Except Error Identity :=
  match id.filter hasBlank with
  | some id => .error (.blankInId id)
  | none =>
    if classes.any hasBlank then .error (.blankInClasses (sortNames classes))
    else .ok ⟨id, sortNames classes⟩

/-- `make`, where an empty id is none. -/
def ofParts (id : Option String) (classes : List String) : Except Error Identity :=
  make (id.filter (!·.isEmpty)) classes

/-- The marks that begin an id or a class in the notation. -/
def isMarker (c : Char) : Bool := c == '#' || c == '.'

/-- What the parts of a notation say. -/
structure Parts where
  id : Option String
  classes : List String
  notes : List Note
deriving DecidableEq, Repr

/-- Takes in one more part of the text: the id if it is marked as one, also when it is empty, or one more
class unless it is empty. -/
def Parts.add (text : String) (marker : Option Char) (part : List Char) (found : Parts) : Parts :=
  match marker with
  | none =>
    if part.isEmpty then found
    else { found with notes := found.notes ++ [.unmarked text (String.ofList part)] }
  | some '#' => { found with id := if part.isEmpty then none else some (String.ofList part) }
  | some '.' =>
    if part.isEmpty then found else { found with classes := found.classes ++ [String.ofList part] }
  | some _ => found

/-- How far the text has been read: what the parts up to here say, and the marker of the part that is not
yet at its end, if it has one, with the place this part starts at. -/
structure Pass where
  marker : Option Char
  start : Nat
  found : Parts
deriving DecidableEq, Repr

/-- At a marker the part before it ends, and the next one starts. -/
def Pass.step (text : String) (pass : Pass) : Char × Nat → Pass
  | (c, place) =>
    if isMarker c then
      let part := (text.toList.take place).drop pass.start
      ⟨some c, place + 1, pass.found.add text pass.marker part⟩
    else pass

/-- What the parts of the text say, from one pass over it; a marker put behind the text ends the last. -/
def partsOf (text : String) : Parts :=
  ((text.toList ++ ['.']).zipIdx.foldl (Pass.step text) ⟨none, 0, ⟨none, [], []⟩⟩).found

def ofNotation (text : String) : Except Error Identity :=
  if text.isEmpty then .ok ⟨none, []⟩
  else
    let found := partsOf text
    make found.id found.classes

def notationNotes (text : String) : List Note :=
  if text.isEmpty then [.emptyNotation] else (partsOf text).notes

def ofClasses (text : String) : Except Error Identity := make none (Text.words text)

def classesNotes (text : String) : List Note := if text.isEmpty then [.emptyClasses] else []

def toText (i : Identity) : String :=
  (match i.id with
    | some id => if id.isEmpty then "" else "#" ++ id
    | none => "") ++
    String.join (i.classes.map ("." ++ ·))

end Identity

end Styling
