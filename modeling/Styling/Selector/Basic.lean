import Styling.Identity

/-!
# Selectors

A compound selector is a run of simple selectors, and matches an identity if all of them do; a
selector list matches if one of its selectors does. Entities have neither type nor attributes nor
states here, so the simple selectors that ask for those match nothing.
-/

namespace Styling

/-- Whether names are compared exactly or up to the case of ASCII letters. -/
inductive CaseSensitivity where
  | sensitive
  | asciiInsensitive
deriving DecidableEq, Repr

namespace CaseSensitivity

def same : CaseSensitivity → String → String → Bool
  | sensitive, a, b => a == b
  | asciiInsensitive, a, b => Text.eqIgnoringAsciiCase a b

/-- Whether a name is among others: it is looked up where names are compared exactly. -/
def contains : CaseSensitivity → List String → String → Bool
  | sensitive, names, name => names.contains name
  | asciiInsensitive, names, name => names.any (asciiInsensitive.same · name)

end CaseSensitivity

/-- The number of ids, of classes and the like, and of types in a selector. -/
structure Specificity where
  ids : Nat
  classes : Nat
  types : Nat
deriving DecidableEq, Repr

namespace Specificity

def zero : Specificity := ⟨0, 0, 0⟩

def add (a b : Specificity) : Specificity :=
  ⟨a.ids + b.ids, a.classes + b.classes, a.types + b.types⟩

/-- The lexicographic order. -/
def less (a b : Specificity) : Bool :=
  a.ids < b.ids || (a.ids == b.ids && (a.classes < b.classes ||
    (a.classes == b.classes && a.types < b.types)))

/-- The greatest of several, the first of equals. -/
def greatest? : List Specificity → Option Specificity
  | [] => none
  | s :: ss => some (ss.foldl (fun best s => if best.less s then s else best) s)

end Specificity

inductive SimpleSelector where
  | universal
  | typeName (name : String)
  | idName (name : String)
  | className (name : String)
  /-- The text is as written, with its brackets. -/
  | attributeName (name css : String)
  | pseudoClass (name css : String)
deriving DecidableEq, Repr

namespace SimpleSelector

def specificity : SimpleSelector → Specificity
  | universal => .zero
  | typeName _ => ⟨0, 0, 1⟩
  | idName _ => ⟨1, 0, 0⟩
  | className _ | attributeName .. | pseudoClass .. => ⟨0, 1, 0⟩

def isMatch (mode : CaseSensitivity) (i : Identity) : SimpleSelector → Bool
  | universal => true
  | idName name => i.id.any (mode.same · name)
  | className name => mode.contains i.classes name
  | typeName _ | attributeName .. | pseudoClass .. => false

def toText : SimpleSelector → String
  | universal => "*"
  | typeName name => name
  | idName name => "#" ++ name
  | className name => "." ++ name
  | attributeName _ css | pseudoClass _ css => css

end SimpleSelector

structure Selector where
  components : List SimpleSelector
deriving DecidableEq, Repr

namespace Selector

def specificity (s : Selector) : Specificity :=
  (s.components.map SimpleSelector.specificity).foldl .add .zero

def isMatch (mode : CaseSensitivity) (i : Identity) (s : Selector) : Bool :=
  s.components.all (·.isMatch mode i)

def toText (s : Selector) : String := String.join (s.components.map SimpleSelector.toText)

end Selector

structure SelectorList where
  selectors : List Selector
deriving DecidableEq, Repr

namespace SelectorList

def isMatch (mode : CaseSensitivity) (i : Identity) (l : SelectorList) : Bool :=
  l.selectors.any (·.isMatch mode i)

/-- The greatest specificity of the selectors that match, if any does. -/
def specificityFor? (mode : CaseSensitivity) (i : Identity) (l : SelectorList) :
    Option Specificity :=
  Specificity.greatest? ((l.selectors.filter (·.isMatch mode i)).map Selector.specificity)

def toText (l : SelectorList) : String := ", ".intercalate (l.selectors.map Selector.toText)

end SelectorList

end Styling
