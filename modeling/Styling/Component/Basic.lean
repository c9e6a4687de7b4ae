import Styling.Token.Sequence

/-!
# Component values

A component value is a token, or a group: a function or a bracketed block, from the token that
opens it to the one that closes it. `Component.ofTokens` arranges a token list into component values
in one pass, keeping the groups that are open; `Component.tokens` is the way back.
-/

namespace Styling

/-- A token, or a function or block with what it holds and its closing token, absent if the input
ended first. -/
inductive Component where
  | token (t : Token)
  | group (head : Token) (contents : List Component) (closing : Option Token)

namespace Component

mutual

def tokens : Component → List Token
  | token t => [t]
  | group head contents closing => head :: (listTokens contents ++ closing.toList)

def listTokens : List Component → List Token
  | [] => []
  | c :: cs => tokens c ++ listTokens cs

end

def source (c : Component) : String := sourceOf c.tokens

def head : Component → Token
  | token t => t
  | group head _ _ => head

def location (c : Component) : Source.Location := c.head.location

def isWhite : Component → Bool
  | token t => t.isWhite
  | group .. => false

def isSemicolon : Component → Bool
  | token t => t.kind.isSemicolon
  | group .. => false

/-- A `}` that closes nothing. -/
def isStrayBrace : Component → Bool
  | token t => t.kind.isClosing .brace
  | group .. => false

def isBraceBlock : Component → Bool
  | group ⟨.opening .brace, _, _⟩ _ _ => true
  | _ => false

end Component

/-- A group being read: its head, and what it holds so far, latest first. -/
structure Frame where
  head : Token
  items : List Component

/-- Component values being read: the finished ones of the top level, latest first, and the open
groups, innermost first. -/
structure Builder where
  finished : List Component
  frames : List Frame

namespace Builder

def start : Builder := ⟨[], []⟩

/-- Adds a component value to the innermost open group. -/
def push (c : Component) : Builder → Builder
  | ⟨top, []⟩ => ⟨c :: top, []⟩
  | ⟨top, f :: fs⟩ => ⟨top, ⟨f.head, c :: f.items⟩ :: fs⟩

/-- Reads a token that does not close the innermost open group: it opens one, or stands alone. -/
def enter (b : Builder) (t : Token) : Builder :=
  if t.kind.closer?.isSome then ⟨b.finished, ⟨t, []⟩ :: b.frames⟩ else b.push (.token t)

def step (b : Builder) (t : Token) : Builder :=
  match b.frames with
  | [] => b.enter t
  | f :: fs =>
    if f.head.kind.closer?.any (t.kind.isClosing ·) then
      push (.group f.head f.items.reverse (some t)) ⟨b.finished, fs⟩
    else b.enter t

def run (b : Builder) (ts : List Token) : Builder := ts.foldl step b

/-- The component values of the top level, latest first, when all open groups end around `inner`. -/
def closeFrames (top : List Component) : List Frame → Option Component → List Component
  | [], inner => inner.toList ++ top
  | f :: fs, inner => closeFrames top fs (some (.group f.head (inner.toList ++ f.items).reverse none))

/-- The component values read, the open groups ended without a closing token. -/
def finish (b : Builder) : List Component := (closeFrames b.finished b.frames none).reverse

theorem run_append (b : Builder) (ts us : List Token) : b.run (ts ++ us) = (b.run ts).run us :=
  List.foldl_append

end Builder

def Component.ofTokens (ts : List Token) : List Component := (Builder.start.run ts).finish

def sourceOfComponents (cs : List Component) : String := sourceOf (Component.listTokens cs)

def locationOfComponents? (cs : List Component) : Option Source.Location :=
  cs.head?.map Component.location

def parseComponents (text : String) : Except Number.RangeError (List Component) :=
  return Component.ofTokens (← tokenize text)

end Styling
