import Styling.Component.Basic
import Styling.ParseError
import Styling.Selector.Basic
import Styling.Selector.Grammar

/-!
# Reading selectors

A selector list is read from the tokens of component values, without the white-space at their ends.
All of them have to be taken by the grammar; the first that is not is the one reported.
-/

namespace Styling

namespace SimpleSelector

def ofTypeProduct? : Product → Option SimpleSelector
  | .token ⟨.delim '*', _, _⟩ => some .universal
  | .token ⟨.ident name, _, _⟩ => some (.typeName name)
  | _ => none

def ofSubclassProduct? (p : Product) : Option SimpleSelector :=
  match p with
  | .token ⟨.hash name _, _, _⟩ => some (.idName name)
  | .group [.token ⟨.delim '.', _, _⟩, .token ⟨.ident name, _, _⟩] => some (.className name)
  | .group (.token ⟨.opening .square, _, _⟩ :: _ :: .token ⟨.ident name, _, _⟩ :: _) =>
    some (.attributeName name (sourceOf p.tokens))
  | .group [.token ⟨.colon, _, _⟩, .token ⟨.ident name, _, _⟩] =>
    some (.pseudoClass name (sourceOf p.tokens))
  | .group (.token ⟨.colon, _, _⟩ :: .token ⟨.function name, _, _⟩ :: _) =>
    some (.pseudoClass name (sourceOf p.tokens))
  | _ => none

end SimpleSelector

def Selector.ofProduct? : Product → Option Selector
  | .group [.group types, .group subclasses] => do
    let types ← types.mapM SimpleSelector.ofTypeProduct?
    let subclasses ← subclasses.mapM SimpleSelector.ofSubclassProduct?
    return ⟨types ++ subclasses⟩
  | _ => none

namespace SelectorList

/-- The elements of a separated repetition, without the separators. -/
def elementsOf : List Product → List Product
  | [] => []
  | [p] => [p]
  | p :: _ :: ps => p :: elementsOf ps

def ofProduct? : Product → Option SelectorList
  | .group parts => return ⟨← (elementsOf parts).mapM Selector.ofProduct?⟩
  | .token _ => none

/-- White-space, and the delimiters that combine selectors where there is a tree. -/
def isCombinator (t : Token) : Bool :=
  match t.kind with
  | .delim c => c == '>' || c == '+' || c == '~'
  | kind => kind.isWhite

def unexpected (t : Token) : ParseError :=
  .ofCategory .selector t.location
    (some ("Unexpected " ++ Text.quoted t.source ++
      if isCombinator t then " (combinators are not supported)" else ""))

/-- Reads a selector list from all of the given tokens, which neither begin nor end with
white-space. -/
def ofTrimmed (tokens : List Token) : Except ParseError SelectorList :=
  match tokens with
  | [] => .error (.ofCategory .selector none (some "Empty selector list"))
  | first :: _ =>
    let invalid := .ofCategory .selector first.location (some (sourceOf tokens))
    match Selector.Grammar.selectorList.read (Cursor.ofList tokens) with
    | .ok (some product, cursor) =>
      match cursor.next?, ofProduct? product with
      | some t, _ => .error (unexpected t)
      | none, some selectors => .ok selectors
      | none, none => .error invalid
    | _ => .error invalid

def ofTokens (tokens : List Token) : Except ParseError SelectorList :=
  ofTrimmed (dropTrailing Token.isWhite (tokens.dropWhile Token.isWhite))

/-- Reads a selector list from component values, such as what precedes the block of a rule. -/
def ofComponents (cs : List Component) : Except ParseError SelectorList :=
  ofTokens (Component.listTokens cs)

end SelectorList

end Styling
