import Styling.Rule.Basic

/-!
# Notes on rules

Recoverable faults in the arrangement of rules: braces that close nothing, blocks that the end of
the input cuts off, and rules without a block. They are read off what was recognized, in order.
-/

namespace Styling

inductive Rule.Note where
  | strayBrace
  | strayBraceInAtRule
  | strayBraceInRule
  | unterminatedBlock
  | missingBlock
deriving DecidableEq, Repr

namespace Rule.Note

def message : Note → String
  | strayBrace => "Unbalanced \"\x7d\""
  | strayBraceInAtRule => "Unbalanced \"\x7d\" in at-rule prelude"
  | strayBraceInRule => "Unbalanced \"\x7d\" in rule prelude"
  | unterminatedBlock => "Unterminated block"
  | missingBlock => "Qualified rule without a block"

def forStrayBraces (note : Note) (cs : List Component) : List Note :=
  (cs.filter Component.isStrayBrace).map fun _ => note

end Rule.Note

open Rule.Note

/-- What follows the name and colon at the front, if they are there. -/
private def attemptedValue : List Component → List Component
  | .token ⟨.ident _, _, _⟩ :: cs =>
    match cs.dropWhile Component.isWhite with
    | .token ⟨.colon, _, _⟩ :: cs => cs
    | _ => []
  | _ => []

/-- A stray brace is noted where it stands in a value, and where it begins what is passed over. -/
def Item.notes : Item → List Rule.Note
  | loose _ => []
  | declaration d => forStrayBraces strayBrace d.value
  | malformed cs =>
    forStrayBraces strayBrace (attemptedValue cs) ++ forStrayBraces strayBrace (cs.take 1)
  | atRule r => forStrayBraces strayBraceInAtRule r.prelude

def Block.notes (b : Block) : List Rule.Note :=
  b.items.flatMap Item.notes ++ if b.closing.isNone then [unterminatedBlock] else []

def Rule.notes : Rule → List Rule.Note
  | loose _ => []
  | atRule r => forStrayBraces strayBraceInAtRule r.prelude
  | qualified prelude block => forStrayBraces strayBraceInRule prelude ++ block.notes
  | unfinished prelude => forStrayBraces strayBraceInRule prelude ++ [missingBlock]

def Component.listNotes (cs : List Component) : List Rule.Note := forStrayBraces strayBrace cs

end Styling
