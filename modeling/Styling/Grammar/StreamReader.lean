import Styling.Grammar.Engine
import Styling.Rule.StreamReader

/-!
# Reading by a grammar from a token stream

Tokens are also read by a production straight from a token stream, which pulls them as they are asked for.
Whatever is tried sets a mark, and drops it or goes back to it when that is done. A repetition goes on until
the element or the separator is not found, so it need not end where these take no token.
-/

namespace Styling

/-- Why reading by a grammar breaks off. -/
inductive GrammarFault where
  | stream (fault : StreamFault)
  | unusable (production : UnusableProduction)

/-- Reading by a grammar from a token stream. -/
abbrev GrammarReader := PartialReader TokenStream GrammarFault

namespace BracketCounts

/-- The counts after one more token, unless that could not be part of a value: it is malformed, or closes
what was not opened. -/
def after? (n : BracketCounts) : TokenKind → Option BracketCounts
  | .badString | .badUrl => none
  | .opening b => some (n.set (n.get b + 1) b)
  | .closing b => if n.get b = 0 then none else some (n.set (n.get b - 1) b)
  | _ => some n

end BracketCounts

namespace GrammarReader

def ofStream (r : StreamReader α) : GrammarReader α := fun s =>
  ExceptT.adapt .stream (r s)

/-- The next token, which is passed over, or none at the end; the index moves also there. -/
def consume : GrammarReader (Option Token) := fun s =>
  match s.consume with
  | (.ok t, s) => pure (t, s)
  | (.error e, _) => throw (.stream (.range e))

def mark : GrammarReader Unit := ofStream StreamReader.mark

def restoreMark : GrammarReader Unit := ofStream StreamReader.restoreMark

def discardMark : GrammarReader Unit := ofStream StreamReader.discardMark

/-- Sets a mark, which is dropped if something is found, and gone back to if not. -/
def attempt (r : GrammarReader (Option α)) : GrammarReader (Option α) := do
  mark
  match ← r with
  | some a =>
    discardMark
    return some a
  | none =>
    restoreMark
    return none

def tokenIf (p : Token → Bool) : GrammarReader (Option Product) := attempt do
  match ← consume with
  | some t => return if p t then some (.token t) else none
  | none => return none

/-- The products read of a repetition so far, and of how many elements they are. -/
structure Repeated where
  parts : List Product
  count : Nat

/-- Counts one more element, with what was read of it. -/
def Repeated.add (found : Repeated) (parts : List Product) : Repeated :=
  ⟨found.parts ++ parts, found.count + 1⟩

/-- Goes on with a repetition. Between elements a separator is read, which is given back where no element
follows it. -/
def Repeated.extend (found : Repeated) (element : GrammarReader (Option Product))
    (separator : Option (GrammarReader (Option Product))) (most : Option Nat) :
    GrammarReader Repeated := do
  if most.all (found.count < ·) then
    match if found.count = 0 then none else separator with
    | none =>
      match ← element with
      | some p => found.add [p] |>.extend element separator most
      | none => return found
    | some separate =>
      mark
      match ← separate with
      | some s =>
        match ← element with
        | some p =>
          discardMark
          found.add [s, p] |>.extend element separator most
        | none =>
          restoreMark
          return found
      | none =>
        restoreMark
        return found
  else return found
partial_fixpoint

section Repetition

variable (element : GrammarReader (Option Product))
  (separator : Option (GrammarReader (Option Product)))

def repetition (least : Nat) (most : Option Nat) : GrammarReader (Option Product) := attempt do
  let found ← (Repeated.mk [] 0).extend element separator most
  return if least ≤ found.count then some (.group found.parts) else none

end Repetition

end GrammarReader

open GrammarReader in
/-- Goes on with any value, of which `tokens` were read and the brackets among them counted. The token that
ends it is given back. -/
def BracketCounts.valueFrom (counts : BracketCounts) (tokens : List Token) :
    GrammarReader (List Token) := do
  mark
  match ← consume with
  | some t =>
    match counts.after? t.kind with
    | some counts =>
      discardMark
      counts |>.valueFrom (tokens ++ [t])
    | none =>
      restoreMark
      return tokens
  | none =>
    restoreMark
    return tokens
partial_fixpoint

namespace GrammarReader

def anyValue : GrammarReader (Option Product) := do
  let tokens ← BracketCounts.zero.valueFrom []
  return if tokens.isEmpty then none else some (.group (tokens.map .token))

mutual

def parse : Production → GrammarReader (Option Product)
  | .token pattern => tokenIf pattern.accepts
  | .alternatives elements => attempt (parseFirst elements)
  | .juxtaposition elements => attempt do return (← parseEach elements).map .group
  | .nonEmpty element => attempt do
      return (← parse element).filter (!·.tokens.isEmpty)
  | .reference element => parse element
  | .repetition element least most => repetition (parse element) none least most
  | .separated element separator least most =>
    repetition (parse element) (some (parse separator)) least most
  | .anyValue => anyValue
  | .bare => throw (.unusable .bare)

def parseFirst : List Production → GrammarReader (Option Product)
  | [] => return none
  | p :: ps => do
    match ← parse p with
    | some q => return some q
    | none => parseFirst ps

def parseEach : List Production → GrammarReader (Option (List Product))
  | [] => return some []
  | p :: ps => do
    match ← parse p with
    | some q => return (← parseEach ps).map (q :: ·)
    | none => return none

end

end GrammarReader

end Styling
