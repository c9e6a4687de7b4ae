import Styling.Cursor
import Styling.Grammar.Production

/-!
# Reading by a grammar

Tokens are read by a production from a cursor. Acceptance gives a product, which holds the tokens
taken; rejection leaves the cursor where it was. Alternatives are tried in order, repetition goes
on as long as it can, and no choice is taken back once made.
-/

namespace Styling

/-- What was read by a production: a token, or a group of products. -/
inductive Product where
  | token (t : Token)
  | group (parts : List Product)

namespace Product

mutual

def tokens : Product → List Token
  | token t => [t]
  | group parts => listTokens parts

def listTokens : List Product → List Token
  | [] => []
  | p :: ps => tokens p ++ listTokens ps

end

end Product

/-- The fault of a grammar, not of its input: a production by which nothing can be read. -/
inductive UnusableProduction where
  | bare
deriving DecidableEq, Repr

/-- Reading from a cursor, with a result if the input is accepted. -/
abbrev Reading (α : Type) := Cursor Token → Except UnusableProduction (Option α × Cursor Token)

namespace Reading

def accept (a : α) : Reading α := fun c => .ok (some a, c)

def reject : Reading α := fun c => .ok (none, c)

/-- Continues where the first reading ended, if it accepts. -/
def andThen (first : Reading α) (next : α → Reading β) : Reading β := fun c => do
  match ← first c with
  | (some a, c) => next a c
  | (none, c) => .ok (none, c)

/-- Sets a mark and goes back to it on rejection. -/
def attempt (r : Reading α) : Reading α := fun c => do
  match ← r c.mark with
  | (some a, c) => .ok (some a, c.discardMark)
  | (none, c) => .ok (none, c.restoreMark)

/-- Gives the result of the second reading if the first rejects. -/
def orElse (first second : Reading α) : Reading α := fun c => do
  match ← first c with
  | (some a, c) => .ok (some a, c)
  | (none, c) => second c

def tokenIf (p : Token → Bool) : Reading Product := attempt fun c =>
  match c.consume with
  | (some t, c) => .ok (if p t then some (.token t) else none, c)
  | (none, c) => .ok (none, c)

/-- The products of a reading repeated at most `limit` times, each after the first preceded by that
of the separator, and the number of repetitions. -/
def repeated (element : Reading Product) (separator : Reading (List Product)) :
    (limit : Nat) → (first : Bool) → Reading (List Product × Nat)
  | 0, _ => accept ([], 0)
  | limit + 1, first =>
    let step : Reading (List Product) :=
      if first then element.andThen fun p => accept [p]
      else attempt (separator.andThen fun s => element.andThen fun p => accept (s ++ [p]))
    let onward : Reading (List Product × Nat) :=
      step.andThen fun ps => (repeated element separator limit false).andThen fun (others, n) =>
        accept (ps ++ others, n + 1)
    onward.orElse (accept ([], 0))

end Reading

structure BracketCounts where
  paren : Nat
  square : Nat
  brace : Nat

namespace BracketCounts

def zero : BracketCounts := ⟨0, 0, 0⟩

def get (n : BracketCounts) : Bracket → Nat
  | .paren => n.paren
  | .square => n.square
  | .brace => n.brace

def set (n : BracketCounts) (k : Nat) : Bracket → BracketCounts
  | .paren => { n with paren := k }
  | .square => { n with square := k }
  | .brace => { n with brace := k }

end BracketCounts

/-- The longest run of tokens in which no bracket is closed more often than it was opened, and
nothing is malformed. Functions do not count as opening a parenthesis. -/
def takeAnyValue (counts : BracketCounts) : List Token → List Token
  | [] => []
  | t :: ts =>
    match t.kind with
    | .badString | .badUrl => []
    | .opening b => t :: takeAnyValue (counts.set (counts.get b + 1) b) ts
    | .closing b =>
      if counts.get b = 0 then [] else t :: takeAnyValue (counts.set (counts.get b - 1) b) ts
    | _ => t :: takeAnyValue counts ts

namespace Production

open Reading

/-- Reads any value, which takes a token at least. -/
def readAnyValue : Reading Product := fun c =>
  let taken := takeAnyValue .zero c.rest
  if taken.isEmpty then .ok (none, c)
  else .ok (some (.group (taken.map .token)), c.advance taken.length)

/-- How often a repetition is tried: as often as permitted, or else, since every repetition but the
first takes a token, no oftener than there are tokens left. -/
def repetitionLimit (most : Option Nat) (c : Cursor Token) : Nat := most.getD (c.rest.length + 2)

/-- Reads a group of a repeated element, if there is enough of it. -/
def readRepetition (element : Reading Product) (separator : Reading (List Product))
    (least : Nat) (most : Option Nat) : Reading Product :=
  attempt fun c => do
    match ← repeated element separator (repetitionLimit most c) true c with
    | (some (ps, n), c) => .ok (if least ≤ n then some (.group ps) else none, c)
    | (none, c) => .ok (none, c)

mutual

def read : Production → Reading Product
  | token pattern => tokenIf pattern.accepts
  | alternatives elements => attempt (readFirst elements)
  | juxtaposition elements => attempt ((readEach elements).andThen fun ps => accept (.group ps))
  | nonEmpty element =>
    attempt ((read element).andThen fun p => if p.tokens.isEmpty then reject else accept p)
  | reference element => read element
  | repetition element least most => readRepetition (read element) (accept []) least most
  | separated element separator least most =>
    readRepetition (read element) ((read separator).andThen fun p => accept [p]) least most
  | anyValue => readAnyValue
  | bare => fun _ => .error .bare

def readFirst : List Production → Reading Product
  | [] => reject
  | p :: ps => (read p).orElse (readFirst ps)

def readEach : List Production → Reading (List Product)
  | [] => accept []
  | p :: ps => (read p).andThen fun first => (readEach ps).andThen fun others =>
      accept (first :: others)

end

end Production

end Styling
