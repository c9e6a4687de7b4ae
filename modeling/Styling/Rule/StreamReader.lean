import Styling.Rule.Basic
import Styling.Token.Stream
import Styling.Turn

/-!
# Reading from a token stream

Component values, declaration lists and rules can also be read straight from a token stream, with
one token of look-ahead and without arranging all tokens first. Where no declaration is found, the
reader goes back to a mark and passes over what is malformed. What a reader takes for granted about
the stream is checked as it goes; a stream that is not so is a fault.
-/

namespace Styling

/-- Why reading from a stream breaks off. -/
inductive StreamFault where
  /-- Another token than the one due, or the end. -/
  | unexpected (t : Option Token)
  /-- There is no mark to go back to or to drop. -/
  | unmarked
  /-- The source of the stream failed. -/
  | range (e : Number.RangeError)

/-- Reading from a token stream. -/
abbrev StreamReader := PartialReader TokenStream StreamFault

namespace StreamReader

/-- The next token, which is not passed over; none at the end. -/
def peek : StreamReader (Option Token) := fun s =>
  match s.next with
  | (.ok t, s) => pure (t, s)
  | (.error e, _) => throw (.range e)

/-- The next token, which has to be there and is passed over. -/
def consume : StreamReader Token := fun s =>
  match s.consume with
  | (.ok (some t), s) => pure (t, s)
  | (.ok none, _) => throw (.unexpected none)
  | (.error e, _) => throw (.range e)

def expect (p : TokenKind → Bool) : StreamReader Unit := do
  let t ← peek
  if t.any (p ·.kind) then return else throw (.unexpected t)

def mark : StreamReader Unit := modify TokenStream.mark

def restoreMark : StreamReader Unit := fun s =>
  match s.restoreMark? with
  | some s => pure ((), s)
  | none => throw .unmarked

def discardMark : StreamReader Unit := fun s =>
  match s.discardMark? with
  | some s => pure ((), s)
  | none => throw .unmarked

/-! ## Component values -/

def whiteTurn : StreamReader (Turn (List Component)) := do
  match ← peek with
  | none => return .done []
  | some t =>
    if t.isWhite then
      let t ← consume
      return .more (.token t :: ·)
    else return .done []

def white : StreamReader (List Component) := PartialReader.untilDone whiteTurn

end StreamReader

open StreamReader

mutual

/-- Reads the component value that starts with the token ahead. -/
def Token.component (ahead : Token) : StreamReader Component := do
  if ahead.kind.closer?.isSome then ahead |>.group
  else return .token (← consume)
partial_fixpoint

/-- Reads the group that starts with the token ahead, which has to open one. -/
def Token.group (ahead : Token) : StreamReader Component := do
  if ahead.kind.closer?.isSome then
    let head ← consume
    let (contents, closing) ← head |>.contents
    return .group head contents closing
  else throw (.unexpected (some ahead))
partial_fixpoint

/-- Reads what a group with the given head holds, and the bracket that closes it. -/
def Token.contents (head : Token) : StreamReader (List Component × Option Token) := do
  match ← peek with
  | none => return ([], none)
  | some t =>
    if head.kind.closer?.any (t.kind.isClosing ·) then return ([], some (← consume))
    else
      let c ← t |>.component
      let (cs, closing) ← head |>.contents
      return (c :: cs, closing)
partial_fixpoint

end

namespace StreamReader

def componentTurn (ends : TokenKind → Bool) : StreamReader (Turn (List Component)) := do
  match ← peek with
  | none => return .done []
  | some t =>
    if ends t.kind then return .done []
    else
      let c ← t.component
      return .more (c :: ·)

/-- Reads component values up to a token that ends them, which is not passed over. -/
def componentsUntil (ends : TokenKind → Bool) : StreamReader (List Component) :=
  PartialReader.untilDone (componentTurn ends)

def components : StreamReader (List Component) := componentsUntil fun _ => false

/-! ## Declaration lists -/

def endsDeclaration (nested : Bool) (kind : TokenKind) : Bool :=
  kind.isSemicolon || (nested && kind.isClosing .brace)

/-- Whether a token ends what stands after the keyword of an at-rule. -/
def endsPrelude (nested : Bool) (kind : TokenKind) : Bool :=
  endsDeclaration nested kind || kind.closer? == some .brace

def atRule (nested : Bool) : StreamReader AtRule := do
  expect fun | .atKeyword _ => true | _ => false
  let keyword ← consume
  let prelude ← componentsUntil (endsPrelude nested)
  match ← peek with
  | none => return ⟨keyword, prelude, none⟩
  | some t =>
    if t.kind.isSemicolon then return ⟨keyword, prelude, some (.token (← consume))⟩
    else if t.kind.closer?.isSome then return ⟨keyword, prelude, some (← t.group)⟩
    else return ⟨keyword, prelude, none⟩

/-- The places of the `!` and the `important` that come last in a value, white-space apart. -/
def markPlaces? (body : List Component) : Option (Nat × Nat) :=
  match (body.zipIdx.filter fun (c, _) => !c.isWhite).reverse with
  | (word, j) :: (bang, i) :: _ => if isBang bang && isImportantIdent word then some (i, j) else none
  | _ => none

/-- Cuts an `!important` out of a value by its place, and the white-space around it. -/
def cutImportant (body : List Component) : MarkedValue :=
  let (start, stop) := match markPlaces? body with
    | some (i, j) => (i, j + 1)
    | none => (body.length, body.length)
  let before := takeTrailing Component.isWhite (body.take start)
  let after := (body.drop stop).takeWhile Component.isWhite
  ⟨body.take (start - before.length) ++ body.drop (stop + after.length), before,
    (body.take stop).drop start, after⟩

/-- Reads a declaration. If there is none, the stream is left where that became clear. -/
def declaration (nested : Bool) : StreamReader (Option Declaration) := do
  match ← peek with
  | some ⟨.ident _, _, _⟩ =>
    let name ← consume
    let afterName ← white
    if (← peek).any (·.kind.isColon) then
      let colon ← consume
      let beforeValue ← white
      let body ← componentsUntil (endsDeclaration nested)
      let v := cutImportant body
      if isDeclarationValue v.value then
        return some ⟨name, afterName, colon, beforeValue, v.value, v.beforeMark, v.mark, v.afterMark⟩
      else return none
    else return none
  | _ => return none

/-- Reads a declaration and appends it to a list, which stays as it is if there is none. -/
def declarationTo (nested : Bool) (items : List Item) : StreamReader (Option Declaration × List Item) := do
  match ← declaration nested with
  | some d => return (some d, items ++ [.declaration d])
  | none => return (none, items)

/-- Passes over the rest of what is no declaration, with the semicolon that ends it. -/
def malformed (nested : Bool) : StreamReader (List Component) := do
  let body ← componentsUntil (endsDeclaration nested)
  if (← peek).any (·.kind.isSemicolon) then return body ++ [.token (← consume)]
  else return body

/-- Reads a declaration, or goes back and passes over what is none. A `}` in front closes nothing
and is passed over too. -/
def declarationOrMalformed (nested : Bool) : StreamReader Item := do
  mark
  match ← declaration nested with
  | some d =>
    discardMark
    return .declaration d
  | none =>
    restoreMark
    if (← peek).any (·.kind.isClosing .brace) then
      let brace ← consume
      let body ← malformed nested
      return .malformed (.token brace :: body)
    else return .malformed (← malformed nested)

def item (nested : Bool) (t : Token) : StreamReader Item :=
  if t.isWhite || t.kind.isSemicolon then return .loose (← consume)
  else match t.kind with
    | .atKeyword _ => return .atRule (← atRule nested)
    | _ => declarationOrMalformed nested

def itemTurn (nested : Bool) : StreamReader (Turn (List Item)) := do
  match ← peek with
  | none => return .done []
  | some t =>
    if nested && t.kind.isClosing .brace then return .done []
    else
      let i ← item nested t
      return .more (i :: ·)

/-- Reads the items of a declaration list, inside a block up to the `}` that ends it. -/
def items (nested : Bool) : StreamReader (List Item) := PartialReader.untilDone (itemTurn nested)

/-! ## Rules -/

def block : StreamReader Block := do
  expect (·.closer? == some .brace)
  let opening ← consume
  let items ← items true
  if (← peek).isNone then return ⟨opening, items, none⟩
  else
    expect (·.isClosing .brace)
    return ⟨opening, items, some (← consume)⟩

def qualifiedRule : StreamReader Rule := do
  let prelude ← componentsUntil (·.closer? == some .brace)
  if (← peek).isNone then return .unfinished prelude
  else return .qualified prelude (← block)

def rule (t : Token) : StreamReader Rule :=
  if Rule.isLoose t.kind then return .loose (← consume)
  else match t.kind with
    | .atKeyword _ => return .atRule (← atRule false)
    | _ => qualifiedRule

def ruleTurn : StreamReader (Turn (List Rule)) := do
  match ← peek with
  | none => return .done []
  | some t =>
    let r ← rule t
    return .more (r :: ·)

def rules : StreamReader (List Rule) := PartialReader.untilDone ruleTurn

end StreamReader

end Styling
