import Styling.Component.Basic
import Styling.Runs
import Styling.Text.Ascii

/-!
# Declarations

A declaration is read from component values as a name, a colon and a value, which goes on to the
next semicolon, or also to a stray `}` where one ends the enclosing block. White-space around the
value and an `!important` at its end are kept apart from it. The main statement is
`Declaration.components_take?`: the parts of a declaration are the component values it was read
from.
-/

namespace Styling

/-- A declaration in its parts, in the order in which they were written. -/
structure Declaration where
  name : Token
  afterName : List Component
  colon : Token
  beforeValue : List Component
  value : List Component
  beforeMark : List Component
  mark : List Component
  afterMark : List Component

namespace Declaration

/-- The property name, as written but for escapes. -/
def property (d : Declaration) : String :=
  match d.name.kind with
  | .ident name => name
  | _ => ""

def isImportant (d : Declaration) : Bool := !d.mark.isEmpty

def components (d : Declaration) : List Component :=
  .token d.name :: (d.afterName ++ .token d.colon :: (d.beforeValue ++ d.value ++ d.beforeMark ++
    d.mark ++ d.afterMark))

end Declaration

def isBang : Component → Bool
  | .token ⟨.delim '!', _, _⟩ => true
  | _ => false

def isImportantIdent : Component → Bool
  | .token ⟨.ident name, _, _⟩ => Text.asciiLower name == "important"
  | _ => false

/-- A value with what was split off its end: white-space, the `!important`, more white-space. -/
structure MarkedValue where
  value : List Component
  beforeMark : List Component
  mark : List Component
  afterMark : List Component

/-- Splits an `!important` at the end of a value off it, and the white-space around it. -/
def splitImportant (body : List Component) : MarkedValue :=
  let core := dropTrailing Component.isWhite body
  let unmarked : MarkedValue := ⟨core, takeTrailing Component.isWhite body, [], []⟩
  match core.reverse with
  | word :: others =>
    let (gap, before) := splitRun Component.isWhite others
    match isImportantIdent word, before with
    | true, bang :: front =>
      if isBang bang then
        let value := dropTrailing Component.isWhite front.reverse
        ⟨value, takeTrailing Component.isWhite front.reverse, bang :: (gap.reverse ++ [word]),
          takeTrailing Component.isWhite body⟩
      else unmarked
    | _, _ => unmarked
  | [] => unmarked

/-- Whether component values can be the value of a declaration: there are some, and a `{}`-block
stands among them only alone. -/
def isDeclarationValue (value : List Component) : Bool :=
  !value.isEmpty &&
    (!value.any Component.isBraceBlock || (value.filter (!·.isWhite)).length == 1)

/-- Whether a component value ends a declaration, inside a block or outside of one. -/
def endsDeclaration (nested : Bool) (c : Component) : Bool :=
  c.isSemicolon || (nested && c.isStrayBrace)

/-- Reads a declaration, if the component values begin with one, and gives what follows it. -/
def Declaration.take? (nested : Bool) : List Component → Option (Declaration × List Component)
  | .token name :: cs =>
    match name.kind with
    | .ident _ =>
      let (afterName, cs) := splitRun Component.isWhite cs
      match cs with
      | .token colon :: cs =>
        if colon.kind.isColon then
          let (beforeValue, cs) := splitRun Component.isWhite cs
          let (body, rest) := splitRun (!endsDeclaration nested ·) cs
          let v := splitImportant body
          if isDeclarationValue v.value then
            some (⟨name, afterName, colon, beforeValue, v.value, v.beforeMark, v.mark, v.afterMark⟩,
              rest)
          else none
        else none
      | _ => none
    | _ => none
  | _ => none

theorem splitImportant_append (body : List Component) :
    let v := splitImportant body
    v.value ++ v.beforeMark ++ v.mark ++ v.afterMark = body := by
  have hbody := dropTrailing_append_takeTrailing Component.isWhite body
  simp only [splitImportant]
  split
  · rename_i word others hcore
    have hsplit := splitRun_append Component.isWhite others
    split
    · rename_i bang front himp hbefore
      split
      · have hfront := dropTrailing_append_takeTrailing Component.isWhite front.reverse
        have hcore' := congrArg List.reverse hcore
        rw [hbefore] at hsplit
        rw [List.reverse_reverse, ← hsplit] at hcore'
        conv => rhs; rw [← hbody, hcore']
        simp [hfront]
      · simpa using hbody
    · simpa using hbody
  · simpa using hbody

/-- What was read as a declaration: a name and a colon, with white-space behind each, and a body that goes on
to what ends the declaration. The body was split into the value and what is kept apart from it. -/
theorem Declaration.parts_of_take? {nested : Bool} {cs rest : List Component} {d : Declaration}
    (h : take? nested cs = some (d, rest)) : ∃ afterName afterColon written body,
      cs = .token d.name :: afterName ∧ (∃ name, d.name.kind = .ident name) ∧ d.colon.kind.isColon ∧
      splitRun Component.isWhite afterName = (d.afterName, .token d.colon :: afterColon) ∧
      splitRun Component.isWhite afterColon = (d.beforeValue, written) ∧
      splitRun (!endsDeclaration nested ·) written = (body, rest) ∧
      splitImportant body = ⟨d.value, d.beforeMark, d.mark, d.afterMark⟩ ∧ isDeclarationValue d.value := by
  unfold take? at h
  split at h <;> try contradiction
  rename_i name afterName
  split at h <;> try contradiction
  rename_i property hname
  split at h
  rename_i gap rest₁ hgap
  split at h <;> try contradiction
  rename_i colon afterColon
  split at h <;> try contradiction
  rename_i hcolon
  split at h
  rename_i beforeValue written hbefore
  split at h
  rename_i body rest' hbody
  dsimp only at h
  split at h <;> try contradiction
  rename_i hvalue
  obtain ⟨rfl, rfl⟩ := Prod.mk.inj (Option.some.inj h)
  exact ⟨afterName, afterColon, written, body, rfl, ⟨_, hname⟩, hcolon, hgap, hbefore, hbody, rfl, hvalue⟩

/-- The parts of a declaration, and what follows it, are the component values it was read from. -/
theorem Declaration.components_take? {nested : Bool} {cs rest : List Component} {d : Declaration}
    (h : take? nested cs = some (d, rest)) : d.components ++ rest = cs := by
  obtain ⟨afterName, afterColon, written, body, rfl, -, -, hname, hcolon, hwritten, hbody, -⟩ :=
    parts_of_take? h
  have hafterName := splitRun_append Component.isWhite afterName
  have hafterColon := splitRun_append Component.isWhite afterColon
  have hrest := splitRun_append (!endsDeclaration nested ·) written
  have hparts := splitImportant_append body
  rw [hname] at hafterName
  rw [hcolon] at hafterColon
  rw [hwritten] at hrest
  rw [hbody] at hparts
  rw [← hafterName, ← hafterColon, ← hrest, ← hparts]
  simp [components]

end Styling
