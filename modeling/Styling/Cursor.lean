/-!
# Cursors

A cursor is a place in a list, with a stack of marks to come back to. Setting marks, trying
something and going back on failure is `attempt`.
-/

namespace Styling

/-- A list being read, the index of the next item, and the marked indexes, latest first. -/
structure Cursor (α : Type u) where
  items : List α
  index : Nat
  marks : List Nat

namespace Cursor

variable {α : Type u} {β : Type v} {ε : Type w}

def ofList (items : List α) : Cursor α := ⟨items, 0, []⟩

def rest (c : Cursor α) : List α := c.items.drop c.index

def next? (c : Cursor α) : Option α := c.items[c.index]?

def advance (c : Cursor α) (n : Nat) : Cursor α := { c with index := c.index + n }

/-- The next item, which is passed over; the index moves also at the end. -/
def consume (c : Cursor α) : Option α × Cursor α := (c.next?, c.advance 1)

def mark (c : Cursor α) : Cursor α := { c with marks := c.index :: c.marks }

/-- Goes back to the latest mark and drops it; refused if none is set. -/
def restoreMark? (c : Cursor α) : Option (Cursor α) :=
  match c.marks with
  | m :: ms => some { c with index := m, marks := ms }
  | [] => none

/-- Drops the latest mark; refused if none is set. -/
def discardMark? (c : Cursor α) : Option (Cursor α) :=
  match c.marks with
  | _ :: ms => some { c with marks := ms }
  | [] => none

def restoreMark (c : Cursor α) : Cursor α := c.restoreMark?.getD c

def discardMark (c : Cursor α) : Cursor α := c.discardMark?.getD c

end Cursor

end Styling
