/-!
# Reading in turns

Reading with a state may break off, and it may never end. A reader that goes on until it is done takes one
turn after the other. What it reads is what the first turn makes of what all the others read
(`PartialReader.untilDone_eq`).
-/

namespace Styling

/-- Reading with a state, which may break off. No result at all stands for reading that never ends. -/
abbrev PartialReader (σ ε : Type) := StateT σ (ExceptT ε Option)

/-- What one turn comes to: something to be made of what the turns after it read, or the end. -/
inductive Turn (α : Type) where
  | more (f : α → α)
  | done (a : α)

namespace PartialReader

variable {σ ε α β : Type}

/-- Takes turns until one of them is the last. -/
def untilDone (turn : PartialReader σ ε (Turn α)) : PartialReader σ ε α := do
  match ← turn with
  | .more f => return f (← turn |>.untilDone)
  | .done a => return a
partial_fixpoint

/-- What follows one turn. -/
def after (rest : PartialReader σ ε α) : Turn α → PartialReader σ ε α
  | .more f => return f (← rest)
  | .done a => return a

theorem untilDone_eq (turn : PartialReader σ ε (Turn α)) :
    turn.untilDone = turn >>= after turn.untilDone := by
  conv => lhs; rw [untilDone]
  rfl

end PartialReader

end Styling
