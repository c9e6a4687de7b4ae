/-!
# Readers with look-ahead

A reader vends the items of a sequence in batches. Buffering gives it the two abilities a scanner
asks for: looking ahead without consuming, and putting items back in front.
-/

namespace Styling.Source

/-- The items a plain reader still has to vend. -/
structure Reader (α : Type) where
  pending : List α

namespace Reader

/-- Vends up to `n` items, or everything if no bound is given. -/
def read (r : Reader α) : Option Nat → List α × Reader α
  | some n => (r.pending.take n, ⟨r.pending.drop n⟩)
  | none => (r.pending, ⟨[]⟩)

end Reader

/-- A reader with the items already pulled from it, or put back, in front. -/
structure BufferedReader (α : Type) where
  buffer : List α
  source : Reader α

namespace BufferedReader

def ofList (xs : List α) : BufferedReader α := ⟨[], ⟨xs⟩⟩

/-- Pulls just enough into the buffer for it to hold `n` items, if there are so many. -/
def fill (r : BufferedReader α) (n : Nat) : BufferedReader α :=
  if r.buffer.length < n then
    let (items, source) := r.source.read (some (n - r.buffer.length))
    ⟨r.buffer ++ items, source⟩
  else r

/-- Up to `n` items that would be read next; fewer near the end. -/
def peek (r : BufferedReader α) (n : Nat) : List α × BufferedReader α :=
  let r := r.fill n
  (r.buffer.take n, r)

def read (r : BufferedReader α) (n : Nat) : List α × BufferedReader α :=
  let (items, r) := r.peek n
  (items, { r with buffer := r.buffer.drop n })

/-- Puts items in front, to be read first, in order. -/
def unread (r : BufferedReader α) (items : List α) : BufferedReader α :=
  { r with buffer := items ++ r.buffer }

def toList (r : BufferedReader α) : List α := r.buffer ++ r.source.pending

end BufferedReader

end Styling.Source
