import Styling.Cursor
import Styling.Token.Sequence

/-!
# Token streams

A token stream pulls tokens as they are asked for, and keeps those it has pulled, so that it can go
back to a mark. At the end it keeps an entry for every further token asked for.
-/

namespace Styling

structure TokenStream where
  index : Nat
  buffer : List (Option Token)
  marks : List Nat
  source : List Token
  failure : Option Number.RangeError

namespace TokenStream

/-- A stream over tokens not yet pulled; what stopped them is met where they end. -/
def ofTokens (ts : Tokens) : TokenStream := ⟨0, [], [], ts.tokens, ts.failure⟩

def ofList (ts : List Token) : TokenStream := ⟨0, [], [], ts, none⟩

/-- The next token, or none at the end. A failure of the source is met once. -/
def next (s : TokenStream) : Except Number.RangeError (Option Token) × TokenStream :=
  if s.index < s.buffer.length then (.ok s.buffer[s.index]?.join, s)
  else
    match s.source, s.failure with
    | t :: ts, _ =>
      let s := { s with buffer := s.buffer ++ [some t], source := ts }
      (.ok s.buffer[s.index]?.join, s)
    | [], none =>
      let s := { s with buffer := s.buffer ++ [none] }
      (.ok s.buffer[s.index]?.join, s)
    | [], some e => (.error e, { s with failure := none })

/-- The next token, which is passed over; the index moves also at the end. -/
def consume (s : TokenStream) : Except Number.RangeError (Option Token) × TokenStream :=
  match s.next with
  | (.ok t, s) => (.ok t, { s with index := s.index + 1 })
  | (.error e, s) => (.error e, s)

def isEmpty (s : TokenStream) : Except Number.RangeError Bool × TokenStream :=
  let (t, s) := s.next
  (t.map (·.isNone), s)

def mark (s : TokenStream) : TokenStream := { s with marks := s.index :: s.marks }

/-- Goes back to the latest mark and drops it; refused if none is set. -/
def restoreMark? (s : TokenStream) : Option TokenStream :=
  match s.marks with
  | m :: ms => some { s with index := m, marks := ms }
  | [] => none

/-- Drops the latest mark; refused if none is set. -/
def discardMark? (s : TokenStream) : Option TokenStream :=
  match s.marks with
  | _ :: ms => some { s with marks := ms }
  | [] => none

end TokenStream

end Styling
