import Styling.Rule.Item

/-!
# Rules

A stylesheet is a list of rules, with white-space and the comment marks `<!--` and `-->` loose
between them. A qualified rule is what precedes a `{}`-block together with the block, whose contents
are read as a declaration list; without a block it stays unfinished.
-/

namespace Styling

/-- The block of a qualified rule; its closing brace is absent if the input ended first. -/
structure Block where
  opening : Token
  items : List Item
  closing : Option Token

inductive Rule where
  | loose (t : Token)
  | atRule (r : AtRule)
  | qualified (prelude : List Component) (block : Block)
  /-- What was left when the input ended before a block began. -/
  | unfinished (prelude : List Component)

namespace Block

def ofGroup (opening : Token) (contents : List Component) (closing : Option Token) : Block :=
  ⟨opening, (Item.takeAll true contents).1, closing⟩

def tokens (b : Block) : List Token :=
  b.opening :: (Component.listTokens (Item.listComponents b.items) ++ b.closing.toList)

end Block

namespace Rule

def tokens : Rule → List Token
  | loose t => [t]
  | atRule r => Component.listTokens r.components
  | qualified prelude block => Component.listTokens prelude ++ block.tokens
  | unfinished prelude => Component.listTokens prelude

def source (r : Rule) : String := sourceOf r.tokens

def location? (r : Rule) : Option Source.Location := r.tokens.head?.map Token.location

/-- Reads a qualified rule, up to its block or to the end. -/
def takeQualified (cs : List Component) : Rule × List Component :=
  let split := splitRun (!·.isBraceBlock) cs
  match split.2 with
  | .group opening contents closing :: rest =>
    (.qualified split.1 (Block.ofGroup opening contents closing), rest)
  | rest => (.unfinished split.1, rest)

/-- Whether a token stands by itself between rules. -/
def isLoose : TokenKind → Bool
  | .whitespace _ | .comment _ | .cdo | .cdc => true
  | _ => false

def take (c : Component) (cs : List Component) : Rule × List Component :=
  match c with
  | .token t =>
    if isLoose t.kind then (.loose t, cs)
    else match t.kind with
      | .atKeyword _ =>
        let (rule, rest) := AtRule.take false t cs
        (.atRule rule, rest)
      | _ => takeQualified (c :: cs)
  | .group .. => takeQualified (c :: cs)

private theorem length_takeQualified_le (c : Component) (cs : List Component) :
    (takeQualified (c :: cs)).2.length ≤ cs.length := by
  unfold takeQualified
  by_cases hc : c.isBraceBlock
  · cases c with
    | token t => simp [Component.isBraceBlock] at hc
    | group => simp [splitRun, hc]
  · have hlen := length_splitRun_le (!·.isBraceBlock) cs
    have hsplit : (splitRun (!·.isBraceBlock) (c :: cs)).2 = (splitRun (!·.isBraceBlock) cs).2 := by
      simp [splitRun, hc]
    rw [← hsplit] at hlen
    dsimp only
    split
    · rename_i h
      rw [h] at hlen
      exact Nat.le_of_succ_le hlen
    · exact hlen

/-- A rule takes a component value at least. -/
theorem length_take_le (c : Component) (cs : List Component) : (take c cs).2.length ≤ cs.length := by
  unfold take
  split
  · split
    · simp
    · split
      · rename_i t _ _ _ _
        have h := congrArg List.length (AtRule.components_take false t cs)
        simp only [AtRule.components, List.length_append, List.length_cons] at h
        show (AtRule.take false t cs).2.length ≤ cs.length
        omega
      · exact length_takeQualified_le _ cs
  · exact length_takeQualified_le _ cs

def ofComponents : List Component → List Rule
  | [] => []
  | c :: cs =>
    let first := take c cs
    first.1 :: ofComponents first.2
termination_by cs => cs.length
decreasing_by
  have := length_take_le c cs
  simp; omega

def ofTokens (ts : List Token) : List Rule := ofComponents (Component.ofTokens ts)

end Rule

end Styling
