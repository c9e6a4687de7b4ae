import Styling.Rule.Declaration

/-!
# Declaration lists

The items of a declaration list: declarations, at-rules, loose white-space and semicolons, and what
was passed over because it is no declaration. Reading inside a block stops at a stray `}`. The main
statement is `Item.listComponents_takeAll`: the items and what follows them are the component values
that were read.
-/

namespace Styling

/-- An at-rule: its keyword, what stands before its end, and the semicolon or block that ends it. -/
structure AtRule where
  keyword : Token
  prelude : List Component
  ending : Option Component

namespace AtRule

def name (r : AtRule) : String :=
  match r.keyword.kind with
  | .atKeyword name => name
  | _ => ""

def block? (r : AtRule) : Option Component := r.ending.filter Component.isBraceBlock

def components (r : AtRule) : List Component := .token r.keyword :: (r.prelude ++ r.ending.toList)

/-- Whether a component value ends what stands after the keyword. -/
def endsPrelude (nested : Bool) (c : Component) : Bool :=
  c.isSemicolon || c.isBraceBlock || (nested && c.isStrayBrace)

def take (nested : Bool) (keyword : Token) (cs : List Component) : AtRule × List Component :=
  let (prelude, rest) := splitRun (!endsPrelude nested ·) cs
  match rest with
  | [] => (⟨keyword, prelude, none⟩, [])
  | c :: rest =>
    if nested && c.isStrayBrace then (⟨keyword, prelude, none⟩, c :: rest)
    else (⟨keyword, prelude, some c⟩, rest)

theorem components_take (nested : Bool) (keyword : Token) (cs : List Component) :
    (take nested keyword cs).1.components ++ (take nested keyword cs).2 = .token keyword :: cs := by
  have h := splitRun_append (!endsPrelude nested ·) cs
  simp only [take]
  split
  · rename_i heq
    rw [heq] at h
    simpa [components] using h
  · rename_i heq
    rw [heq] at h
    split <;> simpa [components] using h

end AtRule

inductive Item where
  /-- White-space, a comment or a semicolon between declarations. -/
  | loose (t : Token)
  | declaration (d : Declaration)
  /-- What was passed over, up to and including the semicolon that ends it. -/
  | malformed (cs : List Component)
  | atRule (r : AtRule)

namespace Item

def components : Item → List Component
  | loose t => [.token t]
  | declaration d => d.components
  | malformed cs => cs
  | atRule r => r.components

def listComponents (items : List Item) : List Component := items.flatMap components

def source (i : Item) : String := sourceOfComponents i.components

def location? (i : Item) : Option Source.Location := locationOfComponents? i.components

/-- The rest of what is no declaration, with the semicolon that ends it. -/
def takeMalformed (nested : Bool) (cs : List Component) : List Component × List Component :=
  let (body, rest) := splitRun (!endsDeclaration nested ·) cs
  match rest with
  | [] => (body, [])
  | c :: rest => if c.isSemicolon then (body ++ [c], rest) else (body, c :: rest)

theorem takeMalformed_append (nested : Bool) (cs : List Component) :
    (takeMalformed nested cs).1 ++ (takeMalformed nested cs).2 = cs := by
  have h := splitRun_append (!endsDeclaration nested ·) cs
  simp only [takeMalformed]
  split
  · rename_i heq
    rw [heq] at h
    simpa using h
  · rename_i heq
    rw [heq] at h
    split <;> simpa using h

/-- Reads a declaration, or passes over what is none. -/
def takeDeclaration (nested : Bool) (c : Component) (cs : List Component) : Item × List Component :=
  match Declaration.take? nested (c :: cs) with
  | some (d, rest) => (.declaration d, rest)
  | none =>
    let (body, rest) := takeMalformed nested cs
    (.malformed (c :: body), rest)

def take (nested : Bool) (c : Component) (cs : List Component) : Item × List Component :=
  match c with
  | .token t =>
    if t.isWhite || t.kind.isSemicolon then (.loose t, cs)
    else match t.kind with
      | .atKeyword _ =>
        let (rule, rest) := AtRule.take nested t cs
        (.atRule rule, rest)
      | _ => takeDeclaration nested c cs
  | .group .. => takeDeclaration nested c cs

theorem components_takeDeclaration (nested : Bool) (c : Component) (cs : List Component) :
    (takeDeclaration nested c cs).1.components ++ (takeDeclaration nested c cs).2 = c :: cs := by
  unfold takeDeclaration
  split
  · rename_i h
    exact Declaration.components_take? h
  · simpa [components] using takeMalformed_append nested cs

theorem components_take (nested : Bool) (c : Component) (cs : List Component) :
    (take nested c cs).1.components ++ (take nested c cs).2 = c :: cs := by
  unfold take
  split
  · split
    · rfl
    · split
      · exact AtRule.components_take nested _ cs
      · exact components_takeDeclaration nested _ cs
  · exact components_takeDeclaration nested _ cs

theorem components_ne_nil_takeDeclaration (nested : Bool) (c : Component) (cs : List Component) :
    (takeDeclaration nested c cs).1.components ≠ [] := by
  unfold takeDeclaration
  split <;> simp [components, Declaration.components]

theorem components_ne_nil_take (nested : Bool) (c : Component) (cs : List Component) :
    (take nested c cs).1.components ≠ [] := by
  unfold take
  split
  · split
    · simp [components]
    · split
      · simp [components, AtRule.components]
      · exact components_ne_nil_takeDeclaration nested _ cs
  · exact components_ne_nil_takeDeclaration nested _ cs

/-- An item takes a component value at least. -/
theorem length_take_le (nested : Bool) (c : Component) (cs : List Component) :
    (take nested c cs).2.length ≤ cs.length := by
  have h := congrArg List.length (components_take nested c cs)
  have hne := List.length_pos_iff.2 (components_ne_nil_take nested c cs)
  simp only [List.length_append, List.length_cons] at h
  omega

/-- Reads the items of a declaration list, inside a block only up to a stray `}`. -/
def takeAll (nested : Bool) : List Component → List Item × List Component
  | [] => ([], [])
  | c :: cs =>
    if nested && c.isStrayBrace then ([], c :: cs)
    else
      let first := take nested c cs
      let others := takeAll nested first.2
      (first.1 :: others.1, others.2)
termination_by cs => cs.length
decreasing_by
  have := length_take_le nested c cs
  simp; omega

/-- The items and what follows them are the component values that were read. -/
theorem listComponents_takeAll (nested : Bool) (cs : List Component) :
    listComponents (takeAll nested cs).1 ++ (takeAll nested cs).2 = cs := by
  fun_induction takeAll nested cs with
  | case1 => rfl
  | case2 => rfl
  | case3 c cs _ first others ih =>
    have h := components_take nested c cs
    simp only [listComponents, List.flatMap_cons, List.append_assoc] at ih ⊢
    rw [ih, h]

def ofComponents (cs : List Component) : List Item := (takeAll false cs).1

def ofTokens (ts : List Token) : List Item := ofComponents (Component.ofTokens ts)

end Item

end Styling
