import Styling.Proofs.Rule.Basic
import Styling.Proofs.Rule.DeclarationParts

/-!
# What reading makes sure of

Of the parts of a rule that could as well be empty, some never are where it was read: a declaration has a
value, what was passed over is not nothing, and what precedes a block does not begin with white-space
(`Rule.isWellFormed_of_mem_ofTokens`).
-/

namespace Styling

open Component

/-- A declaration has a value, and what was passed over is not nothing. -/
def Item.IsWellFormed : Item → Prop
  | declaration d => d.value ≠ []
  | malformed cs => cs ≠ []
  | loose _ | atRule _ => True

/-- A rule without a block is not nothing. What precedes a block does not begin with white-space, and
the items of the block are well-formed. -/
def Rule.IsWellFormed : Rule → Prop
  | qualified prelude block =>
    (∀ c ∈ prelude.head?, c.head.isWhite = false) ∧ ∀ i ∈ block.items, i.IsWellFormed
  | unfinished prelude => prelude ≠ []
  | loose _ | atRule _ => True

namespace Item

theorem isWellFormed_takeDeclaration (nested : Bool) (c : Component) (cs : List Component) :
    (takeDeclaration nested c cs).1.IsWellFormed := by
  unfold takeDeclaration
  split
  · rename_i hdeclaration
    exact (Declaration.isWellFormed_of_take? hdeclaration).1.value_ne_nil
  · exact List.cons_ne_nil c _

theorem isWellFormed_take (nested : Bool) (c : Component) (cs : List Component) :
    (take nested c cs).1.IsWellFormed := by
  unfold take
  split
  · split
    · trivial
    · split
      · trivial
      · exact isWellFormed_takeDeclaration nested _ cs
  · exact isWellFormed_takeDeclaration nested _ cs

theorem isWellFormed_of_mem_takeAll (nested : Bool) (cs : List Component) :
    ∀ i ∈ (takeAll nested cs).1, i.IsWellFormed := by
  fun_induction takeAll nested cs with
  | case1 => simp
  | case2 => simp
  | case3 c cs _ first others ih =>
    exact List.forall_mem_cons.2 ⟨isWellFormed_take nested c cs, ih⟩

end Item

namespace Rule

/-- A rule that is not loose begins with a token that is no white-space. -/
private theorem isWellFormed_takeQualified {c : Component} (cs : List Component)
    (hc : c.head.isWhite = false) : (takeQualified (c :: cs)).1.IsWellFormed := by
  have hsplit := splitRun_append (!·.isBraceBlock) (c :: cs)
  have hhead : ∀ d ∈ (splitRun (!·.isBraceBlock) (c :: cs)).1.head?, d.head.isWhite = false := by
    intro d hd
    cases hprelude : (splitRun (!·.isBraceBlock) (c :: cs)).1 with
    | nil =>
      rw [hprelude] at hd
      cases hd
    | cons e es =>
      rw [hprelude] at hsplit hd
      obtain ⟨rfl, -⟩ := List.cons.inj hsplit
      cases hd
      exact hc
  unfold takeQualified
  dsimp only
  split
  · exact ⟨hhead, Item.isWellFormed_of_mem_takeAll true _⟩
  · rename_i hrest
    intro hnil
    rw [hnil, List.nil_append] at hsplit
    -- What is left begins with `c`, which is no block.
    have hblock := not_of_splitRun_eq_cons hsplit
    cases c with
    | token t => cases hblock
    | group opening contents closing => exact hrest opening contents closing cs hsplit

private theorem isWhite_eq_false_of_isLoose {t : Token} (h : ¬isLoose t.kind) :
    t.isWhite = false := by
  rcases t with ⟨kind, source, location⟩
  cases kind <;> simp_all [isLoose, Token.isWhite, TokenKind.isWhite]

theorem isWellFormed_take {c : Component} {cs : List Component} (h : HeadFits c) :
    (take c cs).1.IsWellFormed := by
  unfold take
  split
  · split
    · trivial
    · rename_i hloose
      split
      · trivial
      · exact isWellFormed_takeQualified cs (isWhite_eq_false_of_isLoose hloose)
  · exact isWellFormed_takeQualified cs h.isWhite_head

theorem isWellFormed_of_mem_ofComponents {cs : List Component} (h : IsArranged cs) :
    ∀ r ∈ ofComponents cs, r.IsWellFormed := by
  fun_induction ofComponents cs with
  | case1 => simp
  | case2 c cs first ih =>
    have hfirst : (take c cs).1.IsWellFormed := isWellFormed_take (h.headFits c List.mem_cons_self)
    exact List.forall_mem_cons.2 ⟨hfirst, ih (h.of_isSuffix (isSuffix_take c cs))⟩

theorem isWellFormed_of_mem_ofTokens {ts : List Token} {r : Rule} (h : r ∈ ofTokens ts) :
    r.IsWellFormed :=
  isWellFormed_of_mem_ofComponents (isArranged_ofTokens ts) r h

end Rule

end Styling
