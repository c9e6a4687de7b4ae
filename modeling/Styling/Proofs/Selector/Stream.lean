import Styling.Proofs.Grammar.StreamReader
import Styling.Proofs.Selector.Accepted

/-!
# Selectors read from a stream

The repetitions in the grammar of selectors take a token each time, so that reading a selector list from a
token stream ends and comes to the same as reading it from a cursor (`Selector.Grammar.parse_selectorList`).
-/

namespace Styling.Selector.Grammar

open Production GrammarReader Selector.Part

private theorem advances_subclassSelector : Advances subclassSelector := by
  simp [subclassSelector, pseudoClassSelector, attributeSelector, attributeModifier, attributeMatcher,
    classSelector, idSelector, ofClass, ident, delim, Production.optional, whitespace, Advances, AllAdvance,
    consumes_token]

private theorem consumes_subclassSelector : Consumes (parse subclassSelector) := by
  have husable : subclassSelector.IsUsable := by
    simp [subclassSelector, pseudoClassSelector, attributeSelector, attributeModifier, attributeMatcher,
      classSelector, idSelector, ofClass, ident, delim, Production.optional, whitespace, IsUsable, AreUsable]
  apply consumes_parse husable advances_subclassSelector
  intro ts q us hq
  obtain ⟨part, hpart, htokens, -⟩ := exists_isSubclass_of_taking hq
  obtain ⟨t, ts', hcons, -⟩ := hpart.exists_cons
  rw [← htokens, hcons]
  exact List.cons_ne_nil t ts'

private theorem advances_compoundSelector : Advances compoundSelector := by
  simp [compoundSelector, typeSelector, ofClass, delim, Production.optional, Advances, AllAdvance,
    parse_reference, advances_subclassSelector, consumes_subclassSelector]

private theorem consumes_compoundSelector : Consumes (parse compoundSelector) := by
  have husable : compoundSelector.IsUsable := by
    have h := isUsable_selectorList
    simp only [selectorList, compoundSelectorList, commaSeparated, IsUsable] at h
    exact h.1
  apply consumes_parse husable advances_compoundSelector
  intro ts q us hq
  obtain ⟨parts, hparts, htokens, -⟩ := exists_isCompound_of_taking hq
  obtain ⟨t, ts', hcons, -⟩ := hparts.exists_cons
  rw [← htokens, hcons]
  exact List.cons_ne_nil t ts'

/-- No repetition in the grammar of selectors goes on without taking a token. -/
theorem advances_selectorList : Advances selectorList := by
  simp [selectorList, compoundSelectorList, commaSeparated, comma, ofClass, Production.optional, whitespace,
    Advances, AllAdvance, parse_reference, consumes_token, advances_compoundSelector,
    consumes_compoundSelector]

/-- A selector list is read from a stream in the same way as from a cursor. -/
theorem parse_selectorList (ts : List Token) :
    ∃ found s' c', parse selectorList (.ofList ts) = some (.ok (found, s')) ∧
      selectorList.read (.ofList ts) = .ok (found, c') ∧ s'.index = c'.index :=
  parse_ofList isUsable_selectorList advances_selectorList ts

end Styling.Selector.Grammar
