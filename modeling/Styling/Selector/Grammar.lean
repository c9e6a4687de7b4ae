import Styling.Grammar.Engine

/-!
# The grammar of selectors

Compound selectors and comma-separated lists of them, without namespaces, pseudo-elements and
combinators.
-/

namespace Styling.Selector.Grammar

open Production

def typeSelector : Production := .alternatives [ofClass .ident, delim '*']

def idSelector : Production := .token ⟨.hash, none, some "id"⟩

def classSelector : Production := .juxtaposition [delim '.', ofClass .ident]

def attributeMatcher : Production :=
  .juxtaposition
    [optional (.alternatives [delim '~', delim '|', delim '^', delim '$', delim '*']), delim '=']

def attributeModifier : Production := .alternatives [ident "i", ident "s"]

/-- An attribute's presence, or its value after a matcher, in square brackets. -/
def attributeSelector : Production :=
  .alternatives
    [.juxtaposition
      [ofClass (.opening .square), optional whitespace, ofClass .ident, optional whitespace,
        ofClass (.closing .square)],
     .juxtaposition
      [ofClass (.opening .square), optional whitespace, ofClass .ident, optional whitespace,
        .reference attributeMatcher, optional whitespace,
        .alternatives [ofClass .string, ofClass .ident], optional whitespace,
        optional (.reference attributeModifier), optional whitespace, ofClass (.closing .square)]]

def pseudoClassSelector : Production :=
  .alternatives
    [.juxtaposition [ofClass .colon, ofClass .ident],
     .juxtaposition
      [ofClass .colon, ofClass .function, .reference anyValue, ofClass (.closing .paren)]]

def subclassSelector : Production :=
  .alternatives
    [.reference idSelector, .reference classSelector, .reference attributeSelector,
      .reference pseudoClassSelector]

/-- A type selector, if any, and then any number of subclass selectors, but something. -/
def compoundSelector : Production :=
  .nonEmpty (.juxtaposition
    [optional (.reference typeSelector), .repetition (.reference subclassSelector) 0 none])

def compoundSelectorList : Production := commaSeparated (.reference compoundSelector)

def selectorList : Production := .reference compoundSelectorList

def rules : List (String × Production) :=
  [("type_selector", typeSelector), ("id_selector", idSelector), ("class_selector", classSelector),
   ("attr_matcher", attributeMatcher), ("attr_modifier", attributeModifier),
   ("attribute_selector", attributeSelector), ("pseudo_class_selector", pseudoClassSelector),
   ("subclass_selector", subclassSelector), ("compound_selector", compoundSelector),
   ("compound_selector_list", compoundSelectorList), ("selector_list", selectorList)]

def rule? (name : String) : Option Production := (rules.find? (·.1 == name)).map (·.2)

end Styling.Selector.Grammar
