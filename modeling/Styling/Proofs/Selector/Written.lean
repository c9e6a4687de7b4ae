import Styling.Proofs.Grammar.Elements
import Styling.Selector.Parse

/-!
# How selectors are written

The parts of a compound selector and the tokens each is written with: a type or the universal
selector in front, and then ids, classes, attributes and pseudo-classes. A selector list is compound
selectors with separators between them (`SelectorList.IsWritten`).
-/

namespace Styling

namespace Selector

/-- The tokens of one part of a compound selector, and the simple selector they stand for. -/
structure Part where
  tokens : List Token
  selector : SimpleSelector

/-- An equals sign, with one of five marks in front of it or without. -/
inductive IsMatcher : List Token → Prop
  | plain {equals : Token} : equals.kind = .delim '=' → IsMatcher [equals]
  | marked {mark equals : Token} {c : Char} : c ∈ ['~', '|', '^', '$', '*'] →
      mark.kind = .delim c → equals.kind = .delim '=' → IsMatcher [mark, equals]

/-- Nothing, or the name `i` or `s`. -/
inductive IsModifier : List Token → Prop
  | absent : IsModifier []
  | present {word : Token} : word.kind = .ident "i" ∨ word.kind = .ident "s" → IsModifier [word]

/-- A string or a name. -/
def IsAttributeValue (t : Token) : Prop := (∃ text, t.kind = .string text) ∨ ∃ name, t.kind = .ident name

/-- The tokens of an attribute selector for the attribute of the given name. -/
inductive IsAttribute : List Token → String → Prop
  | present {opening word closing : Token} {name : String} {gap₁ gap₂ : List Token} :
      opening.kind = .opening .square → AreWhite gap₁ → word.kind = .ident name → AreWhite gap₂ →
      closing.kind = .closing .square →
      IsAttribute (opening :: (gap₁ ++ word :: (gap₂ ++ [closing]))) name
  | valued {opening word value closing : Token} {name : String}
      {gap₁ gap₂ matcher gap₃ gap₄ modifier gap₅ : List Token} :
      opening.kind = .opening .square → AreWhite gap₁ → word.kind = .ident name → AreWhite gap₂ →
      IsMatcher matcher → AreWhite gap₃ → IsAttributeValue value → AreWhite gap₄ →
      IsModifier modifier → AreWhite gap₅ → closing.kind = .closing .square →
      IsAttribute (opening :: (gap₁ ++ word :: (gap₂ ++ (matcher ++ (gap₃ ++ value ::
        (gap₄ ++ (modifier ++ (gap₅ ++ [closing])))))))) name

/-- The tokens of a pseudo-class of the given name. The arguments of a functional one are the whole of
any value that is found in front of its closing parenthesis. -/
inductive IsPseudoClass : List Token → String → Prop
  | plain {colon word : Token} {name : String} : colon.kind = .colon → word.kind = .ident name →
      IsPseudoClass [colon, word] name
  | functional {colon head closing : Token} {name : String} {args : List Token} :
      colon.kind = .colon → head.kind = .function name → args ≠ [] →
      takeAnyValue .zero (args ++ [closing]) = args → closing.kind = .closing .paren →
      IsPseudoClass (colon :: head :: (args ++ [closing])) name

namespace Part

inductive IsType : Part → Prop
  | universal {t : Token} : t.kind = .delim '*' → IsType ⟨[t], .universal⟩
  | named {t : Token} {name : String} : t.kind = .ident name → IsType ⟨[t], .typeName name⟩

inductive IsSubclass : Part → Prop
  | id {t : Token} {name : String} : t.kind = .hash name .id → IsSubclass ⟨[t], .idName name⟩
  | className {dot word : Token} {name : String} : dot.kind = .delim '.' →
      word.kind = .ident name → IsSubclass ⟨[dot, word], .className name⟩
  | attributeName {ts : List Token} {name : String} : IsAttribute ts name →
      IsSubclass ⟨ts, .attributeName name (sourceOf ts)⟩
  | pseudoClass {ts : List Token} {name : String} : IsPseudoClass ts name →
      IsSubclass ⟨ts, .pseudoClass name (sourceOf ts)⟩

end Part

/-- The parts of a compound selector: there is one at least, and only the first may be a type. -/
inductive IsCompound : List Part → Prop
  | typed {part : Part} {parts : List Part} : part.IsType → (∀ p ∈ parts, p.IsSubclass) →
      IsCompound (part :: parts)
  | untyped {parts : List Part} : parts ≠ [] → (∀ p ∈ parts, p.IsSubclass) → IsCompound parts

def tokensOf (parts : List Part) : List Token := parts.flatMap Part.tokens

@[simp] theorem tokensOf_nil : tokensOf [] = [] := rfl

@[simp] theorem tokensOf_cons (part : Part) (parts : List Part) :
    tokensOf (part :: parts) = part.tokens ++ tokensOf parts := rfl

def ofParts (parts : List Part) : Selector := ⟨parts.map Part.selector⟩

end Selector

namespace SelectorList

open Selector

/-- The tokens of a selector list, and the parts of the compound selectors in it. -/
inductive IsWritten : List Token → List (List Part) → Prop
  | single {parts : List Part} : IsCompound parts → IsWritten (tokensOf parts) [parts]
  | cons {parts : List Part} {separator ts : List Token} {compounds : List (List Part)} :
      IsCompound parts → Production.IsSeparator separator → IsWritten ts compounds →
      IsWritten (tokensOf parts ++ (separator ++ ts)) (parts :: compounds)

def ofCompounds (compounds : List (List Part)) : SelectorList := ⟨compounds.map Selector.ofParts⟩

end SelectorList

end Styling
