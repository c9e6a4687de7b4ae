import Styling.Proofs.Rule.Item
import Styling.Rule.Basic

/-!
# The tokens of rules

A rule and what it leaves over are the component values it was read from. Where these are arranged,
nothing of a block is left out either, so the tokens of the rules of a stylesheet are those it was
read from (`Rule.flatMap_tokens_ofComponents`).
-/

namespace Styling

open Component

theorem closes_eq_isStrayBrace {head : Token} (h : head.kind.closer? = some .brace)
    (c : Component) : closes head c = c.isStrayBrace := by
  cases c with
  | token t => simp [closes, h, isStrayBrace]
  | group => rfl

theorem closer?_of_isBraceBlock {head : Token} {contents : List Component}
    {closing : Option Token} (h : (group head contents closing).isBraceBlock) :
    head.kind.closer? = some .brace := by
  rcases head with ⟨kind, source, location⟩
  cases kind with
  | opening b => cases b <;> simp_all [isBraceBlock, TokenKind.closer?]
  | _ => simp [isBraceBlock] at h

/-- What a `{}`-block among arranged component values holds, its closing brace and what follows are
read as the items of the block, up to the brace. -/
theorem takeAll_of_isBraceBlock {head : Token} {contents cs : List Component}
    {closing : Option Token} (h : IsArranged (group head contents closing :: cs))
    (hblock : (group head contents closing).isBraceBlock) :
    Item.takeAll true (contents ++ ((closing.map token).toList ++ cs)) =
      ((Item.takeAll true contents).1, (closing.map token).toList ++ cs) := by
  obtain ⟨-, -, hcontents, hclosing, hend⟩ := h.group_cons
  have hopen := closer?_of_isBraceBlock hblock
  refine Item.takeAll_append_brace (fun c hc => ?_) ?_
  · simpa [closes_eq_isStrayBrace hopen] using hcontents c hc
  · cases closing with
    | none =>
      rw [hend rfl]
      exact fun c hc => by cases hc
    | some t =>
      rintro c ⟨⟩
      rw [← closes_eq_isStrayBrace hopen]
      exact hclosing t rfl

/-- A block read from a group has the tokens of the group. -/
theorem Block.tokens_ofGroup {head : Token} {contents cs : List Component} {closing : Option Token}
    (h : IsArranged (group head contents closing :: cs))
    (hblock : (group head contents closing).isBraceBlock) :
    (ofGroup head contents closing).tokens = (group head contents closing).tokens := by
  have hall := Item.listComponents_takeAll true (contents ++ ((closing.map token).toList ++ cs))
  rw [takeAll_of_isBraceBlock h hblock, List.append_cancel_right_eq] at hall
  rw [Block.tokens, ofGroup, hall, Component.tokens]

namespace Rule

theorem isSuffix_takeQualified (cs : List Component) : (takeQualified cs).2 <:+ cs := by
  have hsplit := isSuffix_splitRun (!·.isBraceBlock) cs
  rw [takeQualified]
  split
  · rename_i heq
    rw [heq] at hsplit
    exact (List.suffix_cons _ _).trans hsplit
  · exact hsplit

theorem isSuffix_take (c : Component) (cs : List Component) : (take c cs).2 <:+ c :: cs := by
  cases c with
  | group => exact isSuffix_takeQualified _
  | token t =>
    simp only [take]
    split
    · exact List.suffix_cons _ _
    · split
      · exact ⟨_, AtRule.components_take false t cs⟩
      · exact isSuffix_takeQualified _

theorem tokens_takeQualified {cs : List Component} (h : IsArranged cs) :
    (takeQualified cs).1.tokens ++ listTokens (takeQualified cs).2 = listTokens cs := by
  have hsplit := congrArg listTokens (splitRun_append (!·.isBraceBlock) cs)
  have hrest := h.of_isSuffix (isSuffix_splitRun (!·.isBraceBlock) cs)
  rw [listTokens_append] at hsplit
  rw [takeQualified]
  split
  · rename_i opening contents closing rest heq
    have hblock : (group opening contents closing).isBraceBlock := by
      simpa using not_of_splitRun_eq_cons heq
    rw [heq] at hsplit hrest
    rw [Rule.tokens, Block.tokens_ofGroup hrest hblock, List.append_assoc]
    exact hsplit
  · exact hsplit

/-- A rule and what it leaves over have the tokens it was read from. -/
theorem tokens_take {c : Component} {cs : List Component} (h : IsArranged (c :: cs)) :
    (take c cs).1.tokens ++ listTokens (take c cs).2 = listTokens (c :: cs) := by
  cases c with
  | group => exact tokens_takeQualified h
  | token t =>
    simp only [take]
    split
    · rfl
    · split
      · have hrule := congrArg listTokens (AtRule.components_take false t cs)
        rwa [listTokens_append] at hrule
      · exact tokens_takeQualified h

/-- The rules of arranged component values have the tokens of these. -/
theorem flatMap_tokens_ofComponents {cs : List Component} (h : IsArranged cs) :
    (ofComponents cs).flatMap tokens = listTokens cs := by
  fun_induction ofComponents cs with
  | case1 => rfl
  | case2 c cs first ih =>
    rw [List.flatMap_cons, ih (h.of_isSuffix (isSuffix_take c cs))]
    exact tokens_take h

/-- The rules of tokens hold these tokens in order. -/
theorem flatMap_tokens_ofTokens (ts : List Token) : (ofTokens ts).flatMap tokens = ts := by
  rw [ofTokens, flatMap_tokens_ofComponents (isArranged_ofTokens ts), listTokens_ofTokens]

end Rule

end Styling
