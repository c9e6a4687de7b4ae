import Styling.Proofs.Rule.Basic
import Styling.Proofs.Selector.Unplaced
import Styling.Proofs.Token.Reread

/-!
# Preludes read again

What precedes the block of a rule is followed by the brace of the block, at which every token in front of it
has ended. So its text gives the same tokens again, and the same selectors or the same reason for refusing
them (`Rule.selectors_source_prelude`).
-/

namespace Styling

open Component

namespace Rule

/-- The block of a qualified rule begins with a brace. -/
private theorem opening_kind_takeQualified {cs : List Component} {prelude : List Component}
    {block : Block} (h : (takeQualified cs).1 = qualified prelude block) :
    block.opening.kind = .opening .brace := by
  unfold takeQualified at h
  dsimp only at h
  split at h
  · rename_i opening contents closing rest hrest
    have hblock : (group opening contents closing).isBraceBlock := by
      simpa using not_of_splitRun_eq_cons hrest
    obtain ⟨-, rfl⟩ := qualified.inj h
    rcases opening with ⟨kind, source, location⟩
    cases kind with
    | opening b => cases b <;> first | rfl | cases hblock
    | _ => cases hblock
  · cases h

theorem opening_kind_of_mem_ofComponents {cs prelude : List Component} {block : Block}
    (h : qualified prelude block ∈ ofComponents cs) : block.opening.kind = .opening .brace := by
  fun_induction ofComponents cs with
  | case1 => cases h
  | case2 c cs first ih =>
    rcases List.mem_cons.1 h with hfirst | hothers
    · have hfirst : (take c cs).1 = qualified prelude block := hfirst.symm
      unfold take at hfirst
      split at hfirst
      · split at hfirst
        · cases hfirst
        · split at hfirst
          · cases hfirst
          · exact opening_kind_takeQualified hfirst
      · exact opening_kind_takeQualified hfirst
    · exact ih hothers

/-- The tokens in front of the block of a rule are followed by its opening brace. -/
theorem exists_append_of_mem_ofTokens {ts : List Token} {prelude : List Component} {block : Block}
    (h : qualified prelude block ∈ ofTokens ts) :
    ∃ front t back, ts = front ++ (listTokens prelude ++ t :: back) ∧ t.kind = .opening .brace := by
  obtain ⟨before, after, hrules⟩ := List.append_of_mem h
  have htokens := flatMap_tokens_ofTokens ts
  rw [hrules, List.flatMap_append, List.flatMap_cons, Rule.tokens, Block.tokens] at htokens
  refine ⟨before.flatMap tokens, block.opening, listTokens (Item.listComponents block.items) ++
    block.closing.toList ++ after.flatMap tokens, ?_, opening_kind_of_mem_ofComponents h⟩
  rw [← htokens, List.append_assoc, List.cons_append]

/-- A rule's selectors are the same whether they are read from the component values in front of its block
or from their text. Both readings give one selector list, or are refused for one reason. -/
theorem selectors_source_prelude {text : String} {ts : List Token} {prelude : List Component}
    {block : Block} (htokens : tokenize text = .ok ts)
    (hrule : Rule.qualified prelude block ∈ Rule.ofTokens ts) :
    ∃ cs, parseComponents (sourceOfComponents prelude) = .ok cs ∧
      ((∃ l, SelectorList.ofComponents prelude = .ok l ∧ SelectorList.ofComponents cs = .ok l) ∨
        ∃ e e', SelectorList.ofComponents prelude = .error e ∧ SelectorList.ofComponents cs = .error e' ∧
          e.category = .selector ∧ e'.category = .selector ∧ e.kind = e'.kind ∧ e.detail = e'.detail) := by
  obtain ⟨front, t, back, rfl, hbrace⟩ := exists_append_of_mem_ofTokens hrule
  have hmark : t.kind.IsMark := ⟨'{', by rw [hbrace]; rfl, by simp [Lexer.marks]⟩
  obtain ⟨us, hus, hsame⟩ := tokenize_sourceOf_middle htokens hmark
  have hread := SelectorList.ofTokens_of_unplaced hsame
  have hcs : parseComponents (sourceOfComponents prelude) = .ok (Component.ofTokens us) := by
    rw [parseComponents, sourceOfComponents, hus]
    rfl
  refine ⟨Component.ofTokens us, hcs, ?_⟩
  rw [SelectorList.ofComponents, SelectorList.ofComponents, listTokens_ofTokens]
  cases hprelude : SelectorList.ofTokens (listTokens prelude) with
  | ok l =>
    cases hagain : SelectorList.ofTokens us with
    | ok l' =>
      rw [hprelude, hagain] at hread
      exact .inl ⟨l, rfl, congrArg Except.ok (Except.ok.inj hread)⟩
    | error e' =>
      rw [hprelude, hagain] at hread
      cases hread
  | error e =>
    cases hagain : SelectorList.ofTokens us with
    | ok l' =>
      rw [hprelude, hagain] at hread
      cases hread
    | error e' =>
      rw [hprelude, hagain] at hread
      have hsame : e'.unplaced = e.unplaced := Except.error.inj hread
      obtain ⟨-, hkind, -, hdetail⟩ := ParseError.mk.inj hsame
      exact .inr ⟨e, e', rfl, rfl, SelectorList.category_of_ofTokens_eq_error hprelude,
        SelectorList.category_of_ofTokens_eq_error hagain, hkind.symm, hdetail.symm⟩

/-- A class whose name is an opening brace, escaped. -/
def escapedBrace : List Component :=
  [.token ⟨.delim '.', ".", ⟨1, 1⟩⟩, .token ⟨.ident "\x7b", "\\7b", ⟨1, 2⟩⟩]

/-- A block without items. -/
def emptyBlock : Block :=
  ⟨⟨.opening .brace, "\x7b", ⟨1, 5⟩⟩, [], some ⟨.closing .brace, "\x7d", ⟨1, 6⟩⟩⟩

/-- The escape ends at the brace of the block, and without it at the end of the text. -/
theorem selectors_source_prelude_escapedBrace :
    tokenize ".\\7b\x7b\x7d" = .ok (listTokens escapedBrace ++ emptyBlock.tokens) ∧
      Rule.ofTokens (listTokens escapedBrace ++ emptyBlock.tokens) = [.qualified escapedBrace emptyBlock] ∧
      ∃ cs, parseComponents (sourceOfComponents escapedBrace) = .ok cs ∧
        SelectorList.ofComponents cs = .ok ⟨[⟨[.className "\x7b"]⟩]⟩ := by
  have htokens : tokenize ".\\7b\x7b\x7d" = .ok (listTokens escapedBrace ++ emptyBlock.tokens) := by cbv
  have hrules : Rule.ofTokens (listTokens escapedBrace ++ emptyBlock.tokens) =
      [.qualified escapedBrace emptyBlock] := by cbv
  have hrule : Rule.qualified escapedBrace emptyBlock ∈
      Rule.ofTokens (listTokens escapedBrace ++ emptyBlock.tokens) := by
    rw [hrules]
    exact List.mem_singleton_self _
  have hwritten : SelectorList.IsWritten (listTokens escapedBrace)
      [[⟨listTokens escapedBrace, .className "\x7b"⟩]] :=
    .single (.untyped (List.cons_ne_nil _ _) (List.forall_mem_singleton.2 (.className rfl rfl)))
  have hselectors : SelectorList.ofComponents escapedBrace = .ok ⟨[⟨[.className "\x7b"]⟩]⟩ :=
    SelectorList.ofTrimmed_eq_ok_iff.2 ⟨_, hwritten, rfl⟩
  obtain ⟨cs, hcs, ⟨l, hl, hagain⟩ | ⟨e, e', he, -⟩⟩ := selectors_source_prelude htokens hrule
  · exact ⟨htokens, hrules, cs, hcs, hagain.trans (hl.symm.trans hselectors)⟩
  · cases he.symm.trans hselectors

end Rule

end Styling
