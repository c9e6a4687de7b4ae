import Styling.Proofs.Component.Balanced
import Styling.Proofs.Selector.Accepted

/-!
# Functional pseudo-classes

Any value is read with a count for each bracket, and functions do not count. So the arguments of a
functional pseudo-class are read as far as they go where no function is among them
(`AreBalanced.takeAnyValue_append`); where one is, they end before the closing parenthesis of the
pseudo-class, and what is left over cannot be written as a selector
(`SelectorList.ofTokens_functionalPseudoClass`).
-/

namespace Styling

def Token.isFunction (t : Token) : Bool :=
  match t.kind with
  | .function _ => true
  | _ => false

/-! ## Any value -/

theorem BracketCounts.set_get_pred (counts : BracketCounts) (b : Bracket) :
    (counts.set (counts.get b + 1) b).get b ≠ 0 ∧
      (counts.set (counts.get b + 1) b).set ((counts.set (counts.get b + 1) b).get b - 1) b =
        counts := by
  cases b <;> simp [set, get]

/-- Balanced tokens are taken as a whole if no function is among them. -/
theorem AreBalanced.takeAnyValue_append {ts : List Token} (h : AreBalanced ts)
    (hfree : ∀ t ∈ ts, t.isFunction = false) (counts : BracketCounts) (us : List Token) :
    takeAnyValue counts (ts ++ us) = ts ++ takeAnyValue counts us := by
  induction h generalizing counts us with
  | nil => rfl
  | @plain t ts hopen hsound _ ih =>
    have ih := ih (fun u hu => hfree u (List.mem_cons_of_mem t hu)) counts us
    rcases t with ⟨kind, source, location⟩
    rw [List.cons_append, takeAnyValue]
    cases kind with
    | function | opening => cases hopen
    | badString | badUrl | closing => cases hsound
    | _ => exact congrArg (List.cons _) ih
  | @group head closing b ts vs hhead hclosing _ _ ihts ihvs =>
    obtain ⟨hfirst, hts, -, hvs⟩ : head.isFunction = false ∧ (∀ t ∈ ts, t.isFunction = false) ∧
        closing.isFunction = false ∧ ∀ t ∈ vs, t.isFunction = false := by
      simpa [or_imp, forall_and] using hfree
    have hopening : head.kind = .opening b := by
      rcases head with ⟨kind, source, location⟩
      cases kind with
      | function => cases hfirst
      | opening c => exact congrArg TokenKind.opening (Option.some.inj hhead)
      | _ => cases hhead
    obtain ⟨hne, hcounts⟩ := counts.set_get_pred b
    simp only [List.cons_append, List.append_assoc]
    simp only [takeAnyValue, hopening, ihts hts, hclosing, if_neg hne, hcounts, ihvs hvs]

/-- The parentheses opened in any value in front of a closing one, less those closed, are those of
functions, since the others are all closed. -/
theorem parenNet_of_takeAnyValue {counts : BracketCounts} {args us : List Token} {closing : Token}
    (hclosing : closing.kind = .closing .paren)
    (h : takeAnyValue counts (args ++ closing :: us) = args) :
    counts.paren + parenNet args = args.countP Token.isFunction := by
  induction args generalizing counts with
  | nil =>
    rw [List.nil_append, takeAnyValue, hclosing] at h
    by_cases hzero : counts.paren = 0
    · simp [hzero]
    · simp [BracketCounts.get, hzero] at h
  | cons t ts ih =>
    rcases t with ⟨kind, source, location⟩
    rw [List.cons_append, takeAnyValue] at h
    rw [parenNet_cons, List.countP_cons]
    cases kind with
    | badString | badUrl => cases h
    | opening b =>
      have hrest := ih (List.cons.inj h).2
      cases b <;>
        simp [Token.parenDelta, Token.isFunction, BracketCounts.set, BracketCounts.get] at hrest ⊢ <;>
        omega
    | closing b =>
      by_cases hzero : counts.get b = 0
      · simp [hzero] at h
      · simp only [if_neg hzero] at h
        have hrest := ih (List.cons.inj h).2
        cases b <;>
          simp [Token.parenDelta, Token.isFunction, BracketCounts.set, BracketCounts.get]
            at hrest hzero ⊢ <;>
          omega
    | _ =>
      have hrest := ih (List.cons.inj h).2
      simp [Token.parenDelta, Token.isFunction] at hrest ⊢
      omega

/-! ## Parentheses in selectors -/

namespace Selector

variable {ts : List Token} {name : String}

theorem parenNet_of_areWhite (h : AreWhite ts) : parenNet ts = 0 := by
  refine parenNet_eq_zero fun t ht => ?_
  have hwhite := h t ht
  rcases t with ⟨kind, source, location⟩
  cases kind <;> first | rfl | cases hwhite

theorem IsMatcher.parenNet_eq_zero (h : IsMatcher ts) : parenNet ts = 0 := by
  cases h with
  | plain hequals => simp [Token.parenDelta, hequals]
  | marked _ hmark hequals => simp [Token.parenDelta, hmark, hequals]

theorem IsModifier.parenNet_eq_zero (h : IsModifier ts) : parenNet ts = 0 := by
  cases h with
  | absent => rfl
  | present hword => rcases hword with hword | hword <;> simp [Token.parenDelta, hword]

theorem IsAttribute.parenNet_eq_zero (h : IsAttribute ts name) : parenNet ts = 0 := by
  cases h with
  | present hopening hgap₁ hword hgap₂ hclosing =>
    simp [parenNet_of_areWhite hgap₁, parenNet_of_areWhite hgap₂, Token.parenDelta, hopening, hword,
      hclosing]
  | valued hopening hgap₁ hword hgap₂ hmatcher hgap₃ hvalue hgap₄ hmodifier hgap₅ hclosing =>
    rcases hvalue with ⟨_, hvalue⟩ | ⟨_, hvalue⟩ <;>
      simp [parenNet_of_areWhite hgap₁, parenNet_of_areWhite hgap₂, parenNet_of_areWhite hgap₃,
        parenNet_of_areWhite hgap₄, parenNet_of_areWhite hgap₅, hmatcher.parenNet_eq_zero,
        hmodifier.parenNet_eq_zero, Token.parenDelta, hopening, hword, hvalue, hclosing]

theorem IsPseudoClass.parenNet_nonneg (h : IsPseudoClass ts name) : 0 ≤ parenNet ts := by
  cases h with
  | plain hcolon hword => simp [Token.parenDelta, hcolon, hword]
  | functional hcolon hhead _ htake hclosing =>
    have hargs := parenNet_of_takeAnyValue hclosing htake
    simp only [BracketCounts.zero, Int.natCast_zero, Int.zero_add] at hargs
    simp only [parenNet_cons, parenNet_append, parenNet_nil, Token.parenDelta, hcolon, hhead, hclosing,
      hargs]
    omega

theorem Part.IsSubclass.parenNet_nonneg {part : Part} (h : part.IsSubclass) :
    0 ≤ parenNet part.tokens := by
  cases h with
  | id hkind => simp [Token.parenDelta, hkind]
  | className hdot hword => simp [Token.parenDelta, hdot, hword]
  | attributeName h => exact Int.le_of_eq h.parenNet_eq_zero.symm
  | pseudoClass h => exact h.parenNet_nonneg

theorem parenNet_tokensOf_nonneg {parts : List Part} (h : ∀ p ∈ parts, p.IsSubclass) :
    0 ≤ parenNet (tokensOf parts) := by
  induction parts with
  | nil => exact Int.le_refl 0
  | cons part parts ih =>
    obtain ⟨hpart, hparts⟩ := List.forall_mem_cons.1 h
    rw [tokensOf_cons, parenNet_append]
    exact Int.add_nonneg hpart.parenNet_nonneg (ih hparts)

theorem IsCompound.parenNet_nonneg {parts : List Part} (h : IsCompound parts) :
    0 ≤ parenNet (tokensOf parts) := by
  cases h with
  | @typed part parts hpart hparts =>
    obtain ⟨t, htokens, hkind⟩ := hpart.exists_cons
    have hnet : parenNet part.tokens = 0 := by
      rcases hkind with ⟨_, hkind⟩ | hkind <;> simp [htokens, Token.parenDelta, hkind]
    rw [tokensOf_cons, parenNet_append, hnet, Int.zero_add]
    exact parenNet_tokensOf_nonneg hparts
  | untyped _ hparts => exact parenNet_tokensOf_nonneg hparts

theorem parenNet_of_isSeparator (h : Production.IsSeparator ts) : parenNet ts = 0 := by
  cases h with
  | comma hbefore hmark hafter =>
    simp [parenNet_of_areWhite hbefore, parenNet_of_areWhite hafter, Token.parenDelta, hmark]

/-- A compound selector that begins with a colon and a function begins with a functional pseudo-class. -/
theorem IsCompound.exists_args {colon head : Token} {parts : List Part} {us : List Token}
    (h : IsCompound parts) (hcolon : colon.kind = .colon) (hhead : head.kind = .function name)
    (htokens : tokensOf parts ++ us = colon :: head :: ts) :
    ∃ args closing parts', ts = args ++ closing :: (tokensOf parts' ++ us) ∧
      closing.kind = .closing .paren ∧ takeAnyValue .zero (args ++ [closing]) = args ∧
      ∀ p ∈ parts', p.IsSubclass := by
  cases h with
  | @typed part parts hpart hparts =>
    obtain ⟨t, hcons, hkind⟩ := hpart.exists_cons
    rw [tokensOf_cons, hcons] at htokens
    obtain rfl := (List.cons.inj htokens).1
    rw [hcolon] at hkind
    rcases hkind with ⟨_, hkind⟩ | hkind <;> cases hkind
  | untyped hne hparts =>
    obtain ⟨part, parts', rfl⟩ := List.exists_cons_of_ne_nil hne
    obtain ⟨hpart, hparts'⟩ := List.forall_mem_cons.1 hparts
    rw [tokensOf_cons, List.append_assoc] at htokens
    cases hpart with
    | id hkind =>
      obtain rfl := (List.cons.inj htokens).1
      cases hkind.symm.trans hcolon
    | className hdot =>
      obtain rfl := (List.cons.inj htokens).1
      cases hdot.symm.trans hcolon
    | attributeName hwritten =>
      obtain ⟨t, ts', rfl, hkind⟩ := hwritten.exists_cons
      obtain rfl := (List.cons.inj htokens).1
      cases hkind.symm.trans hcolon
    | pseudoClass hwritten =>
      cases hwritten with
      | plain _ hword =>
        obtain rfl := (List.cons.inj (List.cons.inj htokens).2).1
        cases hword.symm.trans hhead
      | @functional _ _ closing _ args _ _ _ htake hclosing =>
        refine ⟨args, closing, parts', ?_, hclosing, htake, hparts'⟩
        simpa using (List.cons.inj (List.cons.inj htokens).2).2.symm

end Selector

namespace SelectorList

open Selector

variable {ts : List Token} {compounds : List (List Part)}

/-- A selector list closes no more parentheses than it opens. -/
theorem IsWritten.parenNet_nonneg (h : IsWritten ts compounds) : 0 ≤ parenNet ts := by
  induction h with
  | single hparts => exact hparts.parenNet_nonneg
  | cons hparts hseparator _ ih =>
    rw [parenNet_append, parenNet_append, parenNet_of_isSeparator hseparator, Int.zero_add]
    exact Int.add_nonneg hparts.parenNet_nonneg ih

theorem IsWritten.exists_args {colon head : Token} {name : String}
    (h : IsWritten (colon :: head :: ts) compounds) (hcolon : colon.kind = .colon)
    (hhead : head.kind = .function name) : ∃ args closing rest, ts = args ++ closing :: rest ∧
      closing.kind = .closing .paren ∧ takeAnyValue .zero (args ++ [closing]) = args ∧
      0 ≤ parenNet rest := by
  generalize hwhole : colon :: head :: ts = whole at h
  cases h with
  | single hparts =>
    rw [← List.append_nil (tokensOf _)] at hwhole
    obtain ⟨args, closing, parts', hts, hclosing, htake, hparts'⟩ :=
      hparts.exists_args hcolon hhead hwhole.symm
    refine ⟨args, closing, _, hts, hclosing, htake, ?_⟩
    rw [List.append_nil]
    exact parenNet_tokensOf_nonneg hparts'
  | cons hparts hseparator hwritten =>
    obtain ⟨args, closing, parts', hts, hclosing, htake, hparts'⟩ :=
      hparts.exists_args hcolon hhead hwhole.symm
    refine ⟨args, closing, _, hts, hclosing, htake, ?_⟩
    rw [parenNet_append, parenNet_append, parenNet_of_isSeparator hseparator, Int.zero_add]
    exact Int.add_nonneg (parenNet_tokensOf_nonneg hparts') hwritten.parenNet_nonneg

/-- Tokens that neither begin nor end with white-space are read as they are. -/
theorem ofTokens_of_solid {first last : Token} (ts : List Token) (hfirst : first.isWhite = false)
    (hlast : last.isWhite = false) :
    ofTokens (first :: (ts ++ [last])) = ofTrimmed (first :: (ts ++ [last])) := by
  have hcore : dropTrailing Token.isWhite ((first :: (ts ++ [last])).dropWhile Token.isWhite) =
      first :: (ts ++ [last]) := by
    simp [dropTrailing, hfirst, hlast]
  rw [ofTokens, hcore]

/-! ## Functional pseudo-classes -/

variable {colon head closing : Token} {name : String} {args : List Token}

/-- With balanced arguments and no function among them, a functional pseudo-class is written as one. -/
theorem isWritten_functionalPseudoClass (hcolon : colon.kind = .colon)
    (hhead : head.kind = .function name) (hclosing : closing.kind = .closing .paren)
    (hargs : args ≠ []) (hbalanced : AreBalanced args)
    (hfree : ∀ t ∈ args, t.isFunction = false) :
    IsWritten (colon :: head :: (args ++ [closing]))
      [[⟨colon :: head :: (args ++ [closing]),
        .pseudoClass name (sourceOf (colon :: head :: (args ++ [closing])))⟩]] := by
  have htake : takeAnyValue .zero (args ++ [closing]) = args := by
    rw [hbalanced.takeAnyValue_append hfree, takeAnyValue, hclosing]
    exact List.append_nil args
  have hpart := Part.IsSubclass.pseudoClass (.functional hcolon hhead hargs htake hclosing)
  have hwritten := IsWritten.single (.untyped (List.cons_ne_nil _ [])
    (List.forall_mem_cons.2 ⟨hpart, List.forall_mem_nil _⟩))
  rwa [tokensOf_cons, tokensOf_nil, List.append_nil] at hwritten

/-- With a function among balanced arguments, the value read for them ends before the parenthesis that
closes the pseudo-class, and closing that one is too much for a selector. -/
theorem not_isWritten_functionalPseudoClass (hcolon : colon.kind = .colon)
    (hhead : head.kind = .function name) (hclosing : closing.kind = .closing .paren)
    (hbalanced : AreBalanced args) (hfunction : ∃ t ∈ args, t.isFunction) :
    ¬ IsWritten (colon :: head :: (args ++ [closing])) compounds := by
  intro h
  obtain ⟨taken, closing', rest, heq, hclosing', htake, hrest⟩ := h.exists_args hcolon hhead
  have hnet := parenNet_of_takeAnyValue hclosing' htake
  have hsettled := hbalanced.areSettled
  have hdelta : closing.parenDelta = -1 := by simp [Token.parenDelta, hclosing]
  have hdelta' : closing'.parenDelta = -1 := by simp [Token.parenDelta, hclosing']
  have htotal := congrArg parenNet heq
  simp only [parenNet_append, parenNet_cons, parenNet_nil, hsettled.settled, hdelta, hdelta'] at htotal
  simp only [BracketCounts.zero, Int.natCast_zero, Int.zero_add] at hnet
  have hnone : taken.countP Token.isFunction = 0 := by omega
  rcases List.eq_nil_or_concat rest with rfl | ⟨rest', last, rfl⟩
  · obtain ⟨rfl, -⟩ := List.append_inj' heq rfl
    obtain ⟨t, ht, hkind⟩ := hfunction
    exact List.countP_eq_zero.1 hnone t ht hkind
  · -- What was taken, with the parenthesis after it, is a part of the arguments from the front.
    have hprefix : taken ++ [closing'] <+: args := by
      rw [List.concat_eq_append, ← List.cons_append, ← List.append_assoc] at heq
      obtain ⟨rfl, -⟩ := List.append_inj' heq rfl
      exact ⟨rest', by simp⟩
    have hnonneg := hsettled.nonneg _ hprefix
    simp only [parenNet_append, parenNet_cons, parenNet_nil, hdelta'] at hnonneg
    omega

/-- A colon and a closed function with arguments that are closed and not malformed are one functional
pseudo-class exactly if no function is among the arguments, at any depth. Otherwise they are refused. -/
theorem ofTokens_functionalPseudoClass {contents : List Component} (hcolon : colon.kind = .colon)
    (hhead : head.kind = .function name)
    (harranged : Component.IsArranged [.group head contents (some closing)])
    (hne : contents ≠ []) (hsound : Component.areSound contents) :
    let ts := colon :: (Component.group head contents (some closing)).tokens
    ((∀ t ∈ Component.listTokens contents, t.isFunction = false) →
        ofTokens ts = .ok ⟨[⟨[.pseudoClass name (sourceOf ts)]⟩]⟩) ∧
      ((∃ t ∈ Component.listTokens contents, t.isFunction) →
        ∃ e, ofTokens ts = .error e ∧ e.category = .selector) := by
  obtain ⟨-, hinner, -, hcloses, -⟩ := harranged.group_cons
  have hclosing : closing.kind = .closing .paren := by
    obtain ⟨b, hb, hclosing⟩ := Component.closes_token_iff.1 (hcloses closing rfl)
    rw [hhead] at hb
    cases hb
    exact hclosing
  have hcontents : Component.IsArranged (contents ++ .token closing :: []) := by simpa using hinner
  have hbalanced := Component.areBalanced_listTokens contents hcontents hsound
  have hargs : Component.listTokens contents ≠ [] := by
    obtain ⟨c, cs, rfl⟩ := List.exists_cons_of_ne_nil hne
    intro hnil
    have hfirst := Component.head?_listTokens_cons c cs
    rw [hnil] at hfirst
    cases hfirst
  have hcolonSolid : colon.isWhite = false := by rw [Token.isWhite, hcolon]; rfl
  have hclosingSolid : closing.isWhite = false := by rw [Token.isWhite, hclosing]; rfl
  intro ts
  have hts : ts = colon :: head :: (Component.listTokens contents ++ [closing]) := by
    simp [ts, Component.tokens]
  rw [hts, ← List.cons_append, ofTokens_of_solid _ hcolonSolid hclosingSolid, List.cons_append]
  refine ⟨fun hfree => ?_, fun hfunction => ?_⟩
  · exact ofTrimmed_eq_ok_iff.2
      ⟨_, isWritten_functionalPseudoClass hcolon hhead hclosing hargs hbalanced hfree, rfl⟩
  · rcases ofTrimmed_cases (colon :: head :: (Component.listTokens contents ++ [closing])) with
      ⟨compounds, hwritten, -⟩ | ⟨herror, -⟩
    · exact absurd hwritten
        (not_isWritten_functionalPseudoClass hcolon hhead hclosing hbalanced hfunction)
    · exact herror

/-- The component value of `[a]`. -/
def bracketedName : Component :=
  .group ⟨.opening .square, "[", ⟨1, 6⟩⟩ [.token ⟨.ident "a", "a", ⟨1, 7⟩⟩]
    (some ⟨.closing .square, "]", ⟨1, 8⟩⟩)

/-- The component value of `f(x)`. -/
def nestedFunction : Component :=
  .group ⟨.function "f", "f(", ⟨1, 6⟩⟩ [.token ⟨.ident "x", "x", ⟨1, 8⟩⟩]
    (some ⟨.closing .paren, ")", ⟨1, 9⟩⟩)

/-- The component value of `not(` and `)` around the argument. -/
def negationOf (argument : Component) : Component :=
  .group ⟨.function "not", "not(", ⟨1, 2⟩⟩ [argument] (some ⟨.closing .paren, ")", ⟨1, 10⟩⟩)

/-- The pseudo-class `:not([a])` is read, and `:not(f(x))` is refused. -/
theorem ofTokens_negationOf :
    let colon : Token := ⟨.colon, ":", ⟨1, 1⟩⟩
    ofTokens (colon :: (negationOf bracketedName).tokens) =
        .ok ⟨[⟨[.pseudoClass "not" ":not([a])"]⟩]⟩ ∧
      (Component.IsArranged [negationOf nestedFunction] ∧ Component.areSound [nestedFunction]) ∧
      ∃ e, ofTokens (colon :: (negationOf nestedFunction).tokens) = .error e ∧
        e.category = .selector := by
  intro colon
  have hbracketed : Component.IsArranged [negationOf bracketedName] := by rfl
  have hnested : Component.IsArranged [negationOf nestedFunction] := by rfl
  have hcolon : colon.kind = .colon := rfl
  have hread := (ofTokens_functionalPseudoClass hcolon rfl hbracketed
    (List.cons_ne_nil _ _) rfl).1 (by decide)
  have hrefused := (ofTokens_functionalPseudoClass hcolon rfl hnested
    (List.cons_ne_nil _ _) rfl).2 ⟨⟨.function "f", "f(", ⟨1, 6⟩⟩, List.mem_cons_self, rfl⟩
  exact ⟨hread, ⟨hnested, rfl⟩, hrefused⟩

end SelectorList

end Styling
