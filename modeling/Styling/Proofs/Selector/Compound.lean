import Styling.Proofs.Selector.Part

/-!
# Compound selectors are what is read as such

The grammar takes a compound selector as far as there are parts of one, and there is one way only to
divide tokens into parts (`IsCompound.eq_of_append`).
-/

namespace Styling.Selector

open Production Taking Selector.Grammar

variable {ts us us' : List Token} {q : Product}

/-- Whether tokens begin with none that could go on with a compound selector: there are none, or a
comma or white-space comes first. -/
def Stops (ts : List Token) : Prop := ∀ t ∈ ts.head?, t.isWhite ∨ t.kind = .comma

theorem Stops.not_opensSubclass {t : Token} (h : Stops (t :: ts)) : ¬ OpensSubclass t := by
  have hkind := h t rfl
  rw [Token.isWhite] at hkind
  rintro (⟨name, ht⟩ | ht | ht | ht) <;> simp [ht, TokenKind.isWhite] at hkind

/-! ## One part -/

namespace Part

variable {part part' : Part}

theorem IsType.exists_cons (h : part.IsType) : ∃ t, part.tokens = [t] ∧
    ((∃ name, t.kind = .ident name) ∨ t.kind = .delim '*') := by
  cases h with
  | universal hkind => exact ⟨_, rfl, .inr hkind⟩
  | named hkind => exact ⟨_, rfl, .inl ⟨_, hkind⟩⟩

theorem taking_typeSelector_eq_none {t : Token} (h : OpensSubclass t ∨ t.isWhite ∨ t.kind = .comma) :
    (reference typeSelector).taking (t :: ts) = none := by
  refine taking_eq_none_of_forall fun q ws hq => ?_
  rw [taking_reference] at hq
  obtain ⟨_, hkind, -, hts⟩ := taking_typeSelector_eq_some_iff.1 hq
  obtain rfl := (List.cons.inj hts).1
  rw [Token.isWhite] at h
  rcases hkind with ⟨name, ht⟩ | ht <;>
    simp [OpensSubclass, ht, TokenKind.isWhite] at h

/-- A part is settled by the tokens it begins. -/
theorem IsSubclass.eq_of_append (h : part.IsSubclass) (h' : part'.IsSubclass)
    (heq : part.tokens ++ us = part'.tokens ++ us') : part = part' ∧ us = us' := by
  obtain ⟨q, hq, hselector⟩ := taking_of_isSubclass h us
  obtain ⟨q', hq', hselector'⟩ := taking_of_isSubclass h' us'
  rw [← heq, hq] at hq'
  obtain ⟨rfl, rfl⟩ := Prod.mk.inj (Option.some.inj hq')
  have htokens := List.append_cancel_right heq
  have hselectors := Option.some.inj (hselector.symm.trans hselector')
  rcases part with ⟨tokens, selector⟩
  rcases part' with ⟨tokens', selector'⟩
  exact ⟨by rw [show tokens = tokens' from htokens, show selector = selector' from hselectors], rfl⟩

theorem IsType.eq_of_append (h : part.IsType) (h' : part'.IsType)
    (heq : part.tokens ++ us = part'.tokens ++ us') : part = part' ∧ us = us' := by
  cases h with
  | universal hkind =>
    cases h' with
    | universal =>
      obtain ⟨rfl, rfl⟩ := List.cons.inj heq
      exact ⟨rfl, rfl⟩
    | named hkind' =>
      obtain rfl := (List.cons.inj heq).1
      cases hkind.symm.trans hkind'
  | named hkind =>
    cases h' with
    | universal hkind' =>
      obtain rfl := (List.cons.inj heq).1
      cases hkind.symm.trans hkind'
    | named hkind' =>
      obtain ⟨rfl, rfl⟩ := List.cons.inj heq
      obtain rfl := TokenKind.ident.inj (hkind.symm.trans hkind')
      exact ⟨rfl, rfl⟩

end Part

/-! ## Parts after the type -/

theorem isProgressive_subclasses :
    IsProgressive (reference subclassSelector).taking (accept []) := by
  refine isProgressive_of_tokens_ne_nil (keeps_taking _) keeps_accept_nil fun ts q us hq => ?_
  rw [taking_reference] at hq
  obtain ⟨part, hpart, htokens, -⟩ := Part.exists_isSubclass_of_taking hq
  obtain ⟨t, ts', hcons, -⟩ := hpart.exists_cons
  rw [← htokens, hcons]
  exact List.cons_ne_nil t ts'

theorem exists_subclasses_of_repeats {first : Bool} {qs : List Product} {n : Nat}
    (h : Repeats (reference subclassSelector).taking (accept []) first ts qs n us) :
    ∃ parts : List Part, (∀ p ∈ parts, p.IsSubclass) ∧ tokensOf parts = Product.listTokens qs ∧
      qs.mapM SimpleSelector.ofSubclassProduct? = some (parts.map Part.selector) := by
  induction h with
  | stop => exact ⟨[], List.forall_mem_nil _, rfl, rfl⟩
  | @next first ts ps us qs n vs hstep _ ih =>
    obtain ⟨parts, hparts, htokens, hselectors⟩ := ih
    rw [repetition_accept_nil, Option.map_eq_some_iff] at hstep
    obtain ⟨⟨q, ws⟩, hq, hps⟩ := hstep
    obtain ⟨rfl, rfl⟩ := Prod.mk.inj hps
    rw [taking_reference] at hq
    obtain ⟨part, hpart, hpartTokens, hselector⟩ := Part.exists_isSubclass_of_taking hq
    refine ⟨part :: parts, List.forall_mem_cons.2 ⟨hpart, hparts⟩, ?_, ?_⟩
    · rw [tokensOf_cons, htokens, hpartTokens]
      rfl
    · simp [hselector, hselectors]

theorem repeats_of_subclasses {parts : List Part} (h : ∀ p ∈ parts, p.IsSubclass) (hus : Stops us)
    (first : Bool) : ∃ qs n,
      Repeats (reference subclassSelector).taking (accept []) first (tokensOf parts ++ us) qs n us ∧
        qs.mapM SimpleSelector.ofSubclassProduct? = some (parts.map Part.selector) := by
  induction parts generalizing first with
  | nil =>
    refine ⟨[], 0, .stop ?_, rfl⟩
    have hnone : (reference subclassSelector).taking us = none := by
      refine taking_eq_none_of_forall fun q ws hq => ?_
      rw [taking_reference] at hq
      obtain ⟨part, hpart, htokens, -⟩ := Part.exists_isSubclass_of_taking hq
      obtain ⟨t, ts, hcons, hopens⟩ := hpart.exists_cons
      have hts := tokens_append_of_taking hq
      rw [← htokens, hcons] at hts
      rw [← hts] at hus
      exact hus.not_opensSubclass hopens
    show repetition _ _ first us = none
    rw [repetition_accept_nil, hnone]
    rfl
  | cons part parts ih =>
    obtain ⟨hpart, hparts⟩ := List.forall_mem_cons.1 h
    obtain ⟨qs, n, hrepeats, hselectors⟩ := ih hparts false
    obtain ⟨q, hq, hselector⟩ := Part.taking_of_isSubclass hpart (tokensOf parts ++ us)
    rw [← taking_reference] at hq
    refine ⟨[q] ++ qs, n + 1, .next ?_ hrepeats, by simp [hselector, hselectors]⟩
    rw [tokensOf_cons, List.append_assoc, repetition_accept_nil, hq]
    rfl

theorem subclasses_eq_of_append {parts parts' : List Part} (h : ∀ p ∈ parts, p.IsSubclass)
    (h' : ∀ p ∈ parts', p.IsSubclass) (hus : Stops us) (hus' : Stops us')
    (heq : tokensOf parts ++ us = tokensOf parts' ++ us') : parts = parts' ∧ us = us' := by
  have hopens : ∀ {part : Part} {vs : List Token}, part.IsSubclass →
      ¬ Stops (part.tokens ++ vs) := by
    intro part vs hpart hstops
    obtain ⟨t, ts, hcons, hopens⟩ := hpart.exists_cons
    rw [hcons] at hstops
    exact hstops.not_opensSubclass hopens
  induction parts generalizing parts' with
  | nil =>
    cases parts' with
    | nil => exact ⟨rfl, heq⟩
    | cons part' parts' =>
      rw [tokensOf_nil, List.nil_append, tokensOf_cons, List.append_assoc] at heq
      exact absurd (heq ▸ hus) (hopens (h' part' List.mem_cons_self))
  | cons part parts ih =>
    obtain ⟨hpart, hparts⟩ := List.forall_mem_cons.1 h
    rw [tokensOf_cons, List.append_assoc] at heq
    cases parts' with
    | nil =>
      rw [tokensOf_nil, List.nil_append] at heq
      exact absurd (heq ▸ hus') (hopens hpart)
    | cons part' parts' =>
      obtain ⟨hpart', hparts'⟩ := List.forall_mem_cons.1 h'
      rw [tokensOf_cons, List.append_assoc] at heq
      obtain ⟨rfl, hrest⟩ := hpart.eq_of_append hpart' heq
      obtain ⟨rfl, rfl⟩ := ih hparts hparts' hrest
      exact ⟨rfl, rfl⟩

/-! ## Compound selectors -/

theorem taking_compoundSelector_eq_some_iff : compoundSelector.taking ts = some (q, us) ↔
    ∃ type qs vs, (optional (reference typeSelector)).taking ts = some (type, vs) ∧
      (∃ n, Repeats (reference subclassSelector).taking (accept []) true vs qs n us) ∧
      q = .group [type, .group qs] ∧ type.tokens ++ Product.listTokens qs ≠ [] := by
  have hrepetition : ∀ {vs q}, (repetition (reference subclassSelector) 0 none).taking vs =
      some (q, us) ↔ ∃ qs n, q = .group qs ∧
        Repeats (reference subclassSelector).taking (accept []) true vs qs n us := by
    intro vs q
    rw [taking_repetition, ofRepetition_eq_some_iff isProgressive_subclasses]
    simp
  have htokens : ∀ type qs, (Product.group [type, .group qs]).tokens =
      type.tokens ++ Product.listTokens qs := by
    simp [Product.tokens, Product.listTokens]
  rw [compoundSelector, taking_nonEmpty_eq_some_iff, taking_juxtaposition_eq_some_iff]
  constructor
  · rintro ⟨⟨_, rfl, h₀⟩, hfilled⟩
    obtain ⟨type, _, vs, htype, h₁, rfl⟩ := takingEach_cons_eq_some_iff.1 h₀
    obtain ⟨_, _, _, hlast, h₂, rfl⟩ := takingEach_cons_eq_some_iff.1 h₁
    obtain ⟨rfl, rfl⟩ := takingEach_nil_eq_some_iff.1 h₂
    obtain ⟨qs, n, rfl, hrepeats⟩ := hrepetition.1 hlast
    exact ⟨type, qs, vs, htype, ⟨n, hrepeats⟩, rfl, htokens type qs ▸ hfilled⟩
  · rintro ⟨type, qs, vs, htype, ⟨n, hrepeats⟩, rfl, hfilled⟩
    refine ⟨⟨_, rfl, ?_⟩, by rwa [htokens]⟩
    rw [takingEach_cons_of_some htype,
      takingEach_cons_of_some (hrepetition.2 ⟨qs, n, rfl, hrepeats⟩)]
    rfl

private theorem ofProduct?_eq_some (types : List Part) {parts : List Part} {ts qs : List Product}
    (hts : ts.mapM SimpleSelector.ofTypeProduct? = some (types.map Part.selector))
    (hqs : qs.mapM SimpleSelector.ofSubclassProduct? = some (parts.map Part.selector)) :
    Selector.ofProduct? (.group [.group ts, .group qs]) = some (ofParts (types ++ parts)) := by
  simp [Selector.ofProduct?, hts, hqs, ofParts]

theorem exists_isCompound_of_taking (h : compoundSelector.taking ts = some (q, us)) :
    ∃ parts, IsCompound parts ∧ tokensOf parts = q.tokens ∧
      Selector.ofProduct? q = some (ofParts parts) := by
  obtain ⟨type, qs, vs, htype, ⟨n, hrepeats⟩, rfl, hfilled⟩ :=
    taking_compoundSelector_eq_some_iff.1 h
  obtain ⟨parts, hparts, htokens, hselectors⟩ := exists_subclasses_of_repeats hrepeats
  have hgroup : (Product.group [type, .group qs]).tokens = type.tokens ++ tokensOf parts := by
    simp [Product.tokens, Product.listTokens, htokens]
  rw [← htokens] at hfilled
  rw [hgroup]
  rcases taking_optional_eq_some_iff.1 htype with ⟨found, hfound, rfl⟩ | ⟨-, rfl, -⟩
  · rw [taking_reference] at hfound
    obtain ⟨part, hpart, hpartTokens, hselector⟩ := Part.exists_isType_of_taking hfound
    refine ⟨part :: parts, .typed hpart hparts, ?_, ?_⟩
    · rw [tokensOf_cons, hpartTokens]
      simp [Product.tokens, Product.listTokens]
    · exact ofProduct?_eq_some [part] (by rw [List.mapM_cons, hselector]; rfl) hselectors
  · refine ⟨parts, .untyped ?_ hparts, rfl, ofProduct?_eq_some [] rfl hselectors⟩
    rintro rfl
    exact hfilled rfl

theorem taking_of_isCompound {parts : List Part} (h : IsCompound parts) (hus : Stops us) :
    ∃ q, compoundSelector.taking (tokensOf parts ++ us) = some (q, us) ∧
      Selector.ofProduct? q = some (ofParts parts) := by
  cases h with
  | @typed part parts hpart hparts =>
    obtain ⟨type, htype, hselector⟩ := Part.taking_of_isType hpart (tokensOf parts ++ us)
    obtain ⟨qs, n, hrepeats, hselectors⟩ := repeats_of_subclasses hparts hus true
    obtain ⟨t, hcons, -⟩ := hpart.exists_cons
    have htokens := List.append_cancel_right (tokens_append_of_taking htype)
    rw [← taking_reference] at htype
    refine ⟨.group [.group [type], .group qs], taking_compoundSelector_eq_some_iff.2
      ⟨_, qs, tokensOf parts ++ us, ?_, ⟨n, hrepeats⟩, rfl, ?_⟩,
      ofProduct?_eq_some [part] (by rw [List.mapM_cons, hselector]; rfl) hselectors⟩
    · rw [tokensOf_cons, List.append_assoc]
      exact taking_optional_eq_some_iff.2 (.inl ⟨type, htype, rfl⟩)
    · simp [Product.tokens, Product.listTokens, htokens, hcons]
  | untyped hne hparts =>
    obtain ⟨qs, n, hrepeats, hselectors⟩ := repeats_of_subclasses hparts hus true
    obtain ⟨part, parts', rfl⟩ := List.exists_cons_of_ne_nil hne
    obtain ⟨t, ts, hcons, hopens⟩ := (hparts part List.mem_cons_self).exists_cons
    have htokens := List.append_cancel_right
      (hrepeats.listTokens_append (keeps_taking _) keeps_accept_nil)
    refine ⟨.group [.group [], .group qs], taking_compoundSelector_eq_some_iff.2
      ⟨_, qs, _, taking_optional_eq_some_iff.2 (.inr ⟨?_, rfl, rfl⟩), ⟨n, hrepeats⟩, rfl, ?_⟩,
      ofProduct?_eq_some [] rfl hselectors⟩
    · rw [tokensOf_cons, hcons]
      exact Part.taking_typeSelector_eq_none (.inl hopens)
    · simp [htokens, hcons, Product.tokens, Product.listTokens]

/-- A type begins with no token that another part begins with. -/
private theorem tokensOf_type_ne {part part' : Part} {parts : List Part} (h : part.IsType)
    (h' : part'.IsSubclass) : part.tokens ++ us ≠ tokensOf (part' :: parts) ++ us' := by
  intro heq
  obtain ⟨t, hcons, hkind⟩ := h.exists_cons
  obtain ⟨t', ts', hcons', hopens⟩ := h'.exists_cons
  rw [tokensOf_cons, hcons, hcons'] at heq
  obtain rfl := (List.cons.inj heq).1
  rcases hkind with ⟨name, ht⟩ | ht <;> simp [OpensSubclass, ht] at hopens

/-- Tokens are divided into parts in one way. -/
theorem IsCompound.eq_of_append {parts parts' : List Part} (h : IsCompound parts)
    (h' : IsCompound parts') (hus : Stops us) (hus' : Stops us')
    (heq : tokensOf parts ++ us = tokensOf parts' ++ us') : parts = parts' ∧ us = us' := by
  cases h with
  | @typed part parts hpart hparts =>
    rw [tokensOf_cons, List.append_assoc] at heq
    cases h' with
    | @typed part' parts' hpart' hparts' =>
      rw [tokensOf_cons, List.append_assoc] at heq
      obtain ⟨rfl, hrest⟩ := hpart.eq_of_append hpart' heq
      obtain ⟨rfl, rfl⟩ := subclasses_eq_of_append hparts hparts' hus hus' hrest
      exact ⟨rfl, rfl⟩
    | untyped hne hparts' =>
      obtain ⟨part', parts'', rfl⟩ := List.exists_cons_of_ne_nil hne
      exact absurd heq (tokensOf_type_ne hpart (hparts' part' List.mem_cons_self))
  | untyped hne hparts =>
    cases h' with
    | @typed part' parts' hpart' hparts' =>
      obtain ⟨part, parts'', rfl⟩ := List.exists_cons_of_ne_nil hne
      rw [tokensOf_cons part', List.append_assoc part'.tokens] at heq
      exact absurd heq.symm (tokensOf_type_ne hpart' (hparts part List.mem_cons_self))
    | untyped _ hparts' => exact subclasses_eq_of_append hparts hparts' hus hus' heq

theorem IsCompound.exists_cons {parts : List Part} (h : IsCompound parts) :
    ∃ t ts, tokensOf parts = t :: ts ∧ t.isWhite = false ∧ t.kind ≠ .comma := by
  have hsubclass : ∀ {t}, OpensSubclass t → t.isWhite = false ∧ t.kind ≠ .comma := by
    rintro t (⟨name, ht⟩ | ht | ht | ht) <;> simp [Token.isWhite, ht, TokenKind.isWhite]
  cases h with
  | @typed part parts hpart hparts =>
    obtain ⟨t, hcons, hkind⟩ := hpart.exists_cons
    refine ⟨t, tokensOf parts, by rw [tokensOf_cons, hcons]; rfl, ?_⟩
    rcases hkind with ⟨name, ht⟩ | ht <;> simp [Token.isWhite, ht, TokenKind.isWhite]
  | untyped hne hparts =>
    obtain ⟨part, parts, rfl⟩ := List.exists_cons_of_ne_nil hne
    obtain ⟨t, ts, hcons, hopens⟩ := (hparts part List.mem_cons_self).exists_cons
    exact ⟨t, ts ++ tokensOf parts, by rw [tokensOf_cons, hcons]; rfl, hsubclass hopens⟩

end Styling.Selector
