import Styling.Proofs.Selector.Written

/-!
# The parts of a compound selector are what is read as such

What the grammar takes as a type or as one of the other parts is written as one, and what is written
as one is taken, whatever follows it (`Part.taking_of_isType`, `Part.taking_of_isSubclass`).
-/

namespace Styling.Selector

open Production Selector.Grammar

variable {ts us : List Token} {q : Product}

theorem startsSolid_cons {t : Token} (h : t.kind.isWhite = false) : StartsSolid (t :: ts) := by
  rintro _ ⟨⟩
  exact h

theorem taking_ident_eq_some_iff : (ofClass .ident).taking ts = some (q, us) ↔
    ∃ t name, t.kind = .ident name ∧ q = .token t ∧ ts = t :: us := by
  simp only [taking_class_eq_some_iff (show TokenClass.ident ≠ .whitespace by decide),
    TokenKind.tokenClass_eq_ident_iff, exists_and_right]

theorem taking_function_eq_some_iff : (ofClass .function).taking ts = some (q, us) ↔
    ∃ t name, t.kind = .function name ∧ q = .token t ∧ ts = t :: us := by
  simp only [taking_class_eq_some_iff (show TokenClass.function ≠ .whitespace by decide),
    TokenKind.tokenClass_eq_function_iff, exists_and_right]

theorem taking_colon_eq_some_iff : (ofClass .colon).taking ts = some (q, us) ↔
    ∃ t, t.kind = .colon ∧ q = .token t ∧ ts = t :: us := by
  simp only [taking_class_eq_some_iff (show TokenClass.colon ≠ .whitespace by decide),
    TokenKind.tokenClass_eq_colon_iff]

theorem taking_opening_eq_some_iff {b : Bracket} :
    (ofClass (.opening b)).taking ts = some (q, us) ↔
      ∃ t, t.kind = .opening b ∧ q = .token t ∧ ts = t :: us := by
  simp only [taking_class_eq_some_iff (show TokenClass.opening b ≠ .whitespace by rintro ⟨⟩),
    TokenKind.tokenClass_eq_opening_iff]

theorem taking_closing_eq_some_iff {b : Bracket} :
    (ofClass (.closing b)).taking ts = some (q, us) ↔
      ∃ t, t.kind = .closing b ∧ q = .token t ∧ ts = t :: us := by
  simp only [taking_class_eq_some_iff (show TokenClass.closing b ≠ .whitespace by rintro ⟨⟩),
    TokenKind.tokenClass_eq_closing_iff]

/-! ## Types -/

theorem taking_typeSelector_eq_some_iff : typeSelector.taking ts = some (q, us) ↔
    ∃ t, ((∃ name, t.kind = .ident name) ∨ t.kind = .delim '*') ∧ q = .token t ∧ ts = t :: us := by
  have hpatterns : typeSelector = alternatives
    ([⟨.ident, none, none⟩, ⟨.delim, some (String.singleton '*'), none⟩].map token) := rfl
  rw [hpatterns, taking_oneOf_eq_some_iff]
  simp only [List.mem_cons, List.not_mem_nil, or_false, exists_eq_or_imp, exists_eq_left,
    TokenPattern.accepts_class (show TokenClass.ident ≠ .whitespace by decide),
    TokenPattern.accepts_delim, TokenKind.tokenClass_eq_ident_iff]

namespace Part

theorem exists_isType_of_taking (h : typeSelector.taking ts = some (q, us)) :
    ∃ part : Part, part.IsType ∧ part.tokens = q.tokens ∧
      SimpleSelector.ofTypeProduct? q = some part.selector := by
  obtain ⟨⟨kind, source, location⟩, hkind, rfl, -⟩ := taking_typeSelector_eq_some_iff.1 h
  rcases hkind with ⟨name, rfl⟩ | rfl
  · exact ⟨_, .named rfl, rfl, rfl⟩
  · exact ⟨_, .universal rfl, rfl, rfl⟩

theorem taking_of_isType {part : Part} (h : part.IsType) (us : List Token) :
    ∃ q, typeSelector.taking (part.tokens ++ us) = some (q, us) ∧
      SimpleSelector.ofTypeProduct? q = some part.selector := by
  cases h with
  | @universal t hkind =>
    refine ⟨.token t, taking_typeSelector_eq_some_iff.2 ⟨t, .inr hkind, rfl, rfl⟩, ?_⟩
    rcases t with ⟨kind, source, location⟩
    obtain rfl : kind = .delim '*' := hkind
    rfl
  | @named t name hkind =>
    refine ⟨.token t, taking_typeSelector_eq_some_iff.2 ⟨t, .inl ⟨name, hkind⟩, rfl, rfl⟩, ?_⟩
    rcases t with ⟨kind, source, location⟩
    obtain rfl : kind = .ident name := hkind
    rfl

end Part

/-! ## Attributes -/

theorem taking_matcherMark_eq_some_iff :
    (alternatives [delim '~', delim '|', delim '^', delim '$', delim '*']).taking ts = some (q, us) ↔
      ∃ t, (∃ c ∈ ['~', '|', '^', '$', '*'], t.kind = .delim c) ∧ q = .token t ∧ ts = t :: us := by
  have hpatterns : alternatives [delim '~', delim '|', delim '^', delim '$', delim '*'] =
      alternatives ((['~', '|', '^', '$', '*'].map fun c =>
        (⟨.delim, some (String.singleton c), none⟩ : TokenPattern)).map token) := rfl
  rw [hpatterns, taking_oneOf_eq_some_iff]
  simp only [List.mem_map, exists_exists_and_eq_and, TokenPattern.accepts_delim]

theorem taking_attributeModifier_eq_some_iff : attributeModifier.taking ts = some (q, us) ↔
    ∃ t, (t.kind = .ident "i" ∨ t.kind = .ident "s") ∧ q = .token t ∧ ts = t :: us := by
  have hpatterns : attributeModifier =
      alternatives ([⟨.ident, some "i", none⟩, ⟨.ident, some "s", none⟩].map token) := rfl
  rw [hpatterns, taking_oneOf_eq_some_iff]
  simp only [List.mem_cons, List.not_mem_nil, or_false, exists_eq_or_imp, exists_eq_left,
    TokenPattern.accepts_identNamed]

theorem taking_attributeValue_eq_some_iff :
    (alternatives [ofClass .string, ofClass .ident]).taking ts = some (q, us) ↔
      ∃ t, IsAttributeValue t ∧ q = .token t ∧ ts = t :: us := by
  have hpatterns : alternatives [ofClass .string, ofClass .ident] =
      alternatives ([⟨.string, none, none⟩, ⟨.ident, none, none⟩].map token) := rfl
  rw [hpatterns, taking_oneOf_eq_some_iff]
  simp only [List.mem_cons, List.not_mem_nil, or_false, exists_eq_or_imp, exists_eq_left,
    TokenPattern.accepts_class (show TokenClass.string ≠ .whitespace by decide),
    TokenPattern.accepts_class (show TokenClass.ident ≠ .whitespace by decide),
    TokenKind.tokenClass_eq_string_iff, TokenKind.tokenClass_eq_ident_iff, IsAttributeValue]

theorem isMatcher_of_taking (h : attributeMatcher.taking ts = some (q, us)) :
    IsMatcher q.tokens := by
  obtain ⟨qs, rfl, h₀⟩ := taking_juxtaposition_eq_some_iff.1 h
  obtain ⟨mark, _, _, hmark, h₁, rfl⟩ := takingEach_cons_eq_some_iff.1 h₀
  obtain ⟨_, _, _, hlast, h₂, rfl⟩ := takingEach_cons_eq_some_iff.1 h₁
  obtain ⟨rfl, -⟩ := takingEach_nil_eq_some_iff.1 h₂
  obtain ⟨equals, hequals, rfl, -⟩ := taking_delim_eq_some_iff.1 hlast
  rcases taking_optional_eq_some_iff.1 hmark with ⟨_, hthere, rfl⟩ | ⟨-, rfl, -⟩
  · obtain ⟨t, ⟨c, hc, ht⟩, rfl, -⟩ := taking_matcherMark_eq_some_iff.1 hthere
    exact .marked hc ht hequals
  · exact .plain hequals

theorem isModifier_of_taking
    (h : (optional (reference attributeModifier)).taking ts = some (q, us)) :
    IsModifier q.tokens := by
  rcases taking_optional_eq_some_iff.1 h with ⟨_, hthere, rfl⟩ | ⟨-, rfl, -⟩
  · rw [taking_reference] at hthere
    obtain ⟨word, hword, rfl, -⟩ := taking_attributeModifier_eq_some_iff.1 hthere
    exact .present hword
  · exact .absent

theorem taking_of_isMatcher {matcher : List Token} (h : IsMatcher matcher) (us : List Token) :
    ∃ q, attributeMatcher.taking (matcher ++ us) = some (q, us) := by
  cases h with
  | @plain equals hequals =>
    have hmark : (alternatives [delim '~', delim '|', delim '^', delim '$', delim '*']).taking
        ([equals] ++ us) = none := by
      refine taking_eq_none_of_forall fun q vs hq => ?_
      obtain ⟨t, ⟨c, hc, ht⟩, -, hts⟩ := taking_matcherMark_eq_some_iff.1 hq
      obtain rfl := (List.cons.inj hts).1
      obtain rfl : '=' = c := TokenKind.delim.inj (hequals.symm.trans ht)
      simp at hc
    have hequals' := taking_delim_eq_some_iff.2
      ⟨equals, hequals, rfl, show [equals] ++ us = equals :: us from rfl⟩
    refine ⟨.group [.group [], .token equals], taking_juxtaposition_eq_some_iff.2 ⟨_, rfl, ?_⟩⟩
    rw [takingEach_cons_of_some (taking_optional_eq_some_iff.2 (.inr ⟨hmark, rfl, rfl⟩)),
      takingEach_cons_of_some hequals']
    rfl
  | @marked mark equals c hc hmark hequals =>
    have htaken := taking_matcherMark_eq_some_iff.2
      ⟨mark, ⟨c, hc, hmark⟩, rfl, show [mark, equals] ++ us = mark :: equals :: us from rfl⟩
    refine ⟨.group [.group [.token mark], .token equals],
      taking_juxtaposition_eq_some_iff.2 ⟨_, rfl, ?_⟩⟩
    rw [takingEach_cons_of_some (taking_optional_eq_some_iff.2 (.inl ⟨_, htaken, rfl⟩)),
      takingEach_cons_of_some (taking_delim_eq_some_iff.2 ⟨equals, hequals, rfl, rfl⟩)]
    rfl

/-- Both alternatives for an attribute begin with a bracket and a name, with white-space after each. -/
private theorem attributeHead_of_taking {ps : List Production} {qs : List Product}
    (h : takingEach (ofClass (.opening .square) :: optional whitespace :: ofClass .ident ::
      optional whitespace :: ps) ts = some (qs, us)) :
    ∃ opening g₁ word name g₂ others vs, opening.kind = .opening .square ∧ AreWhite g₁.tokens ∧
      word.kind = .ident name ∧ AreWhite g₂.tokens ∧ takingEach ps vs = some (others, us) ∧
      qs = .token opening :: g₁ :: .token word :: g₂ :: others := by
  obtain ⟨_, _, _, hfirst, h₁, rfl⟩ := takingEach_cons_eq_some_iff.1 h
  obtain ⟨g₁, _, _, hg₁, h₂, rfl⟩ := takingEach_cons_eq_some_iff.1 h₁
  obtain ⟨_, _, _, hthird, h₃, rfl⟩ := takingEach_cons_eq_some_iff.1 h₂
  obtain ⟨g₂, others, vs, hg₂, hothers, rfl⟩ := takingEach_cons_eq_some_iff.1 h₃
  obtain ⟨opening, hopening, rfl, -⟩ := taking_opening_eq_some_iff.1 hfirst
  obtain ⟨word, name, hword, rfl, -⟩ := taking_ident_eq_some_iff.1 hthird
  exact ⟨opening, g₁, word, name, g₂, others, vs, hopening, areWhite_of_taking_gap hg₁, hword,
    areWhite_of_taking_gap hg₂, hothers, rfl⟩

private theorem takingEach_attributeHead {opening word : Token} {name : String}
    {gap₁ gap₂ : List Token} (hopening : opening.kind = .opening .square) (hgap₁ : AreWhite gap₁)
    (hword : word.kind = .ident name) (hgap₂ : AreWhite gap₂) (hts : StartsSolid ts) :
    ∃ g₁ g₂, ∀ ps, takingEach (ofClass (.opening .square) :: optional whitespace :: ofClass .ident ::
      optional whitespace :: ps) (opening :: (gap₁ ++ word :: (gap₂ ++ ts))) =
        (takingEach ps ts).map fun (qs, us) =>
          (.token opening :: g₁ :: .token word :: g₂ :: qs, us) := by
  have hsolid : StartsSolid (word :: (gap₂ ++ ts)) := startsSolid_cons (by rw [hword]; rfl)
  obtain ⟨g₁, hg₁⟩ := taking_gap_of_areWhite hgap₁ hsolid
  obtain ⟨g₂, hg₂⟩ := taking_gap_of_areWhite hgap₂ hts
  refine ⟨g₁, g₂, fun ps => ?_⟩
  rw [takingEach_cons_of_some (taking_opening_eq_some_iff.2 ⟨opening, hopening, rfl, rfl⟩),
    takingEach_cons_of_some hg₁,
    takingEach_cons_of_some (taking_ident_eq_some_iff.2 ⟨word, name, hword, rfl, rfl⟩),
    takingEach_cons_of_some hg₂]
  cases takingEach ps ts <;> rfl

/-- What comes after the value of an attribute: a modifier that may be there, and the bracket. -/
private theorem takingEach_attributeEnd {gap₄ modifier gap₅ : List Token} {closing : Token}
    (hgap₄ : AreWhite gap₄) (hmodifier : IsModifier modifier) (hgap₅ : AreWhite gap₅)
    (hclosing : closing.kind = .closing .square) (us : List Token) :
    ∃ qs, takingEach [optional whitespace, optional (reference attributeModifier),
      optional whitespace, ofClass (.closing .square)]
        (gap₄ ++ (modifier ++ (gap₅ ++ closing :: us))) = some (qs, us) := by
  have hsolid : StartsSolid (closing :: us) := startsSolid_cons (by rw [hclosing]; rfl)
  have hend := taking_closing_eq_some_iff.2 ⟨closing, hclosing, rfl, show closing :: us = _ from rfl⟩
  cases hmodifier with
  | absent =>
    -- The white-space in front of the bracket is taken at once.
    have hgap : AreWhite (gap₄ ++ gap₅) := List.forall_mem_append.2 ⟨hgap₄, hgap₅⟩
    have hnone : (reference attributeModifier).taking (closing :: us) = none := by
      refine taking_eq_none_of_forall fun q vs hq => ?_
      rw [taking_reference] at hq
      obtain ⟨t, ht, -, hts⟩ := taking_attributeModifier_eq_some_iff.1 hq
      obtain rfl := (List.cons.inj hts).1
      rw [hclosing] at ht
      rcases ht with ⟨⟨⟩⟩ | ⟨⟨⟩⟩
    obtain ⟨g, hg⟩ := taking_gap_of_areWhite hgap hsolid
    have hnil : AreWhite [] := fun t ht => by cases ht
    obtain ⟨g', hg'⟩ := taking_gap_of_areWhite hnil hsolid
    rw [List.nil_append] at hg'
    rw [List.nil_append, ← List.append_assoc, takingEach_cons_of_some hg,
      takingEach_cons_of_some (taking_optional_eq_some_iff.2 (.inr ⟨hnone, rfl, rfl⟩)),
      takingEach_cons_of_some hg', takingEach_cons_of_some hend]
    exact ⟨_, rfl⟩
  | @present word hword =>
    have hsolid' : StartsSolid ([word] ++ (gap₅ ++ closing :: us)) :=
      startsSolid_cons (by rcases hword with h | h <;> rw [h] <;> rfl)
    have hmodifier : (reference attributeModifier).taking ([word] ++ (gap₅ ++ closing :: us)) =
        some (.token word, gap₅ ++ closing :: us) := by
      rw [taking_reference]
      exact taking_attributeModifier_eq_some_iff.2 ⟨word, hword, rfl, rfl⟩
    obtain ⟨g, hg⟩ := taking_gap_of_areWhite hgap₄ hsolid'
    obtain ⟨g', hg'⟩ := taking_gap_of_areWhite hgap₅ hsolid
    rw [takingEach_cons_of_some hg,
      takingEach_cons_of_some (taking_optional_eq_some_iff.2 (.inl ⟨_, hmodifier, rfl⟩)),
      takingEach_cons_of_some hg', takingEach_cons_of_some hend]
    exact ⟨_, rfl⟩

private theorem ofSubclassProduct?_attribute {opening word : Token} {name : String} {g : Product}
    {others : List Product} (hopening : opening.kind = .opening .square)
    (hword : word.kind = .ident name) :
    SimpleSelector.ofSubclassProduct? (.group (.token opening :: g :: .token word :: others)) =
      some (.attributeName name
        (sourceOf (Product.group (.token opening :: g :: .token word :: others)).tokens)) := by
  rcases opening with ⟨kind, source, location⟩
  rcases word with ⟨kind', source', location'⟩
  obtain rfl : kind = .opening .square := hopening
  obtain rfl : kind' = .ident name := hword
  rfl

theorem exists_isAttribute_of_taking (h : attributeSelector.taking ts = some (q, us)) :
    ∃ name, IsAttribute q.tokens name ∧ SimpleSelector.ofSubclassProduct? q =
      some (.attributeName name (sourceOf q.tokens)) := by
  rw [attributeSelector, taking_alternatives] at h
  rcases takingFirst_cons_eq_some_iff.1 h with hpresent | ⟨-, h⟩
  · obtain ⟨_, rfl, heach⟩ := taking_juxtaposition_eq_some_iff.1 hpresent
    obtain ⟨opening, g₁, word, name, g₂, others, vs, hopening, hg₁, hword, hg₂, hothers, rfl⟩ :=
      attributeHead_of_taking heach
    obtain ⟨_, _, _, hlast, hnil, rfl⟩ := takingEach_cons_eq_some_iff.1 hothers
    obtain ⟨rfl, -⟩ := takingEach_nil_eq_some_iff.1 hnil
    obtain ⟨closing, hclosing, rfl, -⟩ := taking_closing_eq_some_iff.1 hlast
    refine ⟨name, ?_, ofSubclassProduct?_attribute hopening hword⟩
    simpa [Product.tokens, Product.listTokens] using
      IsAttribute.present hopening hg₁ hword hg₂ hclosing
  · rcases takingFirst_cons_eq_some_iff.1 h with hvalued | ⟨-, h⟩
    · obtain ⟨_, rfl, heach⟩ := taking_juxtaposition_eq_some_iff.1 hvalued
      obtain ⟨opening, g₁, word, name, g₂, others, vs, hopening, hg₁, hword, hg₂, hothers, rfl⟩ :=
        attributeHead_of_taking heach
      obtain ⟨matcher, _, _, hmatcher, h₁, rfl⟩ := takingEach_cons_eq_some_iff.1 hothers
      obtain ⟨g₃, _, _, hg₃, h₂, rfl⟩ := takingEach_cons_eq_some_iff.1 h₁
      obtain ⟨_, _, _, hfound, h₃, rfl⟩ := takingEach_cons_eq_some_iff.1 h₂
      obtain ⟨g₄, _, _, hg₄, h₄, rfl⟩ := takingEach_cons_eq_some_iff.1 h₃
      obtain ⟨modifier, _, _, hmodifier, h₅, rfl⟩ := takingEach_cons_eq_some_iff.1 h₄
      obtain ⟨g₅, _, _, hg₅, h₆, rfl⟩ := takingEach_cons_eq_some_iff.1 h₅
      obtain ⟨_, _, _, hlast, hnil, rfl⟩ := takingEach_cons_eq_some_iff.1 h₆
      obtain ⟨rfl, -⟩ := takingEach_nil_eq_some_iff.1 hnil
      obtain ⟨closing, hclosing, rfl, -⟩ := taking_closing_eq_some_iff.1 hlast
      obtain ⟨value, hvalue, rfl, -⟩ := taking_attributeValue_eq_some_iff.1 hfound
      rw [taking_reference] at hmatcher
      refine ⟨name, ?_, ofSubclassProduct?_attribute hopening hword⟩
      simpa [Product.tokens, Product.listTokens] using
        IsAttribute.valued hopening hg₁ hword hg₂ (isMatcher_of_taking hmatcher)
          (areWhite_of_taking_gap hg₃) hvalue (areWhite_of_taking_gap hg₄)
          (isModifier_of_taking hmodifier) (areWhite_of_taking_gap hg₅) hclosing
    · exact absurd h takingFirst_nil_ne_some

theorem IsMatcher.exists_cons {matcher : List Token} (h : IsMatcher matcher) :
    ∃ t ts c, matcher = t :: ts ∧ t.kind = .delim c := by
  cases h with
  | plain hequals => exact ⟨_, _, _, rfl, hequals⟩
  | marked _ hmark _ => exact ⟨_, _, _, rfl, hmark⟩

/-- What comes after the name of an attribute that has a value. -/
private theorem takingEach_attributeTail {matcher gap₃ gap₄ modifier gap₅ : List Token}
    {value closing : Token} (hmatcher : IsMatcher matcher) (hgap₃ : AreWhite gap₃)
    (hvalue : IsAttributeValue value) (hgap₄ : AreWhite gap₄) (hmodifier : IsModifier modifier)
    (hgap₅ : AreWhite gap₅) (hclosing : closing.kind = .closing .square) (us : List Token) :
    ∃ qs, takingEach [reference attributeMatcher, optional whitespace,
      alternatives [ofClass .string, ofClass .ident], optional whitespace,
      optional (reference attributeModifier), optional whitespace, ofClass (.closing .square)]
        (matcher ++ (gap₃ ++ value :: (gap₄ ++ (modifier ++ (gap₅ ++ closing :: us))))) =
          some (qs, us) := by
  have hsolid : ∀ vs, StartsSolid (value :: vs) := fun vs =>
    startsSolid_cons (by rcases hvalue with ⟨_, h⟩ | ⟨_, h⟩ <;> rw [h] <;> rfl)
  obtain ⟨m, hm⟩ := taking_of_isMatcher hmatcher
    (gap₃ ++ value :: (gap₄ ++ (modifier ++ (gap₅ ++ closing :: us))))
  rw [← taking_reference] at hm
  obtain ⟨g, hg⟩ := taking_gap_of_areWhite hgap₃
    (hsolid (gap₄ ++ (modifier ++ (gap₅ ++ closing :: us))))
  obtain ⟨qs, hqs⟩ := takingEach_attributeEnd hgap₄ hmodifier hgap₅ hclosing us
  rw [takingEach_cons_of_some hm, takingEach_cons_of_some hg,
    takingEach_cons_of_some (taking_attributeValue_eq_some_iff.2 ⟨value, hvalue, rfl, rfl⟩), hqs]
  exact ⟨_, rfl⟩

theorem taking_of_isAttribute {written : List Token} {name : String}
    (h : IsAttribute written name) (us : List Token) :
    ∃ q, attributeSelector.taking (written ++ us) = some (q, us) ∧
      SimpleSelector.ofSubclassProduct? q = some (.attributeName name (sourceOf q.tokens)) := by
  rw [attributeSelector, taking_alternatives]
  cases h with
  | @present opening word closing _ gap₁ gap₂ hopening hgap₁ hword hgap₂ hclosing =>
    have hsolid : StartsSolid (closing :: us) := startsSolid_cons (by rw [hclosing]; rfl)
    obtain ⟨g₁, g₂, hhead⟩ := takingEach_attributeHead hopening hgap₁ hword hgap₂ hsolid
    have hend : takingEach [ofClass (.closing .square)] (closing :: us) =
        some ([.token closing], us) := by
      rw [takingEach_cons_of_some (taking_closing_eq_some_iff.2 ⟨closing, hclosing, rfl, rfl⟩)]
      rfl
    simp only [List.cons_append, List.append_assoc, List.nil_append]
    exact ⟨.group [.token opening, g₁, .token word, g₂, .token closing],
      takingFirst_cons_of_some (taking_juxtaposition_eq_some_iff.2
        ⟨_, rfl, by rw [hhead, hend]; rfl⟩), ofSubclassProduct?_attribute hopening hword⟩
  | @valued opening word value closing _ gap₁ gap₂ matcher gap₃ gap₄ modifier gap₅ hopening hgap₁
      hword hgap₂ hmatcher hgap₃ hvalue hgap₄ hmodifier hgap₅ hclosing =>
    obtain ⟨mark, others, c, hmark, hkind⟩ := hmatcher.exists_cons
    have hsolid : ∀ vs, StartsSolid (matcher ++ vs) := fun vs => by
      rw [hmark]
      exact startsSolid_cons (by rw [hkind]; rfl)
    have hrefused : ∀ vs, takingEach [ofClass (.closing .square)] (matcher ++ vs) = none := by
      refine fun vs => takingEach_cons_of_none (taking_eq_none_of_forall fun q ws hq => ?_)
      obtain ⟨t, ht, -, hts⟩ := taking_closing_eq_some_iff.1 hq
      rw [hmark] at hts
      obtain rfl := (List.cons.inj hts).1
      rw [hkind] at ht
      cases ht
    obtain ⟨qs, hqs⟩ := takingEach_attributeTail hmatcher hgap₃ hvalue hgap₄ hmodifier hgap₅
      hclosing us
    obtain ⟨g₁, g₂, hhead⟩ := takingEach_attributeHead hopening hgap₁ hword hgap₂ (hsolid _)
    simp only [List.cons_append, List.append_assoc, List.nil_append]
    -- The first alternative is refused where it asks for the closing bracket.
    refine ⟨.group (.token opening :: g₁ :: .token word :: g₂ :: qs),
      (takingFirst_cons_of_none ?_).trans
        (takingFirst_cons_of_some (taking_juxtaposition_eq_some_iff.2 ⟨_, rfl, ?_⟩)),
      ofSubclassProduct?_attribute hopening hword⟩
    · refine taking_eq_none_of_forall fun q ws hq => ?_
      obtain ⟨_, -, heach⟩ := taking_juxtaposition_eq_some_iff.1 hq
      rw [hhead, hrefused] at heach
      cases heach
    · rw [hhead, hqs]
      rfl

/-! ## Pseudo-classes -/

private theorem ofSubclassProduct?_pseudoClass {colon word : Token} {name : String}
    (hcolon : colon.kind = .colon) (hword : word.kind = .ident name) :
    SimpleSelector.ofSubclassProduct? (.group [.token colon, .token word]) =
      some (.pseudoClass name (sourceOf (Product.group [.token colon, .token word]).tokens)) := by
  rcases colon with ⟨kind, source, location⟩
  rcases word with ⟨kind', source', location'⟩
  obtain rfl : kind = .colon := hcolon
  obtain rfl : kind' = .ident name := hword
  rfl

private theorem ofSubclassProduct?_functional {colon head : Token} {name : String}
    {others : List Product} (hcolon : colon.kind = .colon) (hhead : head.kind = .function name) :
    SimpleSelector.ofSubclassProduct? (.group (.token colon :: .token head :: others)) =
      some (.pseudoClass name
        (sourceOf (Product.group (.token colon :: .token head :: others)).tokens)) := by
  rcases colon with ⟨kind, source, location⟩
  rcases head with ⟨kind', source', location'⟩
  obtain rfl : kind = .colon := hcolon
  obtain rfl : kind' = .function name := hhead
  cases others <;> rfl

theorem exists_isPseudoClass_of_taking (h : pseudoClassSelector.taking ts = some (q, us)) :
    ∃ name, IsPseudoClass q.tokens name ∧ SimpleSelector.ofSubclassProduct? q =
      some (.pseudoClass name (sourceOf q.tokens)) := by
  rw [pseudoClassSelector, taking_alternatives] at h
  rcases takingFirst_cons_eq_some_iff.1 h with hplain | ⟨-, h⟩
  · obtain ⟨_, rfl, h₀⟩ := taking_juxtaposition_eq_some_iff.1 hplain
    obtain ⟨_, _, _, hfirst, h₁, rfl⟩ := takingEach_cons_eq_some_iff.1 h₀
    obtain ⟨_, _, _, hlast, h₂, rfl⟩ := takingEach_cons_eq_some_iff.1 h₁
    obtain ⟨rfl, -⟩ := takingEach_nil_eq_some_iff.1 h₂
    obtain ⟨colon, hcolon, rfl, -⟩ := taking_colon_eq_some_iff.1 hfirst
    obtain ⟨word, name, hword, rfl, -⟩ := taking_ident_eq_some_iff.1 hlast
    exact ⟨name, .plain hcolon hword, ofSubclassProduct?_pseudoClass hcolon hword⟩
  · rcases takingFirst_cons_eq_some_iff.1 h with hfunctional | ⟨-, h⟩
    · obtain ⟨_, rfl, h₀⟩ := taking_juxtaposition_eq_some_iff.1 hfunctional
      obtain ⟨_, _, _, hfirst, h₁, rfl⟩ := takingEach_cons_eq_some_iff.1 h₀
      obtain ⟨_, _, _, hsecond, h₂, rfl⟩ := takingEach_cons_eq_some_iff.1 h₁
      obtain ⟨_, _, _, hany, h₃, rfl⟩ := takingEach_cons_eq_some_iff.1 h₂
      obtain ⟨_, _, _, hlast, h₄, rfl⟩ := takingEach_cons_eq_some_iff.1 h₃
      obtain ⟨rfl, rfl⟩ := takingEach_nil_eq_some_iff.1 h₄
      obtain ⟨colon, hcolon, rfl, -⟩ := taking_colon_eq_some_iff.1 hfirst
      obtain ⟨head, name, hhead, rfl, -⟩ := taking_function_eq_some_iff.1 hsecond
      rw [taking_reference] at hany
      obtain ⟨args, hargs, rfl, rfl, htake⟩ := taking_anyValue_eq_some_iff.1 hany
      obtain ⟨closing, hclosing, rfl, rfl⟩ := taking_closing_eq_some_iff.1 hlast
      refine ⟨name, ?_, ofSubclassProduct?_functional hcolon hhead⟩
      simpa [Product.tokens, Product.listTokens] using IsPseudoClass.functional hcolon hhead hargs
        ((takeAnyValue_append_cons_iff .zero args closing _ []).1 htake) hclosing
    · exact absurd h takingFirst_nil_ne_some

theorem taking_of_isPseudoClass {written : List Token} {name : String}
    (h : IsPseudoClass written name) (us : List Token) :
    ∃ q, pseudoClassSelector.taking (written ++ us) = some (q, us) ∧
      SimpleSelector.ofSubclassProduct? q = some (.pseudoClass name (sourceOf q.tokens)) := by
  rw [pseudoClassSelector, taking_alternatives]
  cases h with
  | @plain colon word _ hcolon hword =>
    refine ⟨.group [.token colon, .token word], takingFirst_cons_of_some
      (taking_juxtaposition_eq_some_iff.2 ⟨_, rfl, ?_⟩), ofSubclassProduct?_pseudoClass hcolon hword⟩
    simp only [List.cons_append, List.nil_append]
    rw [takingEach_cons_of_some (taking_colon_eq_some_iff.2 ⟨colon, hcolon, rfl, rfl⟩),
      takingEach_cons_of_some (taking_ident_eq_some_iff.2 ⟨word, name, hword, rfl, rfl⟩)]
    rfl
  | @functional colon head closing _ args hcolon hhead hargs htake hclosing =>
    have hany : (reference anyValue).taking (args ++ closing :: us) =
        some (.group (args.map .token), closing :: us) := by
      rw [taking_reference]
      exact taking_anyValue_eq_some_iff.2 ⟨args, hargs, rfl, rfl,
        (takeAnyValue_append_cons_iff .zero args closing [] us).1 htake⟩
    simp only [List.cons_append, List.append_assoc, List.nil_append]
    -- The first alternative is refused where it asks for a name.
    refine ⟨.group [.token colon, .token head, .group (args.map .token), .token closing],
      (takingFirst_cons_of_none ?_).trans
        (takingFirst_cons_of_some (taking_juxtaposition_eq_some_iff.2 ⟨_, rfl, ?_⟩)),
      ofSubclassProduct?_functional hcolon hhead⟩
    · refine taking_eq_none_of_forall fun q ws hq => ?_
      obtain ⟨_, -, h₀⟩ := taking_juxtaposition_eq_some_iff.1 hq
      obtain ⟨_, _, _, hfirst, h₁, -⟩ := takingEach_cons_eq_some_iff.1 h₀
      obtain ⟨_, _, _, hsecond, -, -⟩ := takingEach_cons_eq_some_iff.1 h₁
      obtain ⟨_, -, -, hcons⟩ := taking_colon_eq_some_iff.1 hfirst
      obtain ⟨word, name', hword, -, hcons'⟩ := taking_ident_eq_some_iff.1 hsecond
      obtain rfl : head = word := (List.cons.inj ((List.cons.inj hcons).2.trans hcons')).1
      rw [hhead] at hword
      cases hword
    · rw [takingEach_cons_of_some (taking_colon_eq_some_iff.2 ⟨colon, hcolon, rfl, rfl⟩),
        takingEach_cons_of_some (taking_function_eq_some_iff.2 ⟨head, name, hhead, rfl, rfl⟩),
        takingEach_cons_of_some hany,
        takingEach_cons_of_some (taking_closing_eq_some_iff.2 ⟨closing, hclosing, rfl, rfl⟩)]
      rfl

/-! ## Ids and classes -/

theorem taking_idSelector_eq_some_iff : idSelector.taking ts = some (q, us) ↔
    ∃ t, (∃ name, t.kind = .hash name .id) ∧ q = .token t ∧ ts = t :: us := by
  simp only [idSelector, taking_token_eq_some_iff, TokenPattern.accepts_idHash]

theorem taking_classSelector_eq_some_iff : classSelector.taking ts = some (q, us) ↔
    ∃ dot word, dot.kind = .delim '.' ∧ (∃ name, word.kind = .ident name) ∧
      q = .group [.token dot, .token word] ∧ ts = dot :: word :: us := by
  rw [classSelector, taking_juxtaposition_eq_some_iff]
  constructor
  · rintro ⟨_, rfl, h₀⟩
    obtain ⟨_, _, _, hfirst, h₁, rfl⟩ := takingEach_cons_eq_some_iff.1 h₀
    obtain ⟨_, _, _, hlast, h₂, rfl⟩ := takingEach_cons_eq_some_iff.1 h₁
    obtain ⟨rfl, rfl⟩ := takingEach_nil_eq_some_iff.1 h₂
    obtain ⟨dot, hdot, rfl, rfl⟩ := taking_delim_eq_some_iff.1 hfirst
    obtain ⟨word, name, hword, rfl, rfl⟩ := taking_ident_eq_some_iff.1 hlast
    exact ⟨dot, word, hdot, ⟨name, hword⟩, rfl, rfl⟩
  · rintro ⟨dot, word, hdot, ⟨name, hword⟩, rfl, rfl⟩
    refine ⟨_, rfl, ?_⟩
    rw [takingEach_cons_of_some (taking_delim_eq_some_iff.2 ⟨dot, hdot, rfl, rfl⟩),
      takingEach_cons_of_some (taking_ident_eq_some_iff.2 ⟨word, name, hword, rfl, rfl⟩)]
    rfl

/-! ## Parts after the type -/

/-- Whether a token is one that a part other than a type begins with. -/
def OpensSubclass (t : Token) : Prop :=
  (∃ name, t.kind = .hash name .id) ∨ t.kind = .delim '.' ∨ t.kind = .opening .square ∨
    t.kind = .colon

theorem IsAttribute.exists_cons {written : List Token} {name : String}
    (h : IsAttribute written name) : ∃ t ts, written = t :: ts ∧ t.kind = .opening .square := by
  cases h with
  | present hopening => exact ⟨_, _, rfl, hopening⟩
  | valued hopening => exact ⟨_, _, rfl, hopening⟩

theorem IsPseudoClass.exists_cons {written : List Token} {name : String}
    (h : IsPseudoClass written name) : ∃ t ts, written = t :: ts ∧ t.kind = .colon := by
  cases h with
  | plain hcolon => exact ⟨_, _, rfl, hcolon⟩
  | functional hcolon => exact ⟨_, _, rfl, hcolon⟩

section Refused

variable {t : Token}

private theorem taking_idSelector_eq_none (h : t.kind.tokenClass ≠ .hash) :
    (reference idSelector).taking (t :: ts) = none := by
  refine taking_eq_none_of_forall fun q ws hq => ?_
  rw [taking_reference] at hq
  obtain ⟨_, ⟨name, hkind⟩, -, hts⟩ := taking_idSelector_eq_some_iff.1 hq
  obtain rfl := (List.cons.inj hts).1
  exact h (by rw [hkind]; rfl)

private theorem taking_classSelector_eq_none (h : t.kind.tokenClass ≠ .delim) :
    (reference classSelector).taking (t :: ts) = none := by
  refine taking_eq_none_of_forall fun q ws hq => ?_
  rw [taking_reference] at hq
  obtain ⟨_, _, hdot, -, -, hts⟩ := taking_classSelector_eq_some_iff.1 hq
  obtain rfl := (List.cons.inj hts).1
  exact h (by rw [hdot]; rfl)

private theorem taking_attributeSelector_eq_none (h : t.kind.tokenClass ≠ .opening .square) :
    (reference attributeSelector).taking (t :: ts) = none := by
  refine taking_eq_none_of_forall fun q ws hq => ?_
  rw [taking_reference] at hq
  obtain ⟨_, hwritten, -⟩ := exists_isAttribute_of_taking hq
  obtain ⟨_, _, hcons, hkind⟩ := hwritten.exists_cons
  have hts := tokens_append_of_taking hq
  rw [hcons] at hts
  obtain rfl := (List.cons.inj hts).1
  exact h (by rw [hkind]; rfl)

end Refused

namespace Part

theorem IsSubclass.exists_cons {part : Part} (h : part.IsSubclass) :
    ∃ t ts, part.tokens = t :: ts ∧ OpensSubclass t := by
  cases h with
  | id hkind => exact ⟨_, _, rfl, .inl ⟨_, hkind⟩⟩
  | className hdot => exact ⟨_, _, rfl, .inr (.inl hdot)⟩
  | attributeName h =>
    obtain ⟨t, ts, hts, hkind⟩ := h.exists_cons
    exact ⟨t, ts, hts, .inr (.inr (.inl hkind))⟩
  | pseudoClass h =>
    obtain ⟨t, ts, hts, hkind⟩ := h.exists_cons
    exact ⟨t, ts, hts, .inr (.inr (.inr hkind))⟩

theorem exists_isSubclass_of_taking (h : subclassSelector.taking ts = some (q, us)) :
    ∃ part : Part, part.IsSubclass ∧ part.tokens = q.tokens ∧
      SimpleSelector.ofSubclassProduct? q = some part.selector := by
  rw [subclassSelector, taking_alternatives] at h
  rcases takingFirst_cons_eq_some_iff.1 h with hid | ⟨-, h⟩
  · rw [taking_reference] at hid
    obtain ⟨⟨kind, source, location⟩, ⟨name, rfl⟩, rfl, -⟩ := taking_idSelector_eq_some_iff.1 hid
    exact ⟨_, .id rfl, rfl, rfl⟩
  rcases takingFirst_cons_eq_some_iff.1 h with hclass | ⟨-, h⟩
  · rw [taking_reference] at hclass
    obtain ⟨⟨kind, source, location⟩, ⟨kind', source', location'⟩, rfl, ⟨name, rfl⟩, rfl, -⟩ :=
      taking_classSelector_eq_some_iff.1 hclass
    exact ⟨_, .className rfl rfl, rfl, rfl⟩
  rcases takingFirst_cons_eq_some_iff.1 h with hattribute | ⟨-, h⟩
  · rw [taking_reference] at hattribute
    obtain ⟨name, hwritten, hselector⟩ := exists_isAttribute_of_taking hattribute
    exact ⟨_, .attributeName hwritten, rfl, hselector⟩
  rcases takingFirst_cons_eq_some_iff.1 h with hpseudo | ⟨-, h⟩
  · rw [taking_reference] at hpseudo
    obtain ⟨name, hwritten, hselector⟩ := exists_isPseudoClass_of_taking hpseudo
    exact ⟨_, .pseudoClass hwritten, rfl, hselector⟩
  · exact absurd h takingFirst_nil_ne_some

/-- The alternatives for a part begin with tokens of different classes, so that those in front of the
one for the part are refused. -/
theorem taking_of_isSubclass {part : Part} (h : part.IsSubclass) (us : List Token) :
    ∃ q, subclassSelector.taking (part.tokens ++ us) = some (q, us) ∧
      SimpleSelector.ofSubclassProduct? q = some part.selector := by
  rw [subclassSelector, taking_alternatives]
  cases h with
  | @id t name hkind =>
    refine ⟨.token t, takingFirst_cons_of_some ?_, ?_⟩
    · rw [taking_reference]
      exact taking_idSelector_eq_some_iff.2 ⟨t, ⟨name, hkind⟩, rfl, rfl⟩
    · rcases t with ⟨kind, source, location⟩
      obtain rfl : kind = .hash name .id := hkind
      rfl
  | @className dot word name hdot hword =>
    refine ⟨.group [.token dot, .token word], ?_, ?_⟩
    · have htaken := taking_classSelector_eq_some_iff.2
        ⟨dot, word, hdot, ⟨name, hword⟩, rfl, show [dot, word] ++ us = dot :: word :: us from rfl⟩
      rw [← taking_reference] at htaken
      exact (takingFirst_cons_of_none (taking_idSelector_eq_none (by rw [hdot]; rintro ⟨⟩))).trans
        (takingFirst_cons_of_some htaken)
    · rcases dot with ⟨kind, source, location⟩
      rcases word with ⟨kind', source', location'⟩
      obtain rfl : kind = .delim '.' := hdot
      obtain rfl : kind' = .ident name := hword
      rfl
  | @attributeName ts name hwritten =>
    obtain ⟨q, hq, hselector⟩ := taking_of_isAttribute hwritten us
    obtain ⟨t, ts', rfl, hkind⟩ := hwritten.exists_cons
    rw [List.append_cancel_right (tokens_append_of_taking hq)] at hselector
    rw [← taking_reference] at hq
    refine ⟨q, ?_, hselector⟩
    exact (takingFirst_cons_of_none (taking_idSelector_eq_none (by rw [hkind]; rintro ⟨⟩))).trans <|
      (takingFirst_cons_of_none (taking_classSelector_eq_none (by rw [hkind]; rintro ⟨⟩))).trans <|
        takingFirst_cons_of_some hq
  | @pseudoClass ts name hwritten =>
    obtain ⟨q, hq, hselector⟩ := taking_of_isPseudoClass hwritten us
    obtain ⟨t, ts', rfl, hkind⟩ := hwritten.exists_cons
    rw [List.append_cancel_right (tokens_append_of_taking hq)] at hselector
    rw [← taking_reference] at hq
    refine ⟨q, ?_, hselector⟩
    exact (takingFirst_cons_of_none (taking_idSelector_eq_none (by rw [hkind]; rintro ⟨⟩))).trans <|
      (takingFirst_cons_of_none (taking_classSelector_eq_none (by rw [hkind]; rintro ⟨⟩))).trans <|
        (takingFirst_cons_of_none (taking_attributeSelector_eq_none (by rw [hkind]; rintro ⟨⟩))).trans
          (takingFirst_cons_of_some hq)

end Part

end Styling.Selector
