import Styling.Proofs.Selector.Plain
import Styling.Proofs.Selector.Unplaced
import Styling.Proofs.Token.Ahead

/-!
# Selector lists printed and read again

The text of a selector list joins names as they are with the sources of attributes and pseudo-classes. None
of its tokens goes on with the next one, so it is read as this list if the names are plain; otherwise it is
read as another list, or refused (`SelectorList.ofComponents_toText_iff`).
-/

namespace Styling

open Source Lexer

namespace Selector

variable {part : Part} {parts : List Part} {cs : List SourceChar} {rest : List Token} {text : String}
  {front : List SourceChar}

/-- No white-space comes first. -/
def StartsDark (cs : List SourceChar) : Prop := ∀ c ∈ cs.head?, isWhitespace c.value = false

theorem StartsDark.ne_break (h : StartsDark cs) : ∀ c ∈ cs.head?, c.value ≠ '\n' := by
  intro c hc hbreak
  have hspace := h c hc
  rw [hbreak] at hspace
  cases hspace

theorem startsDark_of_followsName (h : FollowsName (cs.map SourceChar.value)) : StartsDark cs := by
  intro c hc
  refine (h.endsName c.value ?_).2.1
  rw [List.head?_map, Option.mem_def.1 hc]
  rfl

/-- Whether characters are the text of a selector, and give tokens in front of others. -/
structure Prints (atEnd : Prop) (text : String) (cs : List SourceChar) (ts : List Token) : Prop where
  spells : Spells text.toList cs
  formsAhead : FormsAhead atEnd cs ts

theorem Prints.append {atEnd atEnd' : Prop} {text text' : String} {cs cs' : List SourceChar}
    {ts ts' : List Token} (h : Prints atEnd text cs ts) (h' : Prints atEnd' text' cs' ts')
    (hcs' : FollowsName (cs'.map SourceChar.value)) (hend : atEnd → cs' = [] ∧ atEnd') :
    Prints atEnd' (text ++ text') (cs ++ cs') (ts ++ ts') := by
  refine ⟨?_, h.formsAhead.append h'.formsAhead hcs' hend⟩
  rw [String.toList_append]
  exact h.spells.append h'.spells (startsDark_of_followsName hcs').ne_break

/-! ## Parts -/

/-- An attribute selector is between brackets. -/
theorem IsAttribute.exists_closing {ts : List Token} {name : String} (h : IsAttribute ts name) :
    ∃ opening inner closing, ts = opening :: (inner ++ [closing]) ∧ opening.kind = .opening .square ∧
      closing.kind = .closing .square := by
  cases h with
  | @present opening word closing _ gap₁ gap₂ hopening _ _ _ hclosing =>
    exact ⟨opening, gap₁ ++ word :: gap₂, closing, by simp, hopening, hclosing⟩
  | @valued opening word value closing _ gap₁ gap₂ matcher gap₃ gap₄ modifier gap₅ hopening _ _ _ _ _ _ _ _ _
      hclosing =>
    exact ⟨opening, gap₁ ++ word :: (gap₂ ++ (matcher ++ (gap₃ ++ value :: (gap₄ ++ (modifier ++ gap₅))))),
      closing, by simp, hopening, hclosing⟩

namespace Part

/-- What is kept of a text, with a mark in front, is printed as it is. -/
private theorem prints_of_formsAhead {atEnd : Prop} {t : Token} {ts : List Token} {back : List SourceChar}
    {m : Char} (ht : t.kind.character? = some m) (hm : m ∈ ['[', ':'])
    (h : FormsAhead atEnd cs (t :: ts)) (htext : filter text = front ++ (cs ++ back)) :
    FollowsName (cs.map SourceChar.value) ∧ Prints atEnd (sourceOf (t :: ts)) cs (t :: ts) := by
  have hmem : m ∈ ['#', '.', '[', ':', ','] ∧ m ∈ marks := by
    fin_cases hm <;> decide
  refine ⟨?_, h.formed.spells htext, h⟩
  obtain ⟨c, cs, rfl, hc, -, -⟩ := h.formed.exists_cons_of_mark ⟨m, ht, hmem.2⟩
  obtain rfl := Option.some.inj (hc.symm.trans ht)
  rintro _ ⟨⟩
  exact hmem.1

theorem IsType.exists_prints (hpart : part.IsType) (hplain : part.selector.isPlain) :
    ∃ part' : Part, part'.IsType ∧ part'.selector = part.selector ∧ ∃ cs,
      StartsDark cs ∧ Prints False part.selector.toText cs part'.tokens := by
  cases hpart with
  | universal =>
    refine ⟨⟨[⟨.delim '*', "*", .start⟩], .universal⟩, .universal rfl, rfl, filterFrom .start "*".toList,
      ?_, spells_filterFrom _, fun ds us _ _ hus => ?_⟩
    · rintro _ ⟨⟩
      rfl
    · have hscan : scanLexeme '*' ([] ++ ds.map SourceChar.value) =
          ⟨.plain (.delim '*'), ds.map SourceChar.value, []⟩ := rfl
      exact Formed.cons_filterFrom (List.forall_mem_singleton.2 rfl) hscan hus
  | @named t name =>
    exact ⟨⟨[⟨.ident name, name, .start⟩], .typeName name⟩, .named rfl, rfl,
      filterFrom .start name.toList, isWhitespace_head_plainName hplain, spells_filterFrom _,
      formsAhead_ident hplain⟩

theorem IsSubclass.exists_prints (hpart : part.IsSubclass) (hplain : part.selector.isPlain)
    (h : Formed cs (part.tokens ++ rest)) (htext : filter text = front ++ cs) :
    ∃ part' : Part, part'.IsSubclass ∧ part'.selector = part.selector ∧ ∃ cs',
      FollowsName (cs'.map SourceChar.value) ∧ Prints (rest = []) part.selector.toText cs' part'.tokens := by
  cases hpart with
  | @id t name =>
    refine ⟨⟨[⟨.hash name .id, "#" ++ name, .start⟩], .idName name⟩, .id rfl, rfl,
      filterFrom .start ("#" ++ name).toList, ?_, spells_filterFrom _,
      (formsAhead_id hplain).mono False.elim⟩
    rw [String.toList_append]
    rintro _ ⟨⟩
    exact List.mem_cons_self
  | @className dot word name =>
    refine ⟨⟨[⟨.delim '.', ".", .start⟩, ⟨.ident name, name, .start⟩], .className name⟩, .className rfl rfl,
      rfl, filterFrom .start ['.'] ++ filterFrom .start name.toList, ?_, ?_,
      (formsAhead_class hplain).mono False.elim⟩
    · rintro _ ⟨⟩
      exact List.mem_cons_of_mem _ List.mem_cons_self
    · have hspells := Spells.append (spells_filterFrom ['.']) (spells_filterFrom name.toList)
        (StartsDark.ne_break (isWhitespace_head_plainName hplain))
      rw [SimpleSelector.toText, String.toList_append]
      exact hspells
  | @attributeName ts name hattribute =>
    obtain ⟨opening, inner, closing, rfl, hopening, hclosing⟩ := hattribute.exists_closing
    rw [← List.cons_append, List.append_assoc, List.singleton_append] at h
    have hmark : closing.kind.IsMark := ⟨']', by rw [hclosing]; rfl, by simp [marks]⟩
    obtain ⟨kept, back, rfl, -, hahead⟩ := h.exists_formsAhead_of_mark hmark
    exact ⟨⟨_, _⟩, .attributeName hattribute, rfl, kept,
      prints_of_formsAhead (by rw [hopening]; rfl) (by simp) (fun _ _ _ _ hus => hahead hus) htext⟩
  | @pseudoClass ts name hpseudo =>
    refine ⟨⟨_, _⟩, .pseudoClass hpseudo, rfl, ?_⟩
    cases hpseudo with
    | @plain colon word _ hcolon hword =>
      have hmark : colon.kind.IsMark := ⟨':', by rw [hcolon]; rfl, by simp [marks]⟩
      obtain ⟨c, cs, rfl, -, hcs, hfirst⟩ := Formed.exists_cons_of_mark h hmark
      obtain ⟨kept, back, rfl, -, hahead⟩ := Formed.exists_formsAhead_of_ident hcs hword
      exact ⟨c :: kept, prints_of_formsAhead (by rw [hcolon]; rfl) (by simp)
        (fun _ _ hds hnil hus => hfirst (hahead hds hnil hus)) htext⟩
    | @functional colon head closing _ args hcolon _ _ _ hclosing =>
      have hmark : closing.kind.IsMark := ⟨')', by rw [hclosing]; rfl, by simp [marks]⟩
      have h : Formed cs (colon :: head :: args ++ closing :: rest) := by simpa using h
      obtain ⟨kept, back, rfl, -, hahead⟩ := h.exists_formsAhead_of_mark hmark
      exact ⟨kept, prints_of_formsAhead (by rw [hcolon]; rfl) (by simp)
        (fun _ _ _ _ hus => hahead hus) htext⟩

end Part

/-! ## Compound selectors -/

/-- The text of parts other than a type is read part by part. -/
private theorem exists_prints_of_subclasses (hparts : ∀ p ∈ parts, p.IsSubclass)
    (hplain : ∀ p ∈ parts, p.selector.isPlain) (h : Formed cs (tokensOf parts ++ rest))
    (htext : filter text = front ++ cs) : ∃ parts' : List Part, (∀ p ∈ parts', p.IsSubclass) ∧
      parts'.map Part.selector = parts.map Part.selector ∧ ∃ cs', FollowsName (cs'.map SourceChar.value) ∧
        Prints (rest = []) (ofParts parts).toText cs' (tokensOf parts') := by
  induction parts generalizing cs front with
  | nil =>
    exact ⟨[], List.forall_mem_nil _, rfl, [], nofun, rfl, FormsAhead.nil⟩
  | cons part parts ih =>
    obtain ⟨hpart, hparts⟩ := List.forall_mem_cons.1 hparts
    obtain ⟨hpartPlain, hplain⟩ := List.forall_mem_cons.1 hplain
    rw [tokensOf_cons, List.append_assoc] at h
    obtain ⟨part', hpart', hselector, cs₁, hfollows₁, hprints₁⟩ := hpart.exists_prints hpartPlain h htext
    obtain ⟨taken, back, rfl, hback⟩ := h.exists_of_append
    obtain ⟨parts', hparts', hselectors, cs₂, hfollows₂, hprints₂⟩ :=
      ih hparts hplain hback (by rw [htext, List.append_assoc])
    have hend : tokensOf parts ++ rest = [] → cs₂ = [] ∧ rest = [] := by
      intro hnil
      obtain ⟨htokens, hrest⟩ := List.append_eq_nil_iff.1 hnil
      refine ⟨?_, hrest⟩
      cases parts with
      | nil => exact spells_nil hprints₂.spells
      | cons part parts =>
        obtain ⟨t, ts, hcons, -⟩ := (hparts part List.mem_cons_self).exists_cons
        rw [tokensOf_cons, hcons] at htokens
        cases htokens
    refine ⟨part' :: parts', List.forall_mem_cons.2 ⟨hpart', hparts'⟩, ?_, cs₁ ++ cs₂, ?_, ?_⟩
    · rw [List.map_cons, List.map_cons, hselector, hselectors]
    · cases cs₁ with
      | nil => exact hfollows₂
      | cons c cs₁ => exact hfollows₁
    · rw [toText_ofParts_cons, tokensOf_cons]
      exact hprints₁.append hprints₂ hfollows₂ hend

/-- The text of a compound selector is read part by part. -/
theorem IsCompound.exists_prints (hparts : IsCompound parts) (hplain : ∀ p ∈ parts, p.selector.isPlain)
    (h : Formed cs (tokensOf parts ++ rest)) (htext : filter text = front ++ cs) :
    ∃ parts', IsCompound parts' ∧ ofParts parts' = ofParts parts ∧ ∃ cs', StartsDark cs' ∧
      Prints (rest = []) (ofParts parts).toText cs' (tokensOf parts') := by
  cases hparts with
  | @typed part parts hpart hparts =>
    obtain ⟨hpartPlain, hplain⟩ := List.forall_mem_cons.1 hplain
    obtain ⟨part', hpart', hselector, cs₁, hdark, hprints₁⟩ := hpart.exists_prints hpartPlain
    rw [tokensOf_cons, List.append_assoc] at h
    obtain ⟨taken, back, rfl, hback⟩ := h.exists_of_append
    obtain ⟨parts', hparts', hselectors, cs₂, hfollows, hprints₂⟩ :=
      exists_prints_of_subclasses hparts hplain hback (htext.trans (List.append_assoc _ _ _).symm)
    refine ⟨part' :: parts', .typed hpart' hparts', ?_, cs₁ ++ cs₂, ?_, ?_⟩
    · rw [ofParts, ofParts, List.map_cons, List.map_cons, hselector, hselectors]
    · cases cs₁ with
      | nil => exact startsDark_of_followsName hfollows
      | cons c cs₁ => exact hdark
    · rw [toText_ofParts_cons, tokensOf_cons]
      exact hprints₁.append hprints₂ hfollows False.elim
  | untyped hne hparts =>
    obtain ⟨parts', hparts', hselectors, cs', hfollows, hprints⟩ :=
      exists_prints_of_subclasses hparts hplain h htext
    refine ⟨parts', .untyped ?_ hparts', ?_, cs', startsDark_of_followsName hfollows, hprints⟩
    · rintro rfl
      exact hne (List.map_eq_nil_iff.1 hselectors.symm)
    · rw [ofParts, ofParts, hselectors]

end Selector

namespace SelectorList

open Selector

/-- The separator that is printed. -/
private def printedSeparator : List Token :=
  [⟨.comma, ",", .start⟩, ⟨.whitespace " ", " ", .start⟩]

private theorem isSeparator_printedSeparator : Production.IsSeparator printedSeparator := by
  show Production.IsSeparator ([] ++ _)
  exact .comma (List.forall_mem_nil _) rfl (List.forall_mem_singleton.2 rfl)

private theorem formed_printedSeparator {ds : List SourceChar} {us : List Token} (hds : StartsDark ds)
    (h : Formed ds us) :
    Formed (filterFrom .start [','] ++ (filterFrom .start [' '] ++ ds)) (printedSeparator ++ us) := by
  have hdark : ∀ c ∈ (ds.map SourceChar.value).head?, isWhitespace c = false := by
    cases ds with
    | nil => exact nofun
    | cons d ds =>
      rintro _ ⟨⟩
      exact hds d rfl
  have hspace : scanLexeme ' ' ([] ++ ds.map SourceChar.value) =
      ⟨.plain (.whitespace " "), ds.map SourceChar.value, []⟩ := by
    have hscan : scanLexeme ' ' (ds.map SourceChar.value) =
        ⟨.plain (.whitespace (String.ofList (' ' :: (ds.map SourceChar.value).takeWhile isWhitespace))),
          (ds.map SourceChar.value).dropWhile isWhitespace, []⟩ := rfl
    have htake := takeWhile_append hdark []
    have hdrop := dropWhile_append hdark []
    rw [List.nil_append] at htake hdrop
    rw [List.nil_append, hscan, htake, hdrop]
    rfl
  have hcomma : ∀ cs, scanLexeme ',' ([] ++ cs) = ⟨.plain .comma, cs, []⟩ := fun _ => rfl
  exact Formed.cons_filterFrom (List.forall_mem_singleton.2 rfl) (hcomma _)
    (Formed.cons_filterFrom (List.forall_mem_singleton.2 rfl) hspace h)

/-- The text of a selector list is read selector by selector. -/
theorem IsWritten.exists_formed {ts trail : List Token} {compounds : List (List Part)}
    {cs front : List SourceChar} {text : String} (hwritten : IsWritten ts compounds)
    (hplain : ∀ parts ∈ compounds, ∀ p ∈ parts, p.selector.isPlain) (h : Formed cs (ts ++ trail))
    (htext : filter text = front ++ cs) : ∃ ts' compounds', IsWritten ts' compounds' ∧
      ofCompounds compounds' = ofCompounds compounds ∧ ∃ cs', StartsDark cs' ∧
        Spells (ofCompounds compounds).toText.toList cs' ∧ Formed cs' ts' := by
  induction hwritten generalizing cs front with
  | @single parts hparts =>
    obtain ⟨parts', hparts', hselector, cs', hdark, hprints⟩ :=
      hparts.exists_prints (List.forall_mem_singleton.1 hplain) h htext
    refine ⟨_, _, .single hparts', ?_, cs', hdark, ?_, hprints.formsAhead.formed⟩
    · rw [ofCompounds, ofCompounds, List.map_singleton, List.map_singleton, hselector]
    · rw [toText_ofCompounds_singleton]
      exact hprints.spells
  | @cons parts separator ts compounds hparts hseparator hwritten ih =>
    obtain ⟨hpartsPlain, hplain⟩ := List.forall_mem_cons.1 hplain
    rw [List.append_assoc, List.append_assoc] at h
    obtain ⟨parts', hparts', hselector, cs₁, hdark₁, hprints⟩ :=
      hparts.exists_prints hpartsPlain h htext
    rw [← List.append_assoc] at h
    obtain ⟨taken, back, rfl, hback⟩ := h.exists_of_append
    obtain ⟨ts', compounds', hwritten', hselectors, cs₂, hdark₂, hspells, hformed⟩ :=
      ih hplain hback (htext.trans (by rw [List.append_assoc]))
    have hfollows : FollowsName ((filterFrom .start [','] ++ (filterFrom .start [' '] ++ cs₂)).map
        SourceChar.value) := by
      rintro _ ⟨⟩
      decide
    refine ⟨_, _, .cons hparts' isSeparator_printedSeparator hwritten', ?_, _, ?_, ?_,
      hprints.formsAhead hfollows (fun hnil => ?_) (formed_printedSeparator hdark₂ hformed)⟩
    · have hselectors := congrArg SelectorList.selectors hselectors
      exact congrArg SelectorList.mk (congrArg₂ List.cons hselector hselectors)
    · cases cs₁ with
      | nil => exact startsDark_of_followsName hfollows
      | cons c cs₁ => exact hdark₁
    · have hmark : ", ".toList = [','] ++ [' '] := rfl
      rw [toText_ofCompounds_cons parts hwritten.ne_nil, String.toList_append, String.toList_append, hmark,
        List.append_assoc, List.append_assoc]
      have hspace := (spells_filterFrom [' ']).append hspells hdark₂.ne_break
      have hcomma := (spells_filterFrom [',']).append hspace (by rintro _ ⟨⟩; decide)
      exact hprints.spells.append hcomma (startsDark_of_followsName hfollows).ne_break
    · exact absurd (List.append_eq_nil_iff.1 hnil).1 hseparator.ne_nil

/-! ## Selector lists -/

/-- A part ends with no white-space. -/
private theorem exists_last_of_isSubclass {part : Part} (h : part.IsSubclass) :
    ∃ ts t, part.tokens = ts ++ [t] ∧ t.isWhite = false := by
  cases h with
  | @id t name hkind => exact ⟨[], t, rfl, by rw [Token.isWhite, hkind]; rfl⟩
  | @className dot word name _ hword => exact ⟨[dot], word, rfl, by rw [Token.isWhite, hword]; rfl⟩
  | attributeName hattribute =>
    obtain ⟨opening, inner, closing, rfl, -, hclosing⟩ := hattribute.exists_closing
    exact ⟨opening :: inner, closing, rfl, by rw [Token.isWhite, hclosing]; rfl⟩
  | pseudoClass hpseudo =>
    cases hpseudo with
    | @plain colon word _ _ hword => exact ⟨[colon], word, rfl, by rw [Token.isWhite, hword]; rfl⟩
    | @functional colon head closing _ args _ _ _ _ hclosing =>
      exact ⟨colon :: head :: args, closing, rfl, by rw [Token.isWhite, hclosing]; rfl⟩

private theorem exists_last_of_isCompound {parts : List Part} (h : IsCompound parts) :
    ∃ ts t, tokensOf parts = ts ++ [t] ∧ t.isWhite = false := by
  have hsubclasses : ∀ (parts : List Part) (p : Part), p.IsSubclass →
      ∃ ts t, tokensOf (parts ++ [p]) = ts ++ [t] ∧ t.isWhite = false := by
    intro parts p hp
    obtain ⟨ts, t, hts, ht⟩ := exists_last_of_isSubclass hp
    exact ⟨tokensOf parts ++ ts, t, by simp [tokensOf, hts], ht⟩
  cases h with
  | @typed part parts hpart hparts =>
    rcases List.eq_nil_or_concat' parts with rfl | ⟨init, last, rfl⟩
    · obtain ⟨t, hcons, hkind⟩ := hpart.exists_cons
      refine ⟨[], t, by rw [tokensOf_cons, hcons]; rfl, ?_⟩
      rcases hkind with ⟨name, ht⟩ | ht <;> rw [Token.isWhite, ht] <;> rfl
    · exact hsubclasses (part :: init) last (hparts last (List.mem_append_right _ (List.mem_singleton_self _)))
  | untyped hne hparts =>
    obtain ⟨init, last, rfl⟩ := (List.eq_nil_or_concat' parts).resolve_left hne
    exact hsubclasses init last (hparts last (List.mem_append_right _ (List.mem_singleton_self _)))

private theorem IsWritten.exists_last {ts : List Token} {compounds : List (List Part)}
    (h : IsWritten ts compounds) : ∃ us t, ts = us ++ [t] ∧ t.isWhite = false := by
  induction h with
  | single hparts => exact exists_last_of_isCompound hparts
  | @cons parts separator ts compounds _ _ _ ih =>
    obtain ⟨us, t, rfl, ht⟩ := ih
    exact ⟨tokensOf parts ++ (separator ++ us), t, by simp, ht⟩

/-- The tokens of a selector list neither begin nor end with white-space. -/
private theorem IsWritten.trimmed {ts : List Token} {compounds : List (List Part)}
    (h : IsWritten ts compounds) : dropTrailing Token.isWhite (ts.dropWhile Token.isWhite) = ts := by
  obtain ⟨first, others, hcons, hfirst, -⟩ := h.exists_cons
  obtain ⟨init, last, hinit, hlast⟩ := h.exists_last
  have hstart : ts.dropWhile Token.isWhite = ts := by
    rw [hcons]
    exact List.dropWhile_cons_of_neg (by rw [hfirst]; exact Bool.false_ne_true)
  rw [hstart, dropTrailing, hinit, List.reverse_append, List.reverse_singleton, List.singleton_append,
    List.dropWhile_cons_of_neg (by rw [hlast]; exact Bool.false_ne_true), List.reverse_cons,
    List.reverse_reverse]

/-- A plain selector list that was read is read again from its text. -/
private theorem tokenize_toText_of_isPlain {text : String} {ts : List Token} {l : SelectorList}
    (hts : tokenize text = .ok ts) (hl : ofTokens ts = .ok l) (hplain : l.isPlain) :
    ∃ us, tokenize l.toText = .ok us ∧ ofTokens us = .ok l := by
  obtain ⟨compounds, hwritten, rfl⟩ := ofTrimmed_eq_ok_iff.1 hl
  obtain ⟨before, after, hcore⟩ := exists_eq_append_trimmed ts
  generalize dropTrailing Token.isWhite (ts.dropWhile Token.isWhite) = core at hwritten hcore
  subst hcore
  obtain ⟨front, back, htext, hback⟩ := (formed_of_tokenize hts).exists_of_append
  obtain ⟨ts', compounds', hwritten', hlist, cs', -, hspells, hformed⟩ :=
    hwritten.exists_formed (isPlain_ofCompounds_iff.1 hplain) hback htext
  obtain ⟨us, hus, hsame⟩ := hformed.exists_of_unplaced hspells
  have hread : ofTokens ts' = .ok (ofCompounds compounds) := by
    rw [ofTokens, hwritten'.trimmed]
    exact ofTrimmed_eq_ok_iff.2 ⟨compounds', hwritten', hlist.symm⟩
  refine ⟨us, tokenize_of_formed hus, ?_⟩
  have hunplaced := ofTokens_of_unplaced hsame
  rw [hread] at hunplaced
  cases hus' : ofTokens us with
  | error e =>
    rw [hus'] at hunplaced
    cases hunplaced
  | ok l =>
    rw [hus'] at hunplaced
    rw [Except.ok.inj hunplaced]

private theorem exists_tokenize_of_parseComponents {text : String} {cs : List Component}
    (h : parseComponents text = .ok cs) :
    ∃ ts, tokenize text = .ok ts ∧ ofComponents cs = ofTokens ts := by
  cases hts : tokenize text with
  | error e =>
    rw [parseComponents, hts] at h
    cases h
  | ok ts =>
    rw [parseComponents, hts] at h
    obtain rfl := Except.ok.inj h
    exact ⟨ts, rfl, by rw [ofComponents, Component.listTokens_ofTokens]⟩

/-- The text of a selector list is read as this list exactly if the names of the types, ids and classes in it
are plain: they can be written without escapes. All else in it is read as it was. -/
theorem ofComponents_toText_iff {text : String} {cs : List Component} {l : SelectorList}
    (hcs : parseComponents text = .ok cs) (hl : ofComponents cs = .ok l) :
    (∃ ds, parseComponents l.toText = .ok ds ∧ ofComponents ds = .ok l) ↔
      ∀ s ∈ l.selectors, ∀ c ∈ s.components, c.isPlain := by
  have hisPlain : l.isPlain ↔ ∀ s ∈ l.selectors, ∀ c ∈ s.components, c.isPlain := by
    simp [isPlain]
  obtain ⟨ts, hts, hread⟩ := exists_tokenize_of_parseComponents hcs
  rw [hread] at hl
  rw [← hisPlain]
  constructor
  · rintro ⟨ds, hds, hl'⟩
    obtain ⟨us, hus, hread'⟩ := exists_tokenize_of_parseComponents hds
    exact isPlain_of_tokenize_toText hus (hread' ▸ hl')
  · intro hplain
    obtain ⟨us, hus, hl'⟩ := tokenize_toText_of_isPlain hts hl hplain
    refine ⟨Component.ofTokens us, by rw [parseComponents, hus]; rfl, ?_⟩
    rw [ofComponents, Component.listTokens_ofTokens, hl']

/-- A class whose name begins with a digit, which is escaped. -/
def escapedDigit : List Component :=
  [.token ⟨.delim '.', ".", ⟨1, 1⟩⟩, .token ⟨.ident "1a", "\\31 a", ⟨1, 2⟩⟩]

/-- Its text is a number with a unit, and so is no selector list. -/
theorem ofComponents_toText_escapedDigit :
    parseComponents ".\\31 a" = .ok escapedDigit ∧ ofComponents escapedDigit = .ok ⟨[⟨[.className "1a"]⟩]⟩ ∧
      toText ⟨[⟨[.className "1a"]⟩]⟩ = ".1a" ∧
      ¬ ∃ ds, parseComponents ".1a" = .ok ds ∧ ofComponents ds = .ok ⟨[⟨[.className "1a"]⟩]⟩ := by
  have hcs : parseComponents ".\\31 a" = .ok escapedDigit := by cbv
  have hwritten : IsWritten (Component.listTokens escapedDigit)
      [[⟨Component.listTokens escapedDigit, .className "1a"⟩]] :=
    .single (.untyped (List.cons_ne_nil _ _) (List.forall_mem_singleton.2 (.className rfl rfl)))
  have hl : ofComponents escapedDigit = .ok ⟨[⟨[.className "1a"]⟩]⟩ :=
    ofTrimmed_eq_ok_iff.2 ⟨_, hwritten, rfl⟩
  have htext : toText ⟨[⟨[.className "1a"]⟩]⟩ = ".1a" := by decide
  refine ⟨hcs, hl, htext, ?_⟩
  rw [← htext, ofComponents_toText_iff hcs hl]
  decide

end SelectorList

end Styling
