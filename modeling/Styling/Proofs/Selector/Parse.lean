import Styling.Proofs.Grammar.Products
import Styling.Selector.Parse

/-!
# Every product of the grammar of selectors denotes a selector list

The grammar is one by which something can be read, and a product of it is converted to a selector list
(`SelectorList.isSome_ofProduct?`). So tokens are refused only where the grammar takes not all of them.
-/

namespace Styling

open Production

/-! ## Tokens of a kind -/

theorem TokenClass.tokenClass_eq_of_includes {c : TokenClass} {kind : TokenKind}
    (h : c.includes kind) (hc : c ≠ .whitespace) : kind.tokenClass = c := by
  simpa [includes, hc] using h

namespace Production

theorem exists_of_yields_ofClass {c : TokenClass} {p : Product} (hc : c ≠ .whitespace)
    (h : (ofClass c).Yields p) : ∃ t, p = .token t ∧ t.kind.tokenClass = c := by
  rw [ofClass, Yields] at h
  rcases h with ⟨t, rfl, h⟩
  have hclass : c.includes t.kind := by simpa [TokenPattern.accepts] using h
  exact ⟨t, rfl, TokenClass.tokenClass_eq_of_includes hclass hc⟩

theorem exists_of_yields_ident {p : Product} (h : (ofClass .ident).Yields p) :
    ∃ name source location, p = .token ⟨.ident name, source, location⟩ := by
  obtain ⟨⟨kind, source, location⟩, rfl, hkind⟩ := exists_of_yields_ofClass (by decide) h
  cases kind with
  | ident name => exact ⟨name, source, location, rfl⟩
  | _ => cases hkind

theorem exists_of_yields_function {p : Product} (h : (ofClass .function).Yields p) :
    ∃ name source location, p = .token ⟨.function name, source, location⟩ := by
  obtain ⟨⟨kind, source, location⟩, rfl, hkind⟩ := exists_of_yields_ofClass (by decide) h
  cases kind with
  | function name => exact ⟨name, source, location, rfl⟩
  | _ => cases hkind

theorem exists_of_yields_colon {p : Product} (h : (ofClass .colon).Yields p) :
    ∃ source location, p = .token ⟨.colon, source, location⟩ := by
  obtain ⟨⟨kind, source, location⟩, rfl, hkind⟩ := exists_of_yields_ofClass (by decide) h
  cases kind with
  | colon => exact ⟨source, location, rfl⟩
  | _ => cases hkind

theorem exists_of_yields_opening {b : Bracket} {p : Product}
    (h : (ofClass (.opening b)).Yields p) :
    ∃ source location, p = .token ⟨.opening b, source, location⟩ := by
  obtain ⟨⟨kind, source, location⟩, rfl, hkind⟩ :=
    exists_of_yields_ofClass (by rintro ⟨⟩) h
  cases kind with
  | opening b =>
    cases hkind
    exact ⟨source, location, rfl⟩
  | _ => cases hkind

theorem exists_of_yields_delim {c : Char} {p : Product} (h : (delim c).Yields p) :
    ∃ source location, p = .token ⟨.delim c, source, location⟩ := by
  rw [delim, Yields] at h
  rcases h with ⟨⟨kind, source, location⟩, rfl, h⟩
  have h : TokenClass.delim.includes kind ∧ some (String.singleton c) = kind.text? := by
    simpa [TokenPattern.accepts] using h
  rcases h with ⟨hkind, htext⟩
  have hkind := TokenClass.tokenClass_eq_of_includes hkind (by decide)
  cases kind with
  | delim d =>
    obtain rfl := String.singleton_inj.1 (Option.some.inj htext)
    exact ⟨source, location, rfl⟩
  | _ => cases hkind

end Production

/-! ## Products -/

open Selector.Grammar

theorem isUsable_selectorList : selectorList.IsUsable := by
  simp [selectorList, compoundSelectorList, compoundSelector, subclassSelector, pseudoClassSelector,
    attributeSelector, attributeModifier, attributeMatcher, classSelector, idSelector, typeSelector,
    commaSeparated, comma, Production.optional, whitespace, ofClass, ident, delim, IsUsable, AreUsable]

namespace SimpleSelector

theorem isSome_ofTypeProduct? {p : Product} (h : typeSelector.Yields p) :
    (ofTypeProduct? p).isSome := by
  simp only [typeSelector, Yields, YieldsFirst, or_false] at h
  rcases h with hident | hdelim
  · obtain ⟨name, source, location, rfl⟩ := exists_of_yields_ident hident
    rfl
  · obtain ⟨source, location, rfl⟩ := exists_of_yields_delim hdelim
    rfl

private theorem isSome_of_classSelector {p : Product} (h : classSelector.Yields p) :
    (ofSubclassProduct? p).isSome := by
  simp only [classSelector, Yields, YieldsEach] at h
  rcases h with ⟨_, rfl, dot, _, rfl, hdot, word, _, rfl, hword, rfl⟩
  obtain ⟨source, location, rfl⟩ := exists_of_yields_delim hdot
  obtain ⟨name, source', location', rfl⟩ := exists_of_yields_ident hword
  rfl

private theorem isSome_of_idSelector {p : Product} (h : idSelector.Yields p) :
    (ofSubclassProduct? p).isSome := by
  rw [idSelector, Yields] at h
  rcases h with ⟨⟨kind, source, location⟩, rfl, h⟩
  have h : TokenClass.hash.includes kind ∧ some "id" = kind.formName? := by
    simpa [TokenPattern.accepts] using h
  have hkind := TokenClass.tokenClass_eq_of_includes h.1 (by decide)
  cases kind with
  | hash name form => rfl
  | _ => cases hkind

private theorem isSome_of_attributeSelector {p : Product} (h : attributeSelector.Yields p) :
    (ofSubclassProduct? p).isSome := by
  simp only [attributeSelector, Yields, YieldsFirst, or_false] at h
  rcases h with h | h
  all_goals
    simp only [YieldsEach] at h
    rcases h with ⟨_, rfl, bracket, _, rfl, hbracket, gap, _, rfl, -, word, others, rfl, hword, -⟩
    obtain ⟨source, location, rfl⟩ := exists_of_yields_opening hbracket
    obtain ⟨name, source', location', rfl⟩ := exists_of_yields_ident hword
    rfl

private theorem isSome_of_pseudoClassSelector {p : Product} (h : pseudoClassSelector.Yields p) :
    (ofSubclassProduct? p).isSome := by
  simp only [pseudoClassSelector, Yields, YieldsFirst, YieldsEach, or_false] at h
  rcases h with h | h
  · rcases h with ⟨_, rfl, colon, _, rfl, hcolon, word, _, rfl, hword, rfl⟩
    obtain ⟨source, location, rfl⟩ := exists_of_yields_colon hcolon
    obtain ⟨name, source', location', rfl⟩ := exists_of_yields_ident hword
    rfl
  · rcases h with ⟨_, rfl, colon, _, rfl, hcolon, word, others, rfl, hword, -⟩
    obtain ⟨source, location, rfl⟩ := exists_of_yields_colon hcolon
    obtain ⟨name, source', location', rfl⟩ := exists_of_yields_function hword
    rfl

theorem isSome_ofSubclassProduct? {p : Product} (h : subclassSelector.Yields p) :
    (ofSubclassProduct? p).isSome := by
  simp only [subclassSelector, Yields, YieldsFirst, or_false] at h
  rcases h with hid | hclass | hattribute | hpseudo
  · exact isSome_of_idSelector hid
  · exact isSome_of_classSelector hclass
  · exact isSome_of_attributeSelector hattribute
  · exact isSome_of_pseudoClassSelector hpseudo

end SimpleSelector

private theorem isSome_mapM {f : α → Option β} {as : List α} (h : ∀ a ∈ as, (f a).isSome) :
    (as.mapM f).isSome := by
  induction as with
  | nil => rfl
  | cons a as ih =>
    obtain ⟨ha, has⟩ := List.forall_mem_cons.1 h
    obtain ⟨b, hb⟩ := Option.isSome_iff_exists.1 ha
    obtain ⟨bs, hbs⟩ := Option.isSome_iff_exists.1 (ih has)
    simp [hb, hbs]

/-- Without separators, a repetition is made of products of its element. -/
theorem Reading.Repeats.forall_mem {P : Product → Prop} {first : Bool} {ps : List Product} {n : Nat}
    (h : Repeats P (· = []) first ps n) : ∀ p ∈ ps, P p := by
  induction h with
  | nil => exact fun p hp => by cases hp
  | first hp _ ih => exact List.forall_mem_cons.2 ⟨hp, ih⟩
  | next hs hp _ ih =>
    subst hs
    exact List.forall_mem_cons.2 ⟨hp, ih⟩

/-- The elements of a repetition with single separators are products of its element. -/
theorem Reading.Repeats.forall_mem_elementsOf {P Q : Product → Prop} {ps : List Product} {n : Nat}
    (h : Repeats P (fun s => ∃ p, s = [p] ∧ Q p) true ps n) :
    ∀ p ∈ SelectorList.elementsOf ps, P p := by
  have hothers : ∀ {first ps n}, Repeats P (fun s => ∃ p, s = [p] ∧ Q p) first ps n →
      first = false → ∀ p, P p → ∀ q ∈ SelectorList.elementsOf (p :: ps), P q := by
    intro first ps n h
    induction h with
    | nil =>
      intro _ p hp q hq
      rw [SelectorList.elementsOf, List.mem_singleton] at hq
      exact hq ▸ hp
    | first => exact nofun
    | next hs hp' _ ih =>
      intro _ p hp q hq
      rcases hs with ⟨s, rfl, -⟩
      rcases List.mem_cons.1 hq with rfl | hq
      · exact hp
      · exact ih rfl _ hp' q hq
  cases h with
  | nil => exact fun p hp => by cases hp
  | first hp h => exact hothers h rfl _ hp

theorem Selector.isSome_ofProduct? {p : Product} (h : compoundSelector.Yields p) :
    (Selector.ofProduct? p).isSome := by
  simp only [compoundSelector, Production.optional, Yields, YieldsEach, YieldsRepetition] at h
  obtain ⟨⟨_, rfl, _, _, rfl, ⟨types, _, rfl, htypes, -⟩, _, _, rfl, ⟨parts, _, rfl, hparts, -⟩, rfl⟩,
    -⟩ := h
  have htypes := isSome_mapM fun p hp => SimpleSelector.isSome_ofTypeProduct? (htypes.forall_mem p hp)
  have hparts := isSome_mapM fun p hp =>
    SimpleSelector.isSome_ofSubclassProduct? (hparts.forall_mem p hp)
  obtain ⟨ts, hts⟩ := Option.isSome_iff_exists.1 htypes
  obtain ⟨ss, hss⟩ := Option.isSome_iff_exists.1 hparts
  simp [ofProduct?, hts, hss]

/-- Every product of the grammar is converted to a selector list. -/
theorem SelectorList.isSome_ofProduct? {p : Product} (h : selectorList.Yields p) :
    (SelectorList.ofProduct? p).isSome := by
  simp only [selectorList, compoundSelectorList, commaSeparated, Yields, YieldsRepetition] at h
  rcases h with ⟨parts, _, rfl, hparts, -⟩
  have hselectors := isSome_mapM fun p hp =>
    Selector.isSome_ofProduct? (hparts.forall_mem_elementsOf p hp)
  obtain ⟨selectors, hselectors⟩ := Option.isSome_iff_exists.1 hselectors
  simp [ofProduct?, hselectors]

/-- Reading selectors ends without a fault, and what it accepts is converted. -/
theorem SelectorList.gives_read :
    Reading.Gives (fun p => (SelectorList.ofProduct? p).isSome) selectorList.read :=
  (Production.gives_read selectorList isUsable_selectorList).mono fun _ => isSome_ofProduct?

end Styling
