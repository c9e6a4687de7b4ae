import Styling.Proofs.Selector.Accepted
import Styling.Proofs.Token.Spelling

/-!
# Selectors that are printed as they were written

The name of a type, an id or a class is printed without escapes, so what is printed for a part is never
longer than what the part is written with. Where the text of a selector list is read as this list, both
are the same then, and all names in it are plain (`SelectorList.IsWritten.eq_of_isSuffix`).
-/

namespace Styling

/-- Whether the text of a simple selector says which one it is. That of a type, an id or a class does so if
its name can be written without escapes. -/
def SimpleSelector.isPlain : SimpleSelector → Bool
  | typeName name | idName name | className name => Lexer.isPlainName name
  | universal | attributeName .. | pseudoClass .. => true

theorem sourceOf_append (ts us : List Token) : sourceOf (ts ++ us) = sourceOf ts ++ sourceOf us := by
  rw [sourceOf, List.map_append, String.join_append]
  rfl

@[simp] theorem sourceOf_nil : sourceOf [] = "" := rfl

@[simp] theorem sourceOf_cons (t : Token) (ts : List Token) : sourceOf (t :: ts) = t.source ++ sourceOf ts :=
  String.join_cons

namespace Selector

/-- Texts one after the other that are no longer than others, and the same as these together, are the same
one by one. -/
private theorem append_inj_of_length_le {a b c d : String} (h : a ++ b = c ++ d)
    (hc : c.length ≤ a.length) (hd : d.length ≤ b.length) : a = c ∧ b = d := by
  have hlength := congrArg String.length h
  rw [String.length_append, String.length_append] at hlength
  have hchars := congrArg String.toList h
  rw [String.toList_append, String.toList_append] at hchars
  obtain ⟨hac, hbd⟩ := List.append_inj hchars (by rw [String.length_toList, String.length_toList]; omega)
  exact ⟨String.toList_inj.1 hac, String.toList_inj.1 hbd⟩

namespace Part

variable {part : Part}

/-- A part is written with no fewer characters than there are in its text, and it is plain if it is
written with its text. -/
structure CoversText (part : Part) : Prop where
  length_le : part.selector.toText.length ≤ (sourceOf part.tokens).length
  plain : sourceOf part.tokens = part.selector.toText → part.selector.isPlain

private theorem length_source_pos {t : Token} (h : t.IsFaithful) : 1 ≤ t.source.length := by
  rw [Nat.one_le_iff_ne_zero]
  intro hzero
  exact h.nonempty (String.length_eq_zero_iff.1 hzero)

theorem IsType.coversText (h : part.IsType) (hts : ∀ t ∈ part.tokens, t.IsFaithful) :
    part.CoversText := by
  cases h with
  | @universal t hkind =>
    have ht := List.forall_mem_singleton.1 hts
    have hone : "*".length ≤ t.source.length := length_source_pos ht
    refine ⟨?_, fun _ => rfl⟩
    rw [sourceOf_cons, sourceOf_nil, String.append_empty]
    exact hone
  | @named t name hkind =>
    have ht := List.forall_mem_singleton.1 hts
    constructor
    · rw [sourceOf_cons, sourceOf_nil, String.append_empty]
      exact ht.length_ident name hkind
    · intro hsame
      rw [sourceOf_cons, sourceOf_nil, String.append_empty] at hsame
      have hsame : t.source = name := hsame
      rw [← hsame] at hkind ⊢
      exact ht.ident hkind

theorem IsSubclass.coversText (h : part.IsSubclass) (hts : ∀ t ∈ part.tokens, t.IsFaithful) :
    part.CoversText := by
  cases h with
  | @id t name hkind =>
    have ht := List.forall_mem_singleton.1 hts
    have hlength : ("#" ++ name).length = name.length + 1 := by
      rw [String.length_append, Nat.add_comm]
      rfl
    constructor
    · rw [sourceOf_cons, sourceOf_nil, String.append_empty]
      exact hlength.trans_le (ht.length_id name hkind)
    · intro hsame
      rw [sourceOf_cons, sourceOf_nil, String.append_empty] at hsame
      exact ht.id name hkind hsame
  | @className dot word name hdot hword =>
    obtain ⟨hdot', hts⟩ := List.forall_mem_cons.1 hts
    have hword' := List.forall_mem_singleton.1 hts
    have hone : ".".length ≤ dot.source.length := length_source_pos hdot'
    have hname := hword'.length_ident name hword
    constructor
    · rw [sourceOf_cons, sourceOf_cons, sourceOf_nil, String.append_empty, String.length_append]
      show ("." ++ name).length ≤ _
      rw [String.length_append]
      omega
    · intro hsame
      rw [sourceOf_cons, sourceOf_cons, sourceOf_nil, String.append_empty] at hsame
      obtain ⟨-, hsame⟩ := append_inj_of_length_le hsame hone hname
      rw [← hsame] at hword
      show Lexer.isPlainName name
      rw [← hsame]
      exact hword'.ident hword
  | attributeName | pseudoClass => exact ⟨Nat.le_refl _, fun _ => rfl⟩

end Part

theorem IsCompound.coversText {parts : List Part} (h : IsCompound parts)
    (hts : ∀ t ∈ tokensOf parts, t.IsFaithful) : ∀ p ∈ parts, p.CoversText := by
  have hmem : ∀ {p}, p ∈ parts → ∀ t ∈ p.tokens, t.IsFaithful :=
    fun hp t ht => hts t (List.mem_flatMap.2 ⟨_, hp, ht⟩)
  intro p hp
  cases h with
  | typed hpart hparts =>
    rcases List.mem_cons.1 hp with rfl | hp'
    · exact hpart.coversText (hmem hp)
    · exact (hparts p hp').coversText (hmem hp)
  | untyped _ hparts => exact (hparts p hp).coversText (hmem hp)

theorem toText_ofParts_cons (part : Part) (parts : List Part) :
    (ofParts (part :: parts)).toText = part.selector.toText ++ (ofParts parts).toText :=
  String.join_cons

/-- What a compound selector is written with is no shorter than its text, and it is plain if both are the
same. -/
theorem plain_of_coversText {parts : List Part} (h : ∀ p ∈ parts, p.CoversText) :
    (ofParts parts).toText.length ≤ (sourceOf (tokensOf parts)).length ∧
      (sourceOf (tokensOf parts) = (ofParts parts).toText → ∀ p ∈ parts, p.selector.isPlain) := by
  induction parts with
  | nil => exact ⟨Nat.le_refl _, fun _ => List.forall_mem_nil _⟩
  | cons part parts ih =>
    obtain ⟨hpart, hparts⟩ := List.forall_mem_cons.1 h
    obtain ⟨hlength, hplain⟩ := ih hparts
    rw [toText_ofParts_cons, tokensOf_cons, sourceOf_append]
    constructor
    · rw [String.length_append, String.length_append]
      exact Nat.add_le_add hpart.length_le hlength
    · intro hsame
      obtain ⟨hfirst, hothers⟩ := append_inj_of_length_le hsame hpart.length_le hlength
      exact List.forall_mem_cons.2 ⟨hpart.plain hfirst, hplain hothers⟩

end Selector

namespace SelectorList

open Selector

theorem IsWritten.ne_nil {ts : List Token} {compounds : List (List Part)} (h : IsWritten ts compounds) :
    compounds ≠ [] := by
  cases h <;> exact List.cons_ne_nil _ _

theorem toText_ofCompounds_singleton (parts : List Part) :
    (ofCompounds [parts]).toText = (ofParts parts).toText :=
  String.intercalate_singleton

theorem toText_ofCompounds_cons (parts : List Part) {compounds : List (List Part)} (h : compounds ≠ []) :
    (ofCompounds (parts :: compounds)).toText =
      (ofParts parts).toText ++ ", " ++ (ofCompounds compounds).toText := by
  simp only [ofCompounds, toText, List.map_cons]
  exact String.intercalate_cons_of_ne_nil (by simpa using h)

/-- What separates compound selectors is a comma, or longer. -/
private theorem source_isSeparator {separator : List Token} (h : Production.IsSeparator separator)
    (hts : ∀ t ∈ separator, t.IsFaithful) :
    (sourceOf separator).toList = [','] ∨ 2 ≤ (sourceOf separator).toList.length := by
  cases h with
  | @comma before after mark _ hmark _ =>
    have hsource := (hts mark (List.mem_append_right _ List.mem_cons_self)).comma hmark
    have hcomma : ",".toList = [','] := rfl
    rw [sourceOf_append, sourceOf_cons, hsource, String.toList_append, String.toList_append, hcomma]
    cases hbefore : (sourceOf before).toList with
    | cons c cs =>
      refine .inr ?_
      simp only [List.length_append, List.length_cons, List.length_nil]
      omega
    | nil =>
      cases hafter : (sourceOf after).toList with
      | nil => exact .inl rfl
      | cons c cs =>
        refine .inr ?_
        simp only [List.length_append, List.length_cons, List.length_nil]
        omega

/-- Where a compound selector begins, there is no space. -/
private theorem IsWritten.source_ne_space {ts : List Token} {compounds : List (List Part)}
    (h : IsWritten ts compounds) (hts : ∀ t ∈ ts, t.IsFaithful) (trail rest : List Char) :
    (sourceOf ts).toList ++ trail ≠ ' ' :: rest := by
  obtain ⟨t, ts, rfl, hsolid, -⟩ := h.exists_cons
  have ht := hts t List.mem_cons_self
  intro hspace
  rw [sourceOf_cons, String.toList_append, List.append_assoc] at hspace
  cases hchars : t.source.toList with
  | nil => exact ht.nonempty (String.toList_eq_nil_iff.1 hchars)
  | cons c cs =>
    rw [hchars] at hspace
    obtain rfl := (List.cons.inj hspace).1
    exact ht.solid hsolid (by rw [hchars]; rfl)

section Separated

variable {lead first separator rest text others : List Char}

/-- What comes after a separator is no longer than what comes after the printed one: it would begin with the
space of this, or further to the left. -/
private theorem isSuffix_of_separated
    (h : lead ++ (first ++ (separator ++ rest)) = text ++ ([','] ++ ([' '] ++ others)))
    (hfirst : text.length ≤ first.length) (hseparator : separator ≠ []) (hrest : rest ≠ ' ' :: others) :
    rest <:+ others := by
  have hrestSuffix : rest <:+ text ++ ([','] ++ ([' '] ++ others)) := by
    rw [← h]
    exact ⟨lead ++ (first ++ separator), by simp⟩
  have hspaceSuffix : ' ' :: others <:+ text ++ ([','] ++ ([' '] ++ others)) := ⟨text ++ [','], by simp⟩
  have hcount := congrArg List.length h
  have hpos := List.length_pos_iff.2 hseparator
  simp only [List.length_append, List.length_singleton] at hcount
  have hle := List.suffix_of_suffix_length_le hrestSuffix hspaceSuffix (by rw [List.length_cons]; omega)
  exact (List.suffix_cons_iff.1 hle).resolve_left hrest

/-- In front of the printed separator stands what is printed, and nothing else. -/
private theorem eq_of_separated (h : lead ++ (first ++ separator) = text ++ ([','] ++ [' ']))
    (hfirst : text.length ≤ first.length) (hseparator : separator = [','] ∨ 2 ≤ separator.length) :
    lead = [] ∧ first = text ∧ separator = [','] ++ [' '] := by
  have hcount := congrArg List.length h
  simp only [List.length_append, List.length_singleton] at hcount
  have htwo : 2 ≤ separator.length := by
    refine hseparator.resolve_left fun hcomma => ?_
    -- The printed separator ends with a space.
    have hend := congrArg List.getLast? h
    rw [hcomma] at hend
    simp at hend
  obtain rfl : lead = [] := List.length_eq_zero_iff.1 (by omega)
  rw [List.nil_append] at h
  obtain ⟨hsame, hmark⟩ := List.append_inj h (by omega)
  exact ⟨rfl, hsame, hmark⟩

end Separated

/-- If a list is written, up to what is left at the end, with the last characters of its own text, it is
written with all of it, and plain. -/
theorem IsWritten.eq_of_isSuffix {ts : List Token} {compounds : List (List Part)}
    (h : IsWritten ts compounds) (hts : ∀ t ∈ ts, t.IsFaithful) {trail : List Char}
    (hsuffix : (sourceOf ts).toList ++ trail <:+ (ofCompounds compounds).toText.toList) :
    (sourceOf ts).toList ++ trail = (ofCompounds compounds).toText.toList ∧
      ∀ parts ∈ compounds, ∀ p ∈ parts, p.selector.isPlain := by
  induction h with
  | @single parts hparts =>
    obtain ⟨hlength, hplain⟩ := plain_of_coversText (hparts.coversText hts)
    rw [toText_ofCompounds_singleton] at hsuffix ⊢
    have hle := hsuffix.length_le
    rw [List.length_append, String.length_toList, String.length_toList] at hle
    obtain rfl : trail = [] := List.length_eq_zero_iff.1 (by omega)
    rw [List.append_nil] at hsuffix ⊢
    have hsame := hsuffix.eq_of_length (by rw [String.length_toList, String.length_toList]; omega)
    exact ⟨hsame, List.forall_mem_singleton.2 (hplain (String.toList_inj.1 hsame))⟩
  | @cons parts separator ts compounds hparts hseparator hwritten ih =>
    obtain ⟨hpartsTokens, hothers⟩ := List.forall_mem_append.1 hts
    obtain ⟨hseparatorTokens, hts'⟩ := List.forall_mem_append.1 hothers
    obtain ⟨hlength, hplain⟩ := plain_of_coversText (hparts.coversText hpartsTokens)
    rw [← String.length_toList, ← String.length_toList] at hlength
    have hcases := source_isSeparator hseparator hseparatorTokens
    have hfilled : (sourceOf separator).toList ≠ [] := by
      rintro hnil
      simp [hnil] at hcases
    have hmark : ", ".toList = [','] ++ [' '] := rfl
    rw [toText_ofCompounds_cons parts hwritten.ne_nil] at hsuffix ⊢
    simp only [sourceOf_append, String.toList_append, List.append_assoc, hmark] at hsuffix ⊢
    obtain ⟨lead, hlead⟩ := hsuffix
    obtain ⟨hsame, hplain'⟩ := ih hts'
      (isSuffix_of_separated hlead hlength hfilled (hwritten.source_ne_space hts' trail _))
    rw [hsame] at hlead ⊢
    simp only [← List.append_assoc] at hlead
    have hfirst := List.append_cancel_right hlead
    rw [List.append_assoc, List.append_assoc _ [','] [' ']] at hfirst
    obtain ⟨rfl, hparts', hseparator'⟩ := eq_of_separated hfirst hlength hcases
    refine ⟨by rw [hparts', hseparator', List.append_assoc], List.forall_mem_cons.2 ⟨?_, hplain'⟩⟩
    exact hplain (String.toList_inj.1 hparts')

/-- Whether the text of a selector list says which one it is. -/
def isPlain (l : SelectorList) : Bool := l.selectors.all fun s => s.components.all SimpleSelector.isPlain

theorem isPlain_ofCompounds_iff {compounds : List (List Part)} :
    (ofCompounds compounds).isPlain ↔ ∀ parts ∈ compounds, ∀ p ∈ parts, p.selector.isPlain := by
  simp [isPlain, ofCompounds, ofParts]

/-- The tokens of a list stand between white-space. -/
theorem exists_eq_append_trimmed (ts : List Token) : ∃ before after,
    ts = before ++ (dropTrailing Token.isWhite (ts.dropWhile Token.isWhite) ++ after) :=
  ⟨ts.takeWhile Token.isWhite, takeTrailing Token.isWhite (ts.dropWhile Token.isWhite), by
    rw [dropTrailing_append_takeTrailing, List.takeWhile_append_dropWhile]⟩

/-- A selector list that is read from its text is plain. -/
theorem isPlain_of_tokenize_toText {l : SelectorList} {ts : List Token} (h : tokenize l.toText = .ok ts)
    (hl : ofTokens ts = .ok l) : l.isPlain := by
  obtain ⟨compounds, hwritten, rfl⟩ := ofTrimmed_eq_ok_iff.1 hl
  have hsource : (sourceOf ts).toList = (ofCompounds compounds).toText.toList :=
    (formed_of_tokenize h).sourceOf_eq.trans (Source.sourcesOf_filter _)
  have hfaithful := isFaithful_of_tokenize h
  obtain ⟨before, after, hts⟩ := exists_eq_append_trimmed ts
  generalize dropTrailing Token.isWhite (ts.dropWhile Token.isWhite) = core at hwritten hts
  subst hts
  have hcore : ∀ t ∈ core, t.IsFaithful :=
    fun t ht => hfaithful t (List.mem_append_right _ (List.mem_append_left _ ht))
  have hsuffix : (sourceOf core).toList ++ (sourceOf after).toList <:+
      (ofCompounds compounds).toText.toList := by
    rw [← hsource, sourceOf_append, sourceOf_append, String.toList_append, String.toList_append]
    exact List.suffix_append _ _
  exact isPlain_ofCompounds_iff.2 (hwritten.eq_of_isSuffix hcore hsuffix).2

end SelectorList

end Styling
