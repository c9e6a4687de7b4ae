import Mathlib.Data.List.TakeWhile
import Styling.Proofs.Grammar.Taking

/-!
# What the elements of a grammar take

Tokens of a class, productions one after another, white-space that may be there or not, and commas
with white-space around them.
-/

namespace Styling

/-- White-space and comments, any number of them. -/
def AreWhite (ts : List Token) : Prop := ∀ t ∈ ts, t.isWhite

/-- Whether tokens begin with none that is white-space. -/
def StartsSolid (ts : List Token) : Prop := ∀ t ∈ ts.head?, t.isWhite = false

namespace TokenPattern

theorem accepts_class {c : TokenClass} (hc : c ≠ .whitespace) (t : Token) :
    (⟨c, none, none⟩ : TokenPattern).accepts t ↔ t.kind.tokenClass = c := by
  simp [accepts, TokenClass.includes, hc]

theorem accepts_whitespace (t : Token) :
    (⟨.whitespace, none, none⟩ : TokenPattern).accepts t ↔ t.isWhite := by
  rcases t with ⟨kind, source, location⟩
  cases kind <;> simp [accepts, TokenClass.includes, TokenKind.tokenClass, Token.isWhite,
    TokenKind.isWhite]

theorem accepts_delim (c : Char) (t : Token) :
    (⟨.delim, some (String.singleton c), none⟩ : TokenPattern).accepts t ↔ t.kind = .delim c := by
  rcases t with ⟨kind, source, location⟩
  cases kind with
  | delim d =>
    simp only [accepts, TokenClass.includes, TokenKind.tokenClass, TokenKind.text?]
    simpa [String.singleton_inj] using eq_comm
  | _ => simp [accepts, TokenClass.includes, TokenKind.tokenClass]

theorem accepts_identNamed (name : String) (t : Token) :
    (⟨.ident, some name, none⟩ : TokenPattern).accepts t ↔ t.kind = .ident name := by
  rcases t with ⟨kind, source, location⟩
  cases kind with
  | ident value =>
    simp only [accepts, TokenClass.includes, TokenKind.tokenClass, TokenKind.text?]
    simpa using eq_comm
  | _ => simp [accepts, TokenClass.includes, TokenKind.tokenClass]

theorem accepts_idHash (t : Token) :
    (⟨.hash, none, some "id"⟩ : TokenPattern).accepts t ↔ ∃ name, t.kind = .hash name .id := by
  rcases t with ⟨kind, source, location⟩
  cases kind with
  | hash name form =>
    cases form <;>
      simp [accepts, TokenClass.includes, TokenKind.tokenClass, TokenKind.formName?]
  | _ => simp [accepts, TokenClass.includes, TokenKind.tokenClass]

end TokenPattern

namespace TokenKind

variable {kind : TokenKind}

theorem tokenClass_eq_ident_iff : kind.tokenClass = .ident ↔ ∃ name, kind = .ident name := by
  cases kind <;> simp [tokenClass]

theorem tokenClass_eq_function_iff : kind.tokenClass = .function ↔ ∃ name, kind = .function name := by
  cases kind <;> simp [tokenClass]

theorem tokenClass_eq_string_iff : kind.tokenClass = .string ↔ ∃ text, kind = .string text := by
  cases kind <;> simp [tokenClass]

theorem tokenClass_eq_colon_iff : kind.tokenClass = .colon ↔ kind = .colon := by
  cases kind <;> simp [tokenClass]

theorem tokenClass_eq_comma_iff : kind.tokenClass = .comma ↔ kind = .comma := by
  cases kind <;> simp [tokenClass]

theorem tokenClass_eq_opening_iff {b : Bracket} :
    kind.tokenClass = .opening b ↔ kind = .opening b := by
  cases kind <;> simp [tokenClass]

theorem tokenClass_eq_closing_iff {b : Bracket} :
    kind.tokenClass = .closing b ↔ kind = .closing b := by
  cases kind <;> simp [tokenClass]

end TokenKind

namespace Production

open Taking

variable {p : Production} {ps : List Production} {ts us vs : List Token} {q : Product}
  {qs : List Product}

/-! ## One after another -/

theorem taking_token_eq_some_iff {pattern : TokenPattern} :
    (token pattern).taking ts = some (q, us) ↔
      ∃ t, pattern.accepts t ∧ q = .token t ∧ ts = t :: us := by
  simp only [taking]
  cases ts with
  | nil => simp [tokenIf]
  | cons t ts =>
    by_cases ht : pattern.accepts t
    · simp only [tokenIf, if_pos ht, Option.some.injEq, Prod.mk.injEq, List.cons.injEq]
      constructor
      · rintro ⟨rfl, rfl⟩
        exact ⟨t, ht, rfl, rfl, rfl⟩
      · rintro ⟨t', -, rfl, rfl, rfl⟩
        exact ⟨rfl, rfl⟩
    · simp only [tokenIf, if_neg ht, List.cons.injEq]
      constructor
      · intro h
        cases h
      · rintro ⟨t', ht', -, rfl, -⟩
        exact absurd ht' ht

theorem taking_class_eq_some_iff {c : TokenClass} (hc : c ≠ .whitespace) :
    (ofClass c).taking ts = some (q, us) ↔
      ∃ t, t.kind.tokenClass = c ∧ q = .token t ∧ ts = t :: us := by
  simp only [ofClass, taking_token_eq_some_iff, TokenPattern.accepts_class hc]

theorem taking_delim_eq_some_iff {c : Char} : (delim c).taking ts = some (q, us) ↔
    ∃ t, t.kind = .delim c ∧ q = .token t ∧ ts = t :: us := by
  simp only [delim, taking_token_eq_some_iff, TokenPattern.accepts_delim]

@[simp] theorem taking_reference : (reference p).taking = p.taking := by
  rw [taking]

theorem taking_repetition (least : Nat) (most : Option Nat) :
    (repetition p least most).taking = ofRepetition p.taking (accept []) least most := by
  rw [taking]

theorem taking_juxtaposition_eq_some_iff :
    (juxtaposition ps).taking ts = some (q, us) ↔
      ∃ qs, q = .group qs ∧ takingEach ps ts = some (qs, us) := by
  simp only [taking, andThen, accept, Option.bind_eq_some_iff, Prod.exists, Option.some.injEq,
    Prod.mk.injEq]
  constructor
  · rintro ⟨qs, _, h, rfl, rfl⟩
    exact ⟨qs, rfl, h⟩
  · rintro ⟨qs, rfl, h⟩
    exact ⟨qs, us, h, rfl, rfl⟩

theorem takingEach_nil_eq_some_iff : takingEach [] ts = some (qs, us) ↔ qs = [] ∧ ts = us := by
  simp [takingEach, accept, eq_comm]

theorem takingEach_cons_eq_some_iff : takingEach (p :: ps) ts = some (qs, us) ↔
    ∃ q others vs, p.taking ts = some (q, vs) ∧ takingEach ps vs = some (others, us) ∧
      qs = q :: others := by
  simp only [takingEach, andThen, accept, Option.bind_eq_some_iff, Prod.exists, Option.some.injEq,
    Prod.mk.injEq]
  constructor
  · rintro ⟨q, vs, hq, others, _, hothers, rfl, rfl⟩
    exact ⟨q, others, vs, hq, hothers, rfl⟩
  · rintro ⟨q, others, vs, hq, hothers, rfl⟩
    exact ⟨q, vs, hq, others, us, hothers, rfl, rfl⟩

/-- After a production that was taken, the others are taken from what is left over. -/
theorem takingEach_cons_of_some (h : p.taking ts = some (q, us)) : takingEach (p :: ps) ts =
    (takingEach ps us).map fun (qs, vs) => (q :: qs, vs) := by
  rw [takingEach, andThen, h]
  cases hps : takingEach ps us <;> simp [andThen, hps, accept]

theorem takingEach_cons_of_none (h : p.taking ts = none) : takingEach (p :: ps) ts = none := by
  rw [takingEach, andThen, h]
  rfl

theorem taking_nonEmpty_eq_some_iff :
    (nonEmpty p).taking ts = some (q, us) ↔ p.taking ts = some (q, us) ∧ q.tokens ≠ [] := by
  simp only [taking, andThen, Option.bind_eq_some_iff, Prod.exists]
  constructor
  · rintro ⟨q', vs, hq, h⟩
    split at h
    · cases h
    · rename_i hfilled
      cases h
      exact ⟨hq, fun hnil => hfilled (List.isEmpty_iff.2 hnil)⟩
  · rintro ⟨hq, hfilled⟩
    exact ⟨q, us, hq, by rw [if_neg (fun h => hfilled (List.isEmpty_iff.1 h))]; rfl⟩

/-! ## Alternatives -/

theorem taking_alternatives : (alternatives ps).taking = takingFirst ps := by
  rw [taking]

theorem takingFirst_nil_ne_some : takingFirst [] ts ≠ some (q, us) := by
  simp [takingFirst]

theorem takingFirst_cons_eq_some_iff : takingFirst (p :: ps) ts = some (q, us) ↔
    p.taking ts = some (q, us) ∨ p.taking ts = none ∧ takingFirst ps ts = some (q, us) := by
  rw [takingFirst, orElse, Option.or_eq_some_iff]

theorem takingFirst_cons_of_some (h : p.taking ts = some (q, us)) :
    takingFirst (p :: ps) ts = some (q, us) :=
  takingFirst_cons_eq_some_iff.2 (.inl h)

theorem takingFirst_cons_of_none (h : p.taking ts = none) :
    takingFirst (p :: ps) ts = takingFirst ps ts := by
  rw [takingFirst, orElse, h, Option.none_or]

/-- A token of one of several patterns. -/
theorem taking_oneOf_eq_some_iff {patterns : List TokenPattern} :
    (alternatives (patterns.map token)).taking ts = some (q, us) ↔
      ∃ t, (∃ pattern ∈ patterns, pattern.accepts t) ∧ q = .token t ∧ ts = t :: us := by
  rw [taking_alternatives]
  induction patterns with
  | nil => simp [takingFirst]
  | cons pattern patterns ih =>
    rw [List.map_cons, takingFirst_cons_eq_some_iff, ih, taking_token_eq_some_iff]
    constructor
    · rintro (⟨t, ht, hq⟩ | ⟨-, t, ⟨pattern', hmem, ht⟩, hq⟩)
      · exact ⟨t, ⟨pattern, List.mem_cons_self, ht⟩, hq⟩
      · exact ⟨t, ⟨pattern', List.mem_cons_of_mem _ hmem, ht⟩, hq⟩
    · rintro ⟨t, ⟨pattern', hmem, ht⟩, rfl, rfl⟩
      by_cases hfirst : pattern.accepts t
      · exact .inl ⟨t, hfirst, rfl, rfl⟩
      · refine .inr ⟨by simp [taking, tokenIf, hfirst], t, ⟨pattern', ?_, ht⟩, rfl, rfl⟩
        rcases List.mem_cons.1 hmem with rfl | hmem
        · exact absurd ht hfirst
        · exact hmem

theorem taking_eq_none_of_forall (h : ∀ q us, p.taking ts ≠ some (q, us)) : p.taking ts = none := by
  cases hp : p.taking ts with
  | none => rfl
  | some found => exact absurd hp (h found.1 found.2)

/-! ## White-space -/

theorem taking_optional (p : Production) (ts : List Token) : (optional p).taking ts =
    some (match p.taking ts with
      | some (q, us) => (.group [q], us)
      | none => (.group [], ts)) :=
  (congrFun (taking_repetition 0 (some 1)) ts).trans (ofRepetition_once ts)

theorem taking_optional_eq_some_iff : (optional p).taking ts = some (q, us) ↔
    (∃ q', p.taking ts = some (q', us) ∧ q = .group [q']) ∨
      p.taking ts = none ∧ q = .group [] ∧ ts = us := by
  rw [taking_optional]
  cases p.taking ts with
  | none => simp [eq_comm]
  | some found =>
    rcases found with ⟨q', vs⟩
    simp only [Option.some.injEq, Prod.mk.injEq, reduceCtorEq, false_and, or_false]
    constructor
    · rintro ⟨rfl, rfl⟩
      exact ⟨q', ⟨rfl, rfl⟩, rfl⟩
    · rintro ⟨_, ⟨rfl, rfl⟩, rfl⟩
      exact ⟨rfl, rfl⟩

/-- Without separators the first repetition is like every other. -/
theorem repetition_accept_nil (e : Taking Product) (first : Bool) (ts : List Token) :
    Taking.repetition e (accept []) first ts = (e ts).map fun (q, us) => ([q], us) := by
  cases first <;> cases hq : e ts <;> simp [Taking.repetition, andThen, accept, hq]

theorem repetition_true_eq_some_iff {e : Taking Product} {s : Taking (List Product)} :
    Taking.repetition e s true ts = some (qs, us) ↔ ∃ q, e ts = some (q, us) ∧ qs = [q] := by
  simp only [Taking.repetition, if_true, andThen, accept, Option.bind_eq_some_iff, Prod.exists,
    Option.some.injEq, Prod.mk.injEq]
  constructor
  · rintro ⟨q, _, hq, rfl, rfl⟩
    exact ⟨q, hq, rfl⟩
  · rintro ⟨q, hq, rfl⟩
    exact ⟨q, us, hq, rfl, rfl⟩

/-- Each repetition after the first is a separator and an element. -/
theorem repetition_false_eq_some_iff {e s : Taking Product} :
    Taking.repetition e (s.andThen fun p => accept [p]) false ts = some (qs, us) ↔
      ∃ separator vs q, s ts = some (separator, vs) ∧ e vs = some (q, us) ∧ qs = [separator, q] := by
  simp only [Taking.repetition, Bool.false_eq_true, if_false, andThen, accept,
    Option.bind_eq_some_iff, Prod.exists, Option.some.injEq, Prod.mk.injEq]
  constructor
  · rintro ⟨_, _, ⟨separator, vs, hseparator, rfl, rfl⟩, q, _, hq, rfl, rfl⟩
    exact ⟨separator, vs, q, hseparator, hq, rfl⟩
  · rintro ⟨separator, vs, q, hseparator, hq, rfl⟩
    exact ⟨[separator], vs, ⟨separator, vs, hseparator, rfl, rfl⟩, q, us, hq, rfl, rfl⟩

private theorem repeated_tokenIf (p : Token → Bool) {limit : Nat} (first : Bool)
    (h : ts.length < limit) : repeated (tokenIf p) (accept []) limit first ts =
      (((ts.takeWhile p).map .token, (ts.takeWhile p).length), ts.dropWhile p) := by
  induction limit generalizing ts first with
  | zero => omega
  | succ limit ih =>
    rw [repeated, repetition_accept_nil]
    cases ts with
    | nil => rfl
    | cons t ts =>
      by_cases ht : p t
      · have hlen : ts.length < limit := Nat.lt_of_succ_lt_succ h
        simp [tokenIf, ht, ih false hlen]
      · simp [tokenIf, ht]

/-- White-space that may be there is taken as far as it goes. -/
theorem exists_taking_gap (ts : List Token) : ∃ q,
    (optional whitespace).taking ts = some (q, ts.dropWhile Token.isWhite) ∧
      q.tokens = ts.takeWhile Token.isWhite := by
  have hpattern : (⟨.whitespace, none, none⟩ : TokenPattern).accepts = Token.isWhite :=
    funext fun t => Bool.eq_iff_iff.2 (TokenPattern.accepts_whitespace t)
  have hwhite : whitespace.taking ts = if 1 ≤ (ts.takeWhile Token.isWhite).length then
      some (.group ((ts.takeWhile Token.isWhite).map .token), ts.dropWhile Token.isWhite)
    else none := by
    simp only [whitespace, ofClass, taking, hpattern, ofRepetition, Option.getD_none,
      repeated_tokenIf Token.isWhite true (Nat.lt_add_of_pos_right Nat.two_pos)]
  rw [taking_optional, hwhite]
  by_cases hlen : 1 ≤ (ts.takeWhile Token.isWhite).length
  · rw [if_pos hlen]
    exact ⟨_, rfl, by simp [Product.tokens, Product.listTokens]⟩
  · have hnil : ts.takeWhile Token.isWhite = [] := by
      rw [← List.length_eq_zero_iff]
      omega
    have hdrop := List.takeWhile_append_dropWhile (p := Token.isWhite) (l := ts)
    rw [hnil, List.nil_append] at hdrop
    rw [if_neg hlen, hdrop, hnil]
    exact ⟨_, rfl, rfl⟩

theorem areWhite_of_taking_gap (h : (optional whitespace).taking ts = some (q, us)) :
    AreWhite q.tokens := by
  obtain ⟨q', hq', htokens⟩ := exists_taking_gap ts
  rw [hq'] at h
  cases h
  rw [htokens]
  exact fun t ht => List.mem_takeWhile_imp ht

theorem taking_gap_of_areWhite {gap : List Token} (hgap : AreWhite gap) (hus : StartsSolid us) :
    ∃ q, (optional whitespace).taking (gap ++ us) = some (q, us) := by
  obtain ⟨q, hq, -⟩ := exists_taking_gap (gap ++ us)
  have hdrop : us.dropWhile Token.isWhite = us := by
    cases us with
    | nil => rfl
    | cons t us => simp [hus t rfl]
  rw [List.dropWhile_append_of_pos hgap, hdrop] at hq
  exact ⟨q, hq⟩

/-! ## Any value -/

theorem taking_anyValue_eq_some_iff : anyValue.taking ts = some (q, us) ↔
    ∃ args, args ≠ [] ∧ q = .group (args.map .token) ∧ ts = args ++ us ∧
      takeAnyValue .zero ts = args := by
  have hts := List.prefix_iff_eq_append.1 (takeAnyValue_isPrefix .zero ts)
  simp only [taking, Taking.anyValue]
  by_cases hnil : (takeAnyValue .zero ts).isEmpty
  · rw [if_pos hnil]
    constructor
    · intro h
      cases h
    · rintro ⟨args, hne, -, -, rfl⟩
      exact absurd (List.isEmpty_iff.1 hnil) hne
  · rw [if_neg hnil]
    constructor
    · intro h
      cases h
      exact ⟨_, by simpa using hnil, rfl, hts.symm, rfl⟩
    · rintro ⟨args, -, rfl, hargs, rfl⟩
      conv at hargs => lhs; rw [← hts]
      rw [List.append_cancel_left hargs]

/-- What is taken in front of a token at which any value ends does not depend on what follows it. -/
theorem takeAnyValue_append_cons_iff (counts : BracketCounts) (args : List Token) (t : Token)
    (us vs : List Token) : takeAnyValue counts (args ++ t :: us) = args ↔
      takeAnyValue counts (args ++ t :: vs) = args := by
  induction args generalizing counts with
  | nil =>
    simp only [List.nil_append, takeAnyValue]
    split
    · rfl
    · rfl
    · simp
    · split <;> simp
    · simp
  | cons a args ih =>
    simp only [List.cons_append, takeAnyValue]
    split
    · rfl
    · rfl
    · simp [ih]
    · split <;> simp [ih]
    · simp [ih]

/-! ## Commas -/

/-- A comma, and white-space around it. -/
inductive IsSeparator : List Token → Prop
  | comma {before after : List Token} {mark : Token} : AreWhite before → mark.kind = .comma →
      AreWhite after → IsSeparator (before ++ mark :: after)

theorem IsSeparator.ne_nil (h : IsSeparator ts) : ts ≠ [] := by
  cases h with
  | comma => simp

theorem isSeparator_of_taking (h : comma.taking ts = some (q, us)) : IsSeparator q.tokens := by
  obtain ⟨qs, rfl, h₀⟩ := taking_juxtaposition_eq_some_iff.1 h
  obtain ⟨before, _, _, hbefore, h₁, rfl⟩ := takingEach_cons_eq_some_iff.1 h₀
  obtain ⟨_, _, _, hmark, h₂, rfl⟩ := takingEach_cons_eq_some_iff.1 h₁
  obtain ⟨after, _, _, hafter, h₃, rfl⟩ := takingEach_cons_eq_some_iff.1 h₂
  obtain ⟨rfl, -⟩ := takingEach_nil_eq_some_iff.1 h₃
  obtain ⟨mark, hkind, rfl, -⟩ := (taking_class_eq_some_iff (by decide)).1 hmark
  simp only [Product.tokens, Product.listTokens, List.append_nil, List.singleton_append]
  exact .comma (areWhite_of_taking_gap hbefore) (TokenKind.tokenClass_eq_comma_iff.1 hkind)
    (areWhite_of_taking_gap hafter)

theorem taking_comma_of_isSeparator (h : IsSeparator vs) (hus : StartsSolid us) :
    ∃ q, comma.taking (vs ++ us) = some (q, us) := by
  rcases h with ⟨hbefore, hmark, hafter⟩
  rename_i before after mark
  have hsolid : StartsSolid (mark :: (after ++ us)) := by
    rintro t ⟨⟩
    rw [Token.isWhite, hmark]
    rfl
  obtain ⟨g, hg⟩ := taking_gap_of_areWhite hbefore hsolid
  obtain ⟨g', hg'⟩ := taking_gap_of_areWhite hafter hus
  have hclass : (ofClass .comma).taking (mark :: (after ++ us)) =
      some (.token mark, after ++ us) :=
    (taking_class_eq_some_iff (by decide)).2
      ⟨mark, TokenKind.tokenClass_eq_comma_iff.2 hmark, rfl, rfl⟩
  rw [List.append_assoc, List.cons_append]
  refine ⟨.group [g, .token mark, g'], taking_juxtaposition_eq_some_iff.2 ⟨_, rfl, ?_⟩⟩
  rw [takingEach_cons_of_some hg, takingEach_cons_of_some hclass, takingEach_cons_of_some hg']
  rfl

/-- A separator ends where what is not white-space begins. -/
theorem IsSeparator.eq_of_append {ws us' : List Token} (h : IsSeparator vs) (h' : IsSeparator ws)
    (hus : StartsSolid us) (hus' : StartsSolid us') (heq : vs ++ us = ws ++ us') : us = us' := by
  obtain ⟨q, hq⟩ := taking_comma_of_isSeparator h hus
  obtain ⟨q', hq'⟩ := taking_comma_of_isSeparator h' hus'
  rw [← heq, hq] at hq'
  exact (Prod.mk.inj (Option.some.inj hq')).2

end Production

end Styling
