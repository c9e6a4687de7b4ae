import Styling.Proofs.Grammar.Answers
import Styling.Proofs.Selector.Compound
import Styling.Proofs.Selector.Parse

/-!
# The selector lists that are accepted

A selector list is read exactly where the tokens, without the white-space at their ends, are written as
one; they are so in one way, and it says what is read. Everything else is refused with an error of the
category for selectors (`SelectorList.ofTokens_eq_ok_iff_isWritten`).
-/

namespace Styling.SelectorList

open Production Taking Selector Selector.Grammar

variable {ts us : List Token} {q : Product} {compounds compounds' : List (List Part)}

private abbrev separators : Taking (List Product) := comma.taking.andThen fun p => accept [p]

private theorem taking_selectorList (ts : List Token) : selectorList.taking ts =
    ofRepetition compoundSelector.taking separators 1 none ts := by
  simp only [selectorList, compoundSelectorList, commaSeparated, taking_reference]
  rw [taking, taking_reference]

private theorem isProgressive_compounds : IsProgressive compoundSelector.taking separators := by
  refine isProgressive_of_tokens_ne_nil (keeps_taking _) (keeps_single (keeps_taking _))
    fun ts q us hq => ?_
  obtain ⟨parts, hparts, htokens, -⟩ := exists_isCompound_of_taking hq
  obtain ⟨t, ts', hcons, -⟩ := hparts.exists_cons
  rw [← htokens, hcons]
  exact List.cons_ne_nil t ts'

/-! ## What is read is written as a list -/

/-- After one compound selector, each further one comes after a separator. -/
private theorem exists_isWritten_of_repeats {first : Bool} {qs : List Product} {n : Nat}
    (h : Repeats compoundSelector.taking separators first ts qs n us) (hfirst : first = false)
    {parts : List Part} (hparts : IsCompound parts)
    (hq : Selector.ofProduct? q = some (ofParts parts)) :
    ∃ compounds, IsWritten (tokensOf parts ++ Product.listTokens qs) (parts :: compounds) ∧
      (elementsOf (q :: qs)).mapM Selector.ofProduct? =
        some ((parts :: compounds).map ofParts) := by
  induction h generalizing q parts with
  | stop =>
    refine ⟨[], ?_, by simp [elementsOf, hq]⟩
    rw [Product.listTokens, List.append_nil]
    exact .single hparts
  | @next first ts ps us qs n vs hstep _ ih =>
    subst hfirst
    obtain ⟨separator, ws, q', hseparator, hq', rfl⟩ := repetition_false_eq_some_iff.1 hstep
    obtain ⟨parts', hparts', htokens', hselector'⟩ := exists_isCompound_of_taking hq'
    obtain ⟨compounds, hwritten, hselectors⟩ := ih rfl hparts' hselector'
    refine ⟨parts' :: compounds, ?_, ?_⟩
    · have hlist := IsWritten.cons hparts (isSeparator_of_taking hseparator) hwritten
      rw [htokens'] at hlist
      simpa [Product.listTokens] using hlist
    · rw [List.cons_append, elementsOf, List.mapM_cons, hq]
      simp only [List.cons_append, List.nil_append, hselectors]
      rfl

theorem exists_isWritten_of_taking (h : selectorList.taking ts = some (q, us)) :
    ∃ compounds, IsWritten q.tokens compounds ∧ ofProduct? q = some (ofCompounds compounds) := by
  rw [taking_selectorList, ofRepetition_eq_some_iff isProgressive_compounds] at h
  obtain ⟨ps, n, rfl, hrepeats, hn⟩ := h
  cases hrepeats with
  | stop => omega
  | next hstep hothers =>
    obtain ⟨q, hq, rfl⟩ := repetition_true_eq_some_iff.1 hstep
    obtain ⟨parts, hparts, htokens, hselector⟩ := exists_isCompound_of_taking hq
    obtain ⟨compounds, hwritten, hselectors⟩ :=
      exists_isWritten_of_repeats hothers rfl hparts hselector
    refine ⟨parts :: compounds, ?_, ?_⟩
    · rw [htokens] at hwritten
      simpa [Product.tokens, Product.listTokens] using hwritten
    · simp only [ofProduct?, List.singleton_append, hselectors]
      rfl

/-! ## What is written as a list is read -/

theorem IsWritten.exists_cons (h : IsWritten ts compounds) :
    ∃ t ts', ts = t :: ts' ∧ t.isWhite = false ∧ t.kind ≠ .comma := by
  cases h with
  | single hparts => exact hparts.exists_cons
  | cons hparts =>
    obtain ⟨t, ts', hcons, hkind⟩ := hparts.exists_cons
    rw [hcons]
    exact ⟨t, _, rfl, hkind⟩

theorem IsWritten.startsSolid (h : IsWritten ts compounds) : StartsSolid ts := by
  obtain ⟨t, ts', rfl, hwhite, -⟩ := h.exists_cons
  exact startsSolid_cons hwhite

theorem stops_append_of_isSeparator {separator : List Token} (h : IsSeparator separator) :
    Stops (separator ++ us) := by
  cases h with
  | @comma before after mark hbefore hmark _ =>
    rintro t ht
    cases before with
    | nil =>
      obtain rfl := Option.some.inj ht
      exact .inr hmark
    | cons b before =>
      obtain rfl := Option.some.inj ht
      exact .inl (hbefore b List.mem_cons_self)

private theorem stops_nil : Stops [] := fun t ht => by cases ht

private theorem repeats_of_isWritten (h : IsWritten ts compounds) : ∃ q vs qs n,
    compoundSelector.taking ts = some (q, vs) ∧
      Repeats compoundSelector.taking separators false vs qs n [] ∧
      (elementsOf (q :: qs)).mapM Selector.ofProduct? = some (compounds.map ofParts) := by
  induction h with
  | single hparts =>
    obtain ⟨q, hq, hselector⟩ := taking_of_isCompound hparts stops_nil
    rw [List.append_nil] at hq
    have hstop : repetition compoundSelector.taking separators false [] = none := by
      refine Option.eq_none_iff_forall_ne_some.2 fun found hfound => ?_
      obtain ⟨separator, ws, q', hseparator, -⟩ := repetition_false_eq_some_iff.1 hfound
      exact (isSeparator_of_taking hseparator).ne_nil
        (List.append_eq_nil_iff.1 (tokens_append_of_taking hseparator)).1
    exact ⟨q, [], [], 0, hq, .stop hstop, by simp [elementsOf, hselector]⟩
  | @cons parts separator ts compounds hparts hseparator hwritten ih =>
    obtain ⟨q', vs, qs, n, hq', hrepeats, hselectors⟩ := ih
    have hstops : Stops (separator ++ ts) := stops_append_of_isSeparator hseparator
    obtain ⟨q, hq, hselector⟩ := taking_of_isCompound hparts hstops
    obtain ⟨s, hs⟩ := taking_comma_of_isSeparator hseparator hwritten.startsSolid
    refine ⟨q, separator ++ ts, [s, q'] ++ qs, n + 1, hq,
      .next (repetition_false_eq_some_iff.2 ⟨s, ts, q', hs, hq', rfl⟩) hrepeats, ?_⟩
    rw [List.cons_append, elementsOf, List.mapM_cons, hselector]
    simp only [List.cons_append, List.nil_append, hselectors]
    rfl

theorem taking_of_isWritten (h : IsWritten ts compounds) : ∃ q,
    selectorList.taking ts = some (q, []) ∧ ofProduct? q = some (ofCompounds compounds) := by
  obtain ⟨q, vs, qs, n, hq, hrepeats, hselectors⟩ := repeats_of_isWritten h
  refine ⟨.group ([q] ++ qs), ?_, ?_⟩
  · rw [taking_selectorList, ofRepetition_eq_some_iff isProgressive_compounds]
    exact ⟨_, n + 1, rfl, .next (repetition_true_eq_some_iff.2 ⟨q, hq, rfl⟩) hrepeats,
      Nat.succ_pos n⟩
  · simp only [ofProduct?, List.singleton_append, hselectors]
    rfl

/-! ## There is one way to write a list -/

/-- Tokens are written as a list of compound selectors in one way. -/
theorem IsWritten.unique {ts' : List Token} (h : IsWritten ts compounds)
    (h' : IsWritten ts' compounds') (heq : ts = ts') : compounds = compounds' := by
  induction h generalizing ts' compounds' with
  | @single parts hparts =>
    rw [← List.append_nil (tokensOf parts)] at heq
    cases h' with
    | @single parts' hparts' =>
      rw [← List.append_nil (tokensOf parts')] at heq
      obtain ⟨rfl, -⟩ := hparts.eq_of_append hparts' stops_nil stops_nil heq
      rfl
    | cons hparts' hseparator' =>
      have hnil := (hparts.eq_of_append hparts' stops_nil
        (stops_append_of_isSeparator hseparator') heq).2
      exact absurd (List.append_eq_nil_iff.1 hnil.symm).1 hseparator'.ne_nil
  | cons hparts hseparator hwritten ih =>
    cases h' with
    | @single parts' hparts' =>
      rw [← List.append_nil (tokensOf parts')] at heq
      have hnil := (hparts.eq_of_append hparts' (stops_append_of_isSeparator hseparator)
        stops_nil heq).2
      exact absurd (List.append_eq_nil_iff.1 hnil).1 hseparator.ne_nil
    | cons hparts' hseparator' hwritten' =>
      obtain ⟨rfl, hrest⟩ := hparts.eq_of_append hparts' (stops_append_of_isSeparator hseparator)
        (stops_append_of_isSeparator hseparator') heq
      have hts := hseparator.eq_of_append hseparator' hwritten.startsSolid hwritten'.startsSolid
        hrest
      rw [ih hwritten' hts]

/-! ## Reading lists -/

section Trimmed

variable {t : Token}

theorem ofTrimmed_of_none (h : selectorList.taking (t :: ts) = none) : ofTrimmed (t :: ts) =
    .error (.ofCategory .selector t.location (some (sourceOf (t :: ts)))) := by
  have hrest : (Cursor.ofList (t :: ts)).rest = t :: ts := rfl
  obtain ⟨n, hread⟩ := (answers_read selectorList isUsable_selectorList).1.none (hrest ▸ h)
  unfold ofTrimmed
  dsimp only
  rw [hread]

private theorem exists_read_of_some (h : selectorList.taking ts = some (q, us)) : ∃ c,
    selectorList.read (Cursor.ofList ts) = .ok (some q, c) ∧ c.next? = us.head? := by
  have hrest : (Cursor.ofList ts).rest = ts := rfl
  obtain ⟨taken, htaken, hread⟩ :=
    (answers_read selectorList isUsable_selectorList).1.some (hrest ▸ h)
  refine ⟨_, hread, ?_⟩
  simp only [Cursor.next?, Cursor.advance, Cursor.ofList, Nat.zero_add]
  rw [← hrest, htaken, List.getElem?_append_right (Nat.le_refl _), Nat.sub_self,
    List.head?_eq_getElem?]

theorem ofTrimmed_of_some {l : SelectorList}
    (h : selectorList.taking (t :: ts) = some (q, [])) (hq : ofProduct? q = some l) :
    ofTrimmed (t :: ts) = .ok l := by
  obtain ⟨c, hread, hnext⟩ := exists_read_of_some h
  unfold ofTrimmed
  dsimp only
  rw [hread]
  dsimp only
  rw [hnext, hq, List.head?_nil]

theorem ofTrimmed_of_left {u : Token}
    (h : selectorList.taking (t :: ts) = some (q, u :: us)) :
    ofTrimmed (t :: ts) = .error (unexpected u) := by
  obtain ⟨c, hread, hnext⟩ := exists_read_of_some h
  unfold ofTrimmed
  dsimp only
  rw [hread]
  dsimp only
  rw [hnext, List.head?_cons]

/-- What is refused is refused at one of the tokens. -/
theorem exists_location_of_ofTrimmed_eq_error {e : ParseError}
    (h : ofTrimmed (t :: ts) = .error e) : ∃ u ∈ t :: ts, e.location = some u.location := by
  cases htaking : selectorList.taking (t :: ts) with
  | none =>
    obtain rfl := Except.error.inj ((ofTrimmed_of_none htaking).symm.trans h)
    exact ⟨t, List.mem_cons_self, rfl⟩
  | some found =>
    obtain ⟨q, us⟩ := found
    cases us with
    | nil =>
      obtain ⟨compounds, -, hselectors⟩ := exists_isWritten_of_taking htaking
      cases (ofTrimmed_of_some htaking hselectors).symm.trans h
    | cons u us =>
      obtain rfl := Except.error.inj ((ofTrimmed_of_left htaking).symm.trans h)
      refine ⟨u, ?_, rfl⟩
      rw [← tokens_append_of_taking htaking]
      exact List.mem_append_right _ List.mem_cons_self

end Trimmed

/-- Unless there is nothing but white-space, what is refused is refused at one of the tokens. -/
theorem exists_location_of_ofTokens_eq_error {e : ParseError} (h : ofTokens ts = .error e)
    (hts : ∃ t ∈ ts, t.isWhite = false) : ∃ u ∈ ts, e.location = some u.location := by
  have htrim := dropTrailing_append_takeTrailing Token.isWhite (ts.dropWhile Token.isWhite)
  rw [ofTokens] at h
  cases hcore : dropTrailing Token.isWhite (ts.dropWhile Token.isWhite) with
  | nil =>
    -- All of the tokens are white-space.
    rw [hcore, List.nil_append] at htrim
    have hall : ∀ t ∈ ts, t.isWhite = true := by
      intro t ht
      rw [← List.takeWhile_append_dropWhile (p := Token.isWhite) (l := ts), ← htrim] at ht
      rcases List.mem_append.1 ht with ht | ht
      · exact List.mem_takeWhile_imp ht
      · exact List.mem_takeWhile_imp (List.mem_reverse.1 ht)
    obtain ⟨t, ht, hwhite⟩ := hts
    cases (hall t ht).symm.trans hwhite
  | cons t us =>
    rw [hcore] at h htrim
    obtain ⟨u, hu, hlocation⟩ := exists_location_of_ofTrimmed_eq_error h
    have hmem : u ∈ ts.dropWhile Token.isWhite := by
      rw [← htrim]
      exact List.mem_append_left _ hu
    exact ⟨u, (List.dropWhile_suffix Token.isWhite).subset hmem, hlocation⟩

/-- Tokens are written as a list, and then it is what is read, or they are not, and then reading fails
with an error of the category for selectors. -/
theorem ofTrimmed_cases (ts : List Token) :
    (∃ compounds, IsWritten ts compounds ∧ ofTrimmed ts = .ok (ofCompounds compounds)) ∨
      (∃ e, ofTrimmed ts = .error e ∧ e.category = .selector) ∧ ∀ compounds, ¬ IsWritten ts compounds := by
  cases ts with
  | nil =>
    refine .inr ⟨⟨_, rfl, rfl⟩, fun compounds h => ?_⟩
    obtain ⟨t, ts', hcons, -⟩ := h.exists_cons
    cases hcons
  | cons t ts =>
    cases htaking : selectorList.taking (t :: ts) with
    | none =>
      have hinvalid := ofTrimmed_of_none htaking
      refine .inr ⟨⟨_, hinvalid, rfl⟩, fun compounds h => ?_⟩
      obtain ⟨q, hq, -⟩ := taking_of_isWritten h
      cases htaking.symm.trans hq
    | some found =>
      obtain ⟨q, us⟩ := found
      cases us with
      | nil =>
        obtain ⟨compounds, hwritten, hselectors⟩ := exists_isWritten_of_taking htaking
        rw [← List.append_nil q.tokens, tokens_append_of_taking htaking] at hwritten
        exact .inl ⟨compounds, hwritten, ofTrimmed_of_some htaking hselectors⟩
      | cons u us =>
        have hunexpected := ofTrimmed_of_left htaking
        refine .inr ⟨⟨_, hunexpected, rfl⟩, fun compounds h => ?_⟩
        obtain ⟨q', hq', -⟩ := taking_of_isWritten h
        cases htaking.symm.trans hq'

theorem ofTrimmed_eq_ok_iff {l : SelectorList} : ofTrimmed ts = .ok l ↔
    ∃ compounds, IsWritten ts compounds ∧ l = ofCompounds compounds := by
  rcases ofTrimmed_cases ts with ⟨compounds, hwritten, hok⟩ | ⟨⟨e, herror, -⟩, hnone⟩
  · rw [hok]
    constructor
    · intro h
      exact ⟨compounds, hwritten, (Except.ok.inj h).symm⟩
    · rintro ⟨compounds', hwritten', rfl⟩
      rw [hwritten.unique hwritten' rfl]
  · rw [herror]
    constructor
    · intro h
      cases h
    · rintro ⟨compounds, hwritten, -⟩
      exact absurd hwritten (hnone compounds)

/-- What is refused is refused with an error of the category for selectors. -/
theorem category_of_ofTokens_eq_error {e : ParseError} (h : ofTokens ts = .error e) :
    e.category = .selector := by
  rcases ofTrimmed_cases (dropTrailing Token.isWhite (ts.dropWhile Token.isWhite)) with
    ⟨_, -, hok⟩ | ⟨⟨e', herror, hcategory⟩, -⟩
  · cases hok.symm.trans h
  · obtain rfl := Except.error.inj (herror.symm.trans h)
    exact hcategory

/-- A selector list is read where the tokens without the white-space at their ends are written as one,
which they are in one way at most; it has a selector for each compound selector, with a component for
each part. In every other case there is an error of the category for selectors: the grammar is read
without a fault, and no product of it is left unconverted. -/
theorem ofTokens_eq_ok_iff_isWritten (ts : List Token) :
    let core := dropTrailing Token.isWhite (ts.dropWhile Token.isWhite)
    (∀ l, ofTokens ts = .ok l ↔ ∃ compounds, IsWritten core compounds ∧ l = ofCompounds compounds) ∧
      (∀ compounds compounds', IsWritten core compounds → IsWritten core compounds' →
        compounds = compounds') ∧
      (∀ e, ofTokens ts = .error e → e.category = .selector) ∧
      ∃ found c, selectorList.read (Cursor.ofList core) = .ok (found, c) ∧
        ∀ p ∈ found, (ofProduct? p).isSome := by
  intro core
  obtain ⟨found, c, hread, -, hfound⟩ := gives_read (Cursor.ofList core)
  exact ⟨fun l => ofTrimmed_eq_ok_iff, fun _ _ h h' => h.unique h' rfl,
    fun e he => category_of_ofTokens_eq_error he, found, c, hread, hfound⟩

end Styling.SelectorList
