import Styling.Proofs.Token.NameBoundary

/-!
# Token boundaries

A token may be scanned with a look at characters after it. Where these start with a mark that is always a
token by itself, or there are none, the token is the same whatever they are (`Lexer.carries_scanLexeme`).
-/

namespace Styling.Lexer

variable {u v : List Char}

/-! ## Quoted text -/

section Quoted

variable (hne : u ≠ []) (hu : EndsToken u) (hv : EndsToken v)

include hne hv in
theorem carries_scanComment : Carries u v scanComment := by
  intro cs w h
  generalize hx : cs ++ u = x at h ⊢
  fun_induction scanComment x generalizing cs w with
  | case1 => exact absurd (List.append_eq_nil_iff.1 hx).2 hne
  | case2 x =>
    have hsuffix : w ++ u <:+ x := h ▸ List.suffix_refl x
    obtain ⟨cs, rfl, htail⟩ := exists_cons_of_isSuffix hx (hsuffix.trans (List.suffix_cons _ x))
    obtain ⟨cs, rfl, rfl⟩ := exists_cons_of_isSuffix htail.symm hsuffix
    obtain rfl := List.append_cancel_right h
    rfl
  | case3 c x hmark =>
    rename_i ih
    obtain ⟨cs, rfl, rfl⟩ := exists_cons_of_isSuffix hx (h ▸ isSuffix_scanComment x)
    rw [List.cons_append, scanComment]
    · simp only [ih cs w rfl h]
      rfl
    · intro rest hstar hrest
      cases cs with
      | nil =>
        rw [List.nil_append] at hrest
        have hslash := hv '/' (by rw [hrest]; rfl)
        simp [marks] at hslash
      | cons d cs =>
        obtain ⟨rfl, rfl⟩ := List.cons.inj hrest
        exact hmark (cs ++ u) hstar rfl

theorem scanString_of_eq {ending c : Char} {cs : List Char} (h : c == ending) :
    scanString ending (c :: cs) = ⟨some [], cs, []⟩ := by
  rw [scanString.eq_def]
  exact if_pos h

private theorem scanString_of_break {ending c : Char} {cs : List Char} (hne : ¬ c == ending)
    (h : c == '\n') : scanString ending (c :: cs) = ⟨none, c :: cs, [.newlineInString]⟩ := by
  rw [scanString.eq_def]
  exact (if_neg hne).trans (if_pos h)

theorem scanString_of_slash {ending c d : Char} {cs : List Char} (hne : ¬ c == ending)
    (hbreak : ¬ c == '\n') (h : c == '\\') (hd : d ≠ '\n') : scanString ending (c :: d :: cs) =
      let e := scanEscape (d :: cs)
      let s := scanString ending e.rest
      ⟨s.value.map (e.value :: ·), s.rest, e.notes ++ s.notes⟩ := by
  rw [scanString.eq_def]
  dsimp only
  rw [if_neg hne, if_neg hbreak, if_pos h]
  split
  · contradiction
  · rename_i hcons
    exact absurd (List.cons.inj hcons).1 hd
  · rename_i hcons
    obtain ⟨rfl, rfl⟩ := List.cons.inj hcons
    rfl

theorem scanString_of_char {ending c : Char} {cs : List Char} (hne : ¬ c == ending)
    (hbreak : ¬ c == '\n') (h : ¬ c == '\\') : scanString ending (c :: cs) =
      let s := scanString ending cs
      ⟨s.value.map (c :: ·), s.rest, s.notes⟩ := by
  rw [scanString.eq_def]
  dsimp only
  rw [if_neg hne, if_neg hbreak, if_neg h]

include hne hu hv in
theorem carries_scanString (ending : Char) : Carries u v (scanString ending) := by
  have hend : u = [] → v = [] := fun hnil => absurd hnil hne
  intro cs w h
  generalize hx : cs ++ u = x at h ⊢
  fun_induction scanString ending x generalizing cs w with
  | case1 => exact absurd (List.append_eq_nil_iff.1 hx).2 hne
  | case2 c x hclose =>
    obtain ⟨cs, rfl, rfl⟩ := exists_cons_of_isSuffix (w := w) hx (h ▸ List.suffix_refl x)
    rw [List.cons_append, scanString_of_eq hclose, List.append_cancel_right h]
  | case3 c x hclose hbreak =>
    obtain rfl : cs = w := List.append_cancel_right (hx.trans h)
    cases cs with
    | nil =>
      -- Then `u` would begin with the line break.
      rw [List.nil_append] at hx
      have hspace := (hu.endsName c (by rw [hx]; rfl)).2.1
      rw [beq_iff_eq.1 hbreak] at hspace
      cases hspace
    | cons d cs =>
      rw [List.cons_append] at hx
      obtain ⟨rfl, rfl⟩ := List.cons.inj hx
      rw [List.cons_append, scanString_of_break hclose hbreak]
  | case4 c hclose hbreak hslash => exact absurd (List.append_eq_nil_iff.1 h.symm).2 hne
  | case5 c hclose hbreak hslash x =>
    rename_i ih
    have hsuffix : w ++ u <:+ x := h ▸ isSuffix_scanString ending x
    obtain ⟨cs, rfl, htail⟩ := exists_cons_of_isSuffix hx (hsuffix.trans (List.suffix_cons _ x))
    obtain ⟨cs, rfl, rfl⟩ := exists_cons_of_isSuffix htail.symm hsuffix
    rw [List.cons_append, List.cons_append, scanString.eq_def]
    exact ((if_neg hclose).trans ((if_neg hbreak).trans (if_pos hslash))).trans (ih cs w rfl h)
  | case6 c hclose hbreak hslash d x hd e =>
    rename_i ih
    have hsuffix : w ++ u <:+ e.rest := h ▸ isSuffix_scanString ending e.rest
    obtain ⟨w', hw'⟩ := exists_append_of_isSuffix hsuffix
    have hescape := isSuffix_scanEscape_cons d x
    obtain ⟨cs, rfl, htail⟩ := exists_cons_of_isSuffix hx
      (hsuffix.trans (hescape.trans (List.suffix_cons d x)))
    obtain ⟨cs, rfl, rfl⟩ := exists_cons_of_isSuffix htail.symm (hsuffix.trans hescape)
    have hcarry := carries_scanEscape hv.endsName hend (d :: cs) w' hw'
    rw [List.cons_append] at hcarry
    rw [List.cons_append, List.cons_append, scanString_of_slash hclose hbreak hslash hd]
    simp only [hcarry, ih w' w hw'.symm h]
    rfl
  | case7 c x hclose hbreak hslash =>
    rename_i ih
    obtain ⟨cs, rfl, rfl⟩ := exists_cons_of_isSuffix hx (h ▸ isSuffix_scanString ending x)
    rw [List.cons_append, scanString_of_char hclose hbreak hslash]
    simp only [ih cs w rfl h]
    rfl

include hne hu hv in
theorem carries_scanBadUrl : Carries u v scanBadUrl := by
  have hend : u = [] → v = [] := fun hnil => absurd hnil hne
  intro cs w h
  generalize hx : cs ++ u = x at h ⊢
  fun_induction scanBadUrl x generalizing cs w with
  | case1 => exact absurd (List.append_eq_nil_iff.1 hx).2 hne
  | case2 c x hclose =>
    obtain ⟨cs, rfl, rfl⟩ := exists_cons_of_isSuffix (w := w) hx (h ▸ List.suffix_refl x)
    rw [List.cons_append, scanBadUrl, if_pos hclose, List.append_cancel_right h]
  | case3 c x hclose hescape e =>
    rename_i ih
    obtain ⟨hslash, hescapes⟩ := Bool.and_eq_true_iff.1 hescape
    have hsuffix : w ++ u <:+ e.rest := h ▸ isSuffix_scanBadUrl e.rest
    obtain ⟨w', hw'⟩ := exists_append_of_isSuffix hsuffix
    obtain ⟨cs, rfl, rfl⟩ := exists_cons_of_isSuffix hx (hsuffix.trans (isSuffix_scanEscape x))
    have hcarry := carries_scanEscape hv.endsName hend cs w' hw'
    have hescapes := hv.endsName.escapes_of_append hescapes
    rw [List.cons_append, scanBadUrl, if_neg hclose, if_pos (by rw [hslash, hescapes]; rfl)]
    simp only [hcarry, ih w' w hw'.symm h]
    rfl
  | case4 c x hclose hescape =>
    rename_i ih
    obtain ⟨cs, rfl, rfl⟩ := exists_cons_of_isSuffix hx (h ▸ isSuffix_scanBadUrl x)
    rw [hu.endsName.escapes_append, ← hv.endsName.escapes_append] at hescape
    rw [List.cons_append, scanBadUrl, if_neg hclose, if_neg hescape]
    exact ih cs w rfl h

/-- A malformed URL takes a character at least, unless there is none. -/
private theorem isSuffix_scanBadUrl_cons (c : Char) (cs : List Char) :
    (scanBadUrl (c :: cs)).rest <:+ cs := by
  rw [scanBadUrl]
  split
  · exact List.suffix_rfl
  · split
    · exact (isSuffix_scanBadUrl _).trans (isSuffix_scanEscape cs)
    · exact isSuffix_scanBadUrl cs

private theorem scanUrlBody_of_space {c : Char} {cs ds : List Char} (hclose : ¬ c == ')')
    (hspace : isWhitespace c) (h : cs.dropWhile isWhitespace = ')' :: ds) :
    scanUrlBody (c :: cs) = ⟨some [], ds, []⟩ := by
  rw [scanUrlBody.eq_def]
  dsimp only
  rw [if_neg hclose, if_pos hspace, h]
  rfl

private theorem scanUrlBody_of_space_bad {c d : Char} {cs ds : List Char} (hclose : ¬ c == ')')
    (hspace : isWhitespace c) (h : cs.dropWhile isWhitespace = d :: ds) (hd : d ≠ ')') :
    scanUrlBody (c :: cs) = ⟨none, (scanBadUrl (d :: ds)).rest, (scanBadUrl (d :: ds)).notes⟩ := by
  rw [scanUrlBody.eq_def]
  dsimp only
  rw [if_neg hclose, if_pos hspace, h]
  split
  · contradiction
  · rename_i hcons
    exact absurd (List.cons.inj hcons).1 hd
  · rfl

include hne hu hv in
theorem carries_scanUrlBody : Carries u v scanUrlBody := by
  have hend : u = [] → v = [] := fun hnil => absurd hnil hne
  intro cs w h
  generalize hx : cs ++ u = x at h ⊢
  fun_induction scanUrlBody x generalizing cs w with
  | case1 => exact absurd (List.append_eq_nil_iff.1 hx).2 hne
  | case2 c x hclose =>
    obtain ⟨cs, rfl, rfl⟩ := exists_cons_of_isSuffix (w := w) hx (h ▸ List.suffix_refl x)
    rw [List.cons_append, scanUrlBody.eq_def]
    dsimp only
    rw [if_pos hclose, List.append_cancel_right h]
  | case3 c x hclose hspace hnil => exact absurd (List.append_eq_nil_iff.1 h.symm).2 hne
  | case4 c x hclose hspace y hdrop =>
    have hsuffix : w ++ u <:+ y := h ▸ List.suffix_refl y
    have htail : y <:+ x := by
      refine (List.suffix_cons ')' y).trans ?_
      rw [← hdrop]
      exact List.dropWhile_suffix isWhitespace
    obtain ⟨cs, rfl, rfl⟩ := exists_cons_of_isSuffix hx (hsuffix.trans htail)
    rw [dropWhile_append hu.isWhitespace_eq_false] at hdrop
    obtain ⟨ds, hds, rfl⟩ := exists_cons_of_isSuffix hdrop hsuffix
    have hdrop' := dropWhile_append hv.isWhitespace_eq_false cs
    rw [hds, List.cons_append] at hdrop'
    rw [List.cons_append, scanUrlBody_of_space hclose hspace hdrop', List.append_cancel_right h]
  | case5 c x hclose hspace hnil hparen =>
    obtain ⟨d, ds, hdrop⟩ := List.exists_cons_of_ne_nil hnil
    have hd : d ≠ ')' := by
      rintro rfl
      exact hparen ds hdrop
    have h : (scanBadUrl (x.dropWhile isWhitespace)).rest = w ++ u := h
    show _ = (⟨none, w ++ v, (scanBadUrl (x.dropWhile isWhitespace)).notes⟩ : Scan _)
    rw [hdrop] at h ⊢
    have hsuffix : w ++ u <:+ ds := h ▸ isSuffix_scanBadUrl_cons d ds
    have htail : ds <:+ x := by
      refine (List.suffix_cons d ds).trans ?_
      rw [← hdrop]
      exact List.dropWhile_suffix isWhitespace
    obtain ⟨cs, rfl, rfl⟩ := exists_cons_of_isSuffix hx (hsuffix.trans htail)
    rw [dropWhile_append hu.isWhitespace_eq_false] at hdrop
    obtain ⟨ds, hds, rfl⟩ := exists_cons_of_isSuffix hdrop hsuffix
    have hcarry := carries_scanBadUrl hne hu hv (d :: ds) w h
    have hdrop' := dropWhile_append hv.isWhitespace_eq_false cs
    rw [hds, List.cons_append] at hdrop'
    rw [List.cons_append] at hcarry
    rw [List.cons_append, scanUrlBody_of_space_bad hclose hspace hdrop' hd, hcarry]
    rfl
  | case6 c x hclose hspace hbad =>
    obtain ⟨cs, rfl, rfl⟩ := exists_cons_of_isSuffix hx (h ▸ isSuffix_scanBadUrl x)
    have hcarry := carries_scanBadUrl hne hu hv cs w h
    rw [List.cons_append, scanUrlBody.eq_def]
    dsimp only
    rw [if_neg hclose, if_neg hspace, if_pos hbad, hcarry]
  | case7 c x hclose hspace hbad hslash hescapes e =>
    rename_i ih
    have hsuffix : w ++ u <:+ e.rest := h ▸ isSuffix_scanUrlBody e.rest
    obtain ⟨w', hw'⟩ := exists_append_of_isSuffix hsuffix
    obtain ⟨cs, rfl, rfl⟩ := exists_cons_of_isSuffix hx (hsuffix.trans (isSuffix_scanEscape x))
    have hcarry := carries_scanEscape hv.endsName hend cs w' hw'
    have hescapes := hv.endsName.escapes_of_append hescapes
    rw [List.cons_append, scanUrlBody.eq_def]
    dsimp only
    rw [if_neg hclose, if_neg hspace, if_neg hbad, if_pos hslash, if_pos hescapes]
    simp only [hcarry, ih w' w hw'.symm h]
    rfl
  | case8 c x hclose hspace hbad hslash hescapes =>
    obtain ⟨cs, rfl, rfl⟩ := exists_cons_of_isSuffix hx (h ▸ isSuffix_scanBadUrl x)
    have hcarry := carries_scanBadUrl hne hu hv cs w h
    rw [hu.endsName.escapes_append, ← hv.endsName.escapes_append] at hescapes
    rw [List.cons_append, scanUrlBody.eq_def]
    dsimp only
    rw [if_neg hclose, if_neg hspace, if_neg hbad, if_pos hslash, if_neg hescapes, hcarry]
  | case9 c x hclose hspace hbad hslash =>
    rename_i ih
    obtain ⟨cs, rfl, rfl⟩ := exists_cons_of_isSuffix hx (h ▸ isSuffix_scanUrlBody x)
    rw [List.cons_append, scanUrlBody.eq_def]
    dsimp only
    rw [if_neg hclose, if_neg hspace, if_neg hbad, if_neg hslash]
    simp only [ih cs w rfl h]
    rfl

end Quoted

/-! ## Numbers -/

namespace EndsToken

theorem scanSign_append (hu : EndsToken u) (cs : List Char) :
    Number.scanSign (cs ++ u) = ((Number.scanSign cs).1, (Number.scanSign cs).2 ++ u) := by
  cases cs with
  | nil =>
    cases u with
    | nil => rfl
    | cons c u =>
      have hc : Number.Sign.ofChar? c = none := by
        have hmark := hu c rfl
        fin_cases hmark <;> rfl
      simp [Number.scanSign, hc]
  | cons c cs => cases hc : Number.Sign.ofChar? c <;> simp [Number.scanSign, hc]

theorem scanDigits_append (hu : EndsToken u) (cs : List Char) :
    Number.scanDigits (cs ++ u) = ((Number.scanDigits cs).1, (Number.scanDigits cs).2 ++ u) := by
  have hdigit : ∀ c ∈ u.head?, isDigit c = false := by
    intro c hc
    have hmark := hu c hc
    fin_cases hmark <;> rfl
  exact Prod.ext (takeWhile_append hdigit cs) (dropWhile_append hdigit cs)

theorem scanFraction_append (hu : EndsToken u) (cs : List Char) :
    Number.scanFraction (cs ++ u) = ((Number.scanFraction cs).1, (Number.scanFraction cs).2 ++ u) := by
  cases cs with
  | nil =>
    cases u with
    | nil => rfl
    | cons d u =>
      have hmark := hu d rfl
      fin_cases hmark <;> rfl
  | cons c cs =>
    by_cases hc : c = '.'
    · subst hc
      cases cs with
      | nil =>
        -- The mark after the point is no digit.
        cases u with
        | nil => rfl
        | cons d u =>
          have hmark := hu d rfl
          fin_cases hmark <;> rfl
      | cons d cs =>
        have hdigits := hu.scanDigits_append (d :: cs)
        rw [List.cons_append] at hdigits
        simp only [List.cons_append, Number.scanFraction, hdigits]
        split <;> rfl
    · simp [Number.scanFraction, hc]

theorem scanExponent_append (hu : EndsToken u) (cs : List Char) :
    Number.scanExponent (cs ++ u) = ((Number.scanExponent cs).1, (Number.scanExponent cs).2.1,
      (Number.scanExponent cs).2.2 ++ u) := by
  cases cs with
  | nil =>
    cases u with
    | nil => rfl
    | cons c u =>
      have hc : (c == 'e' || c == 'E') = false := by
        have hmark := hu c rfl
        fin_cases hmark <;> rfl
      simp [Number.scanExponent, hc]
  | cons c cs =>
    simp only [List.cons_append, Number.scanExponent, hu.scanSign_append, hu.scanDigits_append]
    split <;> rfl

theorem scanLiteral_append (hu : EndsToken u) (cs : List Char) :
    Number.scanLiteral (cs ++ u) = ((Number.scanLiteral cs).1, (Number.scanLiteral cs).2 ++ u) := by
  simp only [Number.scanLiteral, hu.scanSign_append, hu.scanDigits_append, hu.scanFraction_append,
    hu.scanExponent_append]

end EndsToken

theorem EndsName.startsEscape_append (hu : EndsName u) (cs : List Char) :
    startsEscape (cs ++ u) = startsEscape cs := by
  cases cs with
  | nil =>
    cases u with
    | nil => rfl
    | cons c u => simp [startsEscape, (hu c rfl).2.2]
  | cons c cs => by_cases hc : c = '\\' <;> simp [startsEscape, hc, hu.escapes_append]

theorem EndsName.startsName_append (hu : EndsName u) (cs : List Char) :
    startsName (cs ++ u) = startsName cs := by
  have hescape := hu.startsEscape_append cs
  cases cs with
  | nil =>
    cases u with
    | nil => rfl
    | cons c u =>
      rw [List.nil_append] at hescape
      rw [List.nil_append, startsName, hescape, (hu c rfl).1]
      rfl
  | cons c cs =>
    rw [List.cons_append] at hescape
    rw [List.cons_append, startsName, startsName, hescape]

theorem EndsName.startsIdent_append (hu : EndsName u) (cs : List Char) :
    startsIdent (cs ++ u) = startsIdent cs := by
  have hnot : ∀ c ∈ u.head?, isIdentStart c = false ∧ c ≠ '-' ∧ c ≠ '\\' := by
    intro c hc
    obtain ⟨hident, -, hslash⟩ := hu c hc
    refine ⟨?_, ?_, hslash⟩
    · rw [Bool.eq_false_iff] at hident ⊢
      exact fun hstart => hident (Source.CodePoint.isIdent_of_isIdentStart hstart)
    · rintro rfl
      cases hident
  cases cs with
  | nil =>
    cases u with
    | nil => rfl
    | cons c u =>
      obtain ⟨hstart, hminus, hslash⟩ := hnot c rfl
      rw [List.nil_append, startsIdent_of_ne u hminus hslash, hstart]
      rfl
  | cons c cs =>
    by_cases hminus : c = '-'
    · subst hminus
      cases cs with
      | nil =>
        cases u with
        | nil => rfl
        | cons d u =>
          have hescape := hu.startsEscape_append []
          obtain ⟨hstart, hminus, -⟩ := hnot d rfl
          rw [List.nil_append] at hescape
          rw [List.cons_append, List.nil_append, startsIdent_minus, hescape, hstart,
            beq_eq_false_iff_ne.2 hminus]
          rfl
      | cons d cs =>
        have hescape := hu.startsEscape_append (d :: cs)
        rw [List.cons_append] at hescape
        rw [List.cons_append, List.cons_append, startsIdent_minus, startsIdent_minus, hescape]
    · by_cases hslash : c = '\\'
      · subst hslash
        exact hu.escapes_append cs
      · rw [List.cons_append, startsIdent_of_ne _ hminus hslash, startsIdent_of_ne _ hminus hslash]

theorem EndsToken.startsNumber_append (hu : EndsToken u) (c : Char) (cs : List Char) :
    startsNumber (c :: (cs ++ u)) = startsNumber (c :: cs) := by
  have hnot : ∀ d ∈ u.head?, isDigit d = false ∧ d ≠ '.' := by
    intro d hd
    have hmark := hu d hd
    fin_cases hmark <;> exact ⟨rfl, by decide⟩
  cases cs with
  | nil =>
    cases u with
    | nil => rfl
    | cons d u =>
      obtain ⟨hdigit, hpoint⟩ := hnot d rfl
      simp [startsNumber, hdigit, hpoint]
  | cons d cs =>
    by_cases hd : d = '.'
    · subst hd
      cases cs with
      | nil =>
        -- A point without a digit, whether the mark comes after it or nothing.
        cases u with
        | nil => rfl
        | cons e u =>
          have hpoint : isDigit '.' = false := rfl
          simp [startsNumber, (hnot e rfl).1, hpoint]
      | cons e cs => simp [startsNumber]
    · simp [startsNumber, hd]

/-! ## Tokens -/

section Lexemes

variable (hne : u ≠ []) (hu : EndsToken u) (hv : EndsToken v)

include hne hu hv in
theorem carries_scanName : Carries u v scanName :=
  fun _ _ h => scanName_carries hv.endsName (fun hnil => absurd hnil hne) (.inr hu.endsName) h

private theorem dropLeadingWhitespace_append {cs : List Char}
    (h : cs.dropWhile isWhitespace ≠ []) (u : List Char) :
    dropLeadingWhitespace (cs ++ u) = dropLeadingWhitespace cs ++ u := by
  fun_induction dropLeadingWhitespace cs with
  | case1 c d cs hspace ih =>
    rw [List.dropWhile_cons_of_pos (Bool.and_eq_true_iff.1 hspace).1] at h
    rw [List.cons_append, List.cons_append, dropLeadingWhitespace, if_pos hspace]
    exact ih h
  | case2 c d cs hspace => rw [List.cons_append, List.cons_append, dropLeadingWhitespace, if_neg hspace]
  | case3 c hspace => simp [hspace] at h
  | case4 c hspace => cases u <;> simp [dropLeadingWhitespace, hspace]
  | case5 => exact absurd rfl h

private theorem dropWhile_dropLeadingWhitespace (cs : List Char) :
    (dropLeadingWhitespace cs).dropWhile isWhitespace = cs.dropWhile isWhitespace := by
  fun_induction dropLeadingWhitespace cs with
  | case1 c d cs hspace ih =>
    rw [List.dropWhile_cons_of_pos (Bool.and_eq_true_iff.1 hspace).1, ih]
  | case2 | case4 | case5 => rfl
  | case3 c hspace => simp [hspace]

private def isQuotationMark (c : Char) : Bool := c == '\x22' || c == '\x27'

private theorem startsQuoted_cons_cons (c d : Char) (cs : List Char) : startsQuoted (c :: d :: cs) =
    (isQuotationMark c || (isWhitespace c && isQuotationMark d)) := rfl

private theorem isQuotationMark_of_isWhitespace {c : Char} (h : isWhitespace c) :
    isQuotationMark c = false := by
  rw [Bool.eq_false_iff]
  intro hmark
  rcases Bool.or_eq_true_iff.1 hmark with hc | hc
  · rw [beq_iff_eq.1 hc] at h
    cases h
  · rw [beq_iff_eq.1 hc] at h
    cases h

/-- A quoted string comes next if a quotation mark is the first character that is no white-space. -/
private theorem startsQuoted_dropLeadingWhitespace (cs : List Char) :
    startsQuoted (dropLeadingWhitespace cs) =
      (cs.dropWhile isWhitespace).head?.any isQuotationMark := by
  fun_induction dropLeadingWhitespace cs with
  | case1 c d cs hspace ih =>
    rw [List.dropWhile_cons_of_pos (Bool.and_eq_true_iff.1 hspace).1, ih]
  | case2 c d cs hspace =>
    rw [startsQuoted_cons_cons]
    cases hc : isWhitespace c with
    | false => simp [hc]
    | true =>
      have hd : isWhitespace d = false := by simpa [hc] using hspace
      simp [hc, hd, isQuotationMark_of_isWhitespace hc]
  | case3 c hspace =>
    rw [List.dropWhile_cons_of_pos hspace]
    rfl
  | case4 c hspace =>
    rw [List.dropWhile_cons_of_neg hspace]
    show (isQuotationMark c || (isWhitespace c && false)) = isQuotationMark c
    rw [Bool.and_false, Bool.or_false]
  | case5 => rfl

private def urlKind : Option (List Char) → TokenKind
  | some value => .url (String.ofList value)
  | none => .badUrl

private theorem scanFunctionOrUrl_eq (name : String) (cs : List Char) : scanFunctionOrUrl name cs =
    if Text.asciiLower name == "url" then
      if (cs.dropWhile isWhitespace).head?.any isQuotationMark then
        ⟨.function name, dropLeadingWhitespace cs, []⟩
      else
        let u := scanUrlBody (cs.dropWhile isWhitespace)
        ⟨urlKind u.value, u.rest, u.notes⟩
    else ⟨.function name, cs, []⟩ := by
  simp only [scanFunctionOrUrl, startsQuoted_dropLeadingWhitespace, dropWhile_dropLeadingWhitespace]
  rfl

private theorem EndsToken.head?_any_append (hu : EndsToken u) (cs : List Char) :
    (cs ++ u).head?.any isQuotationMark = cs.head?.any isQuotationMark := by
  cases cs with
  | cons c cs => rfl
  | nil =>
    cases u with
    | nil => rfl
    | cons c u =>
      have hmark := hu c rfl
      fin_cases hmark <;> rfl

include hne hu hv in
theorem carries_scanFunctionOrUrl (name : String) : Carries u v (scanFunctionOrUrl name) := by
  intro cs w h
  rw [scanFunctionOrUrl_eq] at h ⊢
  rw [scanFunctionOrUrl_eq]
  by_cases hurl : Text.asciiLower name == "url"
  · rw [if_pos hurl] at h
    rw [if_pos hurl, if_pos hurl]
    rw [dropWhile_append hu.isWhitespace_eq_false, hu.head?_any_append] at h
    rw [dropWhile_append hu.isWhitespace_eq_false, hu.head?_any_append,
      dropWhile_append hv.isWhitespace_eq_false, hv.head?_any_append]
    by_cases hquote : (cs.dropWhile isWhitespace).head?.any isQuotationMark
    · have hsolid : cs.dropWhile isWhitespace ≠ [] := by
        intro hnil
        rw [hnil] at hquote
        cases hquote
      rw [if_pos hquote] at h
      rw [if_pos hquote, if_pos hquote]
      rw [dropLeadingWhitespace_append hsolid] at h ⊢
      rw [dropLeadingWhitespace_append hsolid, List.append_cancel_right h]
    · rw [if_neg hquote] at h
      rw [if_neg hquote, if_neg hquote]
      have hcarry := carries_scanUrlBody hne hu hv (cs.dropWhile isWhitespace) w h
      simp only [hcarry]
  · rw [if_neg hurl] at h
    rw [if_neg hurl, if_neg hurl, List.append_cancel_right h]

/-- What a name comes to by what follows it. -/
private def afterName (name : List Char) (notes : List Note) (cs : List Char) : Scan TokenKind :=
  match cs with
  | '(' :: rest =>
    let s := scanFunctionOrUrl (String.ofList name) rest
    ⟨s.value, s.rest, notes ++ s.notes⟩
  | rest => ⟨.ident (String.ofList name), rest, notes⟩

private theorem isSuffix_afterName (name : List Char) (notes : List Note) (cs : List Char) :
    (afterName name notes cs).rest <:+ cs := by
  unfold afterName
  split
  · rename_i rest
    exact (isSuffix_scanFunctionOrUrl _ rest).trans (List.suffix_cons '(' rest)
  · exact List.suffix_rfl

include hne hu hv in
theorem carries_scanIdentLike : Carries u v scanIdentLike := by
  refine Carries.andThen (k := afterName) (carries_scanName hne hu hv) (fun name notes => ?_)
    isSuffix_afterName
  have hcall : Carries u v fun rest =>
      let s := scanFunctionOrUrl (String.ofList name) rest
      ⟨s.value, s.rest, notes ++ s.notes⟩ := by
    intro cs w h
    dsimp only at h ⊢
    rw [carries_scanFunctionOrUrl hne hu hv _ cs w h]
  refine hu.carries_mark hv ['('] (by simp [marks]) hcall
    (carries_keep (TokenKind.ident (String.ofList name)) notes) (fun rest => rfl) ?_
  intro cs hcs
  unfold afterName
  split
  · exact absurd rfl (hcs _)
  · rfl

/-- What a literal comes to by what follows it. -/
private def afterLiteral (literal : Number.Literal) (cs : List Char) : Scan Lexeme :=
  if startsIdent cs then
    let n := scanName cs
    ⟨.dimension literal (String.ofList n.value), n.rest, n.notes⟩
  else match cs with
    | '%' :: rest => ⟨.percentage literal, rest, []⟩
    | rest => ⟨.number literal, rest, []⟩

include hne hu hv in
private theorem carries_afterLiteral (literal : Number.Literal) : Carries u v (afterLiteral literal) := by
  have hident : ∀ cs, startsIdent (cs ++ v) = startsIdent (cs ++ u) := fun cs =>
    (hv.endsName.startsIdent_append cs).trans (hu.endsName.startsIdent_append cs).symm
  refine Carries.ite hident
    ((carries_scanName hne hu hv).map fun name => Lexeme.dimension literal (String.ofList name)) ?_
  refine hu.carries_mark hv ['%'] (by simp [marks]) (carries_keep (Lexeme.percentage literal) [])
    (carries_keep (Lexeme.number literal) []) (fun rest => rfl) ?_
  intro cs hcs
  split
  · exact absurd rfl (hcs _)
  · rfl

include hne hu hv in
theorem carries_scanNumeric : Carries u v scanNumeric := by
  intro cs w h
  have hcarry := carries_afterLiteral hne hu hv (Number.scanLiteral cs).1 (Number.scanLiteral cs).2 w
  have hscan : ∀ {z : List Char}, EndsToken z →
      scanNumeric (cs ++ z) = afterLiteral (Number.scanLiteral cs).1 ((Number.scanLiteral cs).2 ++ z) := by
    intro z hz
    have hscan : scanNumeric (cs ++ z) =
        afterLiteral (Number.scanLiteral (cs ++ z)).1 (Number.scanLiteral (cs ++ z)).2 := rfl
    rw [hscan, hz.scanLiteral_append]
  rw [hscan hu] at h ⊢
  rw [hscan hv]
  exact hcarry h

/-- What is scanned after a minus that starts no number. -/
def afterMinus (cs : List Char) : Scan Lexeme :=
  match cs with
  | '-' :: '>' :: rest => ⟨.plain .cdc, rest, []⟩
  | _ =>
    if startsIdent ('-' :: cs) then
      let s := scanIdentLike ('-' :: cs)
      ⟨.plain s.value, s.rest, s.notes⟩
    else ⟨.plain (.delim '-'), cs, []⟩

private def afterLessThan (cs : List Char) : Scan Lexeme :=
  match cs with
  | '!' :: '-' :: '-' :: rest => ⟨.plain .cdo, rest, []⟩
  | _ => ⟨.plain (.delim '<'), cs, []⟩

private def afterSlash (cs : List Char) : Scan Lexeme :=
  match cs with
  | '*' :: rest =>
    let s := scanComment rest
    ⟨.plain (.comment (String.ofList s.value)), s.rest, s.notes⟩
  | _ => ⟨.plain (.delim '/'), cs, []⟩

include hne hu hv in
private theorem carries_afterMinus : Carries u v afterMinus := by
  have hident : ∀ cs, startsIdent ('-' :: (cs ++ v)) = startsIdent ('-' :: (cs ++ u)) := fun cs =>
    (hv.endsName.startsIdent_append _).trans (hu.endsName.startsIdent_append ('-' :: cs)).symm
  have hname := Carries.ite (p := fun cs => startsIdent ('-' :: cs)) hident
    (((carries_scanIdentLike hne hu hv).map Lexeme.plain).cons '-') (carries_keep (.plain (.delim '-')) [])
  refine hu.carries_mark hv ['-', '>'] (by simp [marks]) (carries_keep (Lexeme.plain .cdc) []) hname
    (fun rest => rfl) fun cs hcs => ?_
  unfold afterMinus
  split
  · exact absurd rfl (hcs _)
  · rfl

include hu hv in
private theorem carries_afterLessThan : Carries u v afterLessThan := by
  refine hu.carries_mark hv ['!', '-', '-'] (by simp [marks]) (carries_keep (Lexeme.plain .cdo) [])
    (carries_keep (Lexeme.plain (.delim '<')) []) (fun rest => rfl) fun cs hcs => ?_
  unfold afterLessThan
  split
  · exact absurd rfl (hcs _)
  · rfl

include hne hu hv in
private theorem carries_afterSlash : Carries u v afterSlash := by
  have hcomment := (carries_scanComment hne hv).map fun text => Lexeme.plain (.comment (String.ofList text))
  refine hu.carries_mark hv ['*'] (by simp [marks]) hcomment
    (carries_keep (Lexeme.plain (.delim '/')) []) (fun rest => rfl) fun cs hcs => ?_
  unfold afterSlash
  split
  · exact absurd rfl (hcs _)
  · rfl

include hne hu hv in
/-- A token that leaves all characters from a mark on is scanned alike whatever follows in place of
these, if it begins with a mark too or is nothing. -/
theorem carries_scanLexeme (c : Char) : Carries u v (scanLexeme c) := by
  have hstartsName : ∀ cs, startsName (cs ++ v) = startsName (cs ++ u) := fun cs =>
    (hv.endsName.startsName_append cs).trans (hu.endsName.startsName_append cs).symm
  have hstartsIdent : ∀ cs, startsIdent (cs ++ v) = startsIdent (cs ++ u) := fun cs =>
    (hv.endsName.startsIdent_append cs).trans (hu.endsName.startsIdent_append cs).symm
  have hescapes : ∀ cs, escapes (cs ++ v) = escapes (cs ++ u) := fun cs =>
    (hv.endsName.escapes_append cs).trans (hu.endsName.escapes_append cs).symm
  have hstartsNumber : ∀ c cs, startsNumber (c :: (cs ++ v)) = startsNumber (c :: (cs ++ u)) :=
    fun c cs => (hv.startsNumber_append c cs).trans (hu.startsNumber_append c cs).symm
  have hkeep := fun kind : TokenKind => carries_keep (u := u) (v := v) (Lexeme.plain kind) []
  have hname := carries_scanName hne hu hv
  have hident := fun c => ((carries_scanIdentLike hne hu hv).map Lexeme.plain).cons c
  have hnumber := fun c (g : List Char → Scan Lexeme) (hg : Carries u v g) =>
    Carries.ite (p := fun cs => startsNumber (c :: cs)) (hstartsNumber c)
      ((carries_scanNumeric hne hu hv).cons c) hg
  intro cs w h
  by_cases hspace : isWhitespace c
  · have hspaces : ∀ cs, scanLexeme c cs = ⟨.plain (.whitespace
        (String.ofList (c :: cs.takeWhile isWhitespace))), cs.dropWhile isWhitespace, []⟩ := by
      intro cs
      unfold scanLexeme
      rw [if_pos hspace]
      rfl
    rw [hspaces, dropWhile_append hu.isWhitespace_eq_false] at h
    rw [hspaces, hspaces, takeWhile_append hu.isWhitespace_eq_false,
      takeWhile_append hv.isWhitespace_eq_false, dropWhile_append hv.isWhitespace_eq_false,
      List.append_cancel_right h]
  · unfold scanLexeme at h ⊢
    rw [if_neg hspace] at h
    rw [if_neg hspace, if_neg hspace]
    split at h
    · dsimp only at h ⊢
      rw [carries_scanString hne hu hv _ cs w h]
    · dsimp only at h ⊢
      rw [carries_scanString hne hu hv _ cs w h]
    · have hhash : Carries u v fun cs => ⟨Lexeme.plain (.hash (String.ofList (scanName cs).value)
          (if startsIdent cs then .id else .unrestricted)), (scanName cs).rest, (scanName cs).notes⟩ := by
        intro cs w h
        dsimp only at h ⊢
        rw [hstartsIdent, hname cs w h]
      exact Carries.ite hstartsName hhash (hkeep _) cs w h
    · exact hkeep _ cs w h
    · exact hkeep _ cs w h
    · exact hnumber _ _ (hkeep _) cs w h
    · exact hnumber _ _ (hkeep _) cs w h
    · exact hkeep _ cs w h
    · exact hnumber '-' afterMinus (carries_afterMinus hne hu hv) cs w h
    · exact hkeep _ cs w h
    · exact hkeep _ cs w h
    · exact carries_afterLessThan hu hv cs w h
    · exact Carries.ite hstartsIdent (hname.map fun name => .plain (.atKeyword (String.ofList name)))
        (hkeep _) cs w h
    · exact hkeep _ cs w h
    · exact Carries.ite hescapes (hident _) (carries_keep _ _) cs w h
    · exact hkeep _ cs w h
    · exact hkeep _ cs w h
    · exact hkeep _ cs w h
    · exact carries_afterSlash hne hu hv cs w h
    · -- Any other character: a digit, the start of a name, or a token by itself.
      have hother : Carries u v fun cs => if isDigit c then scanNumeric (c :: cs)
          else if isIdentStart c then
            let s := scanIdentLike (c :: cs)
            ⟨.plain s.value, s.rest, s.notes⟩
          else ⟨.plain (.delim c), cs, []⟩ := by
        by_cases hdigit : isDigit c
        · simp only [hdigit, if_true]
          exact (carries_scanNumeric hne hu hv).cons c
        · by_cases hstart : isIdentStart c
          · simp only [hdigit, hstart, if_true]
            exact hident c
          · simp only [hdigit, hstart]
            exact hkeep _
      exact hother cs w h

end Lexemes

end Styling.Lexer
