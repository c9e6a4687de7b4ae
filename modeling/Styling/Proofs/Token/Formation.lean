import Styling.Proofs.Token.Numeric

/-!
# Tokens formed from a reader are those found by scanning

Forming the tokens of a text from a reader breaks off at a literal without a value, as scanning does,
and meets no other fault (`formTokens_eq`).
-/

namespace Styling

open Source Lexer

namespace CharReader

variable {xs ys : List SourceChar}

/-! ## Tokens by their first character -/

theorem forms_whitespace (c : SourceChar) (xs : List SourceChar) :
    Forms whitespace [some c] xs ⟨.whitespace (String.ofList
      (c.value :: (values xs).takeWhile isWhitespace)), (values xs).dropWhile isWhitespace, []⟩ := by
  obtain ⟨front, ys, rfl, hfront, hys, hreads⟩ := reads_consumeWhile isWhitespace [some c] xs
  rw [← hfront, ← hys]
  refine .step hreads (.append front ys) (.look (looks_consumedFrom 0 _ ys) ?_)
  have htext : ([some c] ++ front.map some).filterMap (·.map SourceChar.value) =
      c.value :: values front := by
    rw [show [some c] ++ front.map some = (c :: front).map some from rfl, List.filterMap_map]
    exact congrFun List.filterMap_eq_map (c :: front)
  rw [List.drop_zero, htext]
  exact forms_token _ _ ys

private theorem startsName_eq (cs : List Char) :
    startsName cs = (cs.head?.any isIdent || startsEscape cs) := by
  cases cs <;> rfl

theorem formsLexeme_numberSign {c : SourceChar} (hc : c.value = '#') (xs : List SourceChar) :
    FormsLexeme (numberSign c) [some c] xs (scanLexeme c.value (values xs)) := by
  have hscan : scanLexeme '#' (values xs) = if startsName (values xs) then
      ⟨.plain (.hash (String.ofList (scanName (values xs)).value)
        (if startsIdent (values xs) then .id else .unrestricted)),
        (scanName (values xs)).rest, (scanName (values xs)).notes⟩
    else ⟨.plain (.delim '#'), values xs, []⟩ := rfl
  have hescape := looks_isEscape_next (c := c) (by rw [hc]; decide) [] xs
  have hname := looks_isName_next (c := c) (by rw [hc]; decide) [] xs
  have hstarts : ((values (xs.take 3)).head?.any isIdent || startsEscape (values xs)) =
      startsName (values xs) := by
    rw [startsName_eq]
    cases xs <;> rfl
  rw [hc, hscan]
  by_cases hstart : startsName (values xs)
  · rw [if_pos hstart]
    refine .look (looks_next 3 _ xs) (.look hescape ?_)
    rw [hstarts, if_pos hstart]
    apply ScansInto.look hname
    exact (scans_name _ xs).token _
  · rw [if_neg hstart]
    refine .look (looks_next 3 _ xs) (.look hescape ?_)
    rw [hstarts, if_neg hstart, ← hc]
    exact forms_token _ _ xs

private theorem startsNumber_ahead (c : SourceChar) (xs : List SourceChar) :
    startsNumber (((some c).map SourceChar.value).toList ++ values (xs.take 2)) =
      startsNumber (c.value :: values xs) := by
  match xs with
  | [] | [_] => rfl
  | x :: y :: xs =>
    show startsNumber [c.value, x.value, y.value] =
      startsNumber (c.value :: x.value :: y.value :: values xs)
    by_cases hx : x.value = '.'
    · rw [hx]
      rfl
    · simp [startsNumber, hx]

private theorem length_rest_le {c : SourceChar} {s : Scan Lexeme}
    (h : scanLexeme c.value (values xs) = s) : s.rest.length ≤ xs.length := by
  have hlen := (isSuffix_scanLexeme c.value (values xs)).length_le
  rwa [h, List.length_map] at hlen

private theorem formsLexeme_numeric_back {c : SourceChar} (h : startsNumber (c.value :: values xs))
    (hscan : scanLexeme c.value (values xs) = scanNumeric (c.value :: values xs)) :
    FormsLexeme (reconsume c >>= fun _ => numeric) [some c] xs
      (scanLexeme c.value (values xs)) := by
  have hlen := length_rest_le hscan
  have hnumeric : FormsLexeme numeric [] (c :: xs) _ := formsLexeme_numeric [] h
  rw [hscan]
  exact hnumeric.back hlen

private theorem formsLexeme_identLike_back {c : SourceChar}
    (hscan : scanLexeme c.value (values xs) =
      let s := scanIdentLike (c.value :: values xs)
      ⟨.plain s.value, s.rest, s.notes⟩) :
    FormsLexeme (reconsume c >>= fun _ => identLike) [some c] xs
      (scanLexeme c.value (values xs)) := by
  have hlen := length_rest_le hscan
  have hident : Forms identLike [] (c :: xs) _ := forms_identLike [] (c :: xs)
  rw [hscan]
  exact hident.back hlen

theorem formsLexeme_plusOrPoint {c : SourceChar} (hc : c.value = '+' ∨ c.value = '.')
    (xs : List SourceChar) :
    FormsLexeme (plusOrPoint c) [some c] xs (scanLexeme c.value (values xs)) := by
  have hscan : scanLexeme c.value (values xs) = if startsNumber (c.value :: values xs) then
      scanNumeric (c.value :: values xs) else ⟨.plain (.delim c.value), values xs, []⟩ := by
    rcases hc with hc | hc <;> (rw [hc]; rfl)
  have hahead := looks_ahead 2 (some c) [] xs
  have hnumber := startsNumber_ahead c xs
  by_cases hstart : startsNumber (c.value :: values xs)
  · rw [if_pos hstart] at hscan
    apply FormsLexeme.look hahead
    rw [hnumber, if_pos hstart]
    exact formsLexeme_numeric_back hstart hscan
  · rw [hscan, if_neg hstart]
    apply ScansInto.look hahead
    rw [hnumber, if_neg hstart]
    exact forms_token _ _ xs

/-- A mark that is ahead is consumed as a whole. -/
private theorem reads_mark {mark rest : List Char} (hmark : mark ≠ [])
    (h : values xs = mark ++ rest) (done : List (Option SourceChar)) :
    values (xs.take mark.length) = mark ∧ ∃ taken ys, Takes xs taken ys ∧ values ys = rest ∧
      Reads (consume mark.length) done xs () (done ++ taken) ys [] := by
  obtain ⟨front, ys, rfl, rfl, hys⟩ := List.map_eq_append_iff.1 h
  rw [List.length_map]
  refine ⟨by rw [List.take_left], front.map some, ys, .append front ys, hys, ?_⟩
  exact reads_consume front done ys fun hnil => hmark (by rw [hnil]; rfl)

private theorem take_ne_of_not_prefix (mark : List Char)
    (h : ∀ rest, values xs = mark ++ rest → False) : values (xs.take mark.length) ≠ mark := by
  intro hmark
  rw [values, List.map_take] at hmark
  apply h ((values xs).drop mark.length)
  calc values xs = (values xs).take mark.length ++ (values xs).drop mark.length :=
        (List.take_append_drop _ _).symm
    _ = mark ++ (values xs).drop mark.length := by rw [hmark]

private theorem scanLexeme_minus (cs : List Char) : scanLexeme '-' cs =
    if startsNumber ('-' :: cs) then scanNumeric ('-' :: cs)
    else match cs with
      | '-' :: '>' :: rest => ⟨.plain .cdc, rest, []⟩
      | _ => if startsIdent ('-' :: cs) then
          let s := scanIdentLike ('-' :: cs)
          ⟨.plain s.value, s.rest, s.notes⟩
        else ⟨.plain (.delim '-'), cs, []⟩ :=
  rfl

theorem formsLexeme_minus {c : SourceChar} (hc : c.value = '-') (xs : List SourceChar) :
    FormsLexeme (minus c) [some c] xs (scanLexeme c.value (values xs)) := by
  have hnumber := startsNumber_ahead c xs
  have hscan := scanLexeme_minus (values xs)
  rw [← hc] at hscan
  apply FormsLexeme.look (looks_ahead 2 (some c) [] xs)
  rw [hnumber]
  by_cases hstart : startsNumber (c.value :: values xs)
  · rw [if_pos hstart] at hscan ⊢
    exact formsLexeme_numeric_back hstart hscan
  · rw [if_neg hstart] at hscan ⊢
    apply FormsLexeme.look (looks_next 2 _ xs)
    split at hscan
    · rename_i rest hrest
      obtain ⟨hmark, taken, ys, ht, rfl, hreads⟩ :=
        reads_mark (List.cons_ne_nil '-' ['>']) hrest [some c]
      have hmark : values (xs.take 2) = ['-', '>'] := hmark
      rw [hscan, hmark, if_pos (beq_self_eq_true _)]
      exact ScansInto.step hreads ht (forms_token .cdc _ ys)
    · rename_i hrest
      have hmark : values (xs.take 2) ≠ ['-', '>'] := take_ne_of_not_prefix ['-', '>'] hrest
      rw [if_neg (by simpa only [beq_iff_eq] using hmark)]
      apply FormsLexeme.look (looks_isName_nil (by rw [hc]; decide) [] xs)
      by_cases hident : startsIdent (c.value :: values xs)
      · rw [if_pos hident] at hscan ⊢
        exact formsLexeme_identLike_back hscan
      · rw [if_neg hident] at hscan ⊢
        rw [hscan]
        exact forms_token _ _ xs

private theorem scanLexeme_lessThan (cs : List Char) : scanLexeme '<' cs =
    match cs with
    | '!' :: '-' :: '-' :: rest => ⟨.plain .cdo, rest, []⟩
    | _ => ⟨.plain (.delim '<'), cs, []⟩ :=
  rfl

theorem formsLexeme_lessThan {c : SourceChar} (hc : c.value = '<') (xs : List SourceChar) :
    FormsLexeme (lessThan c) [some c] xs (scanLexeme c.value (values xs)) := by
  have hscan := scanLexeme_lessThan (values xs)
  rw [← hc] at hscan
  apply FormsLexeme.look (looks_next 3 _ xs)
  split at hscan
  · rename_i rest hrest
    obtain ⟨hmark, taken, ys, ht, rfl, hreads⟩ :=
      reads_mark (List.cons_ne_nil '!' ['-', '-']) hrest [some c]
    have hmark : values (xs.take 3) = ['!', '-', '-'] := hmark
    rw [hscan, hmark, if_pos (beq_self_eq_true _)]
    exact ScansInto.step hreads ht (forms_token .cdo _ ys)
  · rename_i hrest
    have hmark : values (xs.take 3) ≠ ['!', '-', '-'] := take_ne_of_not_prefix ['!', '-', '-'] hrest
    rw [hscan, if_neg (by simpa only [beq_iff_eq] using hmark)]
    exact forms_token _ _ xs

theorem formsLexeme_atSign {c : SourceChar} (hc : c.value = '@') (xs : List SourceChar) :
    FormsLexeme (atSign c) [some c] xs (scanLexeme c.value (values xs)) := by
  have hname := looks_isName_next (c := c) (by rw [hc]; decide) [] xs
  rw [hc, show scanLexeme '@' (values xs) = if startsIdent (values xs) then _ else _ from rfl]
  by_cases hident : startsIdent (values xs)
  · rw [if_pos hident]
    refine .look (looks_next 3 _ xs) (.look hname ?_)
    rw [if_pos hident]
    exact (scans_name _ xs).token _
  · rw [if_neg hident]
    refine .look (looks_next 3 _ xs) (.look hname ?_)
    rw [if_neg hident, ← hc]
    exact forms_token _ _ xs

theorem formsLexeme_backslash {c : SourceChar} (hc : c.value = '\\') (xs : List SourceChar) :
    FormsLexeme (backslash c) [some c] xs (scanLexeme c.value (values xs)) := by
  have hescape := looks_isEscape_nil c [] xs
  have hscan : scanLexeme c.value (values xs) = if escapes (values xs) then
        let s := scanIdentLike (c.value :: values xs)
        ⟨.plain s.value, s.rest, s.notes⟩
      else ⟨.plain (.delim c.value), values xs, [.invalidEscape]⟩ := by
    rw [hc]
    rfl
  rw [hc, beq_self_eq_true, Bool.true_and] at hescape
  apply FormsLexeme.look hescape
  by_cases hstart : escapes (values xs)
  · rw [if_pos hstart] at hscan ⊢
    exact formsLexeme_identLike_back hscan
  · rw [hscan, if_neg hstart, if_neg hstart]
    exact ScansInto.note (t := ⟨TokenKind.delim c.value, values xs, []⟩) .invalidEscape
      (forms_token _ _ xs)

private theorem scanLexeme_slash (cs : List Char) : scanLexeme '/' cs =
    match cs with
    | '*' :: rest =>
      let s := scanComment rest
      ⟨.plain (.comment (String.ofList s.value)), s.rest, s.notes⟩
    | _ => ⟨.plain (.delim '/'), cs, []⟩ :=
  rfl

theorem formsLexeme_slash {c : SourceChar} (hc : c.value = '/') (xs : List SourceChar) :
    FormsLexeme (slash c) [some c] xs (scanLexeme c.value (values xs)) := by
  have hscan := scanLexeme_slash (values xs)
  rw [← hc] at hscan
  apply FormsLexeme.look (looks_next 1 _ xs)
  split at hscan
  · rename_i rest hrest
    obtain ⟨y, ys, rfl, hy, rfl⟩ := List.map_eq_cons_iff.1 hrest
    have hlen := length_rest_le hscan
    have hcomment := forms_comment c y ys hc hy
    rw [hscan, if_pos (by simp [hy])]
    exact hcomment.back hlen
  · rename_i hrest
    have hmark : values (xs.take 1) ≠ ['*'] := take_ne_of_not_prefix ['*'] hrest
    rw [hscan, if_neg (by simpa only [beq_iff_eq] using hmark)]
    exact forms_token _ _ xs

private theorem startsNumber_of_isDigit {c : Char} (h : isDigit c) (cs : List Char) :
    startsNumber (c :: cs) := by
  have hsign : ¬(c == '+' || c == '-') := by
    intro hc
    rcases Bool.or_eq_true_iff.1 hc with hc | hc
    · rw [beq_iff_eq.1 hc] at h
      cases h
    · rw [beq_iff_eq.1 hc] at h
      cases h
  have hpoint : ¬(c == '.') := by
    intro hc
    rw [beq_iff_eq.1 hc] at h
    cases h
  unfold startsNumber
  dsimp only
  rw [if_neg hsign, if_neg hpoint]
  exact h

theorem formsLexeme_digitOrLetter {c : SourceChar} {xs : List SourceChar}
    (hscan : scanLexeme c.value (values xs) =
      if isDigit c.value then scanNumeric (c.value :: values xs)
      else if isIdentStart c.value then
        let s := scanIdentLike (c.value :: values xs)
        ⟨.plain s.value, s.rest, s.notes⟩
      else ⟨.plain (.delim c.value), values xs, []⟩) :
    FormsLexeme (digitOrLetter c) [some c] xs (scanLexeme c.value (values xs)) := by
  unfold digitOrLetter
  by_cases hdigit : isDigit c.value
  · have hstart := startsNumber_of_isDigit hdigit (values xs)
    rw [if_pos hdigit] at hscan ⊢
    exact formsLexeme_numeric_back hstart hscan
  · rw [if_neg hdigit] at hscan ⊢
    by_cases hident : isIdentStart c.value
    · rw [if_pos hident] at hscan ⊢
      exact formsLexeme_identLike_back hscan
    · rw [hscan, if_neg hident, if_neg hident]
      exact forms_token _ _ xs

theorem formsLexeme_tokenFrom (c : SourceChar) (xs : List SourceChar) :
    FormsLexeme (tokenFrom c) [some c] xs (scanLexeme c.value (values xs)) := by
  unfold tokenFrom
  by_cases hspace : isWhitespace c.value
  · unfold scanLexeme
    rw [if_pos hspace, if_pos hspace]
    exact forms_whitespace c xs
  · rw [if_neg hspace]
    split
    · rename_i hc
      rw [hc]
      exact forms_string _ _ xs
    · rename_i hc
      rw [hc]
      exact forms_string _ _ xs
    · exact formsLexeme_numberSign ‹_› xs
    all_goals try (rename_i hc; rw [hc]; exact forms_token _ _ xs)
    · exact formsLexeme_plusOrPoint (.inl ‹_›) xs
    · exact formsLexeme_plusOrPoint (.inr ‹_›) xs
    · exact formsLexeme_minus ‹_› xs
    · exact formsLexeme_lessThan ‹_› xs
    · exact formsLexeme_atSign ‹_› xs
    · exact formsLexeme_backslash ‹_› xs
    · exact formsLexeme_slash ‹_› xs
    · -- Scanning tells the same characters apart, so it is in its last case too.
      apply formsLexeme_digitOrLetter
      unfold scanLexeme
      rw [if_neg hspace]
      split
      all_goals first | contradiction | rfl

/-! ## All tokens -/

/-- What was taken is the characters that are no longer ahead. -/
private theorem Takes.eq_take_drop {taken : List (Option SourceChar)} (h : Takes xs taken ys) :
    taken.filterMap id = xs.take (xs.length - (values ys).length) ∧
      ys = xs.drop (xs.length - (values ys).length) := by
  have hxs := h.filterMap_append
  have hlen : xs.length - (values ys).length = (taken.filterMap id).length := by
    rw [← hxs, List.length_append, List.length_map]
    omega
  rw [hlen, ← hxs]
  exact ⟨List.take_left.symm, List.drop_left.symm⟩

private theorem reads_clear (done : List (Option SourceChar)) (xs : List SourceChar) :
    Reads (modify fun s => { s with consumed := [] }) done xs () [] xs [] :=
  fun s hs => ⟨{ s with consumed := [] }, rfl, ⟨rfl, hs.ahead⟩, (List.append_nil _).symm⟩

private theorem tokens_eq : tokens = tokenTurn >>= PartialReader.after tokens :=
  PartialReader.untilDone_eq _

/-- What forming tokens comes to once the first character `c` of a token was consumed. -/
private def tokensFrom (c : SourceChar) : CharReader (List Token) :=
  tokenFrom c >>= fun t => (modify fun s => { s with consumed := [] }) >>= fun _ =>
    Pure.pure (.more (t :: ·)) >>= PartialReader.after tokens

private theorem reads_tokens_cons {c : SourceChar} {ts : List Token} {done : List (Option SourceChar)}
    {notes : List Note} (h : Reads (tokensFrom c) [some c] xs ts done ys notes) :
    Reads tokens [] (c :: xs) ts done ys notes := by
  rw [tokens_eq, tokenTurn, bind_assoc]
  apply (looks_count [] _).look
  simp only [List.length_nil, beq_self_eq_true, if_true, bind_assoc]
  refine (reads_consume_one c [] xs).bind ((looks_current (some c) [] xs).look ?_)
  simp only [bind_assoc]
  exact h

private theorem breaks_tokens_cons {c : SourceChar} {e : FormationFault}
    (h : Breaks (tokensFrom c) [some c] xs e) : Breaks tokens [] (c :: xs) e := by
  rw [tokens_eq, tokenTurn, bind_assoc]
  apply Breaks.after (looks_count [] _)
  simp only [List.length_nil, beq_self_eq_true, if_true, bind_assoc]
  refine .after (reads_consume_one c [] xs) (.after (looks_current (some c) [] xs) ?_)
  simp only [bind_assoc]
  exact h

/-- The tokens formed from a reader are those found by scanning, up to the first literal without a
value. -/
theorem reads_tokens (xs : List SourceChar) :
    match (Tokens.ofChars xs).failure with
    | none => Reads tokens [] xs (Tokens.ofChars xs).tokens [none] [] (Tokens.ofChars xs).notes
    | some e => Breaks tokens [] xs (.range e) := by
  -- A token takes the character it starts with at least, so fewer are ahead of the next one.
  induction hn : xs.length using Nat.strongRecOn generalizing xs with
  | _ n ih =>
    cases xs with
    | nil =>
      rw [Tokens.ofChars, tokens_eq, tokenTurn, bind_assoc]
      apply (looks_count [] []).look
      simp only [List.length_nil, beq_self_eq_true, if_true, bind_assoc]
      exact (reads_consume_end 1 []).bind ((looks_current none [] []).look (.last [] tokens _ []))
    | cons c xs =>
      have hfirst := formsLexeme_tokenFrom c xs
      rw [Tokens.ofChars]
      generalize scanLexeme c.value (values xs) = s at hfirst ⊢
      unfold FormsLexeme at hfirst
      cases hkind : s.value.kind with
      | error e =>
        rw [hkind] at hfirst
        exact breaks_tokens_cons hfirst.bind
      | ok kind =>
        rw [hkind] at hfirst
        rcases hfirst with ⟨taken, ys, ht, hys, hreads⟩
        obtain ⟨htaken, hrest⟩ := ht.eq_take_drop
        rw [hys] at htaken hrest
        have hlen : ys.length < n := by
          rw [hrest, ← hn, List.length_drop, List.length_cons]
          omega
        have hothers := ih _ hlen ys rfl
        have htoken : tokenOf ([some c] ++ taken) kind = ⟨kind, String.ofList
            ((c :: taken.filterMap id).flatMap SourceChar.source), c.location⟩ := rfl
        dsimp only at hreads ⊢
        rw [← hrest, ← htaken, ← htoken]
        cases hfailure : (Tokens.ofChars ys).failure with
        | none =>
          rw [hfailure] at hothers
          apply reads_tokens_cons
          exact hreads.bind ((reads_clear _ ys).bind (hothers.more _))
        | some e =>
          rw [hfailure] at hothers
          apply breaks_tokens_cons
          exact .after hreads (.after (reads_clear _ ys) (.after (.pure _ [] ys) hothers.bind))

end CharReader

/-- Forming the tokens of a text from a reader ends, with the tokens found by scanning or at the
literal that stops them. -/
theorem formTokens_eq (text : String) : formTokens text =
    match (Tokens.ofText text).failure with
    | none => some (.ok ((Tokens.ofText text).tokens, (Tokens.ofText text).notes))
    | some e => some (.error (.range e)) := by
  have hread := CharReader.reads_tokens (filter text)
  have hstart : CharReader.Stands ⟨.ofList (filter text), [], []⟩ [] (filter text) :=
    ⟨rfl, BufferedReader.toList_ofList _⟩
  rw [Tokens.ofText, formTokens]
  cases hfailure : (Tokens.ofChars (filter text)).failure with
  | none =>
    rw [hfailure] at hread
    obtain ⟨s, hrun, -, hnotes⟩ := hread _ hstart
    have hnotes : s.notes = (Tokens.ofChars (filter text)).notes := hnotes
    rw [← hnotes]
    exact congrArg (Option.map _) hrun
  | some e =>
    rw [hfailure] at hread
    exact congrArg (Option.map _) (hread _ hstart)

end Styling
