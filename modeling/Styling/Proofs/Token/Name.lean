import Styling.Proofs.Token.Boundary
import Styling.Proofs.Token.Lexeme

/-!
# Names as they are written

A token is a name, or an id, exactly if a name can be read where it starts (`Lexer.scanLexeme_eq_ident_iff`,
`Lexer.scanLexeme_eq_id_iff`). A name is plain if it can be written as it is, without an escape: then
characters that are no part of names may follow it. Reading a name takes at least as many characters as
there are in it, and just as many only if none of them stands for another (`Lexer.scanName_cases`).
-/

namespace Styling.Lexer

/-- Whether a name can be written without an escape. -/
def isPlainName (name : String) : Bool := startsIdent name.toList && name.toList.all isIdent

/-- What may follow a name without a change to it, and without making it the name of a function. -/
def FollowsName (v : List Char) : Prop := ∀ c ∈ v.head?, c ∈ ['#', '.', '[', ':', ',']

variable {u v : List Char}

theorem FollowsName.endsName (h : FollowsName v) : EndsName v := by
  intro c hc
  have hmark := h c hc
  fin_cases hmark <;> exact ⟨rfl, rfl, by decide⟩

theorem FollowsName.ne_cons (h : FollowsName v) {c : Char} (hc : c ∉ ['#', '.', '[', ':', ','])
    (cs : List Char) : v ≠ c :: cs := by
  rintro rfl
  exact hc (h c rfl)

/-! ## Where a name starts -/

private theorem ne_of_isIdentStart {c d : Char} (h : isIdentStart c) (hd : isIdentStart d = false) :
    c ≠ d := by
  rintro rfl
  cases h.symm.trans hd

private theorem isIdent_of_isIdentStart {c : Char} (h : isIdentStart c) : isIdent c :=
  Source.CodePoint.isIdent_of_isIdentStart h

private theorem isDigit_of_isIdentStart {c : Char} (h : isIdentStart c) : isDigit c = false := by
  rw [Bool.eq_false_iff]
  intro hdigit
  simp only [isDigit, Source.CodePoint.isDigit, Bool.and_eq_true, decide_eq_true_eq] at hdigit
  simp only [isIdentStart, Source.CodePoint.isIdentStart, Source.CodePoint.isLetter,
    Source.CodePoint.isNonAsciiIdent, Bool.or_eq_true, Bool.and_eq_true, decide_eq_true_eq,
    beq_iff_eq] at h
  omega

theorem isIdent_of_isDigit {c : Char} (h : Source.CodePoint.isDigit c.toNat) : isIdent c := by
  simp [isIdent, Source.CodePoint.isIdent, h]

theorem isWhitespace_of_isIdent {c : Char} (h : isIdent c) : isWhitespace c = false := by
  rw [Bool.eq_false_iff]
  intro hspace
  simp only [isWhitespace, Source.CodePoint.isWhitespace, Source.CodePoint.isNewline, Bool.or_eq_true,
    beq_iff_eq] at hspace
  simp only [isIdent, Source.CodePoint.isIdent, Source.CodePoint.isIdentStart, Source.CodePoint.isLetter,
    Source.CodePoint.isNonAsciiIdent, Source.CodePoint.isDigit, Bool.or_eq_true, Bool.and_eq_true,
    decide_eq_true_eq, beq_iff_eq] at h
  omega

theorem filterChar_of_isIdent {c : Char} (h : isIdent c) : Source.filterChar c = c := by
  rw [Source.filterChar]
  split
  · rename_i hbreak
    rcases Bool.or_eq_true_iff.1 hbreak with hc | hc
    all_goals
      rw [beq_iff_eq.1 hc] at h
      cases h
  · split
    · rename_i hnul
      rw [beq_iff_eq.1 hnul] at h
      cases h
    · rfl

theorem startsEscape_of_ne {c : Char} (cs : List Char) (hc : c ≠ '\\') :
    startsEscape (c :: cs) = false := by
  simp [startsEscape, hc]

/-- A name starts with a letter or the like, with an escape, or with a minus and something more of it. -/
theorem startsIdent_cases {c : Char} {cs : List Char} (h : startsIdent (c :: cs)) :
    (c = '-' ∧ ∃ d ds, cs = d :: ds ∧ (isIdentStart d ∨ d = '-' ∨ d = '\\')) ∨
      c = '\\' ∧ escapes cs ∨ isIdentStart c := by
  by_cases hminus : c = '-'
  · subst hminus
    cases cs with
    | nil => cases h
    | cons d ds =>
      rw [startsIdent_minus, Bool.or_eq_true, Bool.or_eq_true, beq_iff_eq] at h
      refine .inl ⟨rfl, d, ds, rfl, ?_⟩
      rcases h with (hstart | hdash) | hescape
      · exact .inl hstart
      · exact .inr (.inl hdash)
      · by_cases hslash : d = '\\'
        · exact .inr (.inr hslash)
        · cases hescape.symm.trans (startsEscape_of_ne ds hslash)
  · by_cases hslash : c = '\\'
    · subst hslash
      exact .inr (.inl ⟨rfl, h⟩)
    · rw [startsIdent_of_ne cs hminus hslash] at h
      exact .inr (.inr h)

/-- What starts a name starts no number. -/
theorem startsNumber_of_startsIdent {cs : List Char} (h : startsIdent cs) : startsNumber cs = false := by
  cases cs with
  | nil => cases h
  | cons c cs =>
    rcases startsIdent_cases h with ⟨rfl, d, ds, rfl, hd⟩ | ⟨rfl, -⟩ | hstart
    · have hd : isDigit d = false ∧ d ≠ '.' := by
        rcases hd with hstart | rfl | rfl
        · exact ⟨isDigit_of_isIdentStart hstart, ne_of_isIdentStart hstart rfl⟩
        · exact ⟨rfl, by decide⟩
        · exact ⟨rfl, by decide⟩
      simp [startsNumber, hd.1, hd.2]
    · rfl
    · simp [startsNumber, ne_of_isIdentStart hstart (d := '-') rfl, ne_of_isIdentStart hstart (d := '+') rfl,
        ne_of_isIdentStart hstart (d := '.') rfl, isDigit_of_isIdentStart hstart]

/-- A point in front of a name starts no number. -/
theorem startsNumber_point_of_startsIdent {cs : List Char} (h : startsIdent cs) :
    startsNumber ('.' :: cs) = false := by
  cases cs with
  | nil => cases h
  | cons c cs =>
    have hpoint : startsNumber ('.' :: c :: cs) = isDigit c := rfl
    rcases startsIdent_cases h with ⟨rfl, -⟩ | ⟨rfl, -⟩ | hstart
    · rfl
    · rfl
    · rw [hpoint, isDigit_of_isIdentStart hstart]

/-- A minus starts no name where what comes after it does not go on with one. -/
private theorem startsIdent_minus_eq_false {cs : List Char} (h : startsName cs = false) :
    startsIdent ('-' :: cs) = false := by
  cases cs with
  | nil => rfl
  | cons d cs =>
    rw [startsName, Bool.or_eq_false_iff] at h
    have hstart : isIdentStart d = false := by
      rw [Bool.eq_false_iff]
      intro hstart
      cases (isIdent_of_isIdentStart hstart).symm.trans h.1
    have hd : d ≠ '-' := by
      rintro rfl
      cases h.1
    rw [startsIdent_minus, hstart, h.2, beq_eq_false_iff_ne.2 hd]
    rfl

theorem startsName_of_startsIdent {cs : List Char} (h : startsIdent cs) : startsName cs := by
  cases cs with
  | nil => cases h
  | cons c cs =>
    rw [startsName, Bool.or_eq_true]
    rcases startsIdent_cases h with ⟨rfl, -⟩ | ⟨rfl, hescapes⟩ | hstart
    · exact .inl rfl
    · exact .inr hescapes
    · exact .inl (isIdent_of_isIdentStart hstart)

/-- Whether a name starts is settled by what stands in front of characters that do not go on with one. -/
theorem startsIdent_of_append {cs rest : List Char} (hrest : startsName rest = false)
    (h : startsIdent (cs ++ rest)) : startsIdent cs := by
  have hescapes : ∀ {ds : List Char}, escapes (ds ++ rest) → escapes ds := by
    intro ds hds
    have hnil := endsName_nil.escapes_of_append hds
    rwa [List.append_nil] at hnil
  rcases cs with _ | ⟨c, cs⟩
  · exact absurd (startsName_of_startsIdent h) (Bool.eq_false_iff.1 hrest)
  by_cases hminus : c = '-'
  · subst hminus
    cases cs with
    | nil => cases h.symm.trans (startsIdent_minus_eq_false hrest)
    | cons d cs =>
      rw [List.cons_append, List.cons_append, startsIdent_minus, Bool.or_eq_true] at h
      rw [startsIdent_minus, Bool.or_eq_true]
      refine h.imp_right fun hescape => ?_
      by_cases hslash : d = '\\'
      · subst hslash
        exact hescapes hescape
      · cases hescape.symm.trans (startsEscape_of_ne _ hslash)
  · by_cases hslash : c = '\\'
    · subst hslash
      exact hescapes h
    · rwa [List.cons_append, startsIdent_of_ne _ hminus hslash, ← startsIdent_of_ne cs hminus hslash] at h

/-! ## Where a name ends -/

theorem startsName_rest_scanName (cs : List Char) : startsName (scanName cs).rest = false := by
  fun_induction scanName cs with
  | case1 => rfl
  | case2 c cs _ s ih => exact ih
  | case3 c cs _ _ e s ih => exact ih
  | case4 c cs hident hescape =>
    rw [startsName, Bool.or_eq_false_iff]
    refine ⟨Bool.eq_false_iff.2 hident, ?_⟩
    by_cases hslash : c = '\\'
    · subst hslash
      exact Bool.eq_false_iff.2 hescape
    · exact startsEscape_of_ne cs hslash

theorem scanName_append {name : List Char} (hname : ∀ c ∈ name, isIdent c) (hv : EndsName v) :
    scanName (name ++ v) = ⟨name, v, []⟩ := by
  induction name with
  | nil => exact hv.scanName_eq
  | cons c name ih =>
    obtain ⟨hc, hname⟩ := List.forall_mem_cons.1 hname
    rw [List.cons_append, scanName, if_pos hc, ih hname]

/-- An escape takes more characters than the one it stands for, the backslash included, or is cut off by
the end of the text. -/
private theorem scanEscape_cases (cs : List Char) :
    (∃ taken ≠ [], cs = taken ++ (scanEscape cs).rest) ∨
      cs = [] ∧ scanEscape cs = ⟨'\uFFFD', [], [.escapeAtEnd]⟩ := by
  cases cs with
  | nil => exact .inr ⟨rfl, rfl⟩
  | cons c cs =>
    obtain ⟨taken, htaken⟩ := isSuffix_scanEscape_cons c cs
    exact .inl ⟨c :: taken, List.cons_ne_nil c taken, by rw [List.cons_append, htaken]⟩

/-- A name is read from no fewer characters than there are in it. If they are as many, they are the name,
or else only its last character stands for something, for the backslash that ends the text. -/
theorem scanName_cases (cs : List Char) : ∃ taken, cs = taken ++ (scanName cs).rest ∧
    (scanName cs).value.length ≤ taken.length ∧ ((scanName cs).value.length = taken.length →
      (scanName cs).value = taken ∧ (∀ c ∈ taken, isIdent c) ∨
        ∃ front, taken = front ++ ['\\'] ∧ (scanName cs).value = front ++ ['\uFFFD']) := by
  fun_induction scanName cs with
  | case1 => exact ⟨[], rfl, Nat.le_refl 0, fun _ => .inl ⟨rfl, List.forall_mem_nil _⟩⟩
  | case2 c cs hident s ih =>
    obtain ⟨taken, hcs, hlength, hsame⟩ := ih
    refine ⟨c :: taken, by rw [List.cons_append, ← hcs], Nat.succ_le_succ hlength, fun h => ?_⟩
    rcases hsame (Nat.succ.inj h) with ⟨hvalue, hall⟩ | ⟨front, htaken, hvalue⟩
    · exact .inl ⟨congrArg (c :: ·) hvalue, List.forall_mem_cons.2 ⟨hident, hall⟩⟩
    · exact .inr ⟨c :: front, congrArg (c :: ·) htaken, congrArg (c :: ·) hvalue⟩
  | case3 c cs hident hescape e s ih =>
    obtain ⟨taken, hcs, hlength, -⟩ := ih
    have hlength : s.value.length ≤ taken.length := hlength
    rcases scanEscape_cases cs with ⟨escaped, hne, hescaped⟩ | ⟨rfl, hend⟩
    · have hpos := List.length_pos_iff.2 hne
      refine ⟨c :: (escaped ++ taken), ?_, ?_, fun h => ?_⟩
      · rw [List.cons_append, List.append_assoc, ← hcs]
        exact congrArg (c :: ·) hescaped
      · simp only [List.length_cons, List.length_append]
        omega
      · simp only [List.length_cons, List.length_append] at h
        omega
    · have hs : s = ⟨[], [], []⟩ := by
        show scanName e.rest = _
        rw [show e = _ from hend, scanName]
      obtain ⟨hslash, -⟩ := Bool.and_eq_true_iff.1 hescape
      have hvalue : [e.value] = ['\uFFFD'] := by rw [show e = _ from hend]
      rw [hs, beq_iff_eq.1 hslash]
      exact ⟨['\\'], rfl, Nat.le_refl 1, fun _ => .inr ⟨[], rfl, hvalue⟩⟩
  | case4 c cs => exact ⟨[], rfl, Nat.le_refl 0, fun _ => .inl ⟨rfl, List.forall_mem_nil _⟩⟩

/-! ## Tokens that are names -/

theorem scanIdentLike_eq_ident_iff {cs rest : List Char} {name : String} {notes : List Note} :
    scanIdentLike cs = ⟨.ident name, rest, notes⟩ ↔
      scanName cs = ⟨name.toList, rest, notes⟩ ∧ ∀ ds, rest ≠ '(' :: ds := by
  unfold scanIdentLike
  dsimp only
  split
  · rename_i ds hrest
    constructor
    · intro h
      have hvalue := congrArg Scan.value h
      rcases value_scanFunctionOrUrl (String.ofList (scanName cs).value) ds with hname | ⟨value, hurl⟩ | hbad
      · cases hname.symm.trans hvalue
      · cases hurl.symm.trans hvalue
      · cases hbad.symm.trans hvalue
    · rintro ⟨h, hrest'⟩
      rw [h] at hrest
      exact absurd hrest (hrest' ds)
  · rename_i rest' hrest
    constructor
    · intro h
      obtain ⟨hname, rfl, hnotes⟩ := Scan.mk.inj h
      refine ⟨?_, hrest⟩
      rw [← TokenKind.ident.inj hname, String.toList_ofList, ← hnotes]
    · rintro ⟨h, -⟩
      rw [h, String.ofList_toList]

/-- Where a name starts, and it is not the end of a comment in markup, it is what is scanned. -/
private theorem scanLexeme_of_startsIdent {c : Char} {cs : List Char} (h : startsIdent (c :: cs))
    (hcdc : ∀ ds, c :: cs ≠ '-' :: '-' :: '>' :: ds) : scanLexeme c cs =
      ⟨.plain (scanIdentLike (c :: cs)).value, (scanIdentLike (c :: cs)).rest,
        (scanIdentLike (c :: cs)).notes⟩ := by
  by_cases hminus : c = '-'
  · subst hminus
    have hscan : scanLexeme '-' cs = if startsNumber ('-' :: cs) then scanNumeric ('-' :: cs)
        else afterMinus cs := rfl
    rw [hscan, if_neg (by rw [startsNumber_of_startsIdent h]; exact Bool.false_ne_true)]
    unfold afterMinus
    split
    · exact absurd rfl (hcdc _)
    · rw [if_pos h]
  · by_cases hslash : c = '\\'
    · subst hslash
      have hescapes : escapes cs := h
      exact if_pos hescapes
    · rw [startsIdent_of_ne cs hminus hslash] at h
      unfold scanLexeme
      rw [if_neg (by rw [isWhitespace_of_isIdent (isIdent_of_isIdentStart h)]; exact Bool.false_ne_true)]
      -- None of the characters with a case of their own starts a name.
      split
      all_goals first | cases h | exact absurd rfl hminus | exact absurd rfl hslash | skip
      rw [if_neg (by rw [isDigit_of_isIdentStart h]; exact Bool.false_ne_true), if_pos h]
      rfl

private theorem mk_plain_eq_iff {s : Scan TokenKind} {kind : TokenKind} {rest : List Char} {notes : List Note} :
    (⟨.plain s.value, s.rest, s.notes⟩ : Scan Lexeme) = ⟨.plain kind, rest, notes⟩ ↔
      s = ⟨kind, rest, notes⟩ := by
  rcases s with ⟨value, rest', notes'⟩
  simp

/-- A name is scanned where one starts, unless it is the end of a comment in markup, and it is the name
itself unless a parenthesis comes after it. -/
theorem scanLexeme_eq_ident_iff {c : Char} {cs rest : List Char} {name : String} {notes : List Note} :
    scanLexeme c cs = ⟨.plain (.ident name), rest, notes⟩ ↔
      startsIdent (c :: cs) ∧ (∀ ds, c :: cs ≠ '-' :: '-' :: '>' :: ds) ∧
        scanName (c :: cs) = ⟨name.toList, rest, notes⟩ ∧ ∀ ds, rest ≠ '(' :: ds := by
  constructor
  · intro h
    have hscanned := scanned_scanLexeme c cs
    generalize scanLexeme c cs = s at h hscanned
    cases hscanned with
    | single hc =>
      obtain rfl := Lexeme.plain.inj (congrArg Scan.value h)
      cases hc
    | named hstart hcdc => exact ⟨hstart, hcdc, scanIdentLike_eq_ident_iff.1 (mk_plain_eq_iff.1 h)⟩
    | hash | atKeyword | whitespace | cdc => cases h
    | numeric => exact absurd (congrArg Scan.value h) (value_scanNumeric_ne _ _)
    | closed hclosed =>
      obtain rfl := Lexeme.plain.inj (congrArg Scan.value h)
      cases hclosed
  · rintro ⟨hstart, hcdc, h⟩
    rw [scanLexeme_of_startsIdent hstart hcdc, mk_plain_eq_iff, scanIdentLike_eq_ident_iff]
    exact h

private theorem scanLexeme_numberSign (cs : List Char) : scanLexeme '#' cs = if startsName cs then
      ⟨.plain (.hash (String.ofList (scanName cs).value)
        (if startsIdent cs then .id else .unrestricted)), (scanName cs).rest, (scanName cs).notes⟩
    else ⟨.plain (.delim '#'), cs, []⟩ :=
  rfl

/-- An id is a number sign and a name after it. -/
theorem scanLexeme_eq_id_iff {c : Char} {cs rest : List Char} {name : String} {notes : List Note} :
    scanLexeme c cs = ⟨.plain (.hash name .id), rest, notes⟩ ↔
      c = '#' ∧ startsIdent cs ∧ scanName cs = ⟨name.toList, rest, notes⟩ := by
  constructor
  · intro h
    have hscanned := scanned_scanLexeme c cs
    generalize scanLexeme c cs = s at h hscanned
    cases hscanned with
    | single hc =>
      obtain rfl := Lexeme.plain.inj (congrArg Scan.value h)
      cases hc
    | named =>
      have hvalue := Lexeme.plain.inj (congrArg Scan.value h)
      rcases value_scanIdentLike (c :: cs) with ⟨_, hname⟩ | ⟨_, hname⟩ | ⟨_, hname⟩ | hname
      all_goals cases hname.symm.trans hvalue
    | hash hc =>
      refine ⟨hc, ?_⟩
      obtain ⟨hhash, rfl, rfl⟩ := Scan.mk.inj h
      obtain ⟨rfl, hform⟩ := TokenKind.hash.inj (Lexeme.plain.inj hhash)
      rw [String.toList_ofList]
      split at hform
      · rename_i hstart
        exact ⟨hstart, rfl⟩
      · cases hform
    | atKeyword | whitespace | cdc => cases h
    | numeric => exact absurd (congrArg Scan.value h) (value_scanNumeric_ne _ _)
    | closed hclosed =>
      obtain rfl := Lexeme.plain.inj (congrArg Scan.value h)
      cases hclosed
  · rintro ⟨rfl, hstart, hname⟩
    rw [scanLexeme_numberSign, if_pos (startsName_of_startsIdent hstart), if_pos hstart, hname,
      String.ofList_toList]

/-- A point is a token where a name comes after it. -/
theorem scanLexeme_point_of_startsIdent {cs : List Char} (h : startsIdent cs) :
    scanLexeme '.' cs = ⟨.plain (.delim '.'), cs, []⟩ := by
  have hscan : scanLexeme '.' cs = if startsNumber ('.' :: cs) then scanNumeric ('.' :: cs)
      else ⟨.plain (.delim '.'), cs, []⟩ := rfl
  rw [hscan, startsNumber_point_of_startsIdent h]
  rfl

/-! ## Names in front of other text -/

/-- A name in front of what may follow one is a token. -/
theorem scanLexeme_of_scanName {c : Char} {cs : List Char} {name : String} {notes : List Note}
    (hstart : startsIdent (c :: cs)) (hname : scanName (c :: cs) = ⟨name.toList, v, notes⟩)
    (hv : FollowsName v) : scanLexeme c cs = ⟨.plain (.ident name), v, notes⟩ := by
  refine scanLexeme_eq_ident_iff.2 ⟨hstart, fun ds hds => ?_, hname, hv.ne_cons (by decide)⟩
  -- The end of a comment in markup is what does not follow the name.
  have hends : EndsName ('>' :: ds) := by
    rintro _ ⟨⟩
    exact ⟨rfl, rfl, by decide⟩
  have hdashes : scanName (['-', '-'] ++ '>' :: ds) = ⟨['-', '-'], '>' :: ds, []⟩ :=
    scanName_append (by simp [isIdent, Source.CodePoint.isIdent]) hends
  rw [hds] at hname
  exact hv.ne_cons (by decide) ds (congrArg Scan.rest (hname.symm.trans hdashes))

/-- A name goes on being one whatever follows in place of what did, if this goes on with no name. A name
that the end of the text cuts off stays at the end. -/
theorem scanLexeme_ident_append {c : Char} {cs : List Char} {name : String} {notes : List Note}
    (h : scanLexeme c (cs ++ u) = ⟨.plain (.ident name), u, notes⟩) (hv : FollowsName v)
    (hend : u = [] → v = []) : scanLexeme c (cs ++ v) = ⟨.plain (.ident name), v, notes⟩ := by
  obtain ⟨hstart, -, hname, -⟩ := scanLexeme_eq_ident_iff.1 h
  have hrest : (scanName (c :: cs ++ u)).rest = [] ++ u := congrArg Scan.rest hname
  have hcarry := scanName_carries hv.endsName hend (.inl rfl) hrest
  have hstop := startsName_rest_scanName (c :: (cs ++ u))
  rw [List.cons_append, List.cons_append, hname] at hcarry
  rw [hname] at hstop
  have hstart' : startsIdent (c :: (cs ++ v)) := by
    rw [← List.cons_append, hv.endsName.startsIdent_append]
    exact startsIdent_of_append hstop hstart
  exact scanLexeme_of_scanName hstart' hcarry hv

/-- A plain name can be written in front of anything that does not go on with it. -/
theorem scanName_of_isPlainName {name : String} (h : isPlainName name) (hv : FollowsName v) :
    startsIdent (name.toList ++ v) ∧ scanName (name.toList ++ v) = ⟨name.toList, v, []⟩ := by
  obtain ⟨hstart, hall⟩ := Bool.and_eq_true_iff.1 h
  rw [List.all_eq_true] at hall
  exact ⟨by rw [hv.endsName.startsIdent_append, hstart], scanName_append hall hv.endsName⟩

end Styling.Lexer
