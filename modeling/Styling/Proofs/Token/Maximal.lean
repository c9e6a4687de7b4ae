import Styling.Proofs.Source.Slice
import Styling.Proofs.Token.Name
import Styling.Proofs.Token.Reread
import Styling.Proofs.Token.Sequence

/-!
# Tokens are maximal

No token ends where the next one could have been a part of it (`tokenize_isChain_apart`): what is left
after a token (`TokenKind.StopsAt`) is not where a token that would go on with it starts
(`TokenKind.StartsAt`).
-/

namespace Styling

open Source Lexer

namespace TokenKind

/-- Whether a token ends in a name. -/
def endsInName : TokenKind → Bool
  | ident _ | hash .. | atKeyword _ | dimension .. => true
  | _ => false

/-- Whether a token starts as a name does. -/
def startsAsName : TokenKind → Bool
  | ident _ | function _ | url _ | badUrl | cdc => true
  | _ => false

def isIdent : TokenKind → Bool
  | ident _ => true
  | _ => false

def isNumber : TokenKind → Bool
  | number .. => true
  | _ => false

def isSpace : TokenKind → Bool
  | whitespace _ => true
  | _ => false

/-- What is left of a text after a token does not go on with it. -/
structure StopsAt (kind : TokenKind) (rest : List Char) : Prop where
  name : kind.endsInName → startsName rest = false
  paren : kind.isIdent → rest.head? ≠ some '('
  number : kind.isNumber →
    startsIdent rest = false ∧ rest.head? ≠ some '%' ∧ ∀ c ∈ rest.head?, isDigit c = false
  space : kind.isSpace → ∀ c ∈ rest.head?, isWhitespace c = false

/-- What a text starts with where a token does. -/
structure StartsAt (kind : TokenKind) (cs : List Char) : Prop where
  name : kind.startsAsName → startsIdent cs
  single : ∀ c ∈ kind.character?, cs.head? = some c
  space : kind.isSpace → ∃ c ∈ cs.head?, isWhitespace c

/-- Nothing goes on with a token that has no such end. -/
private theorem StopsAt.of_other {kind : TokenKind} {rest : List Char} (hname : kind.endsInName = false)
    (hnumber : kind.isNumber = false) (hspace : kind.isSpace = false) : kind.StopsAt rest := by
  have hident : kind.isIdent = false := by
    cases kind <;> simp_all [endsInName, isIdent]
  exact ⟨by simp [hname], by simp [hident], by simp [hnumber], by simp [hspace]⟩

/-- A token that starts neither as a name nor as white-space may start as it likes, if it has no character
of its own. -/
private theorem StartsAt.of_other {kind : TokenKind} {cs : List Char} (hname : kind.startsAsName = false)
    (hsingle : kind.character? = none) (hspace : kind.isSpace = false) : kind.StartsAt cs :=
  ⟨by simp [hname], by simp [hsingle], by simp [hspace]⟩

end TokenKind

namespace Lexer

variable {c : Char} {cs rest : List Char} {kind : TokenKind}

/-! ## Where a token stops -/

private theorem head?_scanDigits (cs : List Char) :
    ∀ c ∈ (Number.scanDigits cs).2.head?, isDigit c = false :=
  head?_splitRun isDigit cs

private theorem head?_scanFraction (h : ∀ c ∈ cs.head?, isDigit c = false) :
    ∀ c ∈ (Number.scanFraction cs).2.head?, isDigit c = false := by
  fun_cases Number.scanFraction cs with
  | case1 d cs => exact head?_scanDigits (d :: cs)
  | case2 d cs => exact h
  | case3 => exact h

private theorem head?_scanExponent (h : ∀ c ∈ cs.head?, isDigit c = false) :
    ∀ c ∈ (Number.scanExponent cs).2.2.head?, isDigit c = false := by
  cases cs with
  | nil => simp [Number.scanExponent]
  | cons e cs =>
    simp only [Number.scanExponent]
    split
    · exact head?_scanDigits (Number.scanSign cs).2
    · exact h

/-- A literal takes all the digits there are. -/
theorem head?_scanLiteral (cs : List Char) :
    ∀ c ∈ (Number.scanLiteral cs).2.head?, isDigit c = false :=
  head?_scanExponent (head?_scanFraction (head?_scanDigits (Number.scanSign cs).2))

private theorem head?_ne_of_forall_ne (h : ∀ ds, rest ≠ c :: ds) : rest.head? ≠ some c := by
  intro hc
  obtain ⟨ds, hds⟩ := List.head?_eq_some_iff.mp hc
  exact h ds hds

/-- A unit goes on to the end of its name; a number without one has no name after it. -/
private theorem stopsAt_scanNumeric (h : (scanNumeric cs).value.kind = .ok kind) :
    kind.StopsAt (scanNumeric cs).rest := by
  have hdigit := head?_scanLiteral cs
  revert h
  unfold scanNumeric
  generalize Number.scanLiteral cs = l at hdigit
  dsimp only
  split
  · intro h
    obtain ⟨value, rfl⟩ := Lexeme.of_kind h
    exact ⟨fun _ => startsName_rest_scanName _, nofun, nofun, nofun⟩
  · next hname =>
    split
    · intro h
      obtain ⟨value, rfl⟩ := Lexeme.of_kind h
      exact .of_other rfl rfl rfl
    · next hpercent =>
      intro h
      obtain ⟨value, rfl⟩ := Lexeme.of_kind h
      have hsign := head?_ne_of_forall_ne hpercent
      exact ⟨nofun, nofun, fun _ => ⟨by simpa using hname, hsign, hdigit⟩, nofun⟩

private theorem stopsAt_scanIdentLike (cs : List Char) :
    (scanIdentLike cs).value.StopsAt (scanIdentLike cs).rest := by
  generalize hs : scanIdentLike cs = s
  obtain ⟨value, rest, notes⟩ := s
  have hvalue := value_scanIdentLike cs
  rw [hs] at hvalue
  obtain ⟨name, rfl⟩ | ⟨name, rfl⟩ | ⟨url, rfl⟩ | rfl := hvalue
  · obtain ⟨hscan, hparen⟩ := scanIdentLike_eq_ident_iff.mp hs
    have hname := startsName_rest_scanName cs
    rw [hscan] at hname
    exact ⟨fun _ => hname, fun _ => head?_ne_of_forall_ne hparen, nofun, nofun⟩
  · exact .of_other rfl rfl rfl
  · exact .of_other rfl rfl rfl
  · exact .of_other rfl rfl rfl

/-- No token leaves what could have been a part of it. -/
theorem stopsAt_scanLexeme (h : (scanLexeme c cs).value.kind = .ok kind) :
    kind.StopsAt (scanLexeme c cs).rest := by
  have hscanned := scanned_scanLexeme c cs
  generalize scanLexeme c cs = s at h hscanned
  cases hscanned with
  | single hc =>
    obtain rfl : kind = _ := Lexeme.of_kind h
    cases kind <;> first | exact .of_other rfl rfl rfl | cases hc
  | named =>
    obtain rfl : kind = _ := Lexeme.of_kind h
    exact stopsAt_scanIdentLike (c :: cs)
  | hash =>
    obtain rfl : kind = _ := Lexeme.of_kind h
    exact ⟨fun _ => startsName_rest_scanName cs, nofun, nofun, nofun⟩
  | atKeyword =>
    obtain rfl : kind = _ := Lexeme.of_kind h
    exact ⟨fun _ => startsName_rest_scanName cs, nofun, nofun, nofun⟩
  | numeric => exact stopsAt_scanNumeric h
  | whitespace =>
    obtain rfl : kind = _ := Lexeme.of_kind h
    exact ⟨nofun, nofun, nofun, fun _ => head?_splitRun isWhitespace cs⟩
  | cdc =>
    obtain rfl : kind = _ := Lexeme.of_kind h
    exact .of_other rfl rfl rfl
  | closed hclosed =>
    obtain rfl : kind = _ := Lexeme.of_kind h
    cases kind <;> first | exact .of_other rfl rfl rfl | cases hclosed

/-! ## Where a token starts -/

private theorem startsAt_of_numeric {ds : List Char} (h : (scanNumeric cs).value.kind = .ok kind) :
    kind.StartsAt ds := by
  have hplain := value_scanNumeric_ne kind cs
  generalize (scanNumeric cs).value = lexeme at h hplain
  cases lexeme with
  | plain k => exact absurd (congrArg Lexeme.plain (Lexeme.of_kind h).symm) hplain
  | number l | percentage l | dimension l unit =>
    obtain ⟨value, rfl⟩ := Lexeme.of_kind h
    exact .of_other rfl rfl rfl

/-- A token starts with the sort of text that its kind asks for. -/
theorem startsAt_scanLexeme (h : (scanLexeme c cs).value.kind = .ok kind) :
    kind.StartsAt (c :: cs) := by
  have hscanned := scanned_scanLexeme c cs
  generalize scanLexeme c cs = s at h hscanned
  cases hscanned with
  | single hc =>
    obtain rfl : kind = _ := Lexeme.of_kind h
    have hname : kind.startsAsName = false := by
      cases kind <;> first | rfl | cases hc
    have hspace : kind.isSpace = false := by
      cases kind <;> first | rfl | cases hc
    exact ⟨by simp [hname], fun d hd => hc.symm.trans hd, by simp [hspace]⟩
  | named hstart =>
    obtain rfl : kind = _ := Lexeme.of_kind h
    have hvalue := value_scanIdentLike (c :: cs)
    generalize (scanIdentLike (c :: cs)).value = kind at hvalue
    obtain ⟨name, rfl⟩ | ⟨name, rfl⟩ | ⟨url, rfl⟩ | rfl := hvalue
    all_goals exact ⟨fun _ => hstart, nofun, nofun⟩
  | hash =>
    obtain rfl : kind = _ := Lexeme.of_kind h
    exact .of_other rfl rfl rfl
  | atKeyword =>
    obtain rfl : kind = _ := Lexeme.of_kind h
    exact .of_other rfl rfl rfl
  | numeric => exact startsAt_of_numeric h
  | whitespace hc =>
    obtain rfl : kind = _ := Lexeme.of_kind h
    exact ⟨nofun, nofun, fun _ => ⟨c, rfl, hc⟩⟩
  | cdc hc hcs =>
    obtain rfl : kind = _ := Lexeme.of_kind h
    subst hc hcs
    exact ⟨fun _ => rfl, nofun, nofun⟩
  | closed hclosed =>
    obtain rfl : kind = _ := Lexeme.of_kind h
    cases kind <;> first | exact .of_other rfl rfl rfl | cases hclosed

end Lexer

/-! ## Neighbours -/

/-- What a token is not, right behind another one: the start of what would have gone on with that. -/
structure Token.Apart (t u : Token) : Prop where
  name : t.kind.endsInName → u.kind.startsAsName = false ∧
    ∀ c ∈ u.source.toList.head?, isDigit c = false ∧ c ≠ '-'
  paren : t.kind.isIdent → u.kind ≠ .opening .paren
  number : t.kind.isNumber → u.kind.startsAsName = false ∧ u.kind ≠ .delim '%' ∧
    ∀ c ∈ u.source.toList.head?, isDigit c = false
  space : t.kind.isSpace → u.kind.isSpace = false

variable {cs : List SourceChar} {ts : List Token}

private theorem eq_false_of_imp {p q : Bool} (h : p → q) (hq : q = false) : p = false := by
  cases p <;> simp_all

/-- Where one token stops and another starts, nothing of the second goes on with the first. -/
private theorem apart_of_stopsAt {t u : Token} {rest : List Char} (ht : t.kind.StopsAt rest)
    (hu : u.kind.StartsAt rest)
    (hsource : ∀ c ∈ u.source.toList.head?, Lexer.isIdent c → rest.head? = some c) : t.Apart u where
  name h := by
    have hstop := ht.name h
    have hname := eq_false_of_imp (fun hname => startsName_of_startsIdent (hu.name hname)) hstop
    refine ⟨hname, fun c hc => ?_⟩
    have hident : Lexer.isIdent c = false := by
      rw [Bool.eq_false_iff]
      intro hident
      obtain ⟨cs, rfl⟩ := List.head?_eq_some_iff.mp (hsource c hc hident)
      simp [startsName, hident] at hstop
    refine ⟨eq_false_of_imp isIdent_of_isDigit hident, ?_⟩
    rintro rfl
    cases hident
  paren h hparen := ht.paren h (hu.single '(' (by rw [hparen]; rfl))
  number h := by
    obtain ⟨hname, hpercent, hdigit⟩ := ht.number h
    refine ⟨eq_false_of_imp hu.name hname, ?_, fun c hc => ?_⟩
    · intro hdelim
      exact hpercent (hu.single '%' (by rw [hdelim]; rfl))
    · rw [Bool.eq_false_iff]
      intro hc'
      have hhead := hsource c hc (isIdent_of_isDigit hc')
      rw [hdigit c hhead] at hc'
      cases hc'
  space h := by
    rw [Bool.eq_false_iff]
    intro hspace
    obtain ⟨c, hc, hwhite⟩ := hu.space hspace
    rw [ht.space h c hc] at hwhite
    cases hwhite

/-- A character of names is written as itself. -/
private theorem value_of_head?_source {x : SourceChar} {here : Location} {text more : List Char} {c : Char}
    (hx : x ∈ filterFrom here text) (hc : (x.source ++ more).head? = some c) (hident : Lexer.isIdent c) :
    x.value = c := by
  obtain ⟨d, hvalue, hsource⟩ | ⟨-, hsource⟩ := mem_filterFrom hx
  · rw [hsource] at hc
    obtain rfl : d = c := by simpa using hc
    rw [hvalue, filterChar_of_isIdent hident]
  · rw [hsource] at hc
    obtain rfl : '\r' = c := by simpa using hc
    cases hident

/-- The tokens formed of the characters of a text are apart from those next to them. -/
theorem Formed.isChain_apart {here : Location} {text : List Char} (h : Formed cs ts)
    (hcs : ∀ x ∈ cs, x ∈ filterFrom here text) : ts.IsChain Token.Apart := by
  induction h with
  | nil => simp
  | @cons c taken rest t ts lexeme notes scan kind source location others ih =>
    have hrest : ∀ x ∈ rest, x ∈ filterFrom here text := fun x hx => hcs x (by simp [hx])
    have hstop : t.kind.StopsAt (rest.map SourceChar.value) := by
      have hkind : (scanLexeme c.value ((taken ++ rest).map SourceChar.value)).value.kind = .ok t.kind := by
        rw [scan, kind]
      have hstop := stopsAt_scanLexeme hkind
      rwa [scan] at hstop
    cases others with
    | nil => simp
    | @cons d taken' rest' u us lexeme' notes' scan' kind' source' location' others' =>
      have hstart : u.kind.StartsAt ((d :: (taken' ++ rest')).map SourceChar.value) :=
        startsAt_scanLexeme (by rw [scan', kind'])
      have hsource : ∀ c ∈ u.source.toList.head?, Lexer.isIdent c →
          ((d :: (taken' ++ rest')).map SourceChar.value).head? = some c := by
        intro c hc hident
        rw [source', String.toList_ofList, sourcesOf_cons] at hc
        simp [value_of_head?_source (hrest d (by simp)) hc hident]
      exact List.isChain_cons_cons.mpr ⟨apart_of_stopsAt hstop hstart hsource, ih hrest⟩

/-- No token of a text goes on with the one before it. -/
theorem tokenize_isChain_apart {text : String} {ts : List Token} (h : tokenize text = .ok ts) :
    ts.IsChain Token.Apart :=
  (formed_of_tokenize h).isChain_apart fun _ hx => hx

/-- A hash that takes the dashes of an end of a comment in markup, and names that a comment keeps apart. -/
def closeTokens : List Token :=
  [⟨.hash "a--" .id, "#a--", ⟨1, 1⟩⟩, ⟨.delim '>', ">", ⟨1, 5⟩⟩, ⟨.ident "b", "b", ⟨1, 6⟩⟩,
    ⟨.comment "", "/**/", ⟨1, 7⟩⟩, ⟨.ident "c", "c", ⟨1, 11⟩⟩]

theorem tokenize_isChain_apart_closeTokens : tokenize "#a-->b/**/c" = .ok closeTokens ∧
    closeTokens.IsChain Token.Apart := by
  have htokens : tokenize "#a-->b/**/c" = .ok closeTokens := by cbv
  exact ⟨htokens, tokenize_isChain_apart htokens⟩

end Styling
