import Styling.Token.Lexer

/-!
# What is scanned

The ways a token is scanned (`Lexer.scanned_scanLexeme`): of a single character, as a name or behind a mark
of one, as a number, as white-space, or with an end of its own. Every other fact about single scans is read
from these.
-/

namespace Styling

/-- The character of a token that is always a single one. -/
def TokenKind.character? : TokenKind → Option Char
  | delim c => some c
  | comma => some ','
  | colon => some ':'
  | semicolon => some ';'
  | opening .paren => some '('
  | closing .paren => some ')'
  | opening .square => some '['
  | closing .square => some ']'
  | opening .brace => some '{'
  | closing .brace => some '}'
  | _ => none

/-- Whether a token has an end of its own: a string, a comment, or the mark that opens one in markup. -/
def TokenKind.hasOwnEnd : TokenKind → Bool
  | string _ | badString | comment _ | cdo => true
  | _ => false

theorem TokenKind.character?_of_hasOwnEnd {kind : TokenKind} (h : kind.hasOwnEnd) :
    kind.character? = none := by
  cases kind <;> first | rfl | cases h

namespace Lexer

/-- What may be scanned at a character and those after it. -/
inductive Scanned (c : Char) (cs : List Char) : Scan Lexeme → Prop
  | single {kind : TokenKind} {notes : List Note} : kind.character? = some c →
      Scanned c cs ⟨.plain kind, cs, notes⟩
  /-- A minus that the end of a comment in markup begins with starts no name. -/
  | named : startsIdent (c :: cs) → (∀ ds, c :: cs ≠ '-' :: '-' :: '>' :: ds) →
      Scanned c cs ⟨.plain (scanIdentLike (c :: cs)).value, (scanIdentLike (c :: cs)).rest,
        (scanIdentLike (c :: cs)).notes⟩
  | hash : c = '#' → startsName cs → Scanned c cs ⟨.plain (.hash (String.ofList (scanName cs).value)
      (if startsIdent cs then .id else .unrestricted)), (scanName cs).rest, (scanName cs).notes⟩
  | atKeyword : c = '@' → startsIdent cs → Scanned c cs
      ⟨.plain (.atKeyword (String.ofList (scanName cs).value)), (scanName cs).rest, (scanName cs).notes⟩
  | numeric : Scanned c cs (scanNumeric (c :: cs))
  | whitespace : isWhitespace c → Scanned c cs
      ⟨.plain (.whitespace (String.ofList (c :: cs.takeWhile isWhitespace))), cs.dropWhile isWhitespace, []⟩
  | cdc {rest : List Char} : c = '-' → cs = '-' :: '>' :: rest → Scanned c cs ⟨.plain .cdc, rest, []⟩
  | closed {kind : TokenKind} {rest : List Char} {notes : List Note} : kind.hasOwnEnd →
      Scanned c cs ⟨.plain kind, rest, notes⟩

theorem scanned_scanLexeme (c : Char) (cs : List Char) : Scanned c cs (scanLexeme c cs) := by
  have hne : c ≠ '-' → ∀ ds, c :: cs ≠ '-' :: '-' :: '>' :: ds :=
    fun hc ds hds => hc (List.cons.inj hds).1
  unfold scanLexeme
  split
  · rename_i hspace
    exact .whitespace hspace
  · split
    case h_1 | h_2 =>
      refine .closed ?_
      split <;> rfl
    case h_3 =>
      split
      · rename_i hname
        exact .hash rfl hname
      · exact .single rfl
    case h_6 | h_7 =>
      split
      · exact .numeric
      · exact .single rfl
    case h_9 =>
      split
      · exact .numeric
      · split
        · exact .cdc rfl rfl
        · rename_i hcdc
          split
          · rename_i hstart
            exact .named hstart fun ds hds => hcdc ds (List.cons.inj hds).2
          · exact .single rfl
    case h_12 | h_19 =>
      split
      · exact .closed rfl
      · exact .single rfl
    case h_13 =>
      split
      · rename_i hstart
        exact .atKeyword rfl hstart
      · exact .single rfl
    case h_15 =>
      split
      · rename_i hescapes
        exact .named hescapes (hne (by decide))
      · exact .single rfl
    case h_20 =>
      rename_i hminus _ _ _ _ _ hslash _ _ _ _
      split
      · exact .numeric
      · split
        · rename_i hstart
          exact .named (by rwa [startsIdent_of_ne cs hminus hslash]) (hne hminus)
        · exact .single rfl
    all_goals exact .single rfl

theorem value_scanNumeric_ne (kind : TokenKind) (cs : List Char) : (scanNumeric cs).value ≠ .plain kind := by
  unfold scanNumeric
  dsimp only
  split
  · exact nofun
  · split <;> exact nofun

theorem value_scanFunctionOrUrl (name : String) (cs : List Char) :
    (scanFunctionOrUrl name cs).value = .function name ∨
      (∃ value, (scanFunctionOrUrl name cs).value = .url value) ∨
        (scanFunctionOrUrl name cs).value = .badUrl := by
  unfold scanFunctionOrUrl
  dsimp only
  split
  · split
    · exact .inl rfl
    · dsimp only
      split
      · exact .inr (.inl ⟨_, rfl⟩)
      · exact .inr (.inr rfl)
  · exact .inl rfl

/-- What begins with a name is a name, a function or a URL. -/
theorem value_scanIdentLike (cs : List Char) : (∃ name, (scanIdentLike cs).value = .ident name) ∨
    (∃ name, (scanIdentLike cs).value = .function name) ∨
      (∃ value, (scanIdentLike cs).value = .url value) ∨ (scanIdentLike cs).value = .badUrl := by
  unfold scanIdentLike
  dsimp only
  split
  · rename_i ds _
    rcases value_scanFunctionOrUrl (String.ofList (scanName cs).value) ds with hname | hurl
    · exact .inr (.inl ⟨_, hname⟩)
    · exact .inr (.inr hurl)
  · exact .inl ⟨_, rfl⟩

/-- A token of a single character is scanned from this character, which is all it takes. -/
theorem eq_of_character? {c d : Char} {cs : List Char} {kind : TokenKind}
    (h : (scanLexeme c cs).value = .plain kind) (hkind : kind.character? = some d) :
    c = d ∧ (scanLexeme c cs).rest = cs := by
  have hscanned := scanned_scanLexeme c cs
  generalize scanLexeme c cs = s at h hscanned
  cases hscanned with
  | single hc =>
    obtain rfl := Lexeme.plain.inj h
    exact ⟨Option.some.inj (hc.symm.trans hkind), rfl⟩
  | named =>
    rw [← Lexeme.plain.inj h] at hkind
    rcases value_scanIdentLike (c :: cs) with ⟨name, hname⟩ | ⟨name, hname⟩ | ⟨value, hname⟩ | hname
    all_goals
      rw [hname] at hkind
      cases hkind
  | hash | atKeyword | whitespace | cdc =>
    obtain rfl := Lexeme.plain.inj h
    cases hkind
  | numeric => exact absurd h (value_scanNumeric_ne _ _)
  | closed hclosed =>
    rw [← Lexeme.plain.inj h, TokenKind.character?_of_hasOwnEnd hclosed] at hkind
    cases hkind

end Lexer

end Styling
