import Styling.Proofs.Number.Literal
import Styling.Proofs.Source.Slice
import Styling.Proofs.Token.Formation
import Styling.Proofs.Token.Name

/-!
# Texts that are an integer

A text of decimal digits, with or without a sign, is a single token. Its value is the integer written,
rounded to the precision of numbers, so it is the integer itself for those that need no rounding and for no
others (`tokenize_integer_iff`).
-/

namespace Styling

open Source

namespace Number

/-- The characters of digits, with a sign in front of them or without one. -/
def integerChars (sign : Option Sign) (ds : List Char) : List Char := sign.toList.map Sign.toChar ++ ds

variable {sign : Option Sign} {d : Char} {ds : List Char}

theorem ne_of_isDigit {c : Char} (h : CodePoint.isDigit d.toNat) (hc : CodePoint.isDigit c.toNat = false) :
    d ≠ c := by
  intro hd
  rw [hd, hc] at h
  cases h

private theorem ofChar?_of_isDigit (h : CodePoint.isDigit d.toNat) : Sign.ofChar? d = none := by
  have hplus : d ≠ '+' := ne_of_isDigit h rfl
  have hminus : d ≠ '-' := ne_of_isDigit h rfl
  simp [Sign.ofChar?, hplus, hminus]

theorem scanSign_integerChars (h : AreDigits (d :: ds)) :
    scanSign (integerChars sign (d :: ds)) = (sign, d :: ds) := by
  cases sign with
  | none =>
    have hnone := ofChar?_of_isDigit (h d List.mem_cons_self)
    simp [integerChars, scanSign, hnone]
  | some s => cases s <;> rfl

theorem scanDigits_of_areDigits (h : AreDigits ds) : scanDigits ds = (ds, []) :=
  Prod.ext (List.takeWhile_eq_self_iff.2 h) (List.dropWhile_eq_nil_iff.2 h)

theorem scanLiteral_integerChars (h : AreDigits (d :: ds)) :
    scanLiteral (integerChars sign (d :: ds)) = (.integer sign (d :: ds), []) := by
  simp only [scanLiteral, scanSign_integerChars h, scanDigits_of_areDigits h]
  rfl

end Number

open Number

namespace Lexer

variable {sign : Option Sign} {c d : Char} {cs ds : List Char}

private theorem startsNumber_of_sign (s : Sign) (ds : List Char) (h : CodePoint.isDigit d.toNat) :
    startsNumber (s.toChar :: d :: ds) := by
  have hpoint : d ≠ '.' := ne_of_isDigit h rfl
  cases s <;>
    · simp only [startsNumber, Sign.toChar, beq_self_eq_true, Bool.true_or, Bool.or_true, if_true]
      split <;> simp_all [isDigit]

private theorem scanLexeme_of_isDigit (h : CodePoint.isDigit c.toNat) :
    scanLexeme c cs = scanNumeric (c :: cs) := by
  unfold scanLexeme
  rw [if_neg (by rw [isWhitespace_of_isIdent (isIdent_of_isDigit h)]; exact Bool.false_ne_true)]
  -- None of the characters with a case of their own is a digit.
  split
  all_goals first | cases h | skip
  exact if_pos h

/-- Digits, with a sign or without, are scanned as one number. -/
theorem scanLexeme_integerChars (h : AreDigits (d :: ds)) (hcs : integerChars sign (d :: ds) = c :: cs) :
    scanLexeme c cs = ⟨.number (.integer sign (d :: ds)), [], []⟩ := by
  have hdigit := h d List.mem_cons_self
  have hscan : scanLexeme c cs = scanNumeric (c :: cs) := by
    cases sign with
    | none =>
      obtain ⟨rfl, rfl⟩ := List.cons.inj hcs
      exact scanLexeme_of_isDigit hdigit
    | some s =>
      obtain ⟨rfl, rfl⟩ := List.cons.inj hcs
      have hstarts := startsNumber_of_sign s ds hdigit
      cases s <;> exact if_pos hstarts
  rw [hscan, ← hcs, scanNumeric, scanLiteral_integerChars h]
  rfl

theorem filterChar_of_mem_integerChars (sign : Option Sign) (h : AreDigits ds) :
    ∀ c ∈ integerChars sign ds, filterChar c = c := by
  intro c hc
  rcases List.mem_append.1 hc with hsign | hdigit
  · obtain ⟨s, -, rfl⟩ := List.mem_map.1 hsign
    cases s <;> rfl
  · exact filterChar_of_isIdent (isIdent_of_isDigit (h c hdigit))

end Lexer

/-- A text that is scanned at once is a single token, if this has a value. -/
theorem Tokens.ofText_of_scanLexeme {c : Char} {cs : List Char} {lexeme : Lexer.Lexeme}
    {notes : List Lexer.Note} (hplain : ∀ d ∈ c :: cs, filterChar d = d)
    (hscan : Lexer.scanLexeme c cs = ⟨lexeme, [], notes⟩) :
    Tokens.ofText (String.ofList (c :: cs)) = match lexeme.kind with
      | .ok kind => ⟨[⟨kind, String.ofList (c :: cs), .start⟩], notes, none⟩
      | .error e => ⟨[], notes, some e⟩ := by
  obtain ⟨hc, hcs⟩ := List.forall_mem_cons.1 hplain
  have hvalues := map_value_filterFrom hcs (Location.start.after c)
  have hsources := sourcesOf_filterFrom .start (c :: cs)
  rw [filterFrom_cons_of_filterChar hc] at hsources
  rw [ofText, filter, String.toList_ofList, filterFrom_cons_of_filterChar hc, ofChars, hvalues, hscan]
  cases lexeme.kind with
  | error e => rfl
  | ok kind =>
    have hall : (filterFrom (Location.start.after c) cs).length - ([] : List Char).length =
        (filterFrom (Location.start.after c) cs).length := rfl
    dsimp only
    rw [hall, List.take_length, List.drop_length, ofChars, ← sourcesOf, hsources, List.append_nil]

/-- The text of an integer: decimal digits with a sign in front of them or without one. -/
def integerText (sign : Option Sign) (ds : List Char) : String := String.ofList (integerChars sign ds)

/-- The token of an integer that is a text of its own. -/
def integerToken (sign : Option Sign) (ds : List Char) (value : Int) : Token :=
  ⟨.number (.integer value) sign .integer, integerText sign ds, .start⟩

theorem integerToken_inj {sign : Option Sign} {ds : List Char} {m n : Int} :
    integerToken sign ds m = integerToken sign ds n ↔ m = n := by
  simp [integerToken]

section Integer

variable (sign : Option Sign) {ds : List Char} (hne : ds ≠ []) (h : AreDigits ds)
include hne h

private theorem ofText_integer : Tokens.ofText (integerText sign ds) =
    if Magnitude.roundNat (ofDigits ds) < 10 ^ Magnitude.exponentLimit then
      ⟨[integerToken sign ds (Sign.integer sign (Magnitude.roundNat (ofDigits ds)))], [], none⟩
    else ⟨[], [], some .overflow⟩ := by
  obtain ⟨d, es, rfl⟩ := List.exists_cons_of_ne_nil hne
  obtain ⟨c, cs, hcs⟩ : ∃ c cs, integerChars sign (d :: es) = c :: cs := by
    cases sign with
    | none => exact ⟨_, _, rfl⟩
    | some s => exact ⟨_, _, rfl⟩
  have hplain := Lexer.filterChar_of_mem_integerChars sign h
  have hscan := Lexer.scanLexeme_integerChars h hcs
  rw [hcs] at hplain
  rw [integerToken, integerText, hcs, Tokens.ofText_of_scanLexeme hplain hscan, Lexer.Lexeme.kind,
    Literal.value_integer sign h]
  by_cases hbelow : Magnitude.roundNat (ofDigits (d :: es)) < 10 ^ Magnitude.exponentLimit
  · rw [if_pos hbelow, if_pos hbelow]
    rfl
  · rw [if_neg hbelow, if_neg hbelow]
    rfl

/-- A text that is an integer gives a single token whose value is this integer exactly if it is in range and
has no more digits than the precision, zeros at its end apart. Of others the value is the nearest integer with
so few digits, if that is in range; if not, the text has no tokens. -/
theorem tokenize_integer_iff :
    (tokenize (integerText sign ds) = .ok [integerToken sign ds (Sign.integer sign (ofDigits ds))] ↔
      Magnitude.IsExact (ofDigits ds) ∧ ofDigits ds < 10 ^ Magnitude.exponentLimit) ∧
    formTokens (integerText sign ds) = some (
      if Magnitude.roundNat (ofDigits ds) < 10 ^ Magnitude.exponentLimit then
        .ok ([integerToken sign ds (Sign.integer sign (Magnitude.roundNat (ofDigits ds)))], [])
      else .error (.range .overflow)) ∧
    ∀ m, Magnitude.IsExact m → Magnitude.gap (Magnitude.roundNat (ofDigits ds)) (ofDigits ds) ≤
      Magnitude.gap m (ofDigits ds) := by
  have htext := ofText_integer sign hne h
  refine ⟨?_, ?_, fun m hm => Magnitude.gap_roundNat_le _ hm⟩
  · rw [tokenize, htext, ← Magnitude.roundNat_eq_self_iff]
    by_cases hbelow : Magnitude.roundNat (ofDigits ds) < 10 ^ Magnitude.exponentLimit
    · rw [if_pos hbelow]
      constructor
      · intro htoken
        have hsame := integerToken_inj.1 (List.singleton_inj.1 (Except.ok.inj htoken))
        have hvalue := (Sign.integer_inj sign).1 hsame
        exact ⟨hvalue, hvalue ▸ hbelow⟩
      · intro hexact
        rw [hexact.1]
        rfl
    · rw [if_neg hbelow]
      refine iff_of_false (fun htoken => by cases htoken) ?_
      intro hexact
      exact hbelow (hexact.1.symm ▸ hexact.2)
  · rw [formTokens_eq, htext]
    by_cases hbelow : Magnitude.roundNat (ofDigits ds) < 10 ^ Magnitude.exponentLimit
    · rw [if_pos hbelow, if_pos hbelow]
    · rw [if_neg hbelow, if_neg hbelow]

end Integer

/-- Of 29 digits the last one is lost. -/
theorem formTokens_twentyNineDigits : formTokens "12345678901234567890123456785" =
    some (.ok ([⟨.number (.integer 12345678901234567890123456780) none .integer,
      "12345678901234567890123456785", .start⟩], [])) := by
  have hdigits : AreDigits "12345678901234567890123456785".toList := by
    simp [AreDigits, CodePoint.isDigit]
  have hvalue : ofDigits "12345678901234567890123456785".toList = 12345678901234567890123456785 := by
    decide
  have hround : Magnitude.roundNat 12345678901234567890123456785 = 12345678901234567890123456780 := by
    have hsurplus : Magnitude.surplus 12345678901234567890123456785 = 1 := by
      norm_num [Magnitude.surplus, Magnitude.precision]
    rw [Magnitude.roundNat, hsurplus]
    decide
  have hbelow : Magnitude.roundNat 12345678901234567890123456785 < 10 ^ Magnitude.exponentLimit := by
    have hpow : 10 ^ 29 ≤ 10 ^ Magnitude.exponentLimit := Nat.pow_le_pow_right (by decide) (by decide)
    have hlt : 12345678901234567890123456780 < 10 ^ 29 := by decide
    rw [hround]
    exact hlt.trans_le hpow
  obtain ⟨-, htokens, -⟩ := tokenize_integer_iff none (by decide) hdigits
  rw [hvalue, if_pos hbelow, hround] at htokens
  exact htokens

end Styling
