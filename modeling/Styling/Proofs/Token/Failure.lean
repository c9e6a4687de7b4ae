import Styling.Proofs.Number.Literal
import Styling.Token.Sequence

/-!
# Texts without tokens

Forming the tokens of a text breaks off at a numeric literal without a value, and for no other reason
(`tokenize_eq_error_iff`).
-/

namespace Styling

namespace Number

private theorem areDigits_scanDigits (cs : List Char) : AreDigits (scanDigits cs).1 :=
  fun _ hc => (List.mem_takeWhile_imp hc :)

private theorem areDigits_scanFraction (cs : List Char) : AreDigits (scanFraction cs).1 := by
  fun_cases scanFraction cs with
  | case1 d cs h => exact areDigits_scanDigits (d :: cs)
  | case2 => exact fun c hc => by cases hc
  | case3 => exact fun c hc => by cases hc

private theorem areDigits_scanExponent (cs : List Char) : AreDigits (scanExponent cs).2.1 := by
  cases cs with
  | nil => exact fun c hc => by cases hc
  | cons e cs =>
    simp only [scanExponent]
    split
    · exact areDigits_scanDigits _
    · exact fun c hc => by cases hc

theorem isDecimal_scanLiteral (cs : List Char) : (scanLiteral cs).1.IsDecimal :=
  ⟨areDigits_scanDigits _, areDigits_scanFraction _, areDigits_scanExponent _⟩

end Number

open Source Lexer

namespace Lexer

/-- The literal of a numeric lexeme. -/
def Lexeme.literal? : Lexeme → Option Number.Literal
  | .plain _ => none
  | .number l | .percentage l | .dimension l _ => some l

theorem Lexeme.kind_eq_error_iff (x : Lexeme) :
    (∃ e, x.kind = .error e) ↔ ∃ l ∈ x.literal?, ∃ e, l.value = .error e := by
  cases x with
  | plain k => simp [kind, literal?]
  | number l | percentage l | dimension l unit =>
    cases h : l.value <;> simp [kind, literal?, h, bind, Except.bind, pure, Except.pure]

private theorem isDecimal_of_scanNumeric {cs : List Char} {l : Number.Literal}
    (h : (scanNumeric cs).value.literal? = some l) : l.IsDecimal := by
  have hl : l = (Number.scanLiteral cs).1 := by
    simp only [scanNumeric] at h
    split at h
    · exact (Option.some.inj h).symm
    · split at h <;> exact (Option.some.inj h).symm
  rw [hl]
  exact Number.isDecimal_scanLiteral cs

/-- A lexeme with a literal comes from scanning for a number. -/
private theorem scanLexeme_cases (c : Char) (cs : List Char) :
    (∃ kind, (scanLexeme c cs).value = .plain kind) ∨ scanLexeme c cs = scanNumeric (c :: cs) := by
  unfold scanLexeme
  split
  · exact .inl ⟨_, rfl⟩
  · split
    all_goals try exact .inl ⟨_, rfl⟩
    · split <;> exact .inl ⟨_, rfl⟩
    · split
      · exact .inr rfl
      · exact .inl ⟨_, rfl⟩
    · split
      · exact .inr rfl
      · exact .inl ⟨_, rfl⟩
    · split
      · exact .inr rfl
      · split
        · exact .inl ⟨_, rfl⟩
        · split <;> exact .inl ⟨_, rfl⟩
    · split <;> exact .inl ⟨_, rfl⟩
    · split <;> exact .inl ⟨_, rfl⟩
    · split <;> exact .inl ⟨_, rfl⟩
    · split <;> exact .inl ⟨_, rfl⟩
    · split
      · exact .inr rfl
      · split <;> exact .inl ⟨_, rfl⟩

theorem isDecimal_of_scanLexeme {c : Char} {cs : List Char} {l : Number.Literal}
    (h : (scanLexeme c cs).value.literal? = some l) : l.IsDecimal := by
  rcases scanLexeme_cases c cs with ⟨kind, hplain⟩ | hnumeric
  · rw [hplain] at h
    cases h
  · rw [hnumeric] at h
    exact isDecimal_of_scanNumeric h

end Lexer

/-- The numeric literals of filtered text, scanning on whether they have a value or not. -/
def literals : List SourceChar → List Number.Literal
  | [] => []
  | c :: cs =>
    let s := scanLexeme c.value (cs.map SourceChar.value)
    s.value.literal?.toList ++ literals (cs.drop (cs.length - s.rest.length))
termination_by cs => cs.length
decreasing_by simp only [List.length_drop, List.length_cons]; omega

private theorem kind_scanLexeme_eq_error_iff (c : Char) (cs : List Char) :
    (∃ e, (scanLexeme c cs).value.kind = .error e) ↔
      ∃ l ∈ (scanLexeme c cs).value.literal?, l.HasNoValue := by
  rw [Lexeme.kind_eq_error_iff]
  refine exists_congr fun l => and_congr_right fun hl => ?_
  exact Number.Literal.value_eq_error_iff (isDecimal_of_scanLexeme hl)

theorem failure_ofChars_iff (cs : List SourceChar) :
    (∃ e, (Tokens.ofChars cs).failure = some e) ↔ ∃ l ∈ literals cs, l.HasNoValue := by
  induction hn : cs.length using Nat.strongRecOn generalizing cs with
  | _ n ih =>
    cases cs with
    | nil => simp [Tokens.ofChars, literals]
    | cons c cs =>
      have hfirst := kind_scanLexeme_eq_error_iff c.value (cs.map SourceChar.value)
      rw [Tokens.ofChars, literals]
      generalize scanLexeme c.value (cs.map SourceChar.value) = s at hfirst ⊢
      have hlen : (cs.drop (cs.length - s.rest.length)).length < n := by
        rw [← hn, List.length_drop, List.length_cons]
        omega
      have hothers := ih _ hlen _ rfl
      have hsplit : (∃ l ∈ s.value.literal?.toList ++ literals (cs.drop (cs.length - s.rest.length)),
          l.HasNoValue) ↔ (∃ l ∈ s.value.literal?, l.HasNoValue) ∨
            ∃ l ∈ literals (cs.drop (cs.length - s.rest.length)), l.HasNoValue := by
        simp only [List.mem_append, Option.mem_toList, Option.mem_def, or_and_right, exists_or]
      rw [hsplit, ← hfirst, ← hothers]
      cases s.value.kind with
      | error e => simp
      | ok kind => simp

/-- A text has no tokens where one of its numeric literals has no value, and nowhere else. -/
theorem tokenize_eq_error_iff (text : String) :
    (∃ e, tokenize text = .error e) ↔ ∃ l ∈ literals (filter text), l.HasNoValue := by
  rw [← failure_ofChars_iff, tokenize, Tokens.toExcept]
  show _ ↔ ∃ e, (Tokens.ofText text).failure = some e
  cases (Tokens.ofText text).failure <;> simp

end Styling
