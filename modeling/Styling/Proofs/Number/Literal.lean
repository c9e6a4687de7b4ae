import Styling.Proofs.Number.Rounding

/-!
# Numeric literals and their values

A literal has no value in two cases only: it is zero times a power of ten that is out of range, or
it is an integer that comes to the limit of the range when rounded (`Literal.value_eq_error_iff`). The value of
any other integer literal is the integer written, rounded to the precision (`Literal.value_integer`).
-/

namespace Styling.Number

/-- The integer that a number is with a sign in front of it. -/
def Sign.integer (sign : Option Sign) (n : Nat) : Int := if sign = some .minus then -n else n

theorem Sign.integer_inj (sign : Option Sign) {m n : Nat} : integer sign m = integer sign n ↔ m = n := by
  unfold integer
  split <;> omega

namespace Literal

open Magnitude

/-- All parts of a literal are decimal digits. -/
def IsDecimal (l : Literal) : Prop :=
  AreDigits l.whole ∧ AreDigits l.fraction ∧ AreDigits l.exponent

/-- Whether a literal is zero times a power of ten out of range, or an integer that comes to the
limit of the range when rounded to the precision. -/
def HasNoValue (l : Literal) : Prop :=
  ((∀ c ∈ l.whole ++ l.fraction, c = '0') ∧ (Magnitude.exponentLimit : Int) ≤ l.powerOfTen) ∨
    (l.form = .integer ∧ 2 * 10 ^ Magnitude.exponentLimit ≤
      2 * ofDigits l.whole + 10 ^ (Magnitude.exponentLimit - Magnitude.precision))

theorem significantDigits_eq_nil_iff (l : Literal) :
    l.significantDigits = [] ↔ ∀ c ∈ l.whole ++ l.fraction, c = '0' := by
  rw [significantDigits, List.dropWhile_eq_nil_iff]
  simp

/-- An integer is written with neither a fraction nor an exponent. -/
theorem of_form_eq_integer {l : Literal} (h : l.form = .integer) :
    l.fraction = [] ∧ l.powerOfTen = 0 := by
  rcases l with ⟨sign, whole, fraction, exponentSign, exponent⟩
  have hempty : fraction = [] ∧ exponent = [] := by
    simpa [form] using h
  rcases hempty with ⟨rfl, rfl⟩
  refine ⟨rfl, ?_⟩
  simp only [powerOfTen]
  split <;> rfl

private theorem magnitude_eq_error_iff (l : Literal) : (∃ e, l.magnitude = .error e) ↔
    (∀ c ∈ l.whole ++ l.fraction, c = '0') ∧ (Magnitude.exponentLimit : Int) ≤ l.powerOfTen := by
  rw [← significantDigits_eq_nil_iff, magnitude]
  by_cases hpower : l.powerOfTen ≥ Magnitude.exponentLimit
  · rw [if_pos hpower]
    cases hdigits : l.significantDigits with
    | nil => simp [hpower]
    | cons => simp
  · rw [if_neg hpower]
    refine iff_of_false ?_ (fun h => hpower h.2)
    intro herror
    rcases herror with ⟨e, he⟩
    split at he <;> cases he

/-- The magnitude of an integer is the number written, rounded to the precision, unless that is out of
range. -/
private theorem magnitude_of_form_eq_integer {l : Literal} (h : AreDigits l.whole) (hform : l.form = .integer) :
    l.magnitude = .ok (if roundNat (ofDigits l.whole) < 10 ^ exponentLimit then
      .finite (roundedQuotient (ofDigits l.whole) (surplus (ofDigits l.whole))) (surplus (ofDigits l.whole))
      else .infinite) := by
  obtain ⟨hfraction, hpower⟩ := of_form_eq_integer hform
  have hlimit : ¬l.powerOfTen ≥ exponentLimit := by
    rw [hpower]
    decide
  have hdigits : l.significantDigits = l.whole.dropWhile (· == '0') := by
    rw [significantDigits, hfraction, List.append_nil]
  have hsuffix := List.dropWhile_suffix (l := l.whole) (· == '0')
  have hleast : decide (l.powerOfTen < leastExponent) = false := by
    rw [hpower]
    decide
  rw [magnitude, if_neg hlimit, hleast, Bool.or_false, hdigits, hpower, hfraction, ← ofDigits_dropWhile l.whole]
  cases hcs : l.whole.dropWhile (· == '0') with
  | nil =>
    have hbelow : roundNat 0 < 10 ^ exponentLimit := Nat.pow_pos (by decide)
    exact congrArg Except.ok (if_pos hbelow).symm
  | cons c ds =>
    have hfirst : c ≠ '0' := by
      have hhead := List.head?_dropWhile_not (· == '0') l.whole
      rw [hcs] at hhead
      simpa using hhead
    have hall : AreDigits (c :: ds) := fun d hd => h d (hsuffix.subset (hcs ▸ hd))
    rw [← rounded_digits hall hfirst]
    rfl

private theorem magnitude_eq_infinite_iff {l : Literal} (h : AreDigits l.whole)
    (hform : l.form = .integer) : l.magnitude = .ok .infinite ↔
      2 * 10 ^ exponentLimit ≤ 2 * ofDigits l.whole + 10 ^ (exponentLimit - precision) := by
  rw [← pow_le_roundNat_iff_half (by decide), magnitude_of_form_eq_integer h hform, ← Nat.not_lt]
  by_cases hbelow : roundNat (ofDigits l.whole) < 10 ^ exponentLimit
  · rw [if_pos hbelow]
    exact iff_of_false (fun hinf => by cases hinf) (not_not_intro hbelow)
  · rw [if_neg hbelow]
    exact iff_of_true rfl hbelow

/-- A decimal literal has no value in two cases only. -/
theorem value_eq_error_iff {l : Literal} (h : l.IsDecimal) :
    (∃ e, l.value = .error e) ↔ l.HasNoValue := by
  have herror := magnitude_eq_error_iff l
  rw [HasNoValue, ← herror]
  cases hm : l.magnitude with
  | error e =>
    refine iff_of_true ⟨e, ?_⟩ (.inl ⟨e, rfl⟩)
    rw [value, hm]
    rfl
  | ok m =>
    have hnone : ¬∃ e, (Except.ok m : Except RangeError Magnitude) = .error e := by
      intro herror
      rcases herror with ⟨e, he⟩
      cases he
    rw [or_iff_right hnone]
    cases hform : l.form with
    | integer =>
      rw [← magnitude_eq_infinite_iff h.1 hform, hm, value, hm, hform]
      cases m with
      | infinite => exact iff_of_true ⟨.overflow, rfl⟩ ⟨rfl, rfl⟩
      | finite c e =>
        refine iff_of_false ?_ (fun hinf => by cases hinf.2)
        intro herror
        rcases herror with ⟨e, he⟩
        cases he
    | number =>
      refine iff_of_false ?_ (fun hinf => by cases hinf.1)
      intro herror
      rcases herror with ⟨e, he⟩
      rw [value, hm, hform] at he
      cases m <;> cases he

/-- A literal with neither a fraction nor an exponent. -/
def integer (sign : Option Sign) (ds : List Char) : Literal := ⟨sign, ds, [], none, []⟩

/-- The value of an integer literal is the integer rounded to the precision, if this is in range. -/
theorem value_integer (sign : Option Sign) {ds : List Char} (h : AreDigits ds) : (integer sign ds).value =
    if roundNat (ofDigits ds) < 10 ^ exponentLimit then
      .ok (.integer (Sign.integer sign (roundNat (ofDigits ds)))) else .error .overflow := by
  have hnegative : (integer sign ds).isNegative ↔ sign = some .minus := beq_iff_eq
  have hmagnitude := magnitude_of_form_eq_integer (l := integer sign ds) h rfl
  rw [value, hmagnitude, integer]
  split
  · rw [Sign.integer, ← ite_congr (propext hnegative) (fun _ => rfl) (fun _ => rfl)]
    rfl
  · rfl

end Literal

end Styling.Number
