import Mathlib.Data.List.TakeWhile
import Mathlib.Data.Nat.Digits.Lemmas
import Mathlib.Tactic.Linarith
import Mathlib.Tactic.Ring
import Styling.Number.Literal

/-!
# Rounding to the precision

A number is rounded to the nearest of those with no more digits than the precision, zeros at the end apart
(`Magnitude.gap_roundNat_le`), and a tie to the even neighbour. So a number is rounded to itself exactly if it
is one of these (`Magnitude.roundNat_eq_self_iff`).
-/

namespace Styling.Number

/-- The digits are decimal ones. -/
def AreDigits (ds : List Char) : Prop := ∀ c ∈ ds, Source.CodePoint.isDigit c.toNat

private theorem digit_le {c : Char} (h : Source.CodePoint.isDigit c.toNat) :
    0x30 ≤ c.toNat ∧ c.toNat ≤ 0x39 := by
  simpa [Source.CodePoint.isDigit] using h

private theorem foldl_digits_bounds {ds : List Char} (h : AreDigits ds) (a : Nat) :
    a * 10 ^ ds.length ≤ ds.foldl (fun n d => 10 * n + (d.toNat - 0x30)) a ∧
      ds.foldl (fun n d => 10 * n + (d.toNat - 0x30)) a < (a + 1) * 10 ^ ds.length := by
  induction ds generalizing a with
  | nil => simp
  | cons c ds ih =>
    obtain ⟨hc, hds⟩ := List.forall_mem_cons.1 h
    obtain ⟨hlow, hhigh⟩ := digit_le hc
    obtain ⟨hle, hlt⟩ := ih hds (10 * a + (c.toNat - 0x30))
    rw [List.foldl_cons, List.length_cons, Nat.pow_succ]
    constructor
    · calc a * (10 ^ ds.length * 10) = 10 * a * 10 ^ ds.length := by ring
        _ ≤ (10 * a + (c.toNat - 0x30)) * 10 ^ ds.length := Nat.mul_le_mul_right _ (Nat.le_add_right ..)
        _ ≤ _ := hle
    · calc _ < (10 * a + (c.toNat - 0x30) + 1) * 10 ^ ds.length := hlt
        _ ≤ (10 * (a + 1)) * 10 ^ ds.length := Nat.mul_le_mul_right _ (by omega)
        _ = (a + 1) * (10 ^ ds.length * 10) := by ring

theorem ofDigits_lt {ds : List Char} (h : AreDigits ds) : ofDigits ds < 10 ^ ds.length := by
  have hbound := (foldl_digits_bounds h 0).2
  rwa [Nat.zero_add, Nat.one_mul] at hbound

theorem le_ofDigits {c : Char} {ds : List Char} (h : AreDigits (c :: ds)) (hc : c ≠ '0') :
    10 ^ ds.length ≤ ofDigits (c :: ds) := by
  obtain ⟨hdigit, hds⟩ := List.forall_mem_cons.1 h
  obtain ⟨hlow, -⟩ := digit_le hdigit
  have hpos : 1 ≤ c.toNat - 0x30 := by
    have hne : c.toNat ≠ 0x30 := fun heq => hc (Char.toNat_inj.1 heq)
    omega
  have hbound := (foldl_digits_bounds hds (10 * 0 + (c.toNat - 0x30))).1
  calc 10 ^ ds.length = 1 * 10 ^ ds.length := (Nat.one_mul _).symm
    _ ≤ (10 * 0 + (c.toNat - 0x30)) * 10 ^ ds.length := Nat.mul_le_mul_right _ (by omega)
    _ ≤ ofDigits (c :: ds) := hbound

theorem ofDigits_dropWhile (ds : List Char) : ofDigits (ds.dropWhile (· == '0')) = ofDigits ds := by
  induction ds with
  | nil => rfl
  | cons c ds ih =>
    by_cases hc : c = '0'
    · subst hc
      rw [List.dropWhile_cons_of_pos (by simp), ih]
      rfl
    · rw [List.dropWhile_cons_of_neg (by simpa using hc)]

namespace Magnitude

theorem precision_pos : 0 < precision := by decide

/-- Whether a number has no more digits than the precision, zeros at its end apart. -/
def IsExact (n : Nat) : Prop := ∃ m k, m < 10 ^ precision ∧ n = m * 10 ^ k

/-- How many digits a number has beyond the precision. -/
def surplus (n : Nat) : Nat := (Nat.digits 10 n).length - precision

/-- A number rounded to the precision, a tie to the even neighbour. -/
def roundNat (n : Nat) : Nat := roundedQuotient n (surplus n) * 10 ^ surplus n

/-- How far two numbers are apart. -/
def gap (m n : Nat) : Nat := ((m : Int) - n).natAbs

/-- Of the multiples of a power of ten, rounding gives the one nearest to the number. -/
theorem gap_roundedQuotient_le (n k q : Nat) :
    gap (roundedQuotient n k * 10 ^ k) n ≤ gap (q * 10 ^ k) n := by
  have hunit : 0 < 10 ^ k := Nat.pow_pos (by decide)
  have hr : n % 10 ^ k < 10 ^ k := Nat.mod_lt n hunit
  have hsum : n / 10 ^ k * 10 ^ k + n % 10 ^ k = n := by
    rw [Nat.mul_comm]
    exact Nat.div_add_mod n (10 ^ k)
  rw [roundedQuotient, Nat.pow_eq]
  generalize n / 10 ^ k = p at hsum ⊢
  generalize n % 10 ^ k = r at hr hsum ⊢
  generalize 10 ^ k = u at hunit hr hsum ⊢
  have hnext : (p + 1) * u = p * u + u := Nat.succ_mul p u
  have hside : q * u ≤ p * u ∨ p * u + u ≤ q * u := by
    rcases Nat.lt_or_ge p q with hlt | hge
    · exact .inr (hnext ▸ Nat.mul_le_mul_right u hlt)
    · exact .inl (Nat.mul_le_mul_right u hge)
  simp only [gap, Bool.or_eq_true, Bool.and_eq_true, decide_eq_true_eq, beq_iff_eq]
  split
  · rw [hnext]
    omega
  · omega

theorem lt_pow_surplus (n : Nat) : n < 10 ^ precision * 10 ^ surplus n := by
  rw [← Nat.pow_add]
  refine (Nat.lt_base_pow_length_digits (by decide)).trans_le (Nat.pow_le_pow_right (by decide) ?_)
  rw [surplus]
  omega

theorem pow_surplus_le {n : Nat} (h : 0 < surplus n) : 10 ^ (precision - 1) * 10 ^ surplus n ≤ n := by
  rw [← Nat.pow_add]
  refine (Nat.lt_digits_length_iff (by decide) n).1 ?_
  rw [surplus] at h ⊢
  have hprecision := precision_pos
  omega

theorem roundedQuotient_surplus_le (n : Nat) : roundedQuotient n (surplus n) ≤ 10 ^ precision := by
  have hunit : 0 < 10 ^ surplus n := Nat.pow_pos (by decide)
  have hq : n / 10 ^ surplus n < 10 ^ precision := (Nat.div_lt_iff_lt_mul hunit).2 (lt_pow_surplus n)
  rw [roundedQuotient, Nat.pow_eq]
  split
  · exact hq
  · exact hq.le

theorem isExact_roundNat (n : Nat) : IsExact (roundNat n) := by
  rcases (roundedQuotient_surplus_le n).lt_or_eq with hlt | heq
  · exact ⟨_, _, hlt, rfl⟩
  · refine ⟨1, precision + surplus n, by decide, ?_⟩
    rw [roundNat, heq, Nat.one_mul, Nat.pow_add]

/-- No number with as few digits is nearer than the rounded one. -/
theorem gap_roundNat_le (n : Nat) {m : Nat} (h : IsExact m) : gap (roundNat n) n ≤ gap m n := by
  obtain ⟨a, j, ha, rfl⟩ := h
  rcases Nat.lt_or_ge j (surplus n) with hlt | hge
  · -- A number with smaller places has fewer digits, so a power of ten is between it and `n`.
    have hlow := pow_surplus_le (Nat.zero_lt_of_lt hlt)
    have hsmall : a * 10 ^ j ≤ 10 ^ (precision - 1) * 10 ^ surplus n := by
      calc a * 10 ^ j ≤ 10 ^ precision * 10 ^ j := Nat.mul_le_mul_right _ ha.le
        _ = 10 ^ (precision - 1) * 10 ^ (j + 1) := by
          rw [← Nat.pow_add, ← Nat.pow_add]
          congr 1
          have hprecision := precision_pos
          omega
        _ ≤ 10 ^ (precision - 1) * 10 ^ surplus n :=
          Nat.mul_le_mul_left _ (Nat.pow_le_pow_right (by decide) hlt)
    have hround := gap_roundedQuotient_le n (surplus n) (10 ^ (precision - 1))
    rw [← roundNat] at hround
    generalize 10 ^ (precision - 1) * 10 ^ surplus n = low at hlow hsmall hround
    refine hround.trans ?_
    unfold gap
    omega
  · have hmultiple : a * 10 ^ j = a * 10 ^ (j - surplus n) * 10 ^ surplus n := by
      rw [Nat.mul_assoc, ← Nat.pow_add, Nat.sub_add_cancel hge]
    rw [hmultiple]
    exact gap_roundedQuotient_le n (surplus n) _

theorem roundNat_eq_self_iff {n : Nat} : roundNat n = n ↔ IsExact n := by
  constructor
  · intro h
    rw [← h]
    exact isExact_roundNat n
  · intro h
    have hle := gap_roundNat_le n h
    unfold gap at hle
    omega

/-- Digits that do not begin with zero are as many as their number has. -/
theorem length_digits_ofDigits {c : Char} {ds : List Char} (h : AreDigits (c :: ds)) (hc : c ≠ '0') :
    (Nat.digits 10 (ofDigits (c :: ds))).length = (c :: ds).length := by
  refine Nat.le_antisymm ?_ ?_
  · exact (Nat.digits_length_le_iff (by decide) _).2 (ofDigits_lt h)
  · exact (Nat.lt_digits_length_iff (by decide) _).2 (le_ofDigits h hc)

theorem isExact_pow (k : Nat) : IsExact (10 ^ k) := ⟨1, k, by decide, (Nat.one_mul _).symm⟩

theorem IsExact.le_roundNat {m n : Nat} (h : IsExact m) (hle : m ≤ n) : m ≤ roundNat n := by
  have hgap := gap_roundNat_le n h
  unfold gap at hgap
  omega

theorem IsExact.roundNat_le {m n : Nat} (h : IsExact m) (hle : n ≤ m) : roundNat n ≤ m := by
  have hgap := gap_roundNat_le n h
  unfold gap at hgap
  omega

theorem roundedQuotient_zero (n : Nat) : roundedQuotient n 0 = n := by
  simp [roundedQuotient, Nat.mod_one]

/-- Rounding carries into another digit if it gives the power of ten above the number. -/
private theorem carries_iff (n : Nat) : roundedQuotient n (surplus n) = 10 ^ precision ↔
    roundNat n = 10 ^ (Nat.digits 10 n).length := by
  rcases Nat.eq_zero_or_pos (surplus n) with hzero | hpos
  · have hlength : (Nat.digits 10 n).length ≤ precision := Nat.sub_eq_zero_iff_le.1 hzero
    have hlt : n < 10 ^ (Nat.digits 10 n).length := Nat.lt_base_pow_length_digits (by decide)
    have hle : 10 ^ (Nat.digits 10 n).length ≤ 10 ^ precision :=
      Nat.pow_le_pow_right (by decide) hlength
    rw [roundNat, hzero, roundedQuotient_zero, Nat.pow_zero, Nat.mul_one]
    omega
  · have hlength : (Nat.digits 10 n).length = precision + surplus n := by
      rw [surplus] at hpos ⊢
      omega
    rw [roundNat, hlength, Nat.pow_add]
    exact (Nat.mul_left_inj (Nat.pow_pos (by decide)).ne').symm

/-- A number just below a power of ten is rounded to it when it is nearer to it than to the number
before, or as near. -/
private theorem roundedQuotient_eq_iff {n k p : Nat} (hp : p % 2 = 0) (hn : n < p * 10 ^ k) :
    roundedQuotient n k = p ↔ 2 * (p * 10 ^ k) ≤ 2 * n + 10 ^ k := by
  have hunit : 0 < 10 ^ k := Nat.pow_pos (by decide)
  have hq : n / 10 ^ k < p := (Nat.div_lt_iff_lt_mul hunit).2 hn
  have hr : n % 10 ^ k < 10 ^ k := Nat.mod_lt n hunit
  have hsum : 10 ^ k * (n / 10 ^ k) + n % 10 ^ k = n := Nat.div_add_mod n (10 ^ k)
  rw [roundedQuotient, Nat.pow_eq]
  generalize n / 10 ^ k = q at hq hsum ⊢
  generalize n % 10 ^ k = r at hr hsum ⊢
  generalize 10 ^ k = u at hunit hr hsum hn ⊢
  rcases Nat.lt_or_ge (q + 1) p with hlt | hge
  · have hmul : (q + 2) * u ≤ p * u := Nat.mul_le_mul_right u hlt
    have hfalse : ¬2 * (p * u) ≤ 2 * n + u := by
      rw [← hsum]
      linarith [Nat.add_mul q 2 u, Nat.mul_comm u q]
    refine iff_of_false ?_ hfalse
    split <;> omega
  · obtain rfl : p = q + 1 := by omega
    have hodd : q % 2 = 1 := by omega
    have hmul : (q + 1) * u = u * q + u := by ring
    rw [hmul, ← hsum]
    simp only [hodd, beq_self_eq_true, Bool.and_true, Bool.or_eq_true, decide_eq_true_eq, beq_iff_eq]
    split
    · exact iff_of_true rfl (by omega)
    · exact iff_of_false (by omega) (by omega)

/-- A rounded number reaches a power of ten if it has more digits, the one it may be carried into
included. -/
private theorem pow_le_roundNat_iff {n : Nat} (hn : n ≠ 0) (limit : Nat) :
    10 ^ limit ≤ roundNat n ↔ limit < (Nat.digits 10 n).length +
      if roundedQuotient n (surplus n) = 10 ^ precision then 1 else 0 := by
  have hlt : n < 10 ^ (Nat.digits 10 n).length := Nat.lt_base_pow_length_digits (by decide)
  have hlength : 0 < (Nat.digits 10 n).length :=
    List.length_pos_iff.2 (Nat.digits_ne_nil_iff_ne_zero.2 hn)
  have hlow : 10 ^ ((Nat.digits 10 n).length - 1) ≤ roundNat n :=
    (isExact_pow _).le_roundNat ((Nat.lt_digits_length_iff (by decide) n).1 (by omega))
  have hhigh := (isExact_pow _).roundNat_le hlt.le
  simp only [carries_iff]
  generalize (Nat.digits 10 n).length = digits at hlength hlow hhigh ⊢
  split
  · rename_i hcarries
    rw [hcarries, Nat.pow_le_pow_iff_right (by decide), Nat.lt_succ_iff]
  · rename_i hcarries
    have hbelow : roundNat n < 10 ^ digits := lt_of_le_of_ne hhigh hcarries
    constructor
    · intro h
      exact (Nat.pow_lt_pow_iff_right (by decide)).1 (h.trans_lt hbelow)
    · intro h
      exact (Nat.pow_le_pow_right (by decide) (by omega)).trans hlow

/-- A number is rounded to a power of ten, or above it, if it is no further below it than half of the last
place. -/
theorem pow_le_roundNat_iff_half {limit : Nat} (hlimit : precision < limit) (n : Nat) :
    10 ^ limit ≤ roundNat n ↔ 2 * 10 ^ limit ≤ 2 * n + 10 ^ (limit - precision) := by
  rcases Nat.lt_or_ge n (10 ^ limit) with hlt | hge
  · have hle := (isExact_pow limit).roundNat_le hlt.le
    have hlength : (Nat.digits 10 n).length ≤ limit := (Nat.digits_length_le_iff (by decide) n).2 hlt
    rcases hlength.lt_or_eq with hfewer | hequal
    · have hone : 10 ^ limit = 10 * 10 ^ (limit - 1) := by
        rw [← Nat.pow_succ']
        congr 1
        omega
      have hsmall : n < 10 ^ (limit - 1) := (Nat.digits_length_le_iff (by decide) n).1 (by omega)
      have hround := (isExact_pow (limit - 1)).roundNat_le hsmall.le
      have hprecision := precision_pos
      have hunit : 10 ^ (limit - precision) ≤ 10 ^ (limit - 1) :=
        Nat.pow_le_pow_right (by decide) (by omega)
      exact iff_of_false (by omega) (by omega)
    · have hsurplus : surplus n = limit - precision := by rw [surplus, hequal]
      have hsplit : 10 ^ precision * 10 ^ surplus n = 10 ^ limit := by
        rw [hsurplus, ← Nat.pow_add]
        congr 1
        omega
      have hcarries := carries_iff n
      rw [hequal, roundedQuotient_eq_iff (by decide) (lt_pow_surplus n), hsplit, hsurplus] at hcarries
      rw [hcarries]
      omega
  · have hdouble : 2 * 10 ^ limit ≤ 2 * n := Nat.mul_le_mul_left 2 hge
    exact iff_of_true ((isExact_pow limit).le_roundNat hge) (hdouble.trans (Nat.le_add_right ..))

/-- Decimal digits without a leading zero denote their number rounded to the precision, if that is below
the limit of the range. -/
theorem rounded_digits {c : Char} {ds : List Char} (h : AreDigits (c :: ds)) (hc : c ≠ '0') :
    rounded (c :: ds) 0 = if roundNat (ofDigits (c :: ds)) < 10 ^ exponentLimit then
      .finite (roundedQuotient (ofDigits (c :: ds)) (surplus (ofDigits (c :: ds))))
        (surplus (ofDigits (c :: ds))) else .infinite := by
  have hlength := length_digits_ofDigits h hc
  have hn : ofDigits (c :: ds) ≠ 0 := by
    have hlow := le_ofDigits h hc
    have hpos : 0 < 10 ^ ds.length := Nat.pow_pos (by decide)
    omega
  have hlimit := pow_le_roundNat_iff hn exponentLimit
  have hsurplus : (c :: ds).length - precision = surplus (ofDigits (c :: ds)) := by
    rw [surplus, hlength]
  rw [hlength] at hlimit
  rw [rounded, Nat.pow_eq, hsurplus, Int.zero_add]
  by_cases hbelow : roundNat (ofDigits (c :: ds)) < 10 ^ exponentLimit
  · have hfits := mt hlimit.2 (Nat.not_le.2 hbelow)
    rw [if_pos hbelow, if_neg]
    omega
  · have hexceeds := hlimit.1 (Nat.not_lt.1 hbelow)
    rw [if_neg hbelow, if_pos]
    omega

end Magnitude

end Styling.Number
