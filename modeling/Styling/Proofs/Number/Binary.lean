import Mathlib
import Styling.Number.Binary

/-!
# The order of binary64 numbers

Of two binary64 numbers one is less than the other or they count as equal, and only one of this, unless one
of them is not a number (`Binary.lt_or_lt_or_beq`). Numbers that count as equal can differ in the sign of
zero, which comparisons, products and clamping do not tell apart (`Binary.clampToFinite_mul_congr`). What is
clamped is finite (`Binary.isFinite_clampToFinite`).
-/

namespace Styling.Number.Binary

open Float.Model

/-! ## Comparing unpacked numbers -/

private theorem compare_swap (a b : UnpackedFloat) :
    b.compare a = (a.compare b).map Ordering.swap := by
  rcases a with (_ | _) | _ | (_ | _) | ⟨_ | _, m, e, _⟩ <;>
    rcases b with (_ | _) | _ | (_ | _) | ⟨_ | _, n, d, _⟩ <;> try rfl
  -- two numbers of one sign
  all_goals
    have hexponent : compare d e = (compare e d).swap := Std.OrientedCmp.eq_swap
    have hmantissa : compare n m = (compare m n).swap := Std.OrientedCmp.eq_swap
    simp [UnpackedFloat.compare, hexponent, hmantissa, Ordering.swap_then]

private theorem compare_eq_none_iff (a b : UnpackedFloat) :
    a.compare b = none ↔ a = .notANumber ∨ b = .notANumber := by
  rcases a with (_ | _) | _ | (_ | _) | ⟨_ | _, m, e, _⟩ <;>
    rcases b with (_ | _) | _ | (_ | _) | ⟨_ | _, n, d, _⟩ <;> simp [UnpackedFloat.compare]

private theorem eq_or_zero_of_beq {a b : UnpackedFloat} (h : a.beq b) :
    a = b ∨ ∃ s t, a = .zero s ∧ b = .zero t := by
  obtain ⟨-, -, heq | ⟨ha, hb⟩ | ⟨ha, hb⟩⟩ := (UnpackedFloat.beq_iff_ne_notANumber_and_eq a b).1 h
  · exact .inl heq
  · exact .inr ⟨_, _, ha, hb⟩
  · exact .inr ⟨_, _, ha, hb⟩

private theorem compare_zero (s t : UnpackedFloat.Sign) (a : UnpackedFloat) :
    (UnpackedFloat.zero s).compare a = (UnpackedFloat.zero t).compare a := by
  rcases a with (_ | _) | _ | (_ | _) | ⟨_ | _, n, d, _⟩ <;> rfl

/-! ## Numbers that order -/

variable {x y : Float}

theorem lt_iff_compare : x < y ↔ x.toModel.compare y.toModel = some .lt := by
  show decide (x.toModel.lt y.toModel = true) = true ↔ _
  rw [decide_eq_true_iff, Float.Model.lt, UnpackedFloat.lt, beq_iff_eq]
  rfl

theorem beq_iff_compare : x == y ↔ x.toModel.compare y.toModel = some .eq := by
  show x.toModel.beq y.toModel = true ↔ _
  rw [Float.Model.beq, UnpackedFloat.beq, beq_iff_eq]
  rfl

private theorem isNaN_iff : x.isNaN ↔ x.toModel.unpack = .notANumber :=
  UnpackedFloat.isNaN_iff

private theorem compare_toModel_swap (x y : Float) :
    y.toModel.compare x.toModel = (x.toModel.compare y.toModel).map Ordering.swap :=
  compare_swap _ _

theorem lt_asymm (h : x < y) : ¬y < x := by
  rw [lt_iff_compare] at h
  rw [lt_iff_compare, compare_toModel_swap x y, h]
  simp

theorem not_lt_of_beq (h : x == y) : ¬x < y := by
  rw [beq_iff_compare] at h
  rw [lt_iff_compare, h]
  simp

theorem beq_self (h : x.isNaN = false) : x == x := by
  rw [Float.isNaN_eq_decide_eq_nan, decide_eq_false_iff_not] at h
  exact Float.beq_self_iff.2 h

theorem lt_or_lt_or_beq (hx : x.isNaN = false) (hy : y.isNaN = false) : x < y ∨ y < x ∨ x == y := by
  have hsome : x.toModel.compare y.toModel ≠ none := by
    intro hnone
    rcases (compare_eq_none_iff _ _).1 hnone with h | h
    · rw [isNaN_iff.2 h] at hx
      cases hx
    · rw [isNaN_iff.2 h] at hy
      cases hy
  rw [lt_iff_compare, lt_iff_compare, beq_iff_compare, compare_toModel_swap x y]
  cases hc : x.toModel.compare y.toModel with
  | none => exact absurd hc hsome
  | some o => cases o <;> simp

/-! ## Numbers that count as equal -/

private theorem compare_congr (h : x == y) (z : Float) :
    x.toModel.compare z.toModel = y.toModel.compare z.toModel := by
  rcases eq_or_zero_of_beq h with heq | ⟨s, t, hs, ht⟩
  · rw [Float.Model.compare, heq]
    rfl
  · rw [Float.Model.compare, Float.Model.compare, hs, ht]
    exact compare_zero s t _

theorem lt_congr_right (h : x == y) (z : Float) : z < x ↔ z < y := by
  rw [lt_iff_compare, lt_iff_compare, compare_toModel_swap x z, compare_toModel_swap y z, compare_congr h]

private theorem zero_mul_cases (a : UnpackedFloat) :
    (∀ s, (UnpackedFloat.zero s).mul .binary64 a = .notANumber) ∨
      ∀ s, ∃ t, (UnpackedFloat.zero s).mul .binary64 a = .zero t := by
  cases a with
  | notANumber => exact .inl fun _ => rfl
  | infinity r => exact .inl fun _ => rfl
  | zero r => exact .inr fun s => ⟨s * r, rfl⟩
  | finite r m e h => exact .inr fun s => ⟨s * r, rfl⟩

private theorem unpack_pack_notANumber : (pack .notANumber).unpack = .notANumber := rfl

private theorem unpack_pack_zero (s : UnpackedFloat.Sign) : (pack (.zero s)).unpack = .zero s := by
  cases s <;> rfl

private theorem toModel_mul (x z : Float) :
    (x * z).toModel = pack (x.toModel.unpack.mul .binary64 z.toModel.unpack) := rfl

theorem mul_congr (h : x == y) (z : Float) : x * z == y * z ∨ (x * z).isNaN ∧ (y * z).isNaN := by
  have hx := toModel_mul x z
  have hy := toModel_mul y z
  rcases eq_or_zero_of_beq h with heq | ⟨s, t, hs, ht⟩
  · rw [heq, ← hy] at hx
    have hmul : x * z = y * z := congrArg Float.ofModel hx
    rw [hmul]
    cases hn : (y * z).isNaN with
    | true => exact .inr ⟨rfl, rfl⟩
    | false => exact .inl (beq_self hn)
  -- Zero of either sign times a number is zero, or neither product is a number.
  · rw [hs] at hx
    rw [ht] at hy
    rcases zero_mul_cases z.toModel.unpack with hnone | hzero
    · rw [hnone s] at hx
      rw [hnone t] at hy
      exact .inr ⟨isNaN_iff.2 (hx ▸ unpack_pack_notANumber), isNaN_iff.2 (hy ▸ unpack_pack_notANumber)⟩
    · obtain ⟨s', hs'⟩ := hzero s
      obtain ⟨t', ht'⟩ := hzero t
      refine .inl (beq_iff_compare.2 ?_)
      rw [hx, hy, hs', ht', Float.Model.compare, unpack_pack_zero, unpack_pack_zero]
      rfl

/-! ## Clamped numbers -/

private theorem isNaN_eq_false_of_beq (h : x == y) : x.isNaN = false ∧ y.isNaN = false := by
  obtain ⟨hx, hy, -⟩ := Float.beq_iff_ne_nan_and_eq.1 h
  rw [Float.isNaN_eq_decide_eq_nan, Float.isNaN_eq_decide_eq_nan]
  exact ⟨decide_eq_false hx, decide_eq_false hy⟩

private theorem least_congr (h : x == y) {z : Float} (hz : z == z) : least x z == least y z := by
  rw [least, least]
  by_cases hlt : z < x
  · rw [if_pos hlt, if_pos ((lt_congr_right h z).1 hlt)]
    exact hz
  · rw [if_neg hlt, if_neg (fun hlt' => hlt ((lt_congr_right h z).2 hlt'))]
    exact h

private theorem greatest_congr (h : x == y) {z : Float} (hz : z == z) :
    greatest z x == greatest z y := by
  rw [greatest, greatest]
  by_cases hlt : x > z
  · rw [if_pos hlt, if_pos ((lt_congr_right h z).1 hlt)]
    exact h
  · rw [if_neg hlt, if_neg (fun hlt' => hlt ((lt_congr_right h z).2 hlt'))]
    exact hz

theorem clampToFinite_congr (h : x == y) : clampToFinite x == clampToFinite y := by
  obtain ⟨hx, hy⟩ := isNaN_eq_false_of_beq h
  rw [clampToFinite, clampToFinite, if_neg (Bool.not_eq_true _ ▸ hx), if_neg (Bool.not_eq_true _ ▸ hy)]
  exact greatest_congr (least_congr h (by decide)) (by decide)

theorem isNaN_clampToFinite (x : Float) : (clampToFinite x).isNaN = false := by
  cases hx : x.isNaN with
  | true =>
    rw [clampToFinite, if_pos hx]
    decide
  | false => exact (isNaN_eq_false_of_beq (clampToFinite_congr (beq_self hx))).1

theorem clampToFinite_mul_congr (h : x == y) (z : Float) :
    clampToFinite (x * z) == clampToFinite (y * z) := by
  rcases mul_congr h z with hbeq | ⟨hx, hy⟩
  · exact clampToFinite_congr hbeq
  · rw [clampToFinite, clampToFinite, if_pos hx, if_pos hy]
    decide

private theorem isFinite_least (hx : x.isFinite) (hy : y.isFinite) : (least x y).isFinite := by
  rw [least]
  split
  · exact hy
  · exact hx

private theorem isFinite_greatest (hx : x.isFinite) (hy : y.isFinite) : (greatest x y).isFinite := by
  rw [greatest]
  split
  · exact hy
  · exact hx

/-- Clamping leaves finite numbers only: what is not a number becomes zero, an infinity the largest number
of its sign. -/
theorem isFinite_clampToFinite (x : Float) : (clampToFinite x).isFinite := by
  rw [clampToFinite]
  split
  · decide
  · next hx =>
    have hlargest : largest.isFinite := by decide
    have hsmallest : (-largest).isFinite := by decide
    cases hmodel : x.toModel.unpack with
    | notANumber => exact absurd (isNaN_iff.2 hmodel) hx
    | infinity s =>
      cases s with
      | positive =>
        have habove : largest < x := by
          rw [lt_iff_compare, Float.Model.compare, hmodel]
          decide
        rw [least, if_pos habove]
        exact isFinite_greatest hsmallest hlargest
      | negative =>
        have hbelow : ¬largest < x := by
          rw [lt_iff_compare, Float.Model.compare, hmodel]
          decide
        have hbelow' : ¬-largest < x := by
          rw [lt_iff_compare, Float.Model.compare, hmodel]
          decide
        rw [least, if_neg hbelow, greatest, if_neg hbelow']
        exact hsmallest
    | zero | finite =>
      have hfinite : x.isFinite := by
        show x.toModel.unpack.isFinite
        rw [hmodel]
        rfl
      exact isFinite_greatest hsmallest (isFinite_least hfinite hlargest)

end Styling.Number.Binary
