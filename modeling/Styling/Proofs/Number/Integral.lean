import Mathlib
import Styling.Number.Binary

/-!
# Truncation through integers

A finite number has an integral part, which is an integer and has a number of its own: clearing the bits of
the fraction gives this number (`Binary.truncate?_eq`). The bits of a number are taken apart into its fields,
and an integer is rounded to the fields it has anyway.
-/

namespace Styling.Number.Binary

open Float.Model

variable {v : BitVec 64}

/-! ## The fields of a number -/

def exponentField (v : BitVec 64) : Nat := v.toNat / 2 ^ 52 % 2 ^ 11

def fractionField (v : BitVec 64) : Nat := v.toNat % 2 ^ 52

def signField (v : BitVec 64) : UnpackedFloat.Sign := if v.toNat < 2 ^ 63 then .positive else .negative

private theorem exponentField_lt (v : BitVec 64) : exponentField v < 2 ^ 11 := Nat.mod_lt _ (by decide)

private theorem fractionField_lt (v : BitVec 64) : fractionField v < 2 ^ 52 := Nat.mod_lt _ (by decide)

private theorem unpackExponent_eq (v : BitVec 64) :
    @UnpackedFloat.unpackExponent .binary64 v = BitVec.ofNat 11 (exponentField v) := by
  apply BitVec.eq_of_toNat_eq
  simp [UnpackedFloat.unpackExponent, exponentField, Nat.shiftRight_eq_div_pow]

private theorem unpackMantissa_eq (v : BitVec 64) :
    @UnpackedFloat.unpackMantissa .binary64 v = BitVec.ofNat 52 (fractionField v) := by
  apply BitVec.eq_of_toNat_eq
  simp [UnpackedFloat.unpackMantissa, fractionField, Nat.shiftRight_eq_div_pow]

private theorem ofBitVec_unpackSign (v : BitVec 64) :
    .ofBitVec (@UnpackedFloat.unpackSign .binary64 v) = signField v := by
  have hlt := v.isLt
  have hsign : (@UnpackedFloat.unpackSign .binary64 v).toNat = v.toNat / 2 ^ 63 := by
    simp [UnpackedFloat.unpackSign, Nat.shiftRight_eq_div_pow]
    omega
  have hzero : @UnpackedFloat.unpackSign .binary64 v = 0#1 ↔ v.toNat < 2 ^ 63 := by
    rw [← BitVec.toNat_inj, hsign]
    simp
  simp only [UnpackedFloat.Sign.ofBitVec, hzero, signField]

private theorem ofNat_exponentField_eq_iff {n : Nat} (hn : n < 2 ^ 11) :
    BitVec.ofNat 11 (exponentField v) = BitVec.ofNat 11 n ↔ exponentField v = n := by
  rw [← BitVec.toNat_inj, BitVec.toNat_ofNat, BitVec.toNat_ofNat, Nat.mod_eq_of_lt (exponentField_lt v),
    Nat.mod_eq_of_lt hn]

private theorem toNat_append_one (m : BitVec 52) : (1#1 ++ m).toNat = 2 ^ 52 + m.toNat := by
  rw [BitVec.toNat_append, ← Nat.shiftLeft_add_eq_or_of_lt m.isLt]
  simp [Nat.shiftLeft_eq]

/-- A normal number has one more bit than its fraction. -/
theorem unpack_of_normal (hlow : exponentField v ≠ 0) (hhigh : exponentField v ≠ 2047) :
    UnpackedFloat.unpack .binary64 v = .finite (signField v) (2 ^ 52 + fractionField v)
      ((exponentField v : Int) - 1075) (by positivity) := by
  have hexponent : exponentField v % 2048 = exponentField v := Nat.mod_eq_of_lt (exponentField_lt v)
  have hfraction : fractionField v % 4503599627370496 = fractionField v :=
    Nat.mod_eq_of_lt (fractionField_lt v)
  have hspecial := mt (ofNat_exponentField_eq_iff (by decide)).mp hhigh
  have hsmall := mt (ofNat_exponentField_eq_iff (by decide)).mp hlow
  unfold UnpackedFloat.unpack
  simp [unpackExponent_eq, unpackMantissa_eq, ofBitVec_unpackSign, hspecial, hsmall, hexponent, hfraction,
    toNat_append_one, Format.exponentBias]

/-- The numbers nearest to zero have just the bits of their fraction. -/
theorem unpack_of_small (h : exponentField v = 0) :
    UnpackedFloat.unpack .binary64 v = .zero (signField v) ∨
      ∃ hpos, UnpackedFloat.unpack .binary64 v =
        .finite (signField v) (fractionField v) (-1074) hpos := by
  have hfraction : fractionField v % 4503599627370496 = fractionField v :=
    Nat.mod_eq_of_lt (fractionField_lt v)
  unfold UnpackedFloat.unpack
  by_cases hzero : fractionField v = 0
  · simp [unpackExponent_eq, unpackMantissa_eq, ofBitVec_unpackSign, h, hzero]
  · have hne : BitVec.ofNat 52 (fractionField v) ≠ 0#52 := by
      rw [ne_eq, ← BitVec.toNat_inj]
      simp
      omega
    exact .inr ⟨Nat.pos_of_ne_zero hzero, by
      simp [unpackExponent_eq, unpackMantissa_eq, ofBitVec_unpackSign, h, hne, hfraction,
        Format.exponentBias]⟩

theorem exponentField_ne_of_isFinite (h : (UnpackedFloat.unpack .binary64 v).isFinite) :
    exponentField v ≠ 2047 := by
  intro hspecial
  unfold UnpackedFloat.unpack at h
  simp [unpackExponent_eq, hspecial] at h
  split at h <;> cases h

/-! ## Putting the fields together -/

private theorem toNat_packComponents (sign : UnpackedFloat.Sign) (exponent : BitVec 11)
    (mantissa : BitVec 52) : (UnpackedFloat.packComponents .binary64 sign exponent mantissa).toNat =
      (sign.toBitVec.toNat * 2 ^ 11 + exponent.toNat) * 2 ^ 52 + mantissa.toNat := by
  simp only [UnpackedFloat.packComponents, BitVec.toNat_append]
  rw [← Nat.shiftLeft_add_eq_or_of_lt exponent.isLt, ← Nat.shiftLeft_add_eq_or_of_lt mantissa.isLt]
  simp [Nat.shiftLeft_eq]

private theorem toNat_toBitVec_signField (v : BitVec 64) :
    (signField v).toBitVec.toNat = v.toNat / 2 ^ 63 := by
  have hlt := v.isLt
  rw [signField]
  split <;> simp only [UnpackedFloat.Sign.toBitVec, BitVec.toNat_ofNat] <;> omega

private theorem log2_eq {m : Nat} (hlow : 2 ^ 52 ≤ m) (hhigh : m < 2 ^ 53) : m.log2 = 52 := by
  have hne : m ≠ 0 := by omega
  have hbelow := (Nat.log2_lt hne).mpr hhigh
  have habove := (Nat.le_log2 hne).mpr hlow
  omega

theorem pack_unpack_of_normal (hlow : exponentField v ≠ 0) (hhigh : exponentField v ≠ 2047) :
    UnpackedFloat.pack .binary64 (UnpackedFloat.unpack .binary64 v) = v := by
  have hexponent := exponentField_lt v
  have hfraction := fractionField_lt v
  have hlog := log2_eq (Nat.le_add_right (2 ^ 52) (fractionField v)) (by omega)
  have hbias : Format.binary64.exponentBias = 1023 := rfl
  have hbits : 52 + 1 = Format.binary64.mantissaBits := rfl
  have hbiased : ((exponentField v : Int) - 1075 + (1023 : Nat) + (52 : Nat)).toNat = exponentField v := by
    omega
  have hrange : ¬2 ^ 11 ≤ exponentField v + 1 := by omega
  rw [unpack_of_normal hlow hhigh, UnpackedFloat.pack]
  simp only [hbias, hbiased, hrange, if_false, hlog, hbits, if_true]
  apply BitVec.eq_of_toNat_eq
  rw [toNat_packComponents, toNat_toBitVec_signField, BitVec.toNat_ofNat, BitVec.toNat_ofNat,
    Nat.mod_eq_of_lt hexponent, Nat.add_mod_left, Nat.mod_eq_of_lt hfraction, exponentField, fractionField]
  omega

def bitsOf (x : Float) : BitVec 64 := x.toModel.toBits.toBitVec

def ofBitVec (v : BitVec 64) : Float := Float.ofModel (pack (UnpackedFloat.unpack .binary64 v))

private theorem unpack_toModel (x : Float) :
    x.toModel.unpack = UnpackedFloat.unpack .binary64 (bitsOf x) := rfl

private theorem unpack_ofBitVec (hlow : exponentField v ≠ 0) (hhigh : exponentField v ≠ 2047) :
    (ofBitVec v).toModel.unpack = UnpackedFloat.unpack .binary64 v := by
  show UnpackedFloat.unpack .binary64 (UnpackedFloat.pack .binary64 (UnpackedFloat.unpack .binary64 v)) = _
  rw [pack_unpack_of_normal hlow hhigh]

private theorem ofBitVec_bitsOf {x : Float} (hlow : exponentField (bitsOf x) ≠ 0)
    (hhigh : exponentField (bitsOf x) ≠ 2047) : ofBitVec (bitsOf x) = x := by
  have hpack := pack_unpack_of_normal hlow hhigh
  have hmodel : pack (UnpackedFloat.unpack .binary64 (bitsOf x)) = x.toModel := by
    cases hx : x.toModel with
    | mk bits valid =>
      have hbits : bitsOf x = bits.toBitVec := by rw [bitsOf, hx]
      rw [hbits] at hpack
      simp only [pack, hbits, hpack]
  rw [ofBitVec, hmodel]

/-! ## Rounding what needs none -/

open UnpackedFloat (ExtendedMantissa) in
private theorem shiftRight_exact (m k : Nat) :
    ExtendedMantissa.ofMantissaAndAccuracy (m * 2 ^ k) .exact >>> k =
      ExtendedMantissa.ofMantissaAndAccuracy m .exact := by
  show k.repeat ExtendedMantissa.shiftRightOne _ = _
  induction k generalizing m with
  | zero => simp [Nat.repeat]
  | succ k ih =>
    have hsplit : m * 2 ^ (k + 1) = m * 2 * 2 ^ k := by ring
    rw [Nat.repeat, hsplit, ih]
    simp [ExtendedMantissa.shiftRightOne, ExtendedMantissa.ofMantissaAndAccuracy]

private theorem log2_mul_pow {m : Nat} (hm : 0 < m) (k : Nat) : (m * 2 ^ k).log2 = m.log2 + k := by
  induction k with
  | zero => simp
  | succ k ih =>
    have hne : m * 2 ^ k ≠ 0 := by positivity
    have hsplit : m * 2 ^ (k + 1) = 2 * (m * 2 ^ k) := by ring
    rw [hsplit, Nat.log2_two_mul hne, ih, Nat.add_assoc]

private theorem shiftToTargetExponent_exact {m : Nat} (hm : 0 < m) {e : Int}
    (he : Format.binary64.targetExponent (totalExponent m e) = e) (k : Nat) :
    UnpackedFloat.shiftToTargetExponent .binary64 (m * 2 ^ k) (e - k) .exact =
      (.ofMantissaAndAccuracy m .exact, e) := by
  have htotal : totalExponent (m * 2 ^ k) (e - k) = totalExponent m e := by
    simp only [totalExponent, log2_mul_pow hm]
    omega
  have hshift : (e - (e - (k : Int))).toNat = k := by omega
  have hback : e - (k : Int) + (k : Int) = e := by omega
  simp only [UnpackedFloat.shiftToTargetExponent, UnpackedFloat.shiftToExponent, htotal, he, hshift,
    shiftRight_exact, hback]

/-- A mantissa that fits is kept, whatever zeros stand behind it. -/
private theorem roundWithAccuracy_exact {m : Nat} (hm : 0 < m) {e : Int}
    (he : Format.binary64.targetExponent (totalExponent m e) = e) (sign : UnpackedFloat.Sign) (k : Nat) :
    UnpackedFloat.roundWithAccuracy .binary64 sign (m * 2 ^ k) (e - k) .exact = .finite sign m e hm := by
  have hfirst := shiftToTargetExponent_exact hm he k
  have hsecond := shiftToTargetExponent_exact hm he 0
  rw [pow_zero, Nat.mul_one, Nat.cast_zero, sub_zero] at hsecond
  have hmantissa : (UnpackedFloat.ExtendedMantissa.ofMantissaAndAccuracy m .exact).mantissa = m := rfl
  have hrounded : (UnpackedFloat.ExtendedMantissa.ofMantissaAndAccuracy m .exact).roundedMantissa = m := rfl
  simp only [UnpackedFloat.roundWithAccuracy, hfirst, hrounded, hsecond, hmantissa]
  rw [dif_neg hm.ne']

section Exact

variable {m n E : Nat} (hlow : 2 ^ 52 ≤ m) (hhigh : m < 2 ^ 53) (hE : 0 < E)
  (hn : n * 2 ^ (1075 - E) = m * 2 ^ (E - 1075))
include hlow hn

private theorem pos_of_exact : 0 < n := by
  have hpos : 0 < m * 2 ^ (E - 1075) := Nat.mul_pos (by omega) (by positivity)
  rw [← hn] at hpos
  exact Nat.pos_of_mul_pos_right hpos

include hhigh hE

private theorem round_exact (sign : UnpackedFloat.Sign) (hm : 0 < m) :
    UnpackedFloat.round .binary64 sign n 0 = .finite sign m ((E : Int) - 1075) hm := by
  have hlog := log2_eq hlow hhigh
  have htarget : Format.binary64.targetExponent (totalExponent m ((E : Int) - 1075)) = (E : Int) - 1075 := by
    have hmin : Format.binary64.minExponent = -1074 := rfl
    have hbits : Format.binary64.mantissaBits = 53 := rfl
    rw [Format.targetExponent, totalExponent, hlog, hmin, hbits]
    omega
  have htotal : totalExponent n 0 = totalExponent m ((E : Int) - 1075) := by
    have hlogs := congrArg Nat.log2 hn
    rw [log2_mul_pow (pos_of_exact hlow hn), log2_mul_pow hm] at hlogs
    simp only [totalExponent]
    omega
  have hshift : (0 - ((E : Int) - 1075)).toNat = 1075 - E := by omega
  have hexponent : (0 : Int) - ((1075 - E : Nat) : Int) = (E : Int) - 1075 - ((E - 1075 : Nat) : Int) := by
    omega
  have hdecrease : UnpackedFloat.decreaseExponent n 0 ((E : Int) - 1075) =
      (m * 2 ^ (E - 1075), (E : Int) - 1075 - ((E - 1075 : Nat) : Int)) := by
    rw [UnpackedFloat.decreaseExponent, hshift, Nat.shiftLeft_eq, hn, hexponent]
  rw [UnpackedFloat.round, htotal, htarget, hdecrease]
  exact roundWithAccuracy_exact hm htarget sign (E - 1075)

/-- An integer that has a mantissa of full length and an exponent gets just these. -/
private theorem ofInt_exact (sign : UnpackedFloat.Sign) (hm : 0 < m) :
    UnpackedFloat.ofInt .binary64 (sign.apply n) = .finite sign m ((E : Int) - 1075) hm := by
  have hpos := pos_of_exact hlow hn
  have hround := round_exact hlow hhigh hE hn sign hm
  cases sign with
  | positive =>
    have hcompare : compare (n : Int) 0 = .gt := Int.compare_eq_gt.mpr (by omega)
    simpa [UnpackedFloat.ofInt, UnpackedFloat.normalize, UnpackedFloat.Sign.apply, hcompare] using hround
  | negative =>
    have hcompare : compare (-(n : Int)) 0 = .lt := Int.compare_eq_lt.mpr (by omega)
    simpa [UnpackedFloat.ofInt, UnpackedFloat.normalize, UnpackedFloat.Sign.apply, hcompare] using hround

end Exact

/-- The integer that the fields of a normal number stand for is that number. -/
theorem ofInteger?_of_normal (hlow : exponentField v ≠ 0) (hhigh : exponentField v ≠ 2047) {n : Nat}
    (hn : n * 2 ^ (1075 - exponentField v) = (2 ^ 52 + fractionField v) * 2 ^ (exponentField v - 1075)) :
    ofInteger? ((signField v).apply n) = some (ofBitVec v) := by
  have hfraction := fractionField_lt v
  have hunpack := unpack_of_normal hlow hhigh
  have hpos : 0 < 2 ^ 52 + fractionField v := by omega
  have hinteger := ofInt_exact (Nat.le_add_right (2 ^ 52) (fractionField v)) (by omega)
    (Nat.pos_of_ne_zero hlow) hn (signField v) hpos
  have hfinite : (ofBitVec v).isFinite := by
    show (ofBitVec v).toModel.unpack.isFinite
    rw [unpack_ofBitVec hlow hhigh, hunpack]
    rfl
  have hx : Float.ofModel (.ofInt ((signField v).apply n)) = ofBitVec v := by
    rw [Float.Model.ofInt, hinteger, ← hunpack, ofBitVec]
  rw [ofInteger?, hx, if_pos hfinite]

/-! ## Clearing the bits of the fraction -/

/-- The bits with zeros for the last of them. -/
def masked (v : BitVec 64) (places : Nat) : BitVec 64 := (v >>> places) <<< places

private theorem div_mul_add {k : Nat} (hk : k ≤ 52) (q f : Nat) :
    (2 ^ 52 * q + f) / 2 ^ k * 2 ^ k = 2 ^ 52 * q + f / 2 ^ k * 2 ^ k := by
  have hsplit : 2 ^ 52 = 2 ^ k * 2 ^ (52 - k) := by rw [← pow_add, Nat.add_sub_cancel' hk]
  have hdiv : (2 ^ k * (2 ^ (52 - k) * q) + f) / 2 ^ k = 2 ^ (52 - k) * q + f / 2 ^ k :=
    Nat.mul_add_div (by positivity) _ _
  rw [hsplit, Nat.mul_assoc, hdiv]
  ring

private theorem toNat_masked {k : Nat} (hk : k ≤ 52) (v : BitVec 64) :
    (masked v k).toNat = 2 ^ 52 * (v.toNat / 2 ^ 52) + fractionField v / 2 ^ k * 2 ^ k := by
  have hle := Nat.div_mul_le_self v.toNat (2 ^ k)
  have hlt := v.isLt
  have hmasked : (masked v k).toNat = v.toNat / 2 ^ k * 2 ^ k := by
    simp only [masked, BitVec.toNat_shiftLeft, BitVec.toNat_ushiftRight, Nat.shiftLeft_eq,
      Nat.shiftRight_eq_div_pow]
    exact Nat.mod_eq_of_lt (by omega)
  rw [hmasked, fractionField, ← div_mul_add hk, Nat.div_add_mod]

/-- Only the fraction loses what is below the places cleared. -/
private theorem fields_masked {k : Nat} (hk : k ≤ 52) (v : BitVec 64) :
    signField (masked v k) = signField v ∧ exponentField (masked v k) = exponentField v ∧
      2 ^ 52 + fractionField (masked v k) = (2 ^ 52 + fractionField v) / 2 ^ k * 2 ^ k := by
  have hmasked := toNat_masked hk v
  have hfraction := fractionField_lt v
  have hle := Nat.div_mul_le_self (fractionField v) (2 ^ k)
  have hhidden := div_mul_add hk 1 (fractionField v)
  rw [Nat.mul_one] at hhidden
  refine ⟨?_, ?_, ?_⟩
  · have hsign : (masked v k).toNat < 2 ^ 63 ↔ v.toNat < 2 ^ 63 := by
      rw [hmasked]
      omega
    simp only [signField, hsign]
  · rw [exponentField, exponentField, hmasked]
    omega
  · rw [fractionField, hmasked]
    omega

private theorem exponent_toBits (x : Float) :
    ((x.toBits >>> 52) &&& 0x7FF).toNat = exponentField (bitsOf x) := by
  have hbits : x.toBits.toNat = (bitsOf x).toNat := rfl
  have hmask : (0x7FF : UInt64).toNat = 2 ^ 11 - 1 := rfl
  rw [UInt64.toNat_and, hmask, Nat.and_two_pow_sub_one_eq_mod, UInt64.toNat_shiftRight, hbits,
    Nat.shiftRight_eq_div_pow]
  rfl

private theorem ofBits_masked (x : Float) {k : Nat} (hk : k ≤ 52) :
    Float.ofBits ((x.toBits >>> k.toUInt64) <<< k.toUInt64) = ofBitVec (masked (bitsOf x) k) := by
  have hbits : x.toBits.toNat = (bitsOf x).toNat := rfl
  have hplaces : k.toUInt64.toNat % 64 = k := by
    simp
    omega
  have hmasked : ((x.toBits >>> k.toUInt64) <<< k.toUInt64).toBitVec = masked (bitsOf x) k := by
    apply BitVec.eq_of_toNat_eq
    rw [UInt64.toNat_toBitVec, UInt64.toNat_shiftLeft, UInt64.toNat_shiftRight, hplaces, hbits, masked,
      BitVec.toNat_shiftLeft, BitVec.toNat_ushiftRight]
  rw [← hmasked]
  rfl

/-! ## Truncation -/

private theorem toInteger?_of_normal {x : Float} (hlow : exponentField (bitsOf x) ≠ 0)
    (hhigh : exponentField (bitsOf x) ≠ 2047) :
    toInteger? x = some ((signField (bitsOf x)).apply
      (if 1075 ≤ exponentField (bitsOf x)
        then (2 ^ 52 + fractionField (bitsOf x)) * 2 ^ (exponentField (bitsOf x) - 1075)
        else (2 ^ 52 + fractionField (bitsOf x)) / 2 ^ (1075 - exponentField (bitsOf x)) : Nat)) := by
  have hunpack := (unpack_toModel x).trans (unpack_of_normal hlow hhigh)
  have hup : ((exponentField (bitsOf x) : Int) - 1075).toNat = exponentField (bitsOf x) - 1075 := by omega
  have hdown : (-((exponentField (bitsOf x) : Int) - 1075)).toNat = 1075 - exponentField (bitsOf x) := by
    omega
  have hwhole : 0 ≤ (exponentField (bitsOf x) : Int) - 1075 ↔ 1075 ≤ exponentField (bitsOf x) := by omega
  simp only [toInteger?, hunpack, hup, hdown, hwhole, Nat.pow_eq]

private theorem toInteger?_of_lt {x : Float} (h : exponentField (bitsOf x) < 1023) :
    toInteger? x = some 0 := by
  have hfraction := fractionField_lt (bitsOf x)
  have hvanish {m k : Nat} (hm : m < 2 ^ 53) (hk : 53 ≤ k) : m / 2 ^ k = 0 :=
    Nat.div_eq_of_lt (hm.trans_le (Nat.pow_le_pow_right (by omega) hk))
  by_cases hzero : exponentField (bitsOf x) = 0
  · obtain hunpack | ⟨hpos, hunpack⟩ := unpack_of_small hzero
    · have hunpack := (unpack_toModel x).trans hunpack
      simp only [toInteger?, hunpack]
    · have hunpack := (unpack_toModel x).trans hunpack
      have hdown : (-(-1074 : Int)).toNat = 1074 := rfl
      have hquotient : fractionField (bitsOf x) / 2 ^ 1074 = 0 := hvanish (by omega) (by omega)
      simp only [toInteger?, hunpack, hdown, Nat.pow_eq, hquotient]
      rw [if_neg (by omega)]
      cases signField (bitsOf x) <;> rfl
  · have hquotient : (2 ^ 52 + fractionField (bitsOf x)) / 2 ^ (1075 - exponentField (bitsOf x)) = 0 :=
      hvanish (by omega) (by omega)
    rw [toInteger?_of_normal hzero (by omega), if_neg (by omega), hquotient]
    cases signField (bitsOf x) <;> rfl

/-- Every finite number can be truncated by way of an integer, which comes to the same as clearing bits. -/
theorem truncate?_eq {x : Float} (h : x.isFinite) : truncate? x = some (truncate x) := by
  have hfinite : (UnpackedFloat.unpack .binary64 (bitsOf x)).isFinite := h
  have hhigh := exponentField_ne_of_isFinite hfinite
  rw [truncate?, truncate, exponent_toBits]
  split
  · next hsmall =>
    have hzero : ofInteger? 0 = some 0 := by decide
    rw [toInteger?_of_lt hsmall]
    exact hzero
  · next hsmall =>
    have hlow : exponentField (bitsOf x) ≠ 0 := by omega
    rw [toInteger?_of_normal hlow hhigh]
    split
    · next hlarge =>
      have hplaces : 1075 - exponentField (bitsOf x) = 0 := by omega
      have hsame := ofInteger?_of_normal hlow hhigh (by rw [hplaces, pow_zero, Nat.mul_one])
      rw [ofBitVec_bitsOf hlow hhigh] at hsame
      exact hsame
    · next hlarge =>
      have hplaces : 1075 - exponentField (bitsOf x) ≤ 52 := by omega
      obtain ⟨hsign, hexponent, hfraction⟩ := fields_masked hplaces (bitsOf x)
      rw [← hexponent] at hlow hhigh
      have hrest : exponentField (bitsOf x) - 1075 = 0 := by omega
      have hmasked := ofInteger?_of_normal hlow hhigh
        (by rw [hexponent, hfraction, hrest, pow_zero, Nat.mul_one])
      rw [hsign] at hmasked
      rw [ofBits_masked x hplaces]
      exact hmasked

end Styling.Number.Binary
