import Mathlib.Data.List.Forall2
import Styling.Text.Ascii

/-!
# ASCII case by characters

Texts are equal up to ASCII case if their characters are the same letters one by one
(`eqIgnoringAsciiCase_iff`).
-/

namespace Styling.Text

/-- Two characters that are the same but for the case of an ASCII letter. -/
def IsSameLetter (c d : Char) : Prop :=
  c = d ∨ (c.isUpper ∧ d.toNat = c.toNat + 32) ∨ (d.isUpper ∧ c.toNat = d.toNat + 32)

theorem isUpper_iff (c : Char) : c.isUpper ↔ 65 ≤ c.toNat ∧ c.toNat ≤ 90 := by
  have hcapital : c.isUpper ↔ 'A'.val ≤ c.val ∧ c.val ≤ 'Z'.val := decide_eq_true_iff
  rw [hcapital, UInt32.le_iff_toNat_le, UInt32.le_iff_toNat_le]
  exact Iff.rfl

private theorem toNat_toLower (c : Char) :
    c.toLower.toNat = if c.isUpper then c.toNat + 32 else c.toNat := by
  by_cases hc : 'A'.val ≤ c.val ∧ c.val ≤ 'Z'.val
  · have hupper : c.isUpper := decide_eq_true hc
    have hbound : c.val.toNat ≤ 90 := ((isUpper_iff c).1 hupper).2
    have hlower : c.toLower.val = c.val + 32 := congrArg Char.val (dif_pos hc)
    have hoffset : (32 : UInt32).toNat = 32 := rfl
    rw [if_pos hupper]
    show c.toLower.val.toNat = c.val.toNat + 32
    rw [hlower, UInt32.toNat_add, hoffset]
    exact Nat.mod_eq_of_lt (by omega)
  · have hupper : ¬c.isUpper := fun h => hc (of_decide_eq_true h)
    have hlower : c.toLower = c := dif_neg hc
    rw [if_neg hupper, hlower]

theorem toLower_eq_iff (c d : Char) : c.toLower = d.toLower ↔ IsSameLetter c d := by
  have hsame : ∀ c d : Char, c = d ↔ c.toNat = d.toNat := fun c d => Char.toNat_inj.symm
  have hc := isUpper_iff c
  have hd := isUpper_iff d
  rw [hsame, toNat_toLower, toNat_toLower, IsSameLetter, hsame]
  split <;> split <;> simp_all <;> omega

theorem eqIgnoringAsciiCase_iff (a b : String) :
    eqIgnoringAsciiCase a b ↔ List.Forall₂ IsSameLetter a.toList b.toList := by
  have hletters : ∀ cs ds : List Char,
      cs.map Char.toLower = ds.map Char.toLower ↔ List.Forall₂ IsSameLetter cs ds := by
    intro cs
    induction cs with
    | nil => intro ds; cases ds <;> simp
    | cons c cs ih => intro ds; cases ds <;> simp [ih, toLower_eq_iff]
  rw [eqIgnoringAsciiCase, asciiLower, asciiLower, beq_iff_eq, String.ofList_inj]
  exact hletters _ _

end Styling.Text
