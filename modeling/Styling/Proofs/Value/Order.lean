import Styling.Proofs.Number.Binary
import Styling.Value.Order

/-!
# The order of absolute lengths

Absolute lengths order by their pixels, but equal pixels do not make them equal. The relations derived from
"less" and "equal" agree with the order of pixels for exactly those pairs in which only equal lengths have
equal pixels; of any others each is greater than the other (`AbsoluteLength.holds_iff`).
-/

namespace Styling

open Number

/-- A length in an absolute unit. -/
structure AbsoluteLength where
  value : Float
  unit : AbsoluteUnit

namespace AbsoluteLength

def toLength (a : AbsoluteLength) : Length := ⟨a.value, .absolute a.unit⟩

def pixels (a : AbsoluteLength) : Float := Length.absolutePixels a.value a.unit

/-- Whether a relation holds between two lengths. -/
def Holds (r : Relation) (a b : AbsoluteLength) : Prop :=
  AnyValue.related? r (.length a.toLength) (.length b.toLength) = some true

/-- Whether the lengths are equal if their pixels are. -/
def PixelsDecide (a b : AbsoluteLength) : Prop :=
  a.pixels == b.pixels → a.toLength.equal b.toLength

variable (a b : AbsoluteLength)

theorem holds_iff_derived (r : Relation) : Holds r a b ↔
    r.derived (a.pixels < b.pixels) (a.toLength.equal b.toLength) := by
  rw [Holds]
  exact Option.some_inj

theorem equal_iff : a.toLength.equal b.toLength ↔ a.unit = b.unit ∧ a.value == b.value := by
  simp [Length.equal, toLength]

theorem equal_comm : a.toLength.equal b.toLength = b.toLength.equal a.toLength := by
  rw [Bool.eq_iff_iff, equal_iff, equal_iff, BEq.comm, eq_comm]

/-- Equal lengths have equal pixels. -/
theorem pixels_beq_of_equal {a b : AbsoluteLength} (h : a.toLength.equal b.toLength) :
    a.pixels == b.pixels := by
  obtain ⟨hunit, hvalue⟩ := (equal_iff a b).1 h
  rw [pixels, pixels, hunit]
  exact Binary.clampToFinite_mul_congr hvalue _

private theorem pixels_cases : a.pixels < b.pixels ∨ b.pixels < a.pixels ∨ a.pixels == b.pixels :=
  Binary.lt_or_lt_or_beq (Binary.isNaN_clampToFinite _) (Binary.isNaN_clampToFinite _)

/-- Less means fewer pixels, and "not less" is what is derived as "greater or equal". "Greater" and "less or
equal" mean what they should if the pixels decide; if they do not, each of the two lengths is greater than
the other, and neither is less than or equal to the other. -/
theorem holds_iff :
    (Holds .lt a b ↔ a.pixels < b.pixels) ∧ (Holds .ge a b ↔ ¬Holds .lt a b) ∧
      ((Holds .gt a b ↔ Holds .lt b a) ↔ PixelsDecide a b) ∧
      ((Holds .le a b ↔ ¬Holds .lt b a) ↔ PixelsDecide a b) ∧
      (Holds .gt a b ∧ Holds .gt b a ↔ ¬PixelsDecide a b) ∧
      (Holds .le a b ∨ Holds .le b a ↔ PixelsDecide a b) := by
  have hequal := @pixels_beq_of_equal a b
  simp only [holds_iff_derived, Relation.derived, PixelsDecide, equal_comm b a]
  rcases pixels_cases a b with hlt | hgt | heq
  · have hasymm := Binary.lt_asymm hlt
    have hne : ¬a.pixels == b.pixels := fun h => Binary.not_lt_of_beq h hlt
    simp_all
  · have hasymm := Binary.lt_asymm hgt
    have hne : ¬a.pixels == b.pixels := fun h =>
      Binary.not_lt_of_beq (by rwa [BEq.comm] at h) hgt
    simp_all
  · have hab := Binary.not_lt_of_beq heq
    have hba := Binary.not_lt_of_beq (by rwa [BEq.comm] at heq)
    simp_all

/-- An inch and 96 pixels have equal pixels, and each of them is greater than the other. -/
theorem holds_inch_ninetySixPixels : ¬PixelsDecide ⟨1, .inch⟩ ⟨96, .px⟩ ∧
    Holds .gt ⟨1, .inch⟩ ⟨96, .px⟩ ∧ Holds .gt ⟨96, .px⟩ ⟨1, .inch⟩ := by
  have hdecide : ¬PixelsDecide ⟨1, .inch⟩ ⟨96, .px⟩ := by
    unfold PixelsDecide
    decide +kernel
  obtain ⟨-, -, -, -, hgreater, -⟩ := holds_iff ⟨1, .inch⟩ ⟨96, .px⟩
  exact ⟨hdecide, hgreater.2 hdecide⟩

end AbsoluteLength

end Styling
