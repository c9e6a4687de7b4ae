import Styling.Proofs.Number.Binary
import Styling.Proofs.Number.Integral
import Styling.Proofs.Style.LastWriter

/-!
# Resolved lengths are finite

Whatever its value and the context, a length is resolved into a finite number of pixels, and no step on the
way to it is without a result (`Length.pixels?_eq`). So all pixels that settings write into a style are
finite (`resolution_isFinite`).
-/

namespace Styling

open Number

namespace Length

/-- Truncation is only asked for where there is an integral part. -/
private theorem clampToFinite_truncate? (pixels : Float) :
    (do return Binary.clampToFinite (← if pixels.isFinite then Binary.truncate? pixels else pure pixels)) =
      some (Binary.clampToFinite (if pixels.isFinite then Binary.truncate pixels else pixels)) := by
  by_cases hfinite : pixels.isFinite
  · simp [hfinite, Binary.truncate?_eq hfinite]
  · simp [hfinite]

theorem viewportPixels?_eq (value : Float) (u : ViewportUnit) (width height : Float) :
    viewportPixels? value u width height = some (viewportPixels value u width height) :=
  clampToFinite_truncate? (viewportExtent u width height * value / 100)

theorem pixels?_eq (context : Context) (l : Length) : l.pixels? context = some (l.pixels context) := by
  obtain ⟨value, unit⟩ := l
  cases unit with
  | absolute u => simp [pixels?, pixels]
  | font u => simp [pixels?, pixels]
  | viewport u => simp [pixels?, pixels, viewportPixels?_eq]

theorem isFinite_pixels (context : Context) (l : Length) : (l.pixels context).isFinite := by
  obtain ⟨value, unit⟩ := l
  cases unit <;> exact Binary.isFinite_clampToFinite _

end Length

/-! ## Pixels in a style -/

/-- The pixels of a value that is a length. -/
def Val.pixels? : Val → Option Float
  | .px x => some x
  | _ => none

/-- The pixels a leaf holds, if it holds a length. -/
def Leaf.pixels? : (l : Leaf) → l.Value → Option Float
  | .flexBasis, v | .position _, v | .edge .., v | .extent .., v => v.pixels?
  | _, _ => none

def Style.pixels? (s : Style) (l : Leaf) : Option Float := l.pixels? (s.leaf l)

theorem Val.isFinite_ofLength {context : Context} {v : OrAuto LengthPercentage} :
    ∀ p ∈ (Val.ofLength context v).pixels?, p.isFinite := by
  intro p hp
  cases v with
  | auto => cases hp
  | value v =>
    cases v with
    | percentage => cases hp
    | length l =>
      obtain rfl : l.pixels context = p := by simpa [ofLength, Val.pixels?] using hp
      exact Length.isFinite_pixels context l

private theorem isFinite_of_ite {context : Context} {covers : Prop} [Decidable covers]
    {v : OrAuto LengthPercentage} {w : Val}
    (h : (if covers then some (Val.ofLength context v) else none) = some w) :
    ∀ p ∈ w.pixels?, p.isFinite := by
  split at h
  · obtain rfl := Option.some.inj h
    exact Val.isFinite_ofLength
  · cases h

/-- The lengths that a setting gives for a leaf are finite. -/
theorem Setting.isFinite_resolved? {context : Context} {x : Setting} {l : Leaf} {v : l.Value}
    (h : x.resolved? context l = some v) : ∀ p ∈ l.pixels? v, p.isFinite := by
  obtain ⟨property, value⟩ := x
  cases l with
  | flexBasis =>
    cases property with
    | flexBasis =>
      obtain rfl := Option.some.inj h
      exact Val.isFinite_ofLength
    | _ => cases h
  | position side =>
    cases property with
    | inset side' => exact isFinite_of_ite h
    | _ => cases h
  | edge e side =>
    cases property with
    | edges e' => exact isFinite_of_ite h
    | edge e' side' => exact isFinite_of_ite h
    | _ => cases h
  | extent e a =>
    cases property with
    | extent e' a' => exact isFinite_of_ite h
    | _ => cases h
  | _ => exact nofun

namespace Style

variable (context : Context) (s : Style)

/-- The pixels in a leaf after a setting are finite, unless it does not write that leaf. -/
theorem pixels_apply (x : Setting) (l : Leaf) : ∀ p ∈ (s.apply context x).pixels? l,
    p.isFinite ∨ p ∈ s.pixels? l ∧ l ∉ x.property.leaves := by
  intro p hp
  rw [pixels?, leaf_apply] at hp
  cases hv : x.resolved? context l with
  | none =>
    have hcovered := mt (isSome_resolved?_iff context x l).mpr (by simp [hv])
    rw [hv] at hp
    exact .inr ⟨hp, hcovered⟩
  | some v =>
    rw [hv] at hp
    exact .inl (Setting.isFinite_resolved? hv p hp)

theorem pixels_applyAll (settings : List Setting) (l : Leaf) :
    ∀ p ∈ (s.applyAll context settings).pixels? l,
      p.isFinite ∨ p ∈ s.pixels? l ∧ ∀ x ∈ settings, l ∉ x.property.leaves := by
  intro p hp
  induction settings generalizing s with
  | nil => exact .inr ⟨hp, by simp⟩
  | cons x xs ih =>
    cases ih (s.apply context x) hp with
    | inl hfinite => exact .inl hfinite
    | inr hkept =>
      have ⟨hp, hxs⟩ := hkept
      cases pixels_apply context s x l p hp with
      | inl hfinite => exact .inl hfinite
      | inr hkept =>
        have ⟨hp, hx⟩ := hkept
        exact .inr ⟨hp, by simpa using ⟨hx, hxs⟩⟩

end Style

/-- In every context every length is resolved into a finite number of pixels, by steps that all have a
result. After any settings all pixels in a style are finite, but for those that it had before in a leaf that
none of the settings writes. -/
theorem resolution_isFinite (context : Context) :
    (∀ l : Length, l.pixels? context = some (l.pixels context) ∧ (l.pixels context).isFinite) ∧
    ∀ (s : Style) (settings : List Setting) (l : Leaf), ∀ p ∈ (s.applyAll context settings).pixels? l,
      p.isFinite ∨ p ∈ s.pixels? l ∧ ∀ x ∈ settings, l ∉ x.property.leaves :=
  ⟨fun l => ⟨l.pixels?_eq context, l.isFinite_pixels context⟩, Style.pixels_applyAll context⟩

/-- An infinite part of the viewport. -/
def infiniteBasis : Setting := ⟨.flexBasis, .value (.length ⟨Binary.infinity, .viewport .vw⟩)⟩

theorem resolution_isFinite_infiniteBasis :
    Binary.largest ∈ (Style.fresh.applyAll ⟨12, 12, false, 800, 600⟩ [infiniteBasis]).pixels? .flexBasis ∧
      (Binary.largest.isFinite ∨ Binary.largest ∈ Style.fresh.pixels? .flexBasis ∧
        ∀ x ∈ [infiniteBasis], .flexBasis ∉ x.property.leaves) := by
  have hpixels : Binary.largest ∈
      (Style.fresh.applyAll ⟨12, 12, false, 800, 600⟩ [infiniteBasis]).pixels? .flexBasis := by
    decide +kernel
  exact ⟨hpixels, (resolution_isFinite ⟨12, 12, false, 800, 600⟩).2 _ _ _ _ hpixels⟩

end Styling
