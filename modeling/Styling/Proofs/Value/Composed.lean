import Styling.Property

/-!
# What readers of values are made of

The readers of values are made of a few: looking at the next component value, taking it, asking where it
stands, failing, and trying another reader. What holds of these and is kept by putting readers together
holds of the readers of all properties (`composed_readValue`), and of those of settings
(`composed_setting`).
-/

namespace Styling.ValueReader

/-- A reader put together from looking, taking, failing and trying. It fails with other errors than parse
errors only if this is allowed. -/
inductive Composed (allowed : Prop) : {α : Type} → ValueReader α → Prop
  | pure {α : Type} (a : α) : Composed allowed (Pure.pure a)
  | fail {α : Type} (e : ParseError) : Composed allowed (fail e : ValueReader α)
  | fault {α : Type} (h : allowed) (f : Fault) :
    Composed allowed (throw (.fault f) : ValueReader α)
  | peek : Composed allowed peek
  | next : Composed allowed next
  | location : Composed allowed location
  | bind {α β : Type} {r : ValueReader α} {f : α → ValueReader β} (hr : Composed allowed r)
    (hf : ∀ a, Composed allowed (f a)) : Composed allowed (r >>= f)
  | attempt {α : Type} {r : ValueReader α} (hr : Composed allowed r) : Composed allowed (attempt r)

variable {α : Type} {allowed : Prop} {r : ValueReader α} (resolve : Color.Resolver)

theorem composed_expectExhausted : Composed allowed expectExhausted := by
  apply Composed.peek.bind
  intro value
  cases value with
  | none => exact .pure _
  | some value => exact .fail _

theorem composed_expectIdent : Composed allowed expectIdent := by
  apply Composed.next.bind
  intro value
  split
  · exact .pure _
  · exact .fail _

theorem composed_expectIdentMatching (name : String) :
    Composed allowed (expectIdentMatching name) := by
  refine Composed.location.bind fun place => composed_expectIdent.bind fun ident => ?_
  split
  · exact .pure _
  · exact .fail _

theorem composed_expectDelim (delim : String) : Composed allowed (expectDelim delim) := by
  apply Composed.next.bind
  intro value
  split
  · split
    · exact .pure _
    · exact .fail _
  · exact .fail _

theorem composed_refuse (value : Component) (place : Option Source.Location) :
    Composed allowed (refuse value place : ValueReader α) := by
  unfold refuse
  split
  · exact .fail _
  · exact .fail _

theorem composed_finite (value : Number.Value) (source : String)
    (place : Option Source.Location) : Composed allowed (finite value source place) := by
  have hcheck : ∀ x : Float, Composed allowed (if x.isFinite then Pure.pure x
      else fail (.ofCategory .value place (some (source ++ " is out of range")))) := by
    intro x
    split
    · exact .pure _
    · exact .fail _
  cases value with
  | integer n => exact hcheck _
  | real x => exact hcheck x

theorem composed_expectPermitted (range : Range) (x : Float) (source : String)
    (place : Option Source.Location) :
    Composed allowed (expectPermitted range x source place) := by
  unfold expectPermitted
  split
  · exact .pure _
  · exact .fail _

theorem composed_orAuto (hr : Composed allowed r) : Composed allowed (orAuto r) := by
  apply (composed_expectIdentMatching "auto").attempt.bind
  intro found
  cases found with
  | none => exact hr.bind fun _ => .pure _
  | some _ => exact .pure _

theorem composed_sided (hr : Composed allowed r) : Composed allowed (sided r) := by
  refine hr.bind fun top => hr.attempt.bind fun right => ?_
  cases right with
  | none => exact .pure _
  | some right =>
    apply hr.attempt.bind
    intro bottom
    cases bottom with
    | none => exact .pure _
    | some bottom => exact hr.attempt.bind fun _ => .pure _

/-! ## Readers of properties -/

theorem composed_number (range : Range) : Composed allowed (number range) := by
  refine Composed.location.bind fun place => Composed.next.bind fun value => ?_
  split
  · apply (composed_finite _ _ _).bind
    intro x
    exact (composed_expectPermitted _ _ _ _).bind fun _ => .pure _
  · exact composed_refuse _ _

theorem composed_percentage (range : Range) : Composed allowed (percentage range) := by
  refine Composed.location.bind fun place => Composed.next.bind fun value => ?_
  split
  · apply (composed_finite _ _ _).bind
    intro x
    exact (composed_expectPermitted _ _ _ _).bind fun _ => .pure _
  · exact composed_refuse _ _

theorem composed_nonNegativeNumber : Composed allowed nonNegativeNumber :=
  (composed_number _).bind fun _ => .pure _

theorem composed_keyword (α : Type) [Keyword α] : Composed allowed (keyword α) := by
  refine Composed.location.bind fun place => Composed.next.bind fun value => ?_
  split
  · split
    · exact .pure _
    · exact .fail _
  · exact .fail _

theorem composed_lengthOrPercentage (range : Range) (allowPercentage : Bool) :
    Composed allowed (lengthOrPercentage range allowPercentage) := by
  refine Composed.location.bind fun place => Composed.peek.bind fun value => ?_
  split
  · refine Composed.next.bind fun _ => (composed_finite _ _ _).bind fun x => ?_
    apply (composed_expectPermitted _ _ _ _).bind
    intro _
    split
    · exact .pure _
    · exact .fail _
  · refine Composed.next.bind fun _ => (composed_finite _ _ _).bind fun x => ?_
    apply (composed_expectPermitted _ _ _ _).bind
    intro _
    split
    · exact (Composed.fail _).bind fun _ => .pure _
    · exact .pure _
  · split
    · exact (composed_percentage _).bind fun _ => .pure _
    · exact Composed.next.bind fun _ => composed_refuse _ _
  · exact Composed.next.bind fun _ => composed_refuse _ _

theorem composed_lengthPercentageOrAuto : Composed allowed lengthPercentageOrAuto :=
  composed_orAuto (composed_lengthOrPercentage _ _)

theorem composed_ratio : Composed allowed ratio := by
  apply composed_nonNegativeNumber.bind
  intro antecedent
  apply (composed_expectDelim "/").attempt.bind
  intro slash
  cases slash with
  | none => exact .pure _
  | some _ => exact composed_nonNegativeNumber.bind fun _ => .pure _

/-- Only reading a colour may break off. -/
theorem composed_color (h : allowed) : Composed allowed (color resolve) := by
  refine Composed.location.bind fun place => Composed.next.bind fun value => ?_
  split
  · exact .pure _
  · exact .fail _
  · exact .fail _
  · exact .fault h _

theorem composed_readValue {p : Property} (h : p = .color → allowed) :
    Composed allowed (p.readValue resolve) := by
  cases p with
  | color => exact composed_color resolve (h rfl)
  | extent | inset | flexBasis | edge => exact composed_lengthPercentageOrAuto
  | edges => exact composed_sided composed_lengthPercentageOrAuto
  | flexGrow | flexShrink => exact composed_nonNegativeNumber
  | aspectRatio => exact composed_orAuto composed_ratio
  | _ => exact composed_keyword _

/-! ## Settings -/

theorem composed_important : Composed allowed important :=
  (composed_expectDelim "!").bind fun _ => (composed_expectIdentMatching _).bind fun _ => .pure _

theorem composed_setting (name : String) (place : Option Source.Location) :
    Composed True (setting resolve name place) := by
  unfold setting
  split
  · exact .fail _
  · refine (composed_readValue resolve fun _ => trivial).bind fun _ => composed_important.attempt.bind fun _ => ?_
    exact composed_expectExhausted.bind fun _ => .pure _

end Styling.ValueReader
