import Styling.Property

/-!
# Where a value is refused

A reader of values stays on the component values that it is given, and what it fails with names one of
their places, or the one for errors at their end (`location_of_setting_eq_error`).
-/

namespace Styling.ValueReader

/-- Whether a place is that of one of the component values, or the one for errors at their end. -/
def IsPlace (values : List Component) (last place : Option Source.Location) : Prop :=
  place = last ∨ ∃ v ∈ values, place = some v.location

/-- A cursor at any place of the given component values. -/
structure IsOver (values : List Component) (last : Option Source.Location) (c : ComponentCursor) :
    Prop where
  items_eq : c.cursor.items = values
  endLocation_eq : c.endLocation = last

/-- How a reading ended: with a result that was promised, or with an error that has a place. -/
def EndsOver (values : List Component) (last : Option Source.Location) (post : α → Prop) :
    EStateM.Result Failure ComponentCursor α → Prop
  | .ok a c => IsOver values last c ∧ post a
  | .error (.parse e) c => IsOver values last c ∧ IsPlace values last e.location
  | .error (.fault _) c => IsOver values last c

/-- A reader that stays on the component values and names only places of theirs; of its results
`post` is known. -/
def Locates (values : List Component) (last : Option Source.Location) (post : α → Prop)
    (r : ValueReader α) : Prop :=
  ∀ c, IsOver values last c → EndsOver values last post (r c)

variable {α β : Type} {values : List Component} {last : Option Source.Location} {post : α → Prop}
  {post' : β → Prop} {r : ValueReader α} {f : α → ValueReader β}

theorem Locates.pure {a : α} (h : post a) : Locates values last post (Pure.pure a) :=
  fun _ hc => ⟨hc, h⟩

theorem Locates.fail {e : ParseError} (h : IsPlace values last e.location) :
    Locates values last post (fail e) :=
  fun _ hc => ⟨hc, h⟩

theorem Locates.bind (hr : Locates values last post r)
    (hf : ∀ a, post a → Locates values last post' (f a)) :
    Locates values last post' (r >>= f) := by
  intro c hc
  have hfirst := hr c hc
  show EndsOver values last post' (EStateM.bind r f c)
  cases hrun : r c with
  | ok a c' =>
    rw [hrun] at hfirst
    simpa only [EStateM.bind, hrun] using hf a hfirst.2 c' hfirst.1
  | error e c' =>
    rw [hrun] at hfirst
    simp only [EStateM.bind, hrun]
    cases e with
    | parse e => exact hfirst
    | fault f => exact hfirst

private theorem IsOver.discardMark {c : ComponentCursor} (h : IsOver values last c) :
    IsOver values last c.discardMark := by
  refine ⟨?_, h.endLocation_eq⟩
  rw [← h.items_eq, ComponentCursor.discardMark, Cursor.discardMark, Cursor.discardMark?]
  split <;> rfl

private theorem IsOver.restoreMark {c : ComponentCursor} (h : IsOver values last c) :
    IsOver values last c.restoreMark := by
  refine ⟨?_, h.endLocation_eq⟩
  rw [← h.items_eq, ComponentCursor.restoreMark, Cursor.restoreMark, Cursor.restoreMark?]
  split <;> rfl

theorem Locates.attempt (hr : Locates values last post r) :
    Locates values last (fun o => ∀ a ∈ o, post a) (attempt r) := by
  intro c hc
  have hend := hr c.mark ⟨hc.items_eq, hc.endLocation_eq⟩
  rw [ValueReader.attempt]
  cases hrun : r c.mark with
  | ok a c' =>
    rw [hrun] at hend
    refine ⟨hend.1.discardMark, ?_⟩
    intro b hb
    cases hb
    exact hend.2
  | error e c' =>
    rw [hrun] at hend
    cases e with
    | parse e =>
      refine ⟨hend.1.restoreMark, ?_⟩
      intro b hb
      cases hb
    | fault f => exact hend

/-! ## What readers are made of -/

theorem locates_peek : Locates values last (fun o => ∀ v ∈ o, v ∈ values) peek := by
  intro c hc
  refine ⟨⟨hc.items_eq, hc.endLocation_eq⟩, ?_⟩
  intro v hv
  rw [← hc.items_eq]
  exact List.mem_of_getElem? hv

theorem locates_get : Locates values last (fun c => c.endLocation = last)
    (MonadState.get : ValueReader ComponentCursor) :=
  fun _ hc => ⟨hc, hc.endLocation_eq⟩

theorem locates_next : Locates values last (· ∈ values) next := by
  apply locates_peek.bind
  intro value hvalue
  cases value with
  | none =>
    apply locates_get.bind
    intro c hc
    exact .fail (.inl hc)
  | some value =>
    have hadvance : Locates values last (fun _ => True)
        (modify (·.advance 1) : ValueReader PUnit) :=
      fun _ hc => ⟨⟨hc.items_eq, hc.endLocation_eq⟩, trivial⟩
    exact hadvance.bind fun _ _ => .pure (hvalue value rfl)

theorem locates_location : Locates values last (IsPlace values last) location := by
  apply locates_peek.bind
  intro value hvalue
  cases value with
  | none =>
    apply locates_get.bind
    intro c hc
    exact .pure (.inl hc)
  | some value => exact .pure (.inr ⟨value, hvalue value rfl, rfl⟩)

theorem isPlace_unexpected {category : ParseError.Category} {value : Component}
    (place : Option Source.Location) (hvalue : value ∈ values) (hplace : IsPlace values last place) :
    IsPlace values last (unexpected category value place).location := by
  cases place with
  | none => exact .inr ⟨value, hvalue, rfl⟩
  | some place => exact hplace

theorem isPlace_unexpected_none {category : ParseError.Category} {value : Component}
    (hvalue : value ∈ values) : IsPlace values last (unexpected category value none).location :=
  .inr ⟨value, hvalue, rfl⟩

theorem locates_expectExhausted : Locates values last (fun _ => True) expectExhausted := by
  apply locates_peek.bind
  intro value hvalue
  cases value with
  | none => exact .pure trivial
  | some value => exact .fail (.inr ⟨value, hvalue value rfl, rfl⟩)

theorem locates_expectIdent : Locates values last (fun _ => True) expectIdent := by
  apply locates_next.bind
  intro value hvalue
  split
  · exact .pure trivial
  · exact .fail (isPlace_unexpected_none hvalue)

theorem locates_expectIdentMatching (name : String) :
    Locates values last (fun _ => True) (expectIdentMatching name) := by
  refine locates_location.bind fun place hplace => locates_expectIdent.bind fun ident _ => ?_
  split
  · exact .pure trivial
  · exact .fail hplace

theorem locates_expectDelim (delim : String) :
    Locates values last (fun _ => True) (expectDelim delim) := by
  apply locates_next.bind
  intro value hvalue
  split
  · split
    · exact .pure trivial
    · exact .fail (isPlace_unexpected_none hvalue)
  · exact .fail (isPlace_unexpected_none hvalue)

section Place

variable {place : Option Source.Location} (hplace : IsPlace values last place)

include hplace

theorem locates_refuse {value : Component} (hvalue : value ∈ values) :
    Locates values last post (refuse value place) := by
  unfold refuse
  split
  · exact .fail hplace
  · exact .fail (isPlace_unexpected place hvalue hplace)

theorem locates_finite (value : Number.Value) (source : String) :
    Locates values last (fun _ => True) (finite value source place) := by
  have hcheck : ∀ x : Float, Locates values last (fun _ => True) (if x.isFinite then Pure.pure x
      else fail (.ofCategory .value place (some (source ++ " is out of range")))) := by
    intro x
    split
    · exact .pure trivial
    · exact .fail hplace
  cases value with
  | integer n => exact hcheck _
  | real x => exact hcheck x

theorem locates_expectPermitted (range : Range) (x : Float) (source : String) :
    Locates values last (fun _ => True) (expectPermitted range x source place) := by
  unfold expectPermitted
  split
  · exact .pure trivial
  · exact .fail hplace

end Place

theorem locates_orAuto (hr : Locates values last (fun _ => True) r) :
    Locates values last (fun _ => True) (orAuto r) := by
  apply (locates_expectIdentMatching "auto").attempt.bind
  intro found _
  cases found with
  | none => exact hr.bind fun _ _ => .pure trivial
  | some _ => exact .pure trivial

theorem locates_sided (hr : Locates values last (fun _ => True) r) :
    Locates values last (fun _ => True) (sided r) := by
  refine hr.bind fun top _ => hr.attempt.bind fun right _ => ?_
  cases right with
  | none => exact .pure trivial
  | some right =>
    apply hr.attempt.bind
    intro bottom _
    cases bottom with
    | none => exact .pure trivial
    | some bottom => exact hr.attempt.bind fun _ _ => .pure trivial

/-! ## Readers of properties -/

theorem locates_number (range : Range) : Locates values last (fun _ => True) (number range) := by
  refine locates_location.bind fun place hplace => locates_next.bind fun value hvalue => ?_
  split
  · apply (locates_finite hplace _ _).bind
    intro x _
    exact (locates_expectPermitted hplace _ _ _).bind fun _ _ => .pure trivial
  · exact locates_refuse hplace hvalue

theorem locates_percentage (range : Range) :
    Locates values last (fun _ => True) (percentage range) := by
  refine locates_location.bind fun place hplace => locates_next.bind fun value hvalue => ?_
  split
  · apply (locates_finite hplace _ _).bind
    intro x _
    exact (locates_expectPermitted hplace _ _ _).bind fun _ _ => .pure trivial
  · exact locates_refuse hplace hvalue

theorem locates_nonNegativeNumber : Locates values last (fun _ => True) nonNegativeNumber :=
  (locates_number _).bind fun _ _ => .pure trivial

theorem locates_keyword (α : Type) [Keyword α] :
    Locates values last (fun _ => True) (keyword α) := by
  refine locates_location.bind fun place hplace => locates_next.bind fun value hvalue => ?_
  split
  · split
    · exact .pure trivial
    · exact .fail hplace
  · exact .fail (isPlace_unexpected place hvalue hplace)

theorem locates_lengthOrPercentage (range : Range) (allowPercentage : Bool) :
    Locates values last (fun _ => True) (lengthOrPercentage range allowPercentage) := by
  refine locates_location.bind fun place hplace => locates_peek.bind fun value _ => ?_
  split
  · refine locates_next.bind fun _ _ => (locates_finite hplace _ _).bind fun x _ => ?_
    apply (locates_expectPermitted hplace _ _ _).bind
    intro _ _
    split
    · exact .pure trivial
    · exact .fail hplace
  · refine locates_next.bind fun _ _ => (locates_finite hplace _ _).bind fun x _ => ?_
    apply (locates_expectPermitted hplace _ _ _).bind
    intro _ _
    split
    · have hfail : ∀ detail, Locates values last (fun _ => True)
          (fail ⟨.value, .missingDimension, place, detail⟩ : ValueReader PUnit) :=
        fun _ => .fail hplace
      exact (hfail _).bind fun _ _ => .pure trivial
    · exact .pure trivial
  · split
    · exact (locates_percentage _).bind fun _ _ => .pure trivial
    · exact locates_next.bind fun _ hvalue => locates_refuse hplace hvalue
  · exact locates_next.bind fun _ hvalue => locates_refuse hplace hvalue

theorem locates_lengthPercentageOrAuto :
    Locates values last (fun _ => True) lengthPercentageOrAuto :=
  locates_orAuto (locates_lengthOrPercentage _ _)

theorem locates_ratio : Locates values last (fun _ => True) ratio := by
  apply locates_nonNegativeNumber.bind
  intro antecedent _
  apply (locates_expectDelim "/").attempt.bind
  intro slash _
  cases slash with
  | none => exact .pure trivial
  | some _ => exact locates_nonNegativeNumber.bind fun _ _ => .pure trivial

theorem locates_color (resolve : Color.Resolver) :
    Locates values last (fun _ => True) (color resolve) := by
  refine locates_location.bind fun place hplace => locates_next.bind fun value _ => ?_
  split
  · exact .pure trivial
  · exact .fail hplace
  · exact .fail hplace
  · exact fun _ hc => hc

theorem locates_readValue (resolve : Color.Resolver) (p : Property) :
    Locates values last (fun _ => True) (p.readValue resolve) := by
  cases p with
  | color => exact locates_color resolve
  | extent | inset | flexBasis | edge => exact locates_lengthPercentageOrAuto
  | edges => exact locates_sided locates_lengthPercentageOrAuto
  | flexGrow | flexShrink => exact locates_nonNegativeNumber
  | aspectRatio => exact locates_orAuto locates_ratio
  | _ => exact locates_keyword _

theorem locates_important : Locates values last (fun _ => True) important :=
  (locates_expectDelim "!").bind fun _ _ =>
    (locates_expectIdentMatching _).bind fun _ _ => .pure trivial

/-- What `setting` reads once the property is known. -/
def settingOf (resolve : Color.Resolver) (p : Property) : ValueReader Setting := do
  let value ← p.readValue resolve
  let _ ← attempt important
  expectExhausted
  return ⟨p, value⟩

theorem setting_of_some {resolve : Color.Resolver} {name : String} {p : Property}
    (h : Property.ofName? name = some p) (place : Option Source.Location) : setting resolve name place = settingOf resolve p := by
  rw [setting, h]
  rfl

theorem setting_of_none {resolve : Color.Resolver} {name : String}
    (h : Property.ofName? name = none) (place : Option Source.Location) :
    setting resolve name place = fail (.ofCategory .property place (some name)) := by
  rw [setting, h]

theorem locates_settingOf (resolve : Color.Resolver) (p : Property) :
    Locates values last (fun _ => True) (settingOf resolve p) := by
  refine (locates_readValue resolve p).bind fun _ _ => locates_important.attempt.bind fun _ _ => ?_
  exact locates_expectExhausted.bind fun _ _ => .pure trivial

/-- A setting is refused at the place of a component value or at the end of them, and for an unknown name
where the name stands. -/
theorem location_of_setting_eq_error {resolve : Color.Resolver} {name : String}
    {place : Option Source.Location} {c c' : ComponentCursor} {e : ParseError}
    (h : setting resolve name place c = .error (.parse e) c') :
    e.location = place ∨ IsPlace c.cursor.items c.endLocation e.location := by
  cases hname : Property.ofName? name with
  | none =>
    rw [setting_of_none hname] at h
    cases h
    exact .inl rfl
  | some p =>
    have hend := locates_settingOf resolve p c ⟨rfl, rfl⟩
    rw [← setting_of_some hname place, h] at hend
    exact .inr hend.2

end Styling.ValueReader
