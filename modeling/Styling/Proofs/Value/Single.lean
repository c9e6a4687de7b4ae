import Mathlib.Data.List.Forall2
import Styling.Proofs.Value.Agreement

/-!
# Values of one component value

A length, a percentage or `auto` is read from one component value, which is any that stands for one
(`readsOne_lengthPercentageOrAuto`). A reader of sides takes as many of them as there are, up to four, and
leaves what follows (`sided_of_values`).
-/

namespace Styling

open Component

/-- The number of a numeric token as a binary64 number, unless it is too large. -/
def Number.Value.finite? (value : Number.Value) : Option Float :=
  let x := match value with
    | .integer n => Float.ofInt n
    | .real x => x
  if x.isFinite then some x else none

/-- The length or percentage a component value stands for: a dimension in a known unit, a zero without one,
or a percentage. -/
def LengthPercentage.ofComponent? : Component → Option LengthPercentage
  | .token ⟨.dimension value unit _ _, _, _⟩ => do
    let x ← value.finite?
    let u ← LengthUnit.ofName? (Text.asciiLower unit)
    return .length ⟨x, u⟩
  | .token ⟨.number value _ _, _, _⟩ => do
    let x ← value.finite?
    if x != 0 then none else some (.length .zero)
  | .token ⟨.percentage value _, _, _⟩ => do
    let x ← value.finite?
    return .percentage (.ofValue (x / 100))
  | _ => none

/-- The name of a component value that is the given word, up to ASCII case. -/
def Component.identMatching? (word : String) : Component → Option String
  | .token ⟨.ident name, _, _⟩ => if Text.eqIgnoringAsciiCase name word then some name else none
  | _ => none

/-- The text of a component value that is the given delimiter. -/
def Component.delimMatching? (delim : String) : Component → Option String
  | .token ⟨.delim c, _, _⟩ => if String.singleton c == delim then some delim else none
  | _ => none

/-- The length, percentage or `auto` a component value stands for. -/
def OrAuto.ofComponent? (c : Component) : Option (OrAuto LengthPercentage) :=
  if (c.identMatching? "auto").isSome then some .auto else (LengthPercentage.ofComponent? c).map .value

theorem LengthPercentage.ofComponent?_bare (c : Component) :
    ofComponent? c.bare = ofComponent? c := by
  rcases c with ⟨kind, source, location⟩ | ⟨head, contents, closing⟩
  · cases kind <;> rfl
  · rfl

theorem Component.identMatching?_bare (word : String) (c : Component) :
    c.bare.identMatching? word = c.identMatching? word := by
  rcases c with ⟨kind, source, location⟩ | ⟨head, contents, closing⟩
  · cases kind <;> rfl
  · rfl

theorem Component.delimMatching?_bare (delim : String) (c : Component) :
    c.bare.delimMatching? delim = c.delimMatching? delim := by
  rcases c with ⟨kind, source, location⟩ | ⟨head, contents, closing⟩
  · cases kind <;> rfl
  · rfl

theorem OrAuto.ofComponent?_bare (c : Component) : ofComponent? c.bare = ofComponent? c := by
  rw [ofComponent?, ofComponent?, identMatching?_bare, LengthPercentage.ofComponent?_bare]

/-- Neither white-space nor the bang of a mark stands for a value. -/
theorem OrAuto.not_of_ofComponent? {c : Component} {x : OrAuto LengthPercentage}
    (h : ofComponent? c = some x) : c.isWhite = false ∧ isBang c = false := by
  rcases c with ⟨kind, source, location⟩ | ⟨head, contents, closing⟩
  · cases kind with
    | whitespace | comment | delim => cases h
    | _ => exact ⟨rfl, rfl⟩
  · exact ⟨rfl, rfl⟩

namespace ValueReader

variable {α β : Type} {r : ValueReader α} {f : Component → Option α} {c : ComponentCursor}

/-- A reader of one component value, which is any that `f` makes something of. -/
def ReadsOne (f : Component → Option α) (r : ValueReader α) : Prop :=
  ∀ c, (∃ v x c', r c = .ok x c' ∧ f v = some x ∧ view c = v :: view c') ∨
    ((∃ e c', r c = .error (.parse e) c') ∧ ∀ v ∈ (view c).head?, f v = none)

/-- A reader that takes nothing and comes to `x`, or fails if that is none. -/
def Settles (x : Option α) (r : ValueReader α) : Prop :=
  match x with
  | some a => r = pure a
  | none => ∃ e, r = fail e

theorem Settles.bind {x : Option α} {k : α → Option β} {g : α → ValueReader β} (h : Settles x r)
    (hg : ∀ a, Settles (k a) (g a)) : Settles (x >>= k) (r >>= g) := by
  cases x with
  | some a =>
    have hr : r = pure a := h
    rw [hr, pure_bind]
    exact hg a
  | none =>
    obtain ⟨e, he⟩ := h
    exact ⟨e, by rw [he]; rfl⟩

theorem settles_check {p : Bool} (a : α) (e : ParseError) :
    Settles (if p then some a else none) (if p then pure a else fail e : ValueReader α) := by
  cases p with
  | true => rfl
  | false => exact ⟨e, rfl⟩

theorem readsOne_next_bind {g : Component → ValueReader α} (hbare : ∀ v, f v.bare = f v)
    (hg : ∀ v, Settles (f v) (g v)) : ReadsOne f (next >>= g) := by
  intro c
  cases hc : upcoming? c with
  | none =>
    obtain ⟨e, c', hnext⟩ := next_of_none hc
    exact .inr ⟨⟨e, c', bind_of_error hnext⟩, by simp [view_eq_nil_iff.2 hc]⟩
  | some v =>
    have hview := view_of_some hc
    have hv := hg v
    rw [bind_of_ok (next_of_some hc)]
    cases hx : f v with
    | some x =>
      rw [hx] at hv
      have hread : g v = pure x := hv
      exact .inl ⟨v.bare, x, c.skipWhite.advance 1, by rw [hread]; rfl, by rw [hbare, hx], hview⟩
    | none =>
      rw [hx] at hv
      obtain ⟨e, he⟩ := hv
      refine .inr ⟨⟨e, c.skipWhite.advance 1, by rw [he]; rfl⟩, ?_⟩
      rw [hview]
      simp [hbare, hx]

theorem readsOne_location_bind {g : Option Source.Location → ValueReader α}
    (h : ∀ place, ReadsOne f (g place)) : ReadsOne f (location >>= g) := by
  intro c
  obtain ⟨place, hplace⟩ := location_eq c
  have hskip := h place c.skipWhite
  rw [view_skipWhite] at hskip
  rw [bind_of_ok hplace]
  exact hskip

theorem ReadsOne.eq_ok (h : ReadsOne f r) {v : Component} {x : α} {left : List Component}
    (hx : f v = some x) (hview : view c = v :: left) :
    ∃ c', r c = .ok x c' ∧ view c' = left := by
  rcases h c with ⟨w, y, c', hr, hy, hview'⟩ | ⟨-, hnone⟩
  · rw [hview, List.cons.injEq] at hview'
    obtain ⟨rfl, rfl⟩ := hview'
    rw [hx] at hy
    cases hy
    exact ⟨c', hr, rfl⟩
  · have hv := hnone v (by simp [hview])
    rw [hx] at hv
    cases hv

theorem ReadsOne.eq_error (h : ReadsOne f r) (hnone : ∀ v ∈ (view c).head?, f v = none) :
    ∃ e c', r c = .error (.parse e) c' := by
  rcases h c with ⟨v, x, c', -, hx, hview⟩ | ⟨herror, -⟩
  · have hv := hnone v (by simp [hview])
    rw [hx] at hv
    cases hv
  · exact herror

/-- Component values that stand for the given ones, with something behind them that is no value. -/
structure Holds (f : Component → Option α) (xs : List α) (values left : List Component) : Prop where
  values : List.Forall₂ (fun v x => f v = some x) values xs
  left : ∀ v ∈ left.head?, f v = none

/-! ## Tries -/

section Attempt

variable (h : ReadsOne f r) (hmarks : Recovers True r)
  (hitems : ∀ values last, Locates values last (fun _ => True) r)
  {x : α} {xs : List α} {values left : List Component}

include h hmarks hitems

/-- A try takes the value there is, or leaves all as it is. -/
theorem ReadsOne.attempt_cases (c : ComponentCursor) :
    (∃ v x d, attempt r c = .ok (some x) d ∧ f v = some x ∧ view c = v :: view d) ∨
      (∃ d, attempt r c = .ok none d ∧ view d = view c ∧ ∀ v ∈ (view c).head?, f v = none) := by
  rcases h c.mark with ⟨v, x, c', hr, hx, hview⟩ | ⟨⟨e, c', hr⟩, hnone⟩
  · obtain ⟨d, htry, hrest⟩ := attempt_of_ok hr
    rw [view_mark, ← view_congr hrest] at hview
    exact .inl ⟨v, x, d, htry, hx, hview⟩
  · obtain ⟨d, htry, hrest⟩ := attempt_of_error hmarks hitems hr
    exact .inr ⟨d, htry, view_congr hrest, hnone⟩

/-- A try takes the first of the values, if there are any. -/
theorem Holds.attempt_eq (hvalues : Holds f xs values left) (hview : view c = values ++ left) :
    ∃ d, attempt r c = .ok xs.head? d ∧ view d = values.tail ++ left := by
  rcases hvalues with ⟨hvalues, hleft⟩
  cases hvalues with
  | nil =>
    obtain ⟨e, c', hr⟩ := h.eq_error (c := c.mark) (by rw [view_mark, hview]; exact hleft)
    obtain ⟨d, htry, hrest⟩ := attempt_of_error hmarks hitems hr
    exact ⟨d, htry, by rw [view_congr hrest, hview]; rfl⟩
  | cons hx hxs =>
    obtain ⟨c', hr, hview'⟩ := h.eq_ok (c := c.mark) hx (by rw [view_mark, hview]; rfl)
    obtain ⟨d, htry, hrest⟩ := attempt_of_ok hr
    exact ⟨d, htry, by rw [view_congr hrest, hview']; rfl⟩

/-- Sides are made of as many values as there are, up to four, and what follows is left. -/
theorem sided_of_values (hvalues : Holds f (x :: xs) values left) (hview : view c = values ++ left) :
    ∃ c', sided r c = .ok (.expand x xs[0]? xs[1]? xs[2]?) c' ∧ view c' = values.drop 4 ++ left := by
  obtain ⟨hpointwise, hleft⟩ := hvalues
  cases hpointwise with
  | cons hx hxs =>
    obtain ⟨c₁, hr, hview₁⟩ := h.eq_ok hx hview
    have hrights : Holds f xs _ left := ⟨hxs, hleft⟩
    obtain ⟨c₂, hright, hview₂⟩ := hrights.attempt_eq h hmarks hitems hview₁
    rw [sided, bind_of_ok hr, bind_of_ok hright]
    cases hxs with
    | nil => exact ⟨c₂, rfl, hview₂⟩
    | cons _ hxs =>
      have hbottoms : Holds f _ _ left := ⟨hxs, hleft⟩
      obtain ⟨c₃, hbottom, hview₃⟩ := hbottoms.attempt_eq h hmarks hitems hview₂
      cases hxs with
      | nil => exact ⟨c₃, bind_of_ok hbottom, hview₃⟩
      | cons _ hxs =>
        have hlasts : Holds f _ _ left := ⟨hxs, hleft⟩
        obtain ⟨c₄, hlast, hview₄⟩ := hlasts.attempt_eq h hmarks hitems hview₃
        refine ⟨c₄, (bind_of_ok hbottom).trans ((bind_of_ok hlast).trans ?_), ?_⟩
        · cases hxs <;> rfl
        · rw [hview₄]
          simp

end Attempt

/-! ## Lengths, percentages and `auto` -/

theorem settles_finite (value : Number.Value) (source : String) (place : Option Source.Location) :
    Settles value.finite? (finite value source place) := by
  cases value with
  | integer n => exact settles_check _ _
  | real x => exact settles_check _ _

theorem settles_refuse (v : Component) (place : Option Source.Location) :
    Settles none (refuse v place : ValueReader α) := by
  unfold refuse
  split
  · exact ⟨_, rfl⟩
  · exact ⟨_, rfl⟩

theorem settles_lengthOrPercentageOf (place : Option Source.Location) (v : Component) :
    Settles (LengthPercentage.ofComponent? v) (lengthOrPercentageOf .all true place v) := by
  rcases v with ⟨kind, source, location⟩ | ⟨head, contents, closing⟩
  case group => exact settles_refuse _ _
  have hrefuse : Settles none
      (refuse (.token ⟨kind, source, location⟩) place : ValueReader LengthPercentage) :=
    settles_refuse _ _
  cases kind with
  | dimension value unit sign form =>
    apply (settles_finite value source place).bind
    intro x
    cases hu : LengthUnit.ofName? (Text.asciiLower unit) with
    | some u =>
      simp only [Length.ofDimension, hu]
      rfl
    | none =>
      simp only [Length.ofDimension, hu]
      exact ⟨_, rfl⟩
  | number value sign form =>
    apply (settles_finite value source place).bind
    intro x
    by_cases hx : x != 0
    · simp only [hx, if_true]
      exact ⟨_, rfl⟩
    · simp only [hx]
      rfl
  | percentage value sign =>
    exact (settles_finite value source place).bind fun x => rfl
  | _ => exact hrefuse

theorem readsOne_lengthPercentage : ReadsOne LengthPercentage.ofComponent? lengthPercentage := by
  rw [lengthPercentage, lengthOrPercentage_eq]
  apply readsOne_location_bind
  intro place
  exact readsOne_next_bind LengthPercentage.ofComponent?_bare (settles_lengthOrPercentageOf place)

theorem readsOne_expectIdentMatching (word : String) :
    ReadsOne (identMatching? word) (expectIdentMatching word) := by
  apply readsOne_location_bind
  intro place
  rw [expectIdent, bind_assoc]
  apply readsOne_next_bind (identMatching?_bare word)
  intro v
  have hrefuse : Settles none ((fail (unexpected .general v none) : ValueReader String) >>= fun ident =>
      if Text.eqIgnoringAsciiCase ident word then pure ident
      else fail ⟨.general, .unexpectedToken, place, some ident⟩) := ⟨_, rfl⟩
  rcases v with ⟨kind, source, location⟩ | ⟨head, contents, closing⟩
  case group => exact hrefuse
  cases kind with
  | ident name => exact settles_check _ _
  | _ => exact hrefuse

theorem readsOne_expectDelim (delim : String) : ReadsOne (delimMatching? delim) (expectDelim delim) := by
  apply readsOne_next_bind (delimMatching?_bare delim)
  intro v
  have hrefuse : Settles none (fail (unexpected .general v none) : ValueReader String) := ⟨_, rfl⟩
  rcases v with ⟨kind, source, location⟩ | ⟨head, contents, closing⟩
  case group => exact hrefuse
  cases kind with
  | delim c => exact settles_check _ _
  | _ => exact hrefuse

theorem readsOne_lengthPercentageOrAuto :
    ReadsOne OrAuto.ofComponent? lengthPercentageOrAuto := by
  intro c
  rw [lengthPercentageOrAuto, orAuto]
  have hauto := (readsOne_expectIdentMatching "auto").attempt_cases
    (composed_expectIdentMatching _).recovers (fun _ _ => locates_expectIdentMatching _) c
  rcases hauto with ⟨v, name, d, htry, hname, hview⟩ | ⟨d, htry, hview, hnone⟩
  · rw [bind_of_ok htry]
    exact .inl ⟨v, .auto, d, rfl, by simp [OrAuto.ofComponent?, hname], hview⟩
  · rw [bind_of_ok htry]
    rcases readsOne_lengthPercentage d with ⟨v, x, c', hr, hx, hview'⟩ | ⟨⟨e, c', hr⟩, hnone'⟩
    · have hv := hnone v (by rw [← hview, hview']; rfl)
      refine .inl ⟨v, .value x, c', bind_of_ok hr, ?_, by rw [← hview, hview']⟩
      simp [OrAuto.ofComponent?, hv, hx]
    · refine .inr ⟨⟨e, c', bind_of_error hr⟩, ?_⟩
      intro v hv
      have hlength := hnone' v (by rw [hview]; exact hv)
      simp [OrAuto.ofComponent?, hnone v hv, hlength]

end ValueReader

end Styling
