import Styling.Proofs.Style.LastWriter
import Styling.Proofs.Value.Setting

/-!
# Shorthands for the sides of a box

The setting of all four sides of an edge is read where one to four lengths, percentages or `auto` are and
nothing but the mark behind them (`setting_edges_eq_ok_iff`). It comes to the four settings that are read
from the value each side takes (`setting_edges`).
-/

namespace Styling

open Component ValueReader

/-- Every property is found by its name. -/
theorem Property.ofName?_name (p : Property) : ofName? p.name = some p := by
  cases p with
  | extent e a => cases e <;> cases a <;> rfl
  | inset side => cases side <;> rfl
  | edges e => cases e <;> rfl
  | edge e side => cases e <;> cases side <;> rfl
  | _ => rfl

/-- The value of a side among one to four values. A side without a value of its own takes that of the
opposite side, and the right one that of the top. -/
def Side.pick? (values : List α) : Side → Option α
  | top => values[0]?
  | right => values[1]? <|> values[0]?
  | bottom => values[2]? <|> values[0]?
  | left => values[3]? <|> values[1]? <|> values[0]?

theorem Side.pick?_cons (x : α) (xs : List α) (side : Side) :
    side.pick? (x :: xs) = some ((Sided.expand x xs[0]? xs[1]? xs[2]?).get side) := by
  rcases xs with _ | ⟨right, _ | ⟨bottom, _ | ⟨left, more⟩⟩⟩ <;> cases side <;> rfl

theorem Side.pick?_map (f : α → β) (values : List α) (side : Side) :
    side.pick? (values.map f) = (side.pick? values).map f := by
  cases side <;> simp [pick?, Option.map_or]

namespace Target

theorem applyAll_eq (context : Context) (t : Target) (settings : List Setting) :
    t.applyAll context settings =
      ⟨t.style.map (·.applyAll context settings), t.paint.map (·.applyAll settings)⟩ := by
  induction settings generalizing t with
  | nil =>
    rcases t with ⟨style, paint⟩
    cases style <;> cases paint <;> rfl
  | cons x xs ih =>
    rw [applyAll, List.foldl_cons, ← applyAll, ih]
    rcases t with ⟨style, paint⟩
    cases style <;> cases paint <;> rfl

end Target

/-- Only colours change the paint. -/
theorem Paint.applyAll_of_ne_color (p : Paint) {settings : List Setting}
    (h : ∀ x ∈ settings, x.property ≠ .color) : p.applyAll settings = p := by
  induction settings with
  | nil => rfl
  | cons x xs ih =>
    have hx : p.apply x = p := by
      rcases x with ⟨property, value⟩
      cases property with
      | color => exact absurd rfl (h _ List.mem_cons_self)
      | _ => rfl
    rw [applyAll, List.foldl_cons, hx]
    exact ih fun y hy => h y (List.mem_cons_of_mem _ hy)

namespace ValueReader

variable {resolve : Color.Resolver} {e : Edge} {name : String} {place : Option Source.Location}
  {c : ComponentCursor} {components values left : List Component} {x : OrAuto LengthPercentage}
  {xs : List (OrAuto LengthPercentage)}

/-! ## Reading all sides -/

theorem exists_holds {f : Component → Option α} (hvalues : ∀ v ∈ values, (f v).isSome)
    (hleft : ∀ v ∈ left.head?, f v = none) : ∃ xs, Holds f xs values left := by
  have hpointwise : ∃ xs, List.Forall₂ (fun v x => f v = some x) values xs := by
    induction values with
    | nil => exact ⟨[], .nil⟩
    | cons v vs ih =>
      obtain ⟨x, hx⟩ := Option.isSome_iff_exists.1 (hvalues v List.mem_cons_self)
      obtain ⟨xs, hxs⟩ := ih fun w hw => hvalues w (List.mem_cons_of_mem _ hw)
      exact ⟨x :: xs, .cons hx hxs⟩
  obtain ⟨xs, hxs⟩ := hpointwise
  exact ⟨xs, hxs, hleft⟩

theorem Holds.map_bare (h : Holds OrAuto.ofComponent? xs values left) :
    Holds OrAuto.ofComponent? xs (values.map bare) (left.map bare) := by
  constructor
  · rw [List.forall₂_map_left_iff]
    simpa only [OrAuto.ofComponent?_bare] using h.values
  · intro v hv
    rw [List.head?_map, Option.mem_def, Option.map_eq_some_iff] at hv
    obtain ⟨w, hw, rfl⟩ := hv
    rw [OrAuto.ofComponent?_bare]
    exact h.left w hw

/-- Behind a value that is left nothing ends a setting. -/
theorem endsSetting_append_iff (h : ∀ v ∈ values, isBang v = false) :
    EndsSetting (values ++ left) ↔ values = [] ∧ EndsSetting left := by
  cases values with
  | nil => simp
  | cons v vs =>
    have hv := h v List.mem_cons_self
    refine iff_of_false ?_ (by simp)
    rintro (hnil | ⟨bang, word, hbang, -, heq⟩)
    · cases hnil
    · obtain ⟨rfl, -⟩ := List.cons.inj heq
      rw [hv] at hbang
      cases hbang

theorem Holds.isBang_eq_false (h : Holds OrAuto.ofComponent? xs values left) :
    ∀ v ∈ values, isBang v = false := by
  rcases h with ⟨hvalues, -⟩
  induction hvalues with
  | nil => simp
  | cons hx _ ih => exact List.forall_mem_cons.2 ⟨(OrAuto.not_of_ofComponent? hx).2, ih⟩

/-- All sides are set where one to four values are and nothing but the mark behind them. -/
theorem setting_edges_eq_ok_iff (hname : Property.ofName? name = some (.edges e))
    (hvalues : Holds OrAuto.ofComponent? xs values left) (hview : view c = values ++ left) (s : Setting) :
    (∃ c', setting resolve name place c = .ok s c') ↔ values.length ≤ 4 ∧ EndsSetting left ∧
      ∃ x more, xs = x :: more ∧ s = ⟨.edges e, .expand x more[0]? more[1]? more[2]?⟩ := by
  have hreads := readsOne_lengthPercentageOrAuto
  rw [setting_eq_ok_iff]
  cases xs with
  | nil =>
    obtain ⟨hnil, hleft⟩ := hvalues
    cases hnil
    obtain ⟨err, c', hr⟩ := hreads.eq_error (c := c) (by rw [hview]; exact hleft)
    have herror : (Property.edges e).readValue resolve c = .error (.parse err) c' := bind_of_error hr
    refine iff_of_false ?_ (by simp)
    rintro ⟨p, value, c₁, hp, -, hread, -⟩
    rw [hname] at hp
    cases hp
    rw [herror] at hread
    cases hread
  | cons x more =>
    obtain ⟨c', hr, hview'⟩ := sided_of_values hreads composed_lengthPercentageOrAuto.recovers
      (fun _ _ => locates_lengthPercentageOrAuto) hvalues hview
    have hends : EndsSetting (view c') ↔ values.length ≤ 4 ∧ EndsSetting left := by
      rw [hview', endsSetting_append_iff fun v hv => hvalues.isBang_eq_false v (List.mem_of_mem_drop hv),
        List.drop_eq_nil_iff]
    constructor
    · rintro ⟨p, value, c₁, hp, rfl, hread, hend⟩
      rw [hname] at hp
      cases hp
      have hsame := hr.symm.trans hread
      cases hsame
      obtain ⟨hlength, hleft⟩ := hends.1 hend
      exact ⟨hlength, hleft, x, more, rfl, rfl⟩
    · rintro ⟨hlength, hleft, y, more, heq, rfl⟩
      cases heq
      exact ⟨.edges e, _, c', hname, rfl, hr, hends.2 ⟨hlength, hleft⟩⟩

/-- Where no setting of an edge is read, there is a parse error. -/
theorem setting_edges_eq_error (hname : Property.ofName? name = some (.edges e))
    (h : ¬∃ s c', setting resolve name place c = .ok s c') :
    ∃ err c', setting resolve name place c = .error (.parse err) c' := by
  cases hread : setting resolve name place c with
  | ok s c' => exact absurd ⟨s, c', hread⟩ h
  | error f c' =>
    cases f with
    | parse err => exact ⟨err, c', rfl⟩
    | fault f =>
      obtain ⟨hcolor, -⟩ := (setting_fault_iff resolve name place f c).1 ⟨c', hread⟩
      rw [hname] at hcolor
      cases hcolor

/-- The setting of one side is read from its value. -/
theorem setting_edge {side : Side} (hname : Property.ofName? name = some (.edge e side))
    {v : Component} (hx : OrAuto.ofComponent? v = some x) (hview : view c = [v]) :
    ∃ c', setting resolve name place c = .ok ⟨.edge e side, x⟩ c' := by
  obtain ⟨c', hr, hview'⟩ := readsOne_lengthPercentageOrAuto.eq_ok hx hview
  exact (setting_eq_ok_iff ..).2 ⟨.edge e side, x, c', hname, rfl, hr, .inl hview'⟩

/-! ## What a shorthand comes to -/

theorem Holds.exists_pick? (h : Holds OrAuto.ofComponent? xs values left) {side : Side}
    (hx : side.pick? xs = some x) : ∃ v, side.pick? values = some v ∧ OrAuto.ofComponent? v = some x := by
  have hmap : values.map OrAuto.ofComponent? = xs.map some := by
    rw [← List.forall₂_eq_eq_eq, List.forall₂_map_left_iff, List.forall₂_map_right_iff]
    exact h.values
  have hpick := Side.pick?_map OrAuto.ofComponent? values side
  rw [hmap, Side.pick?_map, hx] at hpick
  exact Option.map_eq_some_iff.1 hpick.symm

/-- The four sides of an edge, in any order, come to the same as the shorthand, for any target. -/
theorem target_apply_edges (context : Context) (target : Target) (v : Sided (OrAuto LengthPercentage))
    {sides : List Side} (h : sides.Perm Side.all) : target.apply context ⟨.edges e, v⟩ =
      target.applyAll context (sides.map fun side => ⟨.edge e side, v.get side⟩) := by
  have hpaint : ∀ p : Paint, p.applyAll (sides.map fun side => ⟨.edge e side, v.get side⟩) = p := by
    intro p
    apply p.applyAll_of_ne_color
    simp
  have hstyle : ∀ s : Style, s.applyAll context (sides.map fun side => ⟨.edge e side, v.get side⟩) =
      s.apply context ⟨.edges e, v⟩ :=
    fun s => s.applyAll_of_perm_longhands context (h.map _)
  rw [Target.applyAll_eq]
  simp only [hpaint, hstyle]
  rfl

/-- Component values that are read as a setting, whatever resolves colours and wherever its name stands and
they end. -/
def ReadAs (name : String) (components : List Component) (s : Setting) : Prop :=
  ∀ resolve place last, ∃ c', setting resolve name place (.ofList components last) = .ok s c'

/-- Component values that are not read as a setting but end in a parse error. -/
def Rejected (name : String) (components : List Component) : Prop :=
  ∀ resolve place last,
    ∃ e c', setting resolve name place (.ofList components last) = .error (.parse e) c'

/-- The shorthand of an edge, read from one to four values that may have white-space and comments around
them, comes to the four settings that are read from the values of the sides, in any order and for any
target. If there are no values or more, or anything but the mark stands behind them, no setting is read. -/
theorem setting_edges (hname : Property.ofName? name = some (.edges e))
    (hcomponents : solid components = values ++ left)
    (hvalues : ∀ v ∈ values, (OrAuto.ofComponent? v).isSome)
    (hleft : ∀ v ∈ left.head?, OrAuto.ofComponent? v = none) :
    (1 ≤ values.length ∧ values.length ≤ 4 ∧ EndsSetting left →
      ∃ (s : Setting) (longhand : Side → Setting), ReadAs name components s ∧
        (∀ side, ∃ v ∈ side.pick? values, ∀ sideName sideComponents,
          Property.ofName? sideName = some (.edge e side) → solid sideComponents = [v] →
            ReadAs sideName sideComponents (longhand side)) ∧
        ∀ (context : Context) (target : Target) (sides : List Side), sides.Perm Side.all →
          target.apply context s = target.applyAll context (sides.map longhand)) ∧
    (¬(1 ≤ values.length ∧ values.length ≤ 4 ∧ EndsSetting left) → Rejected name components) := by
  obtain ⟨xs, hholds⟩ := exists_holds hvalues hleft
  have hlength : values.length = xs.length := hholds.values.length_eq
  have hok : ∀ resolve place last s,
      (∃ c', setting resolve name place (.ofList components last) = .ok s c') ↔
        values.length ≤ 4 ∧ EndsSetting left ∧
          ∃ x more, xs = x :: more ∧ s = ⟨.edges e, .expand x more[0]? more[1]? more[2]?⟩ := by
    intro resolve place last s
    have hview : view (.ofList components last) = values.map bare ++ left.map bare := by
      rw [view_ofList, outline, hcomponents, List.map_append]
    rw [setting_edges_eq_ok_iff hname hholds.map_bare hview, List.length_map, endsSetting_map_bare]
  constructor
  · rintro ⟨hmin, hmax, hends⟩
    cases xs with
    | nil => simp [hlength] at hmin
    | cons x more =>
      have hsides := Side.pick?_cons x more
      obtain ⟨sided, hsided⟩ : ∃ sided, Sided.expand x more[0]? more[1]? more[2]? = sided :=
        ⟨_, rfl⟩
      rw [hsided] at hsides
      refine ⟨⟨.edges e, sided⟩, fun side => ⟨.edge e side, sided.get side⟩, ?_, ?_, ?_⟩
      · intro resolve place last
        exact (hok ..).2 ⟨hmax, hends, x, more, rfl, by rw [hsided]⟩
      · intro side
        obtain ⟨v, hv, hx⟩ := hholds.exists_pick? (hsides side)
        refine ⟨v, hv, fun sideName sideComponents hsideName hcomponents resolve place last => ?_⟩
        apply setting_edge hsideName (v := v.bare) (by rw [OrAuto.ofComponent?_bare, hx])
        rw [view_ofList, outline, hcomponents]
        rfl
      · intro context target sides hperm
        exact target_apply_edges context target sided hperm
  · intro hnot resolve place last
    apply setting_edges_eq_error hname
    rintro ⟨s, hread⟩
    obtain ⟨hmax, hends, x, more, rfl, -⟩ := (hok resolve place last s).1 hread
    exact hnot ⟨by simp [hlength], hmax, hends⟩

/-- A margin of two values with a comment between them and a mark behind, and one of five values. -/
theorem setting_edges_margins :
    let ten : Component := .token ⟨.dimension (.integer 10) "px" none .integer, "10px", ⟨1, 9⟩⟩
    let auto : Component := .token ⟨.ident "AUTO", "AUTO", ⟨1, 18⟩⟩
    let marked : List Component := [ten, .token ⟨.comment "", "/**/", ⟨1, 13⟩⟩,
      .token ⟨.whitespace " ", " ", ⟨1, 17⟩⟩, auto, .token ⟨.delim '!', "!", ⟨1, 22⟩⟩,
      .token ⟨.ident "important", "important", ⟨1, 23⟩⟩]
    (∃ (s : Setting) (longhand : Side → Setting), ReadAs "Margin" marked s ∧
      ReadAs "margin-bottom" [ten] (longhand .bottom) ∧ ReadAs "margin-left" [auto] (longhand .left) ∧
      ∀ context target, Target.apply context target s =
        target.applyAll context (Side.all.map longhand)) ∧
    Rejected "margin" [ten, auto, ten, auto, ten] := by
  intro ten auto marked
  have hten : (OrAuto.ofComponent? ten).isSome := rfl
  have hauto : (OrAuto.ofComponent? auto).isSome := rfl
  constructor
  · have htwo : ∀ v ∈ [ten, auto], (OrAuto.ofComponent? v).isSome := by simp [hten, hauto]
    have hmark : ∀ v ∈ [marked[4], marked[5]].head?, OrAuto.ofComponent? v = none := by
      intro v hv
      cases hv
      rfl
    have hname : Property.ofName? "Margin" = some (.edges .margin) := rfl
    have hsolid : solid marked = [ten, auto] ++ [marked[4], marked[5]] := rfl
    obtain ⟨hread, -⟩ := setting_edges hname hsolid htwo hmark
    have hends : EndsSetting [marked[4], marked[5]] := .inr ⟨_, _, rfl, rfl, rfl⟩
    obtain ⟨s, longhand, hs, hside, htarget⟩ := hread ⟨by decide, by decide, hends⟩
    refine ⟨s, longhand, hs, ?_, ?_, fun context target => htarget context target _ (.refl _)⟩
    · obtain ⟨v, hv, hread⟩ := hside .bottom
      cases hv
      exact hread "margin-bottom" [ten] (Property.ofName?_name (.edge .margin .bottom)) rfl
    · obtain ⟨v, hv, hread⟩ := hside .left
      cases hv
      exact hread "margin-left" [auto] (Property.ofName?_name (.edge .margin .left)) rfl
  · have hfive : ∀ v ∈ [ten, auto, ten, auto, ten], (OrAuto.ofComponent? v).isSome := by
      simp [hten, hauto]
    have hname : Property.ofName? "margin" = some (.edges .margin) := Property.ofName?_name (.edges .margin)
    have hnothing : ∀ v ∈ ([] : List Component).head?, OrAuto.ofComponent? v = none := by simp
    have hsolid : solid [ten, auto, ten, auto, ten] = [ten, auto, ten, auto, ten] ++ [] := rfl
    obtain ⟨-, hrejected⟩ := setting_edges hname hsolid hfive hnothing
    exact hrejected (by simp)

end ValueReader

end Styling
