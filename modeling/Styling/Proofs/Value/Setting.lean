import Styling.Proofs.Value.Single

/-!
# What a setting is read from

A setting is read where the component values are a value of the property and nothing else, or such a
value with an `!important` behind it (`setting_eq_ok_iff`).
-/

namespace Styling.ValueReader

open Component

variable {α β : Type} {r : ValueReader α} {f : α → ValueReader β}

/-! ## No value in nothing -/

/-- A reader that finds no value where nothing is left. -/
def NeedsValue (r : ValueReader α) : Prop :=
  ∀ c, view c = [] → ∃ e c', r c = .error (.parse e) c'

theorem NeedsValue.bind (h : NeedsValue r) : NeedsValue (r >>= f) := by
  intro c hc
  obtain ⟨e, c', hr⟩ := h c hc
  exact ⟨e, c', bind_of_error hr⟩

theorem needsValue_next : NeedsValue next := fun _ hc => next_of_none (view_eq_nil_iff.1 hc)

theorem needsValue_location_bind {f : Option Source.Location → ValueReader α}
    (h : ∀ place, NeedsValue (f place)) : NeedsValue (location >>= f) := by
  intro c hc
  obtain ⟨place, hplace⟩ := location_eq c
  rw [bind_of_ok hplace]
  exact h place _ (by rw [view_skipWhite, hc])

theorem ReadsOne.needsValue {f : Component → Option α} (h : ReadsOne f r) : NeedsValue r :=
  fun c hc => h.eq_error (by simp [hc])

theorem needsValue_orAuto (h : NeedsValue r) : NeedsValue (orAuto r) := by
  intro c hc
  obtain ⟨e, c', hauto⟩ := (readsOne_expectIdentMatching "auto").needsValue c.mark hc
  obtain ⟨d, htry, hrest⟩ := attempt_of_error (composed_expectIdentMatching "auto").recovers
    (fun _ _ => locates_expectIdentMatching "auto") hauto
  rw [orAuto, bind_of_ok htry]
  exact h.bind d ((view_congr hrest).trans hc)

theorem needsValue_readValue (resolve : Color.Resolver) (p : Property) :
    NeedsValue (p.readValue resolve) := by
  have hauto : NeedsValue lengthPercentageOrAuto := readsOne_lengthPercentageOrAuto.needsValue
  have hnumber : NeedsValue nonNegativeNumber :=
    (needsValue_location_bind fun _ => needsValue_next.bind).bind
  cases p with
  | extent | inset | flexBasis | edge => exact hauto
  | edges => exact hauto.bind
  | flexGrow | flexShrink => exact hnumber
  | aspectRatio => exact needsValue_orAuto hnumber.bind
  | _ => exact needsValue_location_bind fun _ => needsValue_next.bind

/-! ## The end of a setting -/

/-- What may be left behind a value: nothing, or the mark. -/
def EndsSetting (left : List Component) : Prop :=
  left = [] ∨ ∃ bang word, isBang bang ∧ isImportantIdent word ∧ left = [bang, word]

/-- Neither places nor closing brackets matter to what ends a setting. -/
theorem endsSetting_map_bare {left : List Component} : EndsSetting (left.map bare) ↔ EndsSetting left := by
  constructor
  · rintro (hnil | ⟨bang, word, hbang, hword, heq⟩)
    · exact .inl (List.map_eq_nil_iff.1 hnil)
    · obtain ⟨bang, rest, rfl, rfl, hrest⟩ := List.map_eq_cons_iff.1 heq
      obtain ⟨word, rest, rfl, rfl, hnil⟩ := List.map_eq_cons_iff.1 hrest
      rw [List.map_eq_nil_iff.1 hnil]
      rw [isBang_bare] at hbang
      rw [isImportantIdent_bare] at hword
      exact .inr ⟨bang, word, hbang, hword, rfl⟩
  · rintro (rfl | ⟨bang, word, hbang, hword, rfl⟩)
    · exact .inl rfl
    · exact .inr ⟨bang.bare, word.bare, by rwa [isBang_bare], by rwa [isImportantIdent_bare], rfl⟩

theorem EndsSetting.length_eq {left : List Component} (h : EndsSetting left) :
    left.length = 0 ∨ left.length = 2 := by
  rcases h with rfl | ⟨bang, word, -, -, rfl⟩
  · exact .inl rfl
  · exact .inr rfl

theorem EndsSetting.isBraceBlock_eq_false {left : List Component} {c : Component}
    (h : EndsSetting left) (hc : c ∈ left) : c.isBraceBlock = false := by
  rcases h with rfl | ⟨bang, word, hbang, hword, rfl⟩
  · cases hc
  · simp only [List.mem_cons, List.not_mem_nil, or_false] at hc
    rcases hc with rfl | rfl
    · exact isBraceBlock_of_isBang hbang
    · exact isBraceBlock_of_isImportantIdent hword

theorem expectExhausted_of_nil {c : ComponentCursor} (h : view c = []) :
    ∃ c', expectExhausted c = .ok () c' := by
  have hpeek := peek_eq c
  rw [view_eq_nil_iff.1 h] at hpeek
  exact ⟨c.skipWhite, bind_of_ok hpeek⟩

theorem view_of_expectExhausted {c c' : ComponentCursor} (h : expectExhausted c = .ok () c') :
    view c = [] := by
  rw [expectExhausted, bind_of_ok (peek_eq c)] at h
  cases hc : upcoming? c with
  | none => exact view_eq_nil_iff.2 hc
  | some v =>
    rw [hc] at h
    cases h

/-- A reader that takes one component value, which is any that satisfies `p`. -/
def TakesOne (p : Component → Bool) (r : ValueReader α) : Prop :=
  ∀ c, (∃ a v c', r c = .ok a c' ∧ p v ∧ view c = v :: view c') ∨
    ((∃ e c', r c = .error (.parse e) c') ∧ ∀ v left, p v → view c ≠ v :: left)

theorem ReadsOne.takesOne {p : Component → Bool} {f : Component → Option α} (h : ReadsOne f r)
    (hp : ∀ v, p v = (f v).isSome) : TakesOne p r := by
  intro c
  rcases h c with ⟨v, x, c', hr, hx, hview⟩ | ⟨herror, hnone⟩
  · exact .inl ⟨x, v, c', hr, by simp [hp, hx], hview⟩
  · refine .inr ⟨herror, ?_⟩
    intro v left hv hview
    have hv' := hnone v (by simp [hview])
    simp [hp, hv'] at hv

theorem takesOne_bang : TakesOne isBang (expectDelim "!") := by
  apply (readsOne_expectDelim "!").takesOne
  intro v
  rcases v with ⟨kind, source, location⟩ | ⟨head, contents, closing⟩
  case group => rfl
  cases kind with
  | delim c =>
    have hsingle : String.singleton c = "!" ↔ c = '!' := by
      rw [← String.toList_inj]
      simp
    by_cases hc : c = '!'
    · subst hc
      rfl
    · simp [isBang, delimMatching?, hsingle, hc]
  | _ => rfl

theorem takesOne_word : TakesOne isImportantIdent (expectIdentMatching "important") := by
  apply (readsOne_expectIdentMatching "important").takesOne
  intro v
  rcases v with ⟨kind, source, location⟩ | ⟨head, contents, closing⟩
  case group => rfl
  cases kind with
  | ident name =>
    have hname : isImportantIdent (.token ⟨.ident name, source, location⟩) =
        Text.eqIgnoringAsciiCase name "important" := rfl
    rw [hname, identMatching?]
    cases Text.eqIgnoringAsciiCase name "important" <;> rfl
  | _ => rfl

/-- The mark is a bang and the word. -/
theorem important_cases (c : ComponentCursor) :
    (∃ bang word c', important c = .ok () c' ∧ isBang bang ∧ isImportantIdent word ∧
      view c = bang :: word :: view c') ∨
    ((∃ e c', important c = .error (.parse e) c') ∧
      ∀ bang word left, isBang bang → isImportantIdent word → view c ≠ bang :: word :: left) := by
  rcases takesOne_bang c with ⟨_, bang, c₁, hbang, hisBang, hview⟩ | ⟨⟨e, c₁, hbang⟩, hnone⟩
  · rcases takesOne_word c₁ with ⟨_, word, c₂, hword, hisWord, hview'⟩ | ⟨⟨e, c₂, hword⟩, hnone⟩
    · refine .inl ⟨bang, word, c₂, ?_, hisBang, hisWord, by rw [hview, hview']⟩
      rw [important, bind_of_ok hbang, bind_of_ok hword]
      rfl
    · refine .inr ⟨⟨e, c₂, ?_⟩, ?_⟩
      · rw [important, bind_of_ok hbang, bind_of_error hword]
      · intro bang' word left _ hword' heq
        rw [hview, List.cons.injEq] at heq
        exact hnone word left hword' heq.2
  · refine .inr ⟨⟨e, c₁, ?_⟩, ?_⟩
    · rw [important, bind_of_error hbang]
    · intro bang word left hbang' _
      exact hnone bang (word :: left) hbang'

private theorem exhausted_after_mark_iff (c : ComponentCursor) :
    (∃ c', (attempt important >>= fun _ => expectExhausted) c = .ok () c') ↔
      EndsSetting (view c) := by
  rcases important_cases c.mark with
    ⟨bang, word, c₁, hmark, hbang, hword, hview⟩ | ⟨⟨e, c₁, hmark⟩, hnone⟩
  · obtain ⟨c₂, htry, hrest⟩ := attempt_of_ok hmark
    rw [view_mark, ← view_congr hrest] at hview
    rw [bind_of_ok htry]
    constructor
    · intro hread
      rcases hread with ⟨c', hread⟩
      refine .inr ⟨bang, word, hbang, hword, ?_⟩
      rw [hview, view_of_expectExhausted hread]
    · intro hends
      apply expectExhausted_of_nil
      rcases hends with hnil | ⟨bang', word', -, -, heq⟩
      · rw [hview] at hnil
        cases hnil
      · rw [hview] at heq
        simpa using congrArg (List.drop 2) heq
  · obtain ⟨c₂, htry, hrest⟩ :=
      attempt_of_error composed_important.recovers (fun _ _ => locates_important) hmark
    have hview := view_congr hrest
    rw [bind_of_ok htry]
    constructor
    · intro hread
      rcases hread with ⟨c', hread⟩
      exact .inl (by rw [← hview, view_of_expectExhausted hread])
    · intro hends
      apply expectExhausted_of_nil
      rcases hends with hnil | ⟨bang, word, hbang, hword, heq⟩
      · rw [hview, hnil]
      · exact absurd heq (hnone bang word [] hbang hword)

/-- A setting is read where a value of the property is and nothing but the mark behind it. -/
theorem setting_eq_ok_iff (resolve : Color.Resolver) (name : String)
    (place : Option Source.Location) (c : ComponentCursor) (s : Setting) :
    (∃ c', setting resolve name place c = .ok s c') ↔
      ∃ (p : Property) (value : p.Value) (c₁ : ComponentCursor), Property.ofName? name = some p ∧
        s = ⟨p, value⟩ ∧ p.readValue resolve c = .ok value c₁ ∧ EndsSetting (view c₁) := by
  cases hname : Property.ofName? name with
  | none =>
    rw [setting_of_none hname]
    constructor
    · rintro ⟨c', ⟨⟩⟩
    · rintro ⟨p, _, _, ⟨⟩, _⟩
  | some p =>
    have hread : settingOf resolve p = p.readValue resolve >>= fun value =>
        (attempt important >>= fun _ => expectExhausted) >>= fun _ => pure ⟨p, value⟩ := by
      simp [settingOf]
    rw [setting_of_some hname, hread]
    constructor
    · intro h
      rcases h with ⟨c', h⟩
      cases hvalue : p.readValue resolve c with
      | error e c₁ =>
        rw [bind_of_error hvalue] at h
        cases h
      | ok value c₁ =>
        rw [bind_of_ok hvalue] at h
        cases hend : (attempt important >>= fun _ => expectExhausted) c₁ with
        | error e c₂ =>
          rw [bind_of_error hend] at h
          cases h
        | ok u c₂ =>
          rw [bind_of_ok hend] at h
          cases h
          exact ⟨p, value, c₁, rfl, rfl, hvalue, (exhausted_after_mark_iff c₁).1 ⟨c', hend⟩⟩
    · rintro ⟨p', value, c₁, hp, rfl, hvalue, hends⟩
      cases hp
      obtain ⟨c', hend⟩ := (exhausted_after_mark_iff c₁).2 hends
      exact ⟨c', by rw [bind_of_ok hvalue, bind_of_ok hend]; rfl⟩

end Styling.ValueReader
