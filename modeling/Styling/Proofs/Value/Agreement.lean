import Styling.Proofs.Component.Outline
import Styling.Proofs.Value.Location
import Styling.Proofs.Value.Recovery

/-!
# What a value depends on

A reader of values passes over white-space and does not ask where a token stands or whether a group is
closed, so of the component values that are left only the outline matters (`view`), and what their texts
denote as colours (`sights`). Nor does it matter what follows, if that begins with something no value but a
colour could have in it: two readings then agree and leave the same before it (`Agree`).
-/

namespace Styling

namespace ValueReader

open Component

/-- What a reader of values takes note of. -/
def view (c : ComponentCursor) : List Component := outline c.rest

@[simp] theorem view_mark (c : ComponentCursor) : view c.mark = view c := rfl

theorem view_ofList (values : List Component) (place : Option Source.Location) :
    view (.ofList values place) = outline values := rfl

theorem view_skipWhite (c : ComponentCursor) : view c.skipWhite = view c := by
  rw [view, view, rest_skipWhite, outline_dropWhile]

theorem rest_eq_of_some {c : ComponentCursor} {v : Component} (h : upcoming? c = some v) :
    c.rest.dropWhile Component.isWhite = v :: (c.skipWhite.advance 1).rest := by
  have hskip := rest_skipWhite c
  have hrest : (c.skipWhite.advance 1).rest = c.skipWhite.rest.tail := by
    rw [ComponentCursor.rest, ComponentCursor.rest, Cursor.rest, Cursor.rest, List.tail_drop]
    rfl
  rw [upcoming?, ← hskip] at h
  rw [hrest, ← hskip]
  cases hcs : c.skipWhite.rest with
  | nil => simp [hcs] at h
  | cons w ws =>
    rw [hcs] at h
    cases h
    rfl

theorem isWhite_of_upcoming? {c : ComponentCursor} {v : Component} (h : upcoming? c = some v) :
    v.isWhite = false := by
  have hhead := List.head?_dropWhile_not Component.isWhite c.rest
  rw [rest_eq_of_some h] at hhead
  simpa using hhead

theorem view_of_some {c : ComponentCursor} {v : Component} (h : upcoming? c = some v) :
    view c = v.bare :: view (c.skipWhite.advance 1) := by
  rw [← view_skipWhite, view, rest_skipWhite, rest_eq_of_some h,
    outline_cons_of_not_white _ (isWhite_of_upcoming? h), view]

/-- The view is that of what is left. -/
theorem view_congr {c d : ComponentCursor} (h : c.rest = d.rest) : view c = view d := by
  rw [view, view, h]

theorem view_eq_nil_iff {c : ComponentCursor} : view c = [] ↔ upcoming? c = none := by
  constructor
  · intro h
    cases hv : upcoming? c with
    | none => rfl
    | some v =>
      rw [view_of_some hv] at h
      cases h
  · intro h
    rw [← view_skipWhite, view, rest_skipWhite, List.head?_eq_none_iff.1 h]
    rfl

/-! ## Sights -/

/-- What a reader takes note of in a component value: what it is, but for places and closing brackets, and
what its text denotes as a colour. -/
def sight (resolve : Color.Resolver) (v : Component) : Component × Except Fault Color.Reference :=
  (v.bare, resolve v.source)

def sights (resolve : Color.Resolver) (cs : List Component) :
    List (Component × Except Fault Color.Reference) :=
  (solid cs).map (sight resolve)

variable {resolve : Color.Resolver}

theorem map_fst_sights (cs : List Component) : (sights resolve cs).map Prod.fst = outline cs := by
  rw [sights, List.map_map]
  rfl

theorem length_sights (cs : List Component) : (sights resolve cs).length = (outline cs).length := by
  rw [← map_fst_sights cs, List.length_map]

theorem sights_append (cs ds : List Component) :
    sights resolve (cs ++ ds) = sights resolve cs ++ sights resolve ds := by
  rw [sights, solid_append, List.map_append, sights, sights]

theorem sights_of_white {cs : List Component} (h : ∀ c ∈ cs, c.isWhite) :
    sights resolve cs = [] := by
  rw [sights, solid_of_white h, List.map_nil]

theorem sights_cons_of_not_white {c : Component} (cs : List Component) (h : c.isWhite = false) :
    sights resolve (c :: cs) = sight resolve c :: sights resolve cs := by
  rw [sights, solid_cons_of_not_white cs h, List.map_cons, sights]

theorem sights_dropWhile (cs : List Component) :
    sights resolve (cs.dropWhile isWhite) = sights resolve cs := by
  rw [sights, solid_dropWhile, sights]

/-- Neither white-space outside of groups nor places are taken note of. -/
theorem sights_ofTokens {ts us : List Token}
    (h : (outerSolid [] ts).map Token.unplaced = (outerSolid [] us).map Token.unplaced) :
    sights resolve (ofTokens ts) = sights resolve (ofTokens us) := by
  have hunplaced : ∀ c : Component, sight resolve c.unplaced = sight resolve c := by
    intro c
    rw [sight, sight, bare_unplaced, source_unplaced]
  have hsights : ∀ ts, sights resolve (ofTokens ts) =
      (ofTokens ((outerSolid [] ts).map Token.unplaced)).map (sight resolve) := by
    intro ts
    rw [sights, ← ofTokens_outerSolid, ofTokens_map_unplaced, List.map_map]
    exact List.map_congr_left fun c _ => (hunplaced c).symm
  rw [hsights, hsights, h]

theorem sights_skipWhite (c : ComponentCursor) :
    sights resolve c.skipWhite.rest = sights resolve c.rest := by
  rw [rest_skipWhite, sights_dropWhile]

theorem sights_of_some {c : ComponentCursor} {v : Component} (h : upcoming? c = some v) :
    sights resolve c.rest = sight resolve v :: sights resolve (c.skipWhite.advance 1).rest := by
  rw [← sights_skipWhite, rest_skipWhite, rest_eq_of_some h,
    sights_cons_of_not_white _ (isWhite_of_upcoming? h)]

theorem sights_eq_nil_iff {c : ComponentCursor} :
    sights resolve c.rest = [] ↔ upcoming? c = none := by
  rw [← view_eq_nil_iff, view, outline, sights, List.map_eq_nil_iff, List.map_eq_nil_iff]

/-- The view is what is seen but for colours. -/
theorem view_eq_append {c d : ComponentCursor} {ending : List Component}
    (h : sights resolve d.rest = sights resolve c.rest ++ ending.map (sight resolve)) :
    view d = view c ++ ending.map bare := by
  have hmap := congrArg (List.map Prod.fst) h
  rw [List.map_append, map_fst_sights, map_fst_sights, List.map_map] at hmap
  exact hmap

/-! ## Agreement -/

/-- Two readings that ended alike, the second before `ending`: with one result and the same left, or
both with an error. The kind of an error is the same only without an ending. -/
def EndAlike (resolve : Color.Resolver) (ending : List Component) :
    EStateM.Result Failure ComponentCursor α → EStateM.Result Failure ComponentCursor α → Prop
  | .ok a c, .ok b d =>
    a = b ∧ sights resolve d.rest = sights resolve c.rest ++ ending.map (sight resolve)
  | .error (.parse e) _, .error (.parse e') _ =>
    ending = [] → e.category = e'.category ∧ e.kind = e'.kind
  | .error (.fault f) _, .error (.fault f') _ => f = f'
  | _, _ => False

theorem EndAlike.of_ok {ending : List Component} {a : α} {c : ComponentCursor}
    {y : EStateM.Result Failure ComponentCursor α} (h : EndAlike resolve ending (.ok a c) y) :
    ∃ d, y = .ok a d ∧ sights resolve d.rest = sights resolve c.rest ++ ending.map (sight resolve) := by
  cases y with
  | ok b d =>
    obtain ⟨rfl, hsights⟩ := h
    exact ⟨d, rfl, hsights⟩
  | error e d => exact h.elim

theorem EndAlike.of_ok_right {ending : List Component} {b : α} {d : ComponentCursor}
    {x : EStateM.Result Failure ComponentCursor α} (h : EndAlike resolve ending x (.ok b d)) :
    ∃ c, x = .ok b c ∧ sights resolve d.rest = sights resolve c.rest ++ ending.map (sight resolve) := by
  cases x with
  | ok a c =>
    obtain ⟨rfl, hsights⟩ := h
    exact ⟨c, rfl, hsights⟩
  | error e c => cases e <;> exact h.elim

/-- Readers that do the same on the same sights, also if there is an ending for the second of them. -/
def Agree (resolve : Color.Resolver) (ending : List Component) (r s : ValueReader α) : Prop :=
  ∀ c d, sights resolve d.rest = sights resolve c.rest ++ ending.map (sight resolve) →
    EndAlike resolve ending (r c) (s d)

/-- A reader that finds no value anywhere. -/
def Refuses (r : ValueReader α) : Prop := ∀ c, ∃ e c', r c = .error (.parse e) c'

/-- Whether something ends every value that stands before it, but for a colour. -/
def EndsValue (v : Component) : Prop := isBang v ∨ v.isBraceBlock

variable {α β : Type} {ending : List Component} {r s : ValueReader α} {f g : α → ValueReader β}

theorem refuses_fail (e : ParseError) : Refuses (fail e : ValueReader α) := fun _ => ⟨_, _, rfl⟩

theorem agree_pure (a : α) : Agree resolve ending (pure a) (pure a) := fun _ _ h => ⟨rfl, h⟩

theorem agree_fail {e e' : ParseError} (hcategory : e.category = e'.category)
    (hkind : e.kind = e'.kind) : Agree resolve ending (fail e : ValueReader α) (fail e') :=
  fun _ _ _ _ => ⟨hcategory, hkind⟩

theorem Agree.bind (h : Agree resolve ending r s) (hf : ∀ a, Agree resolve ending (f a) (g a)) :
    Agree resolve ending (r >>= f) (s >>= g) := by
  intro c d hview
  have hfirst := h c d hview
  cases hr : r c with
  | ok a c' =>
    cases hs : s d with
    | ok b d' =>
      rw [hr, hs] at hfirst
      obtain ⟨rfl, hview'⟩ := hfirst
      rw [bind_of_ok hr, bind_of_ok hs]
      exact hf a c' d' hview'
    | error e d' =>
      rw [hr, hs] at hfirst
      exact hfirst.elim
  | error e c' =>
    cases hs : s d with
    | ok b d' =>
      rw [hr, hs] at hfirst
      cases e <;> exact hfirst.elim
    | error e' d' =>
      rw [hr, hs] at hfirst
      rw [bind_of_error hr, bind_of_error hs]
      cases e <;> cases e' <;> exact hfirst

/-- The places that are reported differ, so what is done with them must not depend on them. -/
theorem agree_location_bind {f g : Option Source.Location → ValueReader α}
    (h : ∀ place place', Agree resolve ending (f place) (g place')) :
    Agree resolve ending (location >>= f) (location >>= g) := by
  intro c d hview
  obtain ⟨place, hplace⟩ := location_eq c
  obtain ⟨place', hplace'⟩ := location_eq d
  rw [bind_of_ok hplace, bind_of_ok hplace']
  exact h place place' _ _ (by rw [sights_skipWhite, sights_skipWhite, hview])

/-- Readers of one component value end alike if they do on any, and the second refuses what the ending
begins with where there is nothing in front of it. -/
theorem endAlike_next_bind {f g : Component → ValueReader α} {c d : ComponentCursor}
    (hsights : sights resolve d.rest = sights resolve c.rest ++ ending.map (sight resolve))
    (h : ∀ v w, sight resolve v = sight resolve w → Agree resolve ending (f v) (g w))
    (hend : upcoming? c = none → ∀ v, ∀ e ∈ ending.head?, v.bare = e.bare → Refuses (g v)) :
    EndAlike resolve ending ((next >>= f) c) ((next >>= g) d) := by
  cases hc : upcoming? c with
  | some v =>
    cases hd : upcoming? d with
    | some w =>
      rw [sights_of_some hc, sights_of_some hd, List.cons_append, List.cons.injEq] at hsights
      rw [bind_of_ok (next_of_some hc), bind_of_ok (next_of_some hd)]
      exact h v w hsights.1.symm _ _ hsights.2
    | none =>
      rw [sights_of_some hc, sights_eq_nil_iff.2 hd] at hsights
      cases hsights
  | none =>
    have herror : next c = .error (.parse ⟨.general, .endOfInput, c.endLocation, none⟩) c.skipWhite := by
      rw [next, bind_of_ok (peek_eq c), hc]
      rfl
    rw [bind_of_error herror]
    rw [sights_eq_nil_iff.2 hc, List.nil_append] at hsights
    cases hd : upcoming? d with
    | some w =>
      rw [sights_of_some hd, eq_comm, List.map_eq_cons_iff] at hsights
      obtain ⟨e, left, rfl, he, -⟩ := hsights
      obtain ⟨error, d', hrefuse⟩ :=
        hend hc w e rfl (congrArg Prod.fst he).symm (d.skipWhite.advance 1)
      rw [bind_of_ok (next_of_some hd), hrefuse]
      intro hnil
      cases hnil
    | none =>
      have herror' : next d =
          .error (.parse ⟨.general, .endOfInput, d.endLocation, none⟩) d.skipWhite := by
        rw [next, bind_of_ok (peek_eq d), hd]
        rfl
      rw [bind_of_error herror']
      exact fun _ => ⟨rfl, rfl⟩

/-- Readers of one component value agree if they do on any, and the second refuses what the ending
begins with. -/
theorem agree_next_bind {f g : Component → ValueReader α}
    (h : ∀ v w, sight resolve v = sight resolve w → Agree resolve ending (f v) (g w))
    (hend : ∀ v, ∀ e ∈ ending.head?, v.bare = e.bare → Refuses (g v)) :
    Agree resolve ending (next >>= f) (next >>= g) :=
  fun _ _ hsights => endAlike_next_bind hsights h fun _ => hend

/-- A try that succeeds leaves what is left after it. -/
theorem attempt_of_ok {c c' : ComponentCursor} {a : α} (h : r c.mark = .ok a c') :
    ∃ d, attempt r c = .ok (some a) d ∧ d.rest = c'.rest := by
  have hrest : c'.discardMark.rest = c'.rest := by
    simp only [ComponentCursor.discardMark, Cursor.discardMark, Cursor.discardMark?,
      ComponentCursor.rest, Cursor.rest]
    split <;> rfl
  exact ⟨c'.discardMark, by rw [attempt, h], hrest⟩

/-- Where a try fails, it goes back to what was there before. -/
theorem attempt_of_error {c c' : ComponentCursor} {e : ParseError} (hmarks : Recovers True r)
    (hitems : ∀ values last, Locates values last (fun _ => True) r)
    (h : r c.mark = .error (.parse e) c') :
    ∃ d, attempt r c = .ok none d ∧ d.rest = c.rest := by
  have hkept := hmarks c.mark
  have hover := hitems c.cursor.items c.endLocation c.mark ⟨rfl, rfl⟩
  rw [h] at hkept hover
  have hmarks' : c'.cursor.marks = c.cursor.index :: c.cursor.marks := hkept
  have hrest : c'.restoreMark.rest = c.rest := by
    simp [ComponentCursor.restoreMark, Cursor.restoreMark, Cursor.restoreMark?, hmarks',
      ComponentCursor.rest, Cursor.rest, hover.1.items_eq]
  exact ⟨c'.restoreMark, by rw [attempt, h], hrest⟩

theorem Agree.attempt (h : Agree resolve ending r r) (hmarks : Recovers True r)
    (hitems : ∀ values last, Locates values last (fun _ => True) r) :
    Agree resolve ending (attempt r) (attempt r) := by
  intro c d hsights
  have hfirst := h c.mark d.mark hsights
  cases hc : r c.mark with
  | ok a c' =>
    obtain ⟨c₂, htry, hrest⟩ := attempt_of_ok hc
    cases hd : r d.mark with
    | ok b d' =>
      obtain ⟨d₂, htry', hrest'⟩ := attempt_of_ok hd
      rw [hc, hd] at hfirst
      rw [htry, htry']
      exact ⟨congrArg some hfirst.1, by rw [hrest', hrest, hfirst.2]⟩
    | error e d' =>
      rw [hc, hd] at hfirst
      exact hfirst.elim
  | error e c' =>
    cases hd : r d.mark with
    | ok b d' =>
      rw [hc, hd] at hfirst
      cases e <;> exact hfirst.elim
    | error e' d' =>
      rw [hc, hd] at hfirst
      cases e with
      | fault e =>
        rw [ValueReader.attempt, ValueReader.attempt, hc, hd]
        cases e' <;> exact hfirst
      | parse e =>
        cases e' with
        | fault e' => exact hfirst.elim
        | parse e' =>
          obtain ⟨c₂, htry, hrest⟩ := attempt_of_error hmarks hitems hc
          obtain ⟨d₂, htry', hrest'⟩ := attempt_of_error hmarks hitems hd
          rw [htry, htry']
          exact ⟨rfl, by rw [hrest', hrest, hsights]⟩

/-! ## What readers are made of -/

theorem agree_unexpected {category : ParseError.Category} {v w : Component}
    (h : v.bare = w.bare) (place place' : Option Source.Location) :
    Agree resolve ending (fail (unexpected category v place) : ValueReader α)
      (fail (unexpected category w place')) := by
  refine agree_fail (by rfl) ?_
  rcases cases_of_bare_eq h with ⟨kind, _, _, _, rfl, rfl⟩ |
    ⟨kind, _, _, _, _, _, _, _, rfl, rfl, -⟩
  · cases kind with
    | closing bracket => cases bracket <;> rfl
    | _ => rfl
  · cases kind <;> rfl

theorem agree_refuse {v w : Component} (h : v.bare = w.bare)
    (place place' : Option Source.Location) :
    Agree resolve ending (refuse v place : ValueReader α) (refuse w place') := by
  have hplain : Agree resolve ending (fail (unexpected .value v place) : ValueReader α)
      (fail (unexpected .value w place')) := agree_unexpected h place place'
  rcases cases_of_bare_eq h with ⟨kind, _, _, _, rfl, rfl⟩ |
    ⟨kind, _, _, _, _, _, _, _, rfl, rfl, -⟩
  · exact hplain
  · cases kind with
    | function name => exact agree_fail rfl rfl
    | _ => exact hplain

theorem agree_finite (value : Number.Value) (source : String)
    (place place' : Option Source.Location) :
    Agree resolve ending (finite value source place) (finite value source place') := by
  have hcheck : ∀ x : Float, Agree resolve ending
      (if x.isFinite then pure x
        else fail (.ofCategory .value place (some (source ++ " is out of range"))))
      (if x.isFinite then pure x
        else fail (.ofCategory .value place' (some (source ++ " is out of range")))) := by
    intro x
    by_cases hx : x.isFinite
    · simp only [hx, if_true]
      exact agree_pure x
    · simp only [hx]
      exact agree_fail rfl rfl
  cases value with
  | integer n => exact hcheck _
  | real x => exact hcheck x

theorem agree_expectPermitted (range : Range) (x : Float) (source : String)
    (place place' : Option Source.Location) :
    Agree resolve ending (expectPermitted range x source place) (expectPermitted range x source place') := by
  unfold expectPermitted
  by_cases hx : range.permits x
  · simp only [hx, if_true]
    exact agree_pure _
  · simp only [hx]
    exact agree_fail rfl rfl

/-- A bang or a block is no number, keyword or name. -/
theorem EndsValue.cases {v : Component} (h : EndsValue v) :
    (∃ source location, v = token ⟨.delim '!', source, location⟩) ∨
      ∃ source location contents closing,
        v = group ⟨.opening .brace, source, location⟩ contents closing := by
  rcases h with h | h
  · unfold isBang at h
    split at h
    · exact .inl ⟨_, _, rfl⟩
    · contradiction
  · unfold isBraceBlock at h
    split at h
    · exact .inr ⟨_, _, _, _, rfl⟩
    · contradiction

/-- What `lengthOrPercentage` makes of a component value. -/
def lengthOrPercentageOf (range : Range) (allowPercentage : Bool)
    (place : Option Source.Location) (value : Component) : ValueReader LengthPercentage :=
  match value with
  | .token ⟨.dimension value unit _ _, source, _⟩ => do
    let x ← finite value source place
    expectPermitted range x source place
    match Length.ofDimension unit x with
    | .ok l => return .length l
    | .error e => fail { e with location := place }
  | .token ⟨.number value _ _, source, _⟩ => do
    let x ← finite value source place
    expectPermitted range x source place
    if x != 0 then fail ⟨.value, .missingDimension, place, some source⟩
    return .length .zero
  | .token ⟨.percentage n s, source, location⟩ =>
    if allowPercentage then do
      let x := (← finite n source place) / 100
      expectPermitted range x source place
      return .percentage (.ofValue x)
    else refuse (.token ⟨.percentage n s, source, location⟩) place
  | value => refuse value place

private theorem skipWhite_skipWhite (c : ComponentCursor) : c.skipWhite.skipWhite = c.skipWhite := by
  have hnone : c.skipWhite.rest.takeWhile Component.isWhite = [] := by
    have hhead := List.head?_dropWhile_not Component.isWhite c.rest
    rw [rest_skipWhite]
    cases hcs : c.rest.dropWhile Component.isWhite with
    | nil => rfl
    | cons v vs =>
      rw [hcs] at hhead
      exact List.takeWhile_cons_of_neg (by simpa using hhead)
  conv => lhs; rw [ComponentCursor.skipWhite, hnone]
  rfl

private theorem location_skipWhite (c : ComponentCursor) : location c.skipWhite = location c := by
  rw [location, bind_of_ok (peek_eq c), bind_of_ok (peek_eq c.skipWhite), upcoming?_skipWhite,
    skipWhite_skipWhite]

theorem lengthOrPercentage_eq (range : Range) (allowPercentage : Bool) :
    lengthOrPercentage range allowPercentage =
      (do
        let place ← location
        lengthOrPercentageOf range allowPercentage place (← next)) := by
  funext c
  obtain ⟨place, hplace⟩ := location_eq c
  have hagain : location c.skipWhite = .ok place c.skipWhite := by rw [location_skipWhite, hplace]
  have hv := upcoming?_skipWhite c
  rw [lengthOrPercentage, bind_of_ok hplace, bind_of_ok (peek_eq _), skipWhite_skipWhite,
    bind_of_ok hplace, hv]
  cases hc : upcoming? c with
  | none =>
    rw [hc] at hv
    obtain ⟨e, c', hnext⟩ := next_of_none hv
    rw [bind_of_error hnext]
    exact bind_of_error hnext
  | some v =>
    rw [hc] at hv
    have hnext := next_of_some hv
    rw [bind_of_ok hnext]
    have hrefuse : (do refuse (← next) place : ValueReader LengthPercentage) c.skipWhite =
        refuse v place (c.skipWhite.skipWhite.advance 1) := bind_of_ok hnext
    cases v with
    | group head contents closing => exact hrefuse
    | token t =>
      rcases t with ⟨kind, source, where_⟩
      cases kind with
      | dimension value unit sign form => exact bind_of_ok hnext
      | number value sign form => exact bind_of_ok hnext
      | percentage value sign =>
        cases allowPercentage with
        | false => exact hrefuse
        | true =>
          have hread : (do return .percentage (← percentage range) : ValueReader LengthPercentage)
              c.skipWhite = lengthOrPercentageOf range true place
                (.token ⟨.percentage value sign, source, where_⟩) (c.skipWhite.skipWhite.advance 1) := by
            rw [percentage, bind_assoc, bind_of_ok hagain, bind_assoc, bind_of_ok hnext]
            simp only [bind_assoc, pure_bind]
            rfl
          exact hread
      | _ => exact hrefuse

theorem agree_sided (h : Agree resolve ending r r) (hr : Recovers True r)
    (hr' : ∀ values last, Locates values last (fun _ => True) r) :
    Agree resolve ending (sided r) (sided r) := by
  have htry := h.attempt hr hr'
  refine h.bind fun top => htry.bind fun right => ?_
  cases right with
  | none => exact agree_pure _
  | some right =>
    apply htry.bind
    intro bottom
    cases bottom with
    | none => exact agree_pure _
    | some bottom => exact htry.bind fun _ => agree_pure _

section Ending

variable (hending : ∀ v ∈ ending.head?, EndsValue v)

include hending

/-- Readers of one component value agree if they do on tokens and on groups, and the second refuses a bang
and a block. -/
theorem agree_value_bind {f g : Component → ValueReader α}
    (token : ∀ kind source place place', Agree resolve ending (f (.token ⟨kind, source, place⟩))
      (g (.token ⟨kind, source, place'⟩)))
    (group : ∀ head head' contents contents' closing closing',
      (group head contents closing).bare = (Component.group head' contents' closing').bare →
        Agree resolve ending (f (.group head contents closing)) (g (.group head' contents' closing')))
    (bang : ending ≠ [] → ∀ source location, Refuses (g (.token ⟨.delim '!', source, location⟩)))
    (block : ∀ source location contents closing,
      Refuses (g (.group ⟨.opening .brace, source, location⟩ contents closing))) :
    Agree resolve ending (next >>= f) (next >>= g) := by
  apply agree_next_bind
  · intro v w hsight
    have h : v.bare = w.bare := congrArg Prod.fst hsight
    rcases cases_of_bare_eq h with ⟨kind, source, place, place', rfl, rfl⟩ |
      ⟨kind, source, place, place', cs, ds, closing, closing', rfl, rfl, -⟩
    · exact token kind source place place'
    · exact group _ _ cs ds closing closing' h
  · intro v e he hbare
    have hends : EndsValue v := by
      rw [EndsValue, ← isBang_bare, ← isBraceBlock_bare, hbare, isBang_bare, isBraceBlock_bare]
      exact hending e he
    rcases hends.cases with ⟨source, location, rfl⟩ | ⟨source, location, contents, closing, rfl⟩
    · have hne : ending ≠ [] := by
        rintro rfl
        cases he
      exact bang hne source location
    · exact block source location contents closing

theorem agree_expectIdent : Agree resolve ending expectIdent expectIdent := by
  apply agree_value_bind hending
  case token =>
    intro kind source _ _
    cases kind with
    | ident name => exact agree_pure name
    | _ => exact agree_unexpected bare_token_congr none none
  case group => exact fun _ _ _ _ _ _ h => agree_unexpected h none none
  case bang => exact fun _ _ _ => refuses_fail _
  case block => exact fun _ _ _ _ => refuses_fail _

theorem agree_expectIdentMatching (name : String) :
    Agree resolve ending (expectIdentMatching name) (expectIdentMatching name) := by
  refine agree_location_bind fun place place' => (agree_expectIdent hending).bind fun ident => ?_
  by_cases h : Text.eqIgnoringAsciiCase ident name
  · simp only [h, if_true]
    exact agree_pure ident
  · simp only [h]
    exact agree_fail rfl rfl

theorem agree_expectDelim {delim : String} (h : ending ≠ [] → delim ≠ "!") :
    Agree resolve ending (expectDelim delim) (expectDelim delim) := by
  apply agree_value_bind hending
  case token =>
    intro kind source _ _
    cases kind with
    | delim c =>
      by_cases hc : String.singleton c == delim
      · simp only [hc, if_true]
        exact agree_pure delim
      · simp only [hc]
        exact agree_unexpected bare_token_congr none none
    | _ => exact agree_unexpected bare_token_congr none none
  case group => exact fun _ _ _ _ _ _ h => agree_unexpected h none none
  case bang =>
    intro hne source location
    have hsingle : String.singleton '!' = "!" := rfl
    have hbang : (String.singleton '!' == delim) = false := by simpa [hsingle] using (h hne).symm
    simp only [hbang]
    exact refuses_fail _
  case block => exact fun _ _ _ _ => refuses_fail _

theorem agree_number (range : Range) : Agree resolve ending (number range) (number range) := by
  apply agree_location_bind
  intro place place'
  apply agree_value_bind hending
  case token =>
    intro kind source _ _
    cases kind with
    | number value sign form =>
      exact (agree_finite value source place place').bind fun x =>
        (agree_expectPermitted range x source place place').bind fun _ => agree_pure x
    | _ => exact agree_refuse bare_token_congr place place'
  case group => exact fun _ _ _ _ _ _ h => agree_refuse h place place'
  case bang => exact fun _ _ _ => refuses_fail _
  case block => exact fun _ _ _ _ => refuses_fail _

theorem agree_nonNegativeNumber : Agree resolve ending nonNegativeNumber nonNegativeNumber :=
  (agree_number hending _).bind fun _ => agree_pure _

theorem agree_keyword (α : Type) [Keyword α] : Agree resolve ending (keyword α) (keyword α) := by
  apply agree_location_bind
  intro place place'
  apply agree_value_bind hending
  case token =>
    intro kind source _ _
    cases kind with
    | ident name =>
      cases hk : Keyword.ofText? α (Text.asciiLower name) with
      | some k =>
        simp only [hk]
        exact agree_pure k
      | none =>
        simp only [hk]
        exact agree_fail rfl rfl
    | _ => exact agree_unexpected bare_token_congr place place'
  case group => exact fun _ _ _ _ _ _ h => agree_unexpected h place place'
  case bang => exact fun _ _ _ => refuses_fail _
  case block => exact fun _ _ _ _ => refuses_fail _

theorem agree_lengthOrPercentage (range : Range) (allowPercentage : Bool) :
    Agree resolve ending (lengthOrPercentage range allowPercentage)
      (lengthOrPercentage range allowPercentage) := by
  rw [lengthOrPercentage_eq]
  apply agree_location_bind
  intro place place'
  apply agree_value_bind hending
  case token =>
    intro kind source location location'
    have hrefuse : Agree resolve ending
        (refuse (.token ⟨kind, source, location⟩) place : ValueReader LengthPercentage)
        (refuse (.token ⟨kind, source, location'⟩) place') := agree_refuse bare_token_congr place place'
    cases kind with
    | dimension value unit sign form =>
      refine (agree_finite value source place place').bind fun x => ?_
      apply (agree_expectPermitted range x source place place').bind
      intro _
      cases Length.ofDimension unit x with
      | ok l => exact agree_pure _
      | error e => exact agree_fail rfl rfl
    | number value sign form =>
      refine (agree_finite value source place place').bind fun x => ?_
      apply (agree_expectPermitted range x source place place').bind
      intro _
      by_cases hx : x != 0
      · simp only [hx, if_true]
        have hfail : Agree resolve ending
            (fail ⟨.value, .missingDimension, place, some source⟩ : ValueReader PUnit)
            (fail ⟨.value, .missingDimension, place', some source⟩) := agree_fail rfl rfl
        exact hfail.bind fun _ => agree_pure _
      · simp only [hx]
        exact agree_pure _
    | percentage value sign =>
      cases allowPercentage with
      | false => exact hrefuse
      | true =>
        exact (agree_finite value source place place').bind fun x =>
          (agree_expectPermitted range (x / 100) source place place').bind fun _ => agree_pure _
    | _ => exact hrefuse
  case group => exact fun _ _ _ _ _ _ h => agree_refuse h place place'
  case bang => exact fun _ _ _ => refuses_fail _
  case block => exact fun _ _ _ _ => refuses_fail _

theorem agree_orAuto (h : Agree resolve ending r r) : Agree resolve ending (orAuto r) (orAuto r) := by
  have hword : Agree resolve ending (expectIdentMatching "auto") (expectIdentMatching "auto") :=
    agree_expectIdentMatching hending "auto"
  have hauto := hword.attempt (composed_expectIdentMatching _).recovers
    fun _ _ => locates_expectIdentMatching _
  apply hauto.bind
  intro found
  cases found with
  | none => exact h.bind fun _ => agree_pure _
  | some _ => exact agree_pure _

theorem agree_lengthPercentageOrAuto :
    Agree resolve ending lengthPercentageOrAuto lengthPercentageOrAuto :=
  agree_orAuto hending (agree_lengthOrPercentage hending _ _)

theorem agree_ratio : Agree resolve ending ratio ratio := by
  have hdelim : Agree resolve ending (expectDelim "/") (expectDelim "/") :=
    agree_expectDelim hending fun _ => by decide
  have hslash := hdelim.attempt (composed_expectDelim _).recovers fun _ _ => locates_expectDelim _
  apply (agree_nonNegativeNumber hending).bind
  intro antecedent
  apply hslash.bind
  intro slash
  cases slash with
  | none => exact agree_pure _
  | some _ => exact (agree_nonNegativeNumber hending).bind fun _ => agree_pure _

/-- The value of a property other than a colour is read alike from the same sights, whatever follows that
no such value has in it. -/
theorem agree_readValue_of_ne_color {p : Property} (hp : p ≠ .color) :
    Agree resolve ending (p.readValue resolve) (p.readValue resolve) := by
  cases p with
  | color => exact absurd rfl hp
  | extent | inset | flexBasis | edge => exact agree_lengthPercentageOrAuto hending
  | edges =>
    exact agree_sided (agree_lengthPercentageOrAuto hending) composed_lengthPercentageOrAuto.recovers
      fun _ _ => locates_lengthPercentageOrAuto
  | flexGrow | flexShrink => exact agree_nonNegativeNumber hending
  | aspectRatio => exact agree_orAuto hending (agree_ratio hending)
  | _ => exact agree_keyword hending _

end Ending

/-! ## Colours -/

/-- Any component value may be a colour, so nothing ends one, but if there is one it is read alike whatever
follows. -/
theorem endAlike_color {c d : ComponentCursor}
    (hsights : sights resolve d.rest = sights resolve c.rest ++ ending.map (sight resolve))
    (hnone : upcoming? c = none → ending = []) :
    EndAlike resolve ending (color resolve c) (color resolve d) := by
  obtain ⟨place, hplace⟩ := location_eq c
  obtain ⟨place', hplace'⟩ := location_eq d
  rw [color, bind_of_ok hplace, bind_of_ok hplace']
  apply endAlike_next_bind
  · rw [sights_skipWhite, sights_skipWhite, hsights]
  · intro v w hsight
    have hresolve : resolve v.source = resolve w.source := congrArg Prod.snd hsight
    simp only [hresolve]
    cases resolve w.source with
    | error f => exact fun _ _ _ => rfl
    | ok reference =>
      cases reference with
      | color c => exact agree_pure c
      | current => exact agree_fail rfl rfl
      | unknown => exact agree_fail rfl rfl
  · intro hupcoming v e he
    rw [hnone (by rw [← upcoming?_skipWhite, hupcoming])] at he
    cases he

/-- A colour is taken from the front of what is left. -/
theorem view_of_color_eq_ok {c c' : ComponentCursor} {x : Color} (h : color resolve c = .ok x c') :
    ∃ v, view c = v :: view c' := by
  obtain ⟨place, hplace⟩ := location_eq c
  rw [color, bind_of_ok hplace] at h
  rw [← view_skipWhite]
  cases hv : upcoming? c.skipWhite with
  | none =>
    obtain ⟨e, c₁, hnext⟩ := next_of_none hv
    rw [bind_of_error hnext] at h
    cases h
  | some v =>
    rw [bind_of_ok (next_of_some hv)] at h
    refine ⟨v.bare, ?_⟩
    rw [view_of_some hv]
    cases hresolve : resolve v.source with
    | error f =>
      simp only [hresolve] at h
      cases h
    | ok reference =>
      simp only [hresolve] at h
      cases reference <;> cases h
      rfl

/-! ## Settings -/

theorem endsValue_nil : ∀ v ∈ ([] : List Component).head?, EndsValue v := by simp

/-- The value of a property is read alike from the same sights, whatever follows that no value but a colour
has in it. -/
theorem endAlike_readValue (hending : ∀ v ∈ ending.head?, EndsValue v) {p : Property}
    {c d : ComponentCursor}
    (hsights : sights resolve d.rest = sights resolve c.rest ++ ending.map (sight resolve))
    (hnone : p = .color → upcoming? c = none → ending = []) :
    EndAlike resolve ending (p.readValue resolve c) (p.readValue resolve d) := by
  by_cases hp : p = .color
  · subst hp
    exact endAlike_color hsights (hnone rfl)
  · exact agree_readValue_of_ne_color hending hp c d hsights

theorem agree_readValue (p : Property) :
    Agree resolve [] (p.readValue resolve) (p.readValue resolve) :=
  fun _ _ hsights => endAlike_readValue endsValue_nil hsights fun _ _ => rfl

theorem agree_important : Agree resolve [] important important :=
  (agree_expectDelim endsValue_nil (by simp)).bind fun _ =>
    (agree_expectIdentMatching endsValue_nil _).bind fun _ => agree_pure _

theorem agree_expectExhausted : Agree resolve [] expectExhausted expectExhausted := by
  intro c d hsights
  rw [List.map_nil, List.append_nil] at hsights
  rw [expectExhausted, bind_of_ok (peek_eq c), bind_of_ok (peek_eq d)]
  cases hc : upcoming? c with
  | none =>
    rw [sights_eq_nil_iff.2 hc] at hsights
    rw [sights_eq_nil_iff.1 hsights]
    refine ⟨rfl, ?_⟩
    rw [sights_skipWhite, sights_skipWhite, hsights, sights_eq_nil_iff.2 hc]
    rfl
  | some v =>
    cases hd : upcoming? d with
    | none =>
      rw [sights_eq_nil_iff.2 hd, sights_of_some hc] at hsights
      cases hsights
    | some w => exact fun _ => ⟨rfl, rfl⟩

/-- Settings are read alike from the same sights, wherever their names stand. -/
theorem agree_setting (name : String) (place place' : Option Source.Location) :
    Agree resolve [] (setting resolve name place) (setting resolve name place') := by
  cases hname : Property.ofName? name with
  | none =>
    rw [setting_of_none hname, setting_of_none hname]
    exact agree_fail rfl rfl
  | some p =>
    have hmark : Agree resolve [] important important := agree_important
    have hattempt := hmark.attempt composed_important.recovers fun _ _ => locates_important
    rw [setting_of_some hname, setting_of_some hname]
    refine (agree_readValue p).bind fun value => hattempt.bind fun _ => ?_
    exact agree_expectExhausted.bind fun _ => agree_pure _

end ValueReader

end Styling
