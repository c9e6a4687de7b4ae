import Mathlib
import Styling.Proofs.Component.Closed
import Styling.Proofs.Rule.StreamReader
import Styling.Proofs.Stylesheet.Break

/-!
# Declarations do not depend on what follows their semicolon

Whatever is read at the front of component values that end with a semicolon, be it a declaration, an
at-rule or something malformed, ends with that semicolon or before it. So more input behind the
semicolon adds items and changes none of those there are (`Item.ofComponents_append_of_endsItem`).
-/

namespace Styling

open Component

/-- Nothing, or component values the last of which is a semicolon. -/
def EndsItem (cs : List Component) : Prop := ∀ c ∈ cs.getLast?, c.isSemicolon

theorem EndsItem.of_isSuffix {cs ds : List Component} (h : EndsItem cs) (hs : ds <:+ cs) :
    EndsItem ds := by
  intro c hc
  obtain ⟨front, rfl⟩ := hs
  have hne : ds ≠ [] := by
    rintro rfl
    cases hc
  exact h c (by rwa [List.getLast?_append_of_ne_nil _ hne])

theorem EndsItem.exists_mem {cs : List Component} (h : EndsItem cs) (hne : cs ≠ []) :
    ∃ c ∈ cs, c.isSemicolon :=
  ⟨cs.getLast hne, List.getLast_mem hne, h _ (List.getLast?_eq_some_getLast hne)⟩

/-- A run that a semicolon ends is ended within component values that end with one. -/
private theorem splitRun_append_of_endsItem {p : Component → Bool} {cs : List Component}
    (ds : List Component) (h : EndsItem cs) (hne : cs ≠ [])
    (hp : ∀ c : Component, c.isSemicolon → p c = false) :
    (splitRun p cs).2 ≠ [] ∧
      splitRun p (cs ++ ds) = ((splitRun p cs).1, (splitRun p cs).2 ++ ds) := by
  have hrest : (splitRun p cs).2 ≠ [] := by
    intro hnil
    obtain ⟨c, hc, hsemi⟩ := h.exists_mem hne
    have hrun := List.dropWhile_eq_nil_iff.1 hnil c hc
    rw [hp c hsemi] at hrun
    contradiction
  exact ⟨hrest, splitRun_append_right ds fun hnil => absurd hnil hrest⟩

theorem isWhite_eq_false_of_isSemicolon {c : Component} (h : c.isSemicolon) : c.isWhite = false := by
  cases c with
  | token t =>
    rcases t with ⟨kind, source, location⟩
    cases kind <;> first | rfl | cases h
  | group => rfl

theorem isColon_eq_false_of_isSemicolon {kind : TokenKind} (h : kind.isSemicolon) :
    kind.isColon = false := by
  cases kind <;> first | rfl | cases h

theorem AtRule.take_append_of_endsItem (nested : Bool) (keyword : Token) {cs : List Component}
    (ds : List Component) (h : EndsItem cs) (hne : cs ≠ []) : take nested keyword (cs ++ ds) =
      ((take nested keyword cs).1, (take nested keyword cs).2 ++ ds) := by
  obtain ⟨hrest, hsplit⟩ := splitRun_append_of_endsItem (p := (!endsPrelude nested ·)) ds h hne
    (fun c hc => by simp [endsPrelude, hc])
  simp only [take, hsplit]
  cases hcs : (splitRun (!endsPrelude nested ·) cs).2 with
  | nil => exact absurd hcs hrest
  | cons c rest => by_cases hc : nested && c.isStrayBrace <;> simp [hc]

/-- A declaration, or that there is none, is found out in front of the semicolon. -/
theorem Declaration.take?_append_of_endsItem (nested : Bool) (c : Component) {cs : List Component}
    (ds : List Component) (h : EndsItem cs) (hne : cs ≠ []) : take? nested (c :: (cs ++ ds)) =
      (take? nested (c :: cs)).map fun (d, rest) => (d, rest ++ ds) := by
  have hwhite := fun (cs : List Component) (h : EndsItem cs) (hne : cs ≠ []) =>
    splitRun_append_of_endsItem (p := Component.isWhite) ds h hne
      (fun c hc => isWhite_eq_false_of_isSemicolon hc)
  have hbody := fun (cs : List Component) (h : EndsItem cs) (hne : cs ≠ []) =>
    splitRun_append_of_endsItem (p := (!endsDeclaration nested ·)) ds h hne
      (fun c hc => by simp [endsDeclaration, hc])
  cases c with
  | group => rfl
  | token name =>
    obtain ⟨hrest, hname⟩ := hwhite cs h hne
    have hends : EndsItem (splitRun Component.isWhite cs).2 :=
      h.of_isSuffix (isSuffix_splitRun Component.isWhite cs)
    simp only [take?, hname]
    cases name.kind with
    | ident _ =>
      cases hcs : (splitRun Component.isWhite cs).2 with
      | nil => exact absurd hcs hrest
      | cons c rest =>
        rw [hcs] at hends
        cases c with
        | group => rfl
        | token colon =>
          by_cases hcolon : colon.kind.isColon
          · -- The colon is not the last of them, so the semicolon is still ahead.
            have hne : rest ≠ [] := by
              rintro rfl
              have hsemi : colon.kind.isSemicolon := hends _ rfl
              rw [isColon_eq_false_of_isSemicolon hsemi] at hcolon
              contradiction
            have hends := hends.of_isSuffix (List.suffix_cons _ rest)
            obtain ⟨hrest, hvalue⟩ := hwhite rest hends hne
            have hends := hends.of_isSuffix (isSuffix_splitRun Component.isWhite rest)
            obtain ⟨-, hbody⟩ := hbody _ hends hrest
            simp only [List.cons_append, hcolon, hvalue, hbody, if_true]
            split <;> rfl
          · simp [hcolon]
    | _ => rfl

namespace Item

theorem takeMalformed_append_of_endsItem (nested : Bool) {cs : List Component}
    (ds : List Component) (h : EndsItem cs) (hne : cs ≠ []) : takeMalformed nested (cs ++ ds) =
      ((takeMalformed nested cs).1, (takeMalformed nested cs).2 ++ ds) := by
  obtain ⟨hrest, hsplit⟩ := splitRun_append_of_endsItem (p := (!endsDeclaration nested ·)) ds h hne
    (fun c hc => by simp [endsDeclaration, hc])
  simp only [takeMalformed, hsplit]
  cases hcs : (splitRun (!endsDeclaration nested ·) cs).2 with
  | nil => exact absurd hcs hrest
  | cons c rest => by_cases hc : c.isSemicolon <;> simp [hc]

private theorem takeDeclaration_append_of_endsItem (nested : Bool) (c : Component)
    {cs : List Component} (ds : List Component) (h : EndsItem cs) (hne : cs ≠ []) :
    takeDeclaration nested c (cs ++ ds) =
      ((takeDeclaration nested c cs).1, (takeDeclaration nested c cs).2 ++ ds) := by
  simp only [takeDeclaration, Declaration.take?_append_of_endsItem nested c ds h hne,
    takeMalformed_append_of_endsItem nested ds h hne]
  cases Declaration.take? nested (c :: cs) <;> rfl

/-- Reading an item does not look past the semicolon that comes last. -/
theorem take_append_of_endsItem (nested : Bool) {c : Component} {cs : List Component}
    (ds : List Component) (h : EndsItem (c :: cs)) : take nested c (cs ++ ds) =
      ((take nested c cs).1, (take nested c cs).2 ++ ds) := by
  have hcs := h.of_isSuffix (List.suffix_cons c cs)
  cases c with
  | group head contents closing =>
    have hne : cs ≠ [] := by
      rintro rfl
      cases h _ rfl
    exact takeDeclaration_append_of_endsItem nested (.group head contents closing) ds hcs hne
  | token t =>
    simp only [take]
    by_cases hloose : t.isWhite || t.kind.isSemicolon
    · simp only [if_pos hloose]
    · have hne : cs ≠ [] := by
        rintro rfl
        have hsemi : t.kind.isSemicolon := h _ rfl
        simp [hsemi] at hloose
      simp only [if_neg hloose, AtRule.take_append_of_endsItem nested t ds hcs hne,
        takeDeclaration_append_of_endsItem nested _ ds hcs hne]
      cases t.kind <;> rfl

/-- The items of component values that end with a semicolon stay as they are when more follows. -/
theorem ofComponents_append_of_endsItem {cs : List Component} (ds : List Component)
    (h : EndsItem cs) : ofComponents (cs ++ ds) = ofComponents cs ++ ofComponents ds := by
  unfold ofComponents
  fun_induction takeAll false cs with
  | case1 => rfl
  | case2 _ _ hc => simp at hc
  | case3 c cs hc first others ih =>
    have hrest : first.2 <:+ c :: cs := ⟨_, components_take false c cs⟩
    rw [List.cons_append, takeAll, if_neg hc]
    simp only [take_append_of_endsItem false ds h]
    rw [ih (h.of_isSuffix hrest)]
    rfl

theorem ofTokens_append_semicolon {ts : List Token} {semicolon : Token} (us : List Token)
    (hts : areClosed (Component.ofTokens ts)) (hsemicolon : semicolon.kind = .semicolon) :
    ofTokens (ts ++ semicolon :: us) = ofTokens (ts ++ [semicolon]) ++ ofTokens us := by
  have hopen : semicolon.kind.closer? = none := by rw [hsemicolon]; rfl
  have harrange := fun us => (Component.ofTokens_append_of_areClosed (semicolon :: us) hts).trans
    (congrArg _ (Component.ofTokens_cons_of_closer?_eq_none us hopen))
  have hends : EndsItem (Component.ofTokens ts ++ [.token semicolon]) := by
    intro c hc
    obtain rfl : Component.token semicolon = c := by simpa using hc
    rw [Component.isSemicolon, hsemicolon]
    rfl
  rw [ofTokens, ofTokens, harrange us, harrange [], Component.ofTokens_nil, ofTokens,
    ← ofComponents_append_of_endsItem _ hends, List.append_assoc]
  rfl

end Item

/-- Where tokens that leave no group open are followed by a semicolon, what comes behind it adds its
items, read as if it stood alone, whichever way the list is read. Its settings and reports come behind
those there are too, unless reading breaks off in front: then all that follows is lost. -/
theorem items_append_semicolon {ts : List Token} {semicolon : Token} (us : List Token)
    (hts : areClosed (Component.ofTokens ts)) (hsemicolon : semicolon.kind = .semicolon) :
    Item.ofTokens (ts ++ semicolon :: us) =
        Item.ofTokens (ts ++ [semicolon]) ++ Item.ofTokens us ∧
      StreamReader.Exhausts (StreamReader.items false) (ts ++ semicolon :: us)
        (Item.ofTokens (ts ++ [semicolon]) ++ Item.ofTokens us) ∧
      ∀ resolve : Color.Resolver,
        let whole := Item.listOutcome resolve (Item.ofTokens (ts ++ semicolon :: us))
        let first := Item.listOutcome resolve (Item.ofTokens (ts ++ [semicolon]))
        let second := Item.listOutcome resolve (Item.ofTokens us)
        ((∀ i ∈ Item.ofTokens (ts ++ [semicolon]), ¬i.Breaks resolve) → whole =
          ⟨first.results ++ second.results, first.reports ++ second.reports, second.fault⟩) ∧
        ((∃ i ∈ Item.ofTokens (ts ++ [semicolon]), i.Breaks resolve) →
          whole = first ∧ first.fault ≠ none) := by
  have hitems := Item.ofTokens_append_semicolon us hts hsemicolon
  refine ⟨hitems, ?_, ?_⟩
  · rw [← hitems]
    exact StreamReader.exhausts_items (ts ++ semicolon :: us)
  · intro resolve whole first second
    have hwhole : whole = Item.listOutcome resolve
        (Item.ofTokens (ts ++ [semicolon]) ++ Item.ofTokens us) := congrArg _ hitems
    rw [hwhole]
    exact ⟨Item.listOutcome_append_of_not_breaks _, fun hbreaks =>
      ⟨Item.listOutcome_append_of_breaks _ hbreaks, (Item.fault_listOutcome_ne_none_iff _).2 hbreaks⟩⟩

/-- The tokens of `a:)@b`: a declaration of an unknown property, with brackets that close nothing and a
keyword of an at-rule in its value. -/
def brokenDeclaration : List Token :=
  [⟨.ident "a", "a", ⟨1, 1⟩⟩, ⟨.colon, ":", ⟨1, 2⟩⟩, ⟨.closing .paren, ")", ⟨1, 3⟩⟩,
    ⟨.atKeyword "b", "@b", ⟨1, 4⟩⟩]

/-- The semicolon behind one of the declarations. -/
def nextSemicolon : Token := ⟨.semicolon, ";", ⟨1, 419⟩⟩

private theorem ofTokens_coloring (value : Number.Value) (digits : String) (place : Source.Location) :
    let number : Token := ⟨.number value none .integer, digits, place⟩
    Component.ofTokens (coloring number) = [.token ⟨.ident "color", "color", ⟨1, 3⟩⟩,
        .token ⟨.colon, ":", ⟨1, 8⟩⟩, redOf number] ∧
      Item.ofTokens (coloring number ++ [nextSemicolon]) =
        [.declaration ⟨⟨.ident "color", "color", ⟨1, 3⟩⟩, [], ⟨.colon, ":", ⟨1, 8⟩⟩, [],
          [redOf number], [], [], []⟩, .loose nextSemicolon] := by
  constructor <;> cbv

/-- What follows the one is added behind it by any resolver; what follows the other is lost by one that
breaks off at a colour out of range. -/
theorem items_append_brokenDeclaration :
    areClosed (Component.ofTokens brokenDeclaration) ∧
      areClosed (Component.ofTokens (coloring hugeNumber)) ∧
      Item.ofTokens (brokenDeclaration ++ nextSemicolon :: coloring hugeNumber) =
        Item.ofTokens (brokenDeclaration ++ [nextSemicolon]) ++ Item.ofTokens (coloring hugeNumber) ∧
      (∀ resolve, (Item.listOutcome resolve
          (Item.ofTokens (brokenDeclaration ++ nextSemicolon :: coloring hugeNumber))).results =
        (Item.listOutcome resolve (Item.ofTokens (coloring hugeNumber))).results) ∧
      Item.listOutcome overflowingResolver
          (Item.ofTokens (coloring hugeNumber ++ nextSemicolon :: brokenDeclaration)) =
        Item.listOutcome overflowingResolver (Item.ofTokens (coloring hugeNumber ++ [nextSemicolon])) ∧
      (Item.listOutcome overflowingResolver (Item.ofTokens brokenDeclaration)).reports ≠ [] := by
  have hbroken : areClosed (Component.ofTokens brokenDeclaration) := by cbv
  obtain ⟨hcomponents, hitem⟩ :=
    ofTokens_coloring (.integer (10 ^ 400)) hugeNumber.source hugeNumber.location
  change Component.ofTokens (coloring hugeNumber) = _ at hcomponents
  change Item.ofTokens (coloring hugeNumber ++ [nextSemicolon]) = _ at hitem
  have hcoloring : areClosed (Component.ofTokens (coloring hugeNumber)) := by
    rw [hcomponents]
    rfl
  have halone : Item.ofTokens brokenDeclaration =
      [.declaration ⟨brokenDeclaration[0], [], brokenDeclaration[1], [],
        [.token brokenDeclaration[2], .token brokenDeclaration[3]], [], [], []⟩] := by cbv
  have hitems : Item.ofTokens (brokenDeclaration ++ [nextSemicolon]) =
      [.declaration ⟨brokenDeclaration[0], [], brokenDeclaration[1], [],
        [.token brokenDeclaration[2], .token brokenDeclaration[3]], [], [], []⟩,
        .loose nextSemicolon] := by cbv
  have hkept : ∀ resolve, ∀ i ∈ Item.ofTokens (brokenDeclaration ++ [nextSemicolon]),
      ¬i.Breaks resolve := by
    intro resolve i hi hbreaks
    rw [hitems] at hi
    obtain ⟨d, rfl, hcolor, -⟩ := hbreaks
    obtain rfl : d = _ := by simpa using hi
    exact absurd hcolor (by decide)
  have hlost : ∃ i ∈ Item.ofTokens (coloring hugeNumber ++ [nextSemicolon]),
      i.Breaks overflowingResolver := by
    rw [hitem]
    exact ⟨_, List.mem_cons_self, _, rfl, breaks_overflowingResolver (by decide) rfl⟩
  have hsemicolon : nextSemicolon.kind = .semicolon := rfl
  obtain ⟨happend, -, hbehind⟩ := items_append_semicolon (coloring hugeNumber) hbroken hsemicolon
  obtain ⟨-, -, hdropped⟩ := items_append_semicolon brokenDeclaration hcoloring hsemicolon
  refine ⟨hbroken, hcoloring, happend, ?_, ((hdropped _).2 hlost).1, ?_⟩
  · intro resolve
    have hfirst : (Item.listOutcome resolve
        (Item.ofTokens (brokenDeclaration ++ [nextSemicolon]))).results = [] := by
      rw [hitems]
      rfl
    rw [(hbehind resolve).1 (hkept resolve), hfirst, List.nil_append]
  · rw [halone]
    exact List.cons_ne_nil _ _

end Styling
