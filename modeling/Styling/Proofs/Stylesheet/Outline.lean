import Styling.Proofs.Rule.DeclarationParts
import Styling.Proofs.Rule.StreamReader
import Styling.Proofs.Stylesheet.Outcome
import Styling.Proofs.Value.Agreement

/-!
# White-space between component values carries no meaning

What a declaration list comes to depends only on the sights of its component values, so neither on the
white-space and comments outside of groups nor on places: without them, token lists that are the same make
the same settings, and the same kinds of things are reported (`Item.summary_listOutcome_congr`).
-/

namespace Styling

open Component ValueReader

namespace Outcome

variable {α β : Type}

/-- What an outcome comes to: its results, what kinds of things are reported, and what reading broke off
at. -/
def summary (o : Outcome α) : List α × List (Report.Kind × ParseError.Kind) × Option Fault :=
  (o.results, o.reports.map fun r => (r.kind, r.error.kind), o.fault)

theorem summary_eq_iff {a b : Outcome α} : a.summary = b.summary ↔ a.results = b.results ∧
    (a.reports.map fun r => (r.kind, r.error.kind)) = b.reports.map (fun r => (r.kind, r.error.kind)) ∧
      a.fault = b.fault := by
  simp only [summary, Prod.mk.injEq]

theorem summary_append_congr {a a' b b' : Outcome α} (ha : a.summary = a'.summary)
    (hb : b.summary = b'.summary) : (a.append b).summary = (a'.append b').summary := by
  obtain ⟨hresults, hkinds, hfault⟩ := summary_eq_iff.1 ha
  obtain ⟨hresults', hkinds', hfault'⟩ := summary_eq_iff.1 hb
  rw [append, append, hfault]
  cases a'.fault with
  | some f => exact ha
  | none => simp [summary, hresults, hkinds, hresults', hkinds', hfault']

theorem summary_gather_congr {a a' : Outcome α} (make : List α → β) (ha : a.summary = a'.summary) :
    (a.gather make).summary = (a'.gather make).summary := by
  obtain ⟨hresults, hkinds, hfault⟩ := summary_eq_iff.1 ha
  rw [gather, gather, hfault]
  cases a'.fault <;> simp [summary, hresults, hkinds]

end Outcome

open Outcome

variable {resolve : Color.Resolver}

/-! ## Single items -/

/-- A value is read in the same way from the same sights, wherever the name of its declaration stands. -/
theorem Declaration.summary_outcome_congr {d e : Declaration} (hproperty : d.property = e.property)
    (hvalue : sights resolve d.value = sights resolve e.value) :
    (d.outcome resolve).summary = (e.outcome resolve).summary := by
  have hsights : sights resolve (ComponentCursor.ofList e.value none).rest =
      sights resolve (ComponentCursor.ofList d.value none).rest ++ [].map (sight resolve) := by
    rw [List.map_nil, List.append_nil]
    exact hvalue.symm
  have halike :=
    agree_setting d.property (some d.name.location) (some e.name.location) _ _ hsights
  rw [outcome, outcome, EStateM.run, EStateM.run, ← hproperty]
  generalize setting resolve d.property (some d.name.location) (.ofList d.value none) = x at halike
  generalize setting resolve d.property (some e.name.location) (.ofList e.value none) = y at halike
  cases x with
  | ok s c =>
    cases y with
    | ok s' c' =>
      have hs : s = s' := halike.1
      rw [hs]
    | error e c' => exact halike.elim
  | error e c =>
    cases y with
    | ok s' c' => cases e <;> exact halike.elim
    | error e' c' =>
      cases e with
      | fault f =>
        cases e' with
        | fault f' =>
          have hf : f = f' := halike
          rw [hf]
        | parse e' => exact halike.elim
      | parse e =>
        cases e' with
        | fault f' => exact halike.elim
        | parse e' =>
          obtain ⟨hcategory, hkind⟩ := halike rfl
          simp only [hcategory]
          split <;> simp [summary, report, hkind]

/-- What there is to see of a declaration: its name, its colon, its value and its mark. -/
theorem Declaration.IsWellFormed.sights_components {nested : Bool} {d : Declaration}
    (h : d.IsWellFormed nested) : sights resolve d.components =
      sights resolve [token d.name, token d.colon] ++ sights resolve d.value ++
        sights resolve d.mark := by
  have hcomponents : d.components = [token d.name] ++ d.afterName ++ [token d.colon] ++
      d.beforeValue ++ d.value ++ d.beforeMark ++ d.mark ++ d.afterMark := by
    simp [components]
  have hpair : sights resolve [token d.name, token d.colon] =
      sights resolve [token d.name] ++ sights resolve [token d.colon] := sights_append [_] [_]
  rw [hcomponents, hpair]
  simp only [sights_append, sights_of_white h.afterName, sights_of_white h.beforeValue,
    sights_of_white h.beforeMark, sights_of_white h.afterMark, List.append_nil]

namespace Item

theorem isWellFormed_of_take_eq {nested : Bool} {c : Component} {cs : List Component}
    {d : Declaration} (h : (take nested c cs).1 = declaration d) : d.IsWellFormed nested := by
  have htake : ∀ c, (takeDeclaration nested c cs).1 = declaration d → d.IsWellFormed nested := by
    intro c h
    unfold takeDeclaration at h
    split at h
    · rename_i hread
      cases h
      exact (Declaration.isWellFormed_of_take? hread).1
    · cases h
  unfold take at h
  split at h
  · split at h
    · cases h
    · split at h
      · cases h
      · exact htake _ h
  · exact htake _ h

/-- Items of one kind that are the same to see come to the same. -/
theorem summary_outcome_congr {nested : Bool} {i j : Item} (houtline : i.outline = j.outline)
    (hi : ∀ d, i = declaration d → d.IsWellFormed nested)
    (hj : ∀ d, j = declaration d → d.IsWellFormed nested)
    (hsights : sights resolve i.components = sights resolve j.components) :
    (i.outcome resolve).summary = (j.outcome resolve).summary := by
  cases i with
  | loose t =>
    cases j with
    | loose u => rfl
    | _ => cases houtline
  | malformed cs =>
    cases j with
    | malformed ds => rfl
    | _ => cases houtline
  | atRule r =>
    cases j with
    | atRule r' => rfl
    | _ => cases houtline
  | declaration d =>
    cases j with
    | declaration e =>
      have hsame : d.outline = e.outline := declaration.inj houtline
      have hname : d.name.kind = e.name.kind := congrArg (·.name.kind) hsame
      have hproperty : d.property = e.property := by
        rw [Declaration.property, Declaration.property, hname]
      have hvalue : Component.outline d.value = Component.outline e.value :=
        congrArg Declaration.value hsame
      have hmark : Component.outline d.mark = Component.outline e.mark :=
        congrArg Declaration.mark hsame
      rw [components, components, (hi d rfl).sights_components, (hj e rfl).sights_components]
        at hsights
      -- The parts are as long on both sides, so they are the same.
      obtain ⟨hfront, -⟩ := List.append_inj' hsights (by simp only [length_sights, hmark])
      obtain ⟨-, hvalues⟩ := List.append_inj' hfront (by simp only [length_sights, hvalue])
      exact Declaration.summary_outcome_congr hproperty hvalues
    | _ => cases houtline

/-! ## Declaration lists -/

/-- The first items of lists with the same sights come to the same, and the same is left to be seen. -/
theorem take_congr (nested : Bool) {c d : Component} {cs ds : List Component}
    (hc : c.isWhite = false) (hd : d.isWhite = false)
    (h : sights resolve (c :: cs) = sights resolve (d :: ds)) :
    ((take nested c cs).1.outcome resolve).summary = ((take nested d ds).1.outcome resolve).summary ∧
      sights resolve (take nested c cs).2 = sights resolve (take nested d ds).2 := by
  have hcons := congrArg (List.map Prod.fst) h
  rw [map_fst_sights, map_fst_sights, outline_cons_of_not_white _ hc, outline_cons_of_not_white _ hd,
    List.cons.injEq] at hcons
  have htake := take_outline nested cs hc
  rw [hcons.1, hcons.2, take_outline nested ds hd, Prod.mk.injEq] at htake
  obtain ⟨houtline, hrest⟩ := htake
  rw [← components_take nested c cs, ← components_take nested d ds, sights_append, sights_append] at h
  obtain ⟨hcomponents, hleft⟩ := List.append_inj' h (by simp only [length_sights, hrest])
  exact ⟨summary_outcome_congr houtline.symm (fun _ => isWellFormed_of_take_eq)
    (fun _ => isWellFormed_of_take_eq) hcomponents, hleft⟩

theorem take_of_isWhite (nested : Bool) {c : Component} (cs : List Component) (hc : c.isWhite) :
    take nested c cs = (loose c.head, cs) := by
  cases c with
  | token t =>
    have ht : t.isWhite := hc
    simp only [take, ht, Bool.true_or, if_true]
    rfl
  | group => cases hc

/-- White-space in front of a declaration list comes to nothing. -/
theorem listOutcome_takeAll_dropWhile (nested : Bool) (cs : List Component) :
    listOutcome resolve (takeAll nested (cs.dropWhile isWhite)).1 =
      listOutcome resolve (takeAll nested cs).1 := by
  induction cs with
  | nil => rfl
  | cons c cs ih =>
    by_cases hc : c.isWhite
    · have hstray : c.isStrayBrace = false := by
        rw [← Bool.not_eq_true]
        intro hstray
        have hends : endsDeclaration true c := by simp [endsDeclaration, hstray]
        rw [isWhite_of_endsDeclaration hends] at hc
        cases hc
      rw [List.dropWhile_cons_of_pos hc, ih, takeAll, hstray, Bool.and_false,
        if_neg Bool.false_ne_true, take_of_isWhite nested cs hc]
      rfl
    · rw [List.dropWhile_cons_of_neg hc]

/-- Behind white-space there is the same to see first. -/
private theorem exists_cons_of_sights {c : Component} {cs ds : List Component}
    (hc : c.isWhite = false) (h : sights resolve (c :: cs) = sights resolve ds) :
    ∃ d rest, ds.dropWhile isWhite = d :: rest ∧ d.isWhite = false ∧ c.bare = d.bare ∧
      sights resolve (c :: cs) = sights resolve (d :: rest) := by
  have hhead := List.head?_dropWhile_not isWhite ds
  have hsame := h.trans (sights_dropWhile ds).symm
  cases hds : ds.dropWhile isWhite with
  | nil =>
    rw [hds, sights_cons_of_not_white _ hc] at hsame
    cases hsame
  | cons d rest =>
    rw [hds] at hhead hsame
    have hd : d.isWhite = false := by simpa using hhead
    have hfirst := hsame
    rw [sights_cons_of_not_white _ hc, sights_cons_of_not_white _ hd, List.cons.injEq] at hfirst
    exact ⟨d, rest, rfl, hd, congrArg Prod.fst hfirst.1, hsame⟩

/-- Declaration lists with the same sights come to the same. -/
theorem summary_listOutcome_takeAll {nested : Bool} {cs ds : List Component}
    (h : sights resolve cs = sights resolve ds) :
    (listOutcome resolve (takeAll nested cs).1).summary =
      (listOutcome resolve (takeAll nested ds).1).summary := by
  rw [← listOutcome_takeAll_dropWhile nested ds]
  fun_induction takeAll nested cs generalizing ds with
  | case1 =>
    have hwhite : ds.dropWhile isWhite = [] := by
      rw [List.dropWhile_eq_nil_iff]
      simpa [sights, solid] using h.symm
    rw [hwhite]
    simp [takeAll]
  | case2 c cs hbrace =>
    have hstray : c.isStrayBrace := (Bool.and_eq_true_iff.1 hbrace).2
    have hends : endsDeclaration true c := by simp [endsDeclaration, hstray]
    obtain ⟨d, rest, hds, -, hbare, -⟩ := exists_cons_of_sights (isWhite_of_endsDeclaration hends) h
    have hsame : d.isStrayBrace = c.isStrayBrace := by
      rw [← isStrayBrace_bare, ← hbare, isStrayBrace_bare]
    rw [hds, takeAll, hsame, if_pos hbrace]
  | case3 c cs hbrace first others =>
    rename_i ih
    cases hc : c.isWhite with
    | true =>
      have hfirst : first = (loose c.head, cs) := take_of_isWhite nested cs hc
      have hnone : first.1.outcome resolve = .none := by
        rw [hfirst]
        rfl
      have hleft : sights resolve first.2 = sights resolve ds := by
        rw [hfirst, ← h, sights, sights, solid_cons_of_white cs hc]
      have hothers := ih hleft
      rw [listOutcome, collect_cons, hnone, none_append]
      exact hothers
    | false =>
      obtain ⟨d, rest, hds, hd, hbare, hsights⟩ := exists_cons_of_sights hc h
      have hsame : d.isStrayBrace = c.isStrayBrace := by
        rw [← isStrayBrace_bare, ← hbare, isStrayBrace_bare]
      obtain ⟨hfirst, hleft⟩ := take_congr nested hc hd hsights
      have hothers := ih hleft
      rw [listOutcome_takeAll_dropWhile] at hothers
      rw [hds, takeAll, hsame, if_neg hbrace]
      exact summary_append_congr hfirst hothers

/-- White-space and comments outside of every group carry no meaning in a declaration list: token lists
that are the same without them, wherever the tokens stand, make the same settings, and the same kinds of
things are reported in the same order, whatever resolves the colours. -/
theorem summary_listOutcome_congr (resolve : Color.Resolver) {ts us : List Token}
    (h : (outerSolid [] ts).map Token.unplaced = (outerSolid [] us).map Token.unplaced) :
    StreamReader.Exhausts (StreamReader.items false) ts (ofTokens ts) ∧
      StreamReader.Exhausts (StreamReader.items false) us (ofTokens us) ∧
      (listOutcome resolve (ofTokens ts)).summary = (listOutcome resolve (ofTokens us)).summary :=
  ⟨StreamReader.exhausts_items ts, StreamReader.exhausts_items us,
    summary_listOutcome_takeAll (sights_ofTokens h)⟩

/-- The tokens of `color:rgb(0 )!important`. -/
def tightColor : List Token :=
  [⟨.ident "color", "color", ⟨1, 1⟩⟩, ⟨.colon, ":", ⟨1, 6⟩⟩, ⟨.function "rgb", "rgb(", ⟨1, 7⟩⟩,
    ⟨.number (.integer 0) none .integer, "0", ⟨1, 11⟩⟩, ⟨.whitespace " ", " ", ⟨1, 12⟩⟩,
    ⟨.closing .paren, ")", ⟨1, 13⟩⟩, ⟨.delim '!', "!", ⟨1, 14⟩⟩,
    ⟨.ident "important", "important", ⟨1, 15⟩⟩]

/-- The tokens of ` color/**/: rgb(0 ) ! important`. -/
def spacedColor : List Token :=
  [⟨.whitespace " ", " ", ⟨1, 1⟩⟩, ⟨.ident "color", "color", ⟨1, 2⟩⟩,
    ⟨.comment "", "/**/", ⟨1, 7⟩⟩, ⟨.colon, ":", ⟨1, 11⟩⟩, ⟨.whitespace " ", " ", ⟨1, 12⟩⟩,
    ⟨.function "rgb", "rgb(", ⟨1, 13⟩⟩, ⟨.number (.integer 0) none .integer, "0", ⟨1, 17⟩⟩,
    ⟨.whitespace " ", " ", ⟨1, 18⟩⟩, ⟨.closing .paren, ")", ⟨1, 19⟩⟩,
    ⟨.whitespace " ", " ", ⟨1, 20⟩⟩, ⟨.delim '!', "!", ⟨1, 21⟩⟩, ⟨.whitespace " ", " ", ⟨1, 22⟩⟩,
    ⟨.ident "important", "important", ⟨1, 23⟩⟩]

theorem summary_listOutcome_spacedColor :
    (outerSolid [] spacedColor).map Token.unplaced = (outerSolid [] tightColor).map Token.unplaced ∧
      ∀ resolve, (listOutcome resolve (ofTokens spacedColor)).summary =
        (listOutcome resolve (ofTokens tightColor)).summary := by
  have hsame : (outerSolid [] spacedColor).map Token.unplaced =
      (outerSolid [] tightColor).map Token.unplaced := by rfl
  exact ⟨hsame, fun resolve => (summary_listOutcome_congr resolve hsame).2.2⟩

end Item

end Styling
