import Styling.Proofs.Component.Outline
import Styling.Proofs.Rule.Declaration
import Styling.Rule.Item

/-!
# Declaration lists in outline

No test that tells the items of a declaration list apart asks where a token stands or whether a group is
closed, and every reader passes over white-space. So an item that is read from an outline is the item that
is read from the component values, in outline, and so is what is left (`Item.take_outline`).
-/

namespace Styling

open Component

theorem isWhite_of_endsDeclaration {nested : Bool} {c : Component} (h : endsDeclaration nested c) :
    c.isWhite = false := by
  rcases c with ⟨kind, source, location⟩ | _
  · cases kind <;> simp_all [isWhite, Token.isWhite, TokenKind.isWhite, endsDeclaration, isSemicolon,
      isStrayBrace, TokenKind.isSemicolon, TokenKind.isClosing]
  · rfl

theorem isWhite_of_endsPrelude {nested : Bool} {c : Component} (h : AtRule.endsPrelude nested c) :
    c.isWhite = false := by
  by_cases hblock : c.isBraceBlock
  · exact isWhite_of_isBraceBlock hblock
  · have hends : endsDeclaration nested c := by
      simpa [AtRule.endsPrelude, endsDeclaration, hblock] using h
    exact isWhite_of_endsDeclaration hends

theorem endsDeclaration_bare (nested : Bool) (c : Component) :
    endsDeclaration nested c.bare = endsDeclaration nested c := by simp [endsDeclaration]

theorem endsPrelude_bare (nested : Bool) (c : Component) :
    AtRule.endsPrelude nested c.bare = AtRule.endsPrelude nested c := by simp [AtRule.endsPrelude]

/-- What ends a run is no white-space, so the run is split off an outline in the same place. -/
theorem splitRun_outline {ends : Component → Bool} (hbare : ∀ c, ends c.bare = ends c)
    (hwhite : ∀ c, ends c → c.isWhite = false) (cs : List Component) :
    splitRun (!ends ·) (outline cs) =
      (outline (splitRun (!ends ·) cs).1, outline (splitRun (!ends ·) cs).2) := by
  induction cs with
  | nil => rfl
  | cons c cs ih =>
    obtain ⟨htake, hdrop⟩ := Prod.mk.inj ih
    by_cases hc : ends c
    · simp [splitRun, outline_cons_of_not_white _ (hwhite c hc), hbare, hc]
      rfl
    · cases hw : c.isWhite with
      | true => simp [splitRun, outline_cons_of_white _ hw, hc, htake, hdrop]
      | false => simp [splitRun, outline_cons_of_not_white _ hw, hbare, hc, htake, hdrop]

private theorem splitRun_endsDeclaration_outline (nested : Bool) (cs : List Component) :
    splitRun (!endsDeclaration nested ·) (outline cs) =
      (outline (splitRun (!endsDeclaration nested ·) cs).1,
        outline (splitRun (!endsDeclaration nested ·) cs).2) :=
  splitRun_outline (endsDeclaration_bare nested) (fun _ => isWhite_of_endsDeclaration) cs

/-- What follows a run that something ends. -/
private theorem ends_of_splitRun_eq_cons {ends : Component → Bool} {c : Component}
    {cs rest : List Component} (h : (splitRun (!ends ·) cs).2 = c :: rest) : ends c := by
  simpa using not_of_splitRun_eq_cons h

/-- There is no white-space to be passed over in an outline. -/
private theorem splitRun_isWhite_outline (cs : List Component) :
    splitRun Component.isWhite (outline cs) = ([], outline cs) := by
  cases hcs : outline cs with
  | nil => rfl
  | cons c rest =>
    have hc : c.isWhite = false := isWhite_of_mem_outline (by rw [hcs]; exact List.mem_cons_self ..)
    simp [splitRun, hc]

/-! ## Declarations -/

def MarkedValue.outline (v : MarkedValue) : MarkedValue :=
  ⟨Component.outline v.value, [], Component.outline v.mark, []⟩

def Declaration.outline (d : Declaration) : Declaration :=
  ⟨d.name.unplaced, [], d.colon.unplaced, [], Component.outline d.value, [],
    Component.outline d.mark, []⟩

private theorem outline_unmarked (body : List Component) :
    (unmarked body).outline = unmarked (outline body) := by
  have hrun : splitRun Component.isWhite (outline body).reverse = ([], (outline body).reverse) := by
    rw [outline, ← List.map_reverse, solid, ← List.filter_reverse]
    exact splitRun_isWhite_outline body.reverse
  obtain ⟨htake, hdrop⟩ := Prod.mk.inj hrun
  have hvalue : dropTrailing Component.isWhite (outline body) = outline body := by
    rw [dropTrailing, hdrop, List.reverse_reverse]
  have hbehind : takeTrailing Component.isWhite (outline body) = [] := by
    rw [takeTrailing, htake, List.reverse_nil]
  simp only [MarkedValue.outline, unmarked, outline_dropTrailing, hvalue, hbehind]
  rfl

private theorem outline_append_cons {c : Component} {back : List Component} (front : List Component)
    (hc : c.isWhite = false) (hback : ∀ c ∈ back, c.isWhite) :
    outline (front ++ c :: back) = outline front ++ [c.bare] := by
  rw [outline_append, outline_cons_of_not_white _ hc, outline_of_white hback]

theorem splitImportant_outline (body : List Component) :
    splitImportant (outline body) = (splitImportant body).outline := by
  rcases forall_or_exists_last Component.isWhite body with
    hall | ⟨inner, word, back, rfl, hword, hback⟩
  · rw [StreamReader.splitImportant_of_all hall, outline_unmarked, outline_of_white hall]
    rfl
  have hword' : word.bare.isWhite = false := by simpa using hword
  rcases forall_or_exists_last Component.isWhite inner with
    hall | ⟨front, bang, gap, rfl, hbang, hgap⟩
  · rw [StreamReader.splitImportant_of_single hall hword hback, outline_unmarked,
      outline_append_cons _ hword hback, outline_of_white hall]
    exact StreamReader.splitImportant_of_single (by simp) hword' (by simp)
  have hbang' : bang.bare.isWhite = false := by simpa using hbang
  have houtline : outline (front ++ bang :: (gap ++ word :: back)) =
      outline front ++ bang.bare :: ([] ++ word.bare :: []) := by
    rw [outline_append, outline_cons_of_not_white _ hbang, outline_append_cons _ hword hback,
      outline_of_white hgap]
  have hbody : front ++ bang :: gap ++ word :: back = front ++ bang :: (gap ++ word :: back) := by simp
  rw [hbody, houtline, StreamReader.splitImportant_append_cons hbang' (by simp) hword' (by simp),
    StreamReader.splitImportant_append_cons hbang hgap hword hback, isBang_bare, isImportantIdent_bare,
    ← houtline]
  by_cases hmark : isBang bang && isImportantIdent word
  · rw [if_pos hmark, if_pos hmark]
    have hvalue := congrArg MarkedValue.value (outline_unmarked front)
    have hbefore := congrArg MarkedValue.beforeMark (outline_unmarked front)
    have hgap' : outline (bang :: (gap ++ [word])) = [bang.bare, word.bare] := by
      rw [outline_cons_of_not_white _ hbang, outline_append_cons _ hword (by simp), outline_of_white hgap]
      rfl
    simp only [MarkedValue.outline, unmarked] at hvalue hbefore ⊢
    rw [hvalue, ← hbefore, hgap']
    rfl
  · rw [if_neg hmark, if_neg hmark, outline_unmarked]

/-- A value from whose end white-space was split off is empty if its outline is. -/
private theorem outline_dropTrailing_eq_nil_iff (cs : List Component) :
    outline (dropTrailing Component.isWhite cs) = [] ↔ dropTrailing Component.isWhite cs = [] := by
  rw [outline_dropTrailing]
  simp [outline, solid, dropTrailing, List.dropWhile_eq_nil_iff]

private theorem isDeclarationValue_outline (cs : List Component) :
    isDeclarationValue (outline (dropTrailing Component.isWhite cs)) =
      isDeclarationValue (dropTrailing Component.isWhite cs) := by
  have hempty := outline_dropTrailing_eq_nil_iff cs
  generalize dropTrailing Component.isWhite cs = value at hempty
  have hblock : (outline value).any Component.isBraceBlock = value.any Component.isBraceBlock := by
    have hsolid : ∀ c : Component, (!c.isWhite && c.isBraceBlock) = c.isBraceBlock := by
      intro c
      cases hc : c.isBraceBlock with
      | true => simp [isWhite_of_isBraceBlock hc]
      | false => simp
    simp [outline, solid, List.any_map, List.any_filter, Function.comp_def, hsolid]
  have hlength : ((outline value).filter (!·.isWhite)).length = (value.filter (!·.isWhite)).length := by
    simp [outline, solid, List.filter_map, Function.comp_def]
  have hnil : (outline value).isEmpty = value.isEmpty := by
    rw [Bool.eq_iff_iff, List.isEmpty_iff, List.isEmpty_iff, hempty]
  simp only [isDeclarationValue, hblock, hlength, hnil]

/-- What is left of a value as it is split comes from the end of one. -/
private theorem isDeclarationValue_outline_splitImportant (body : List Component) :
    isDeclarationValue (splitImportant body).outline.value =
      isDeclarationValue (splitImportant body).value := by
  obtain ⟨front, hvalue⟩ :
      ∃ front, (splitImportant body).value = dropTrailing Component.isWhite front := by
    unfold splitImportant
    dsimp only
    split
    · split
      · split
        · exact ⟨_, rfl⟩
        · exact ⟨body, rfl⟩
      · exact ⟨body, rfl⟩
    · exact ⟨body, rfl⟩
  rw [MarkedValue.outline, hvalue, isDeclarationValue_outline]

theorem Declaration.take?_outline (nested : Bool) {c : Component} (cs : List Component)
    (hc : c.isWhite = false) : take? nested (Component.outline (c :: cs)) =
      (take? nested (c :: cs)).map fun (d, rest) => (d.outline, Component.outline rest) := by
  rw [outline_cons_of_not_white _ hc]
  cases c with
  | group => rfl
  | token name =>
    rcases name with ⟨kind, source, place⟩
    simp only [bare, take?, Token.unplaced]
    cases kind with
    | ident _ =>
      have hrest : Component.outline cs = Component.outline (splitRun Component.isWhite cs).2 :=
        (outline_dropWhile cs).symm
      simp only [splitRun_isWhite_outline]
      rw [hrest]
      cases hcs : (splitRun Component.isWhite cs).2 with
      | nil => rfl
      | cons c cs =>
        rw [outline_cons_of_not_white _ (not_of_splitRun_eq_cons hcs)]
        cases c with
        | group => rfl
        | token colon =>
          simp only [bare, Token.unplaced]
          by_cases hcolon : colon.kind.isColon
          · have hbody : Component.outline cs = Component.outline (splitRun Component.isWhite cs).2 :=
              (outline_dropWhile cs).symm
            simp only [hcolon, if_true, splitRun_isWhite_outline, hbody,
              splitRun_endsDeclaration_outline, splitImportant_outline,
              isDeclarationValue_outline_splitImportant]
            split <;> rfl
          · simp [hcolon]
    | _ => rfl

/-! ## Items -/

def AtRule.outline (r : AtRule) : AtRule :=
  ⟨r.keyword.unplaced, Component.outline r.prelude, r.ending.map bare⟩

def Item.outline : Item → Item
  | loose t => loose t.unplaced
  | declaration d => declaration d.outline
  | malformed cs => malformed (Component.outline cs)
  | atRule r => atRule r.outline

theorem AtRule.take_outline (nested : Bool) (keyword : Token) (cs : List Component) :
    take nested keyword.unplaced (Component.outline cs) =
      ((take nested keyword cs).1.outline, Component.outline (take nested keyword cs).2) := by
  have hsplit : splitRun (!endsPrelude nested ·) (Component.outline cs) =
      (Component.outline (splitRun (!endsPrelude nested ·) cs).1,
        Component.outline (splitRun (!endsPrelude nested ·) cs).2) :=
    splitRun_outline (endsPrelude_bare nested) (fun _ => isWhite_of_endsPrelude) cs
  simp only [take, hsplit]
  cases hcs : (splitRun (!endsPrelude nested ·) cs).2 with
  | nil => rfl
  | cons c rest =>
    have hc : c.isWhite = false := isWhite_of_endsPrelude (ends_of_splitRun_eq_cons hcs)
    rw [outline_cons_of_not_white _ hc]
    by_cases hstray : nested && c.isStrayBrace
    · simp [hstray, outline, outline_cons_of_not_white _ hc]
    · simp [hstray, outline]

namespace Item

theorem takeMalformed_outline (nested : Bool) (cs : List Component) :
    takeMalformed nested (Component.outline cs) =
      (Component.outline (takeMalformed nested cs).1, Component.outline (takeMalformed nested cs).2) := by
  simp only [takeMalformed, splitRun_endsDeclaration_outline]
  cases hcs : (splitRun (!endsDeclaration nested ·) cs).2 with
  | nil => rfl
  | cons c rest =>
    have hc : c.isWhite = false := isWhite_of_endsDeclaration (ends_of_splitRun_eq_cons hcs)
    rw [outline_cons_of_not_white _ hc]
    by_cases hsemicolon : c.isSemicolon
    · simp [hsemicolon, outline_append, outline_cons_of_not_white _ hc]
      rfl
    · simp [hsemicolon, outline_cons_of_not_white _ hc]

private theorem takeDeclaration_outline (nested : Bool) {c : Component} (cs : List Component)
    (hc : c.isWhite = false) : takeDeclaration nested c.bare (Component.outline cs) =
      ((takeDeclaration nested c cs).1.outline, Component.outline (takeDeclaration nested c cs).2) := by
  have hdeclaration := Declaration.take?_outline nested cs hc
  rw [outline_cons_of_not_white _ hc] at hdeclaration
  simp only [takeDeclaration, hdeclaration, takeMalformed_outline]
  cases Declaration.take? nested (c :: cs) <;> simp [outline, outline_cons_of_not_white _ hc]

/-- Of an outline the same item is read, in outline. -/
theorem take_outline (nested : Bool) {c : Component} (cs : List Component) (hc : c.isWhite = false) :
    take nested c.bare (Component.outline cs) =
      ((take nested c cs).1.outline, Component.outline (take nested c cs).2) := by
  cases c with
  | group head contents closing => exact takeDeclaration_outline nested cs hc
  | token t =>
    have hkind : t.unplaced.kind = t.kind := rfl
    have hwhite : t.unplaced.isWhite = t.isWhite := rfl
    by_cases ht : t.isWhite || t.kind.isSemicolon
    · simp [take, bare, hkind, hwhite, ht, outline]
    · have hdeclaration := takeDeclaration_outline nested cs hc
      simp only [take, bare, hkind, hwhite, ht]
      cases t.kind with
      | atKeyword _ => simp [AtRule.take_outline, outline]
      | _ => exact hdeclaration

end Item

end Styling
