import Styling.Proofs.Component.Closed
import Styling.Proofs.Rule.Item
import Styling.Proofs.Rule.Mark
import Styling.Proofs.Stylesheet.Outcome
import Styling.Proofs.Value.Setting

/-!
# Declarations marked as important

An `!important` at the end of a value is split off where a declaration is read, and taken up once more
where its value is read. So a declaration comes to what its value comes to when it is read as a whole,
and to a setting besides where the mark was written twice (`listOutcome_declaration_iff`).
-/

namespace Styling

open Component ValueReader

/-- Whether the value as a whole is read as the setting of a property of the given name. -/
def ReadsSetting (resolve : Color.Resolver) (name : String) (value : List Component) (s : Setting) :
    Prop :=
  ∃ c, (setting resolve name none).run (.ofList value none) = .ok s c

/-! ## Values read as a whole -/

variable {resolve : Color.Resolver} {name : String} {s : Setting} {cs ds : List Component}

/-- White-space in a value and the place of the name do not matter. -/
theorem setting_of_solid_eq {place place' : Option Source.Location} {c : ComponentCursor}
    (h : solid cs = solid ds) (hread : setting resolve name place (.ofList cs none) = .ok s c) :
    ∃ d, setting resolve name place' (.ofList ds none) = .ok s d := by
  have hsights : sights resolve ds = sights resolve cs ++ [] := by
    rw [List.append_nil, sights, sights, h]
  have halike := agree_setting name place place' (.ofList cs none) (.ofList ds none) hsights
  rw [hread] at halike
  obtain ⟨d, hds, -⟩ := halike.of_ok
  exact ⟨d, hds⟩

theorem upcoming?_ofList_eq_none_iff {place : Option Source.Location} :
    upcoming? (.ofList cs place) = none ↔ solid cs = [] := by
  rw [← view_eq_nil_iff, view_ofList, outline, List.map_eq_nil_iff]

theorem solid_ne_nil_of_readValue {p : Property} {value : p.Value} {c : ComponentCursor}
    (hread : p.readValue resolve (.ofList cs none) = .ok value c) : solid cs ≠ [] := by
  intro hnil
  obtain ⟨e, c', herror⟩ := needsValue_readValue resolve p (.ofList cs none)
    (by rw [view_ofList, outline, hnil, List.map_nil])
  rw [hread] at herror
  cases herror

section Ending

variable {p : Property} {value : p.Value} {ending : List Component}
  (hending : ∀ v ∈ ending.head?, EndsValue v) (h : solid ds = solid cs ++ ending)

include hending h

private theorem alike_readValue (hnone : p = .color → solid cs = [] → ending = []) :
    EndAlike resolve ending (p.readValue resolve (.ofList cs none))
      (p.readValue resolve (.ofList ds none)) := by
  apply endAlike_readValue hending
  · have hmap := congrArg (List.map (sight resolve)) h
    rw [List.map_append] at hmap
    exact hmap
  · intro hp hupcoming
    exact hnone hp (upcoming?_ofList_eq_none_iff.1 hupcoming)

/-- What no value but a colour has in it may be put behind a value, which is then read in front of it. -/
theorem readValue_append {c : ComponentCursor}
    (hread : p.readValue resolve (.ofList cs none) = .ok value c) :
    ∃ d, p.readValue resolve (.ofList ds none) = .ok value d ∧ view d = view c ++ ending.map bare := by
  have halike : EndAlike resolve ending (p.readValue resolve (.ofList cs none))
      (p.readValue resolve (.ofList ds none)) :=
    alike_readValue hending h fun _ hnil => absurd hnil (solid_ne_nil_of_readValue hread)
  rw [hread] at halike
  obtain ⟨d, hds, hsights⟩ := halike.of_ok
  exact ⟨d, hds, view_eq_append hsights⟩

/-- What is read with an ending behind it is read without, unless there is nothing else and the ending
begins with a colour. -/
theorem readValue_of_append {d : ComponentCursor}
    (hread : p.readValue resolve (.ofList ds none) = .ok value d) :
    (∃ c, p.readValue resolve (.ofList cs none) = .ok value c ∧
        view d = view c ++ ending.map bare) ∨
      solid cs = [] ∧ view d = ending.tail.map bare := by
  by_cases hcolor : p = .color ∧ solid cs = []
  · obtain ⟨rfl, hnil⟩ := hcolor
    obtain ⟨v, hview⟩ := view_of_color_eq_ok hread
    rw [view_ofList, outline, h, hnil, List.nil_append] at hview
    exact .inr ⟨hnil, by rw [List.map_tail, hview, List.tail_cons]⟩
  · have halike : EndAlike resolve ending (p.readValue resolve (.ofList cs none))
        (p.readValue resolve (.ofList ds none)) :=
      alike_readValue hending h fun hp hnil => absurd ⟨hp, hnil⟩ hcolor
    rw [hread] at halike
    obtain ⟨c, hcs, hsights⟩ := halike.of_ok_right
    exact .inl ⟨c, hcs, view_eq_append hsights⟩

end Ending

theorem readsSetting_iff : ReadsSetting resolve name cs s ↔
    ∃ (p : Property) (value : p.Value) (c : ComponentCursor), Property.ofName? name = some p ∧
      s = ⟨p, value⟩ ∧ p.readValue resolve (.ofList cs none) = .ok value c ∧ EndsSetting (view c) :=
  setting_eq_ok_iff resolve name none _ s

theorem ReadsSetting.solid_ne_nil (h : ReadsSetting resolve name cs s) : solid cs ≠ [] := by
  obtain ⟨p, value, c, -, -, hread, -⟩ := readsSetting_iff.1 h
  exact solid_ne_nil_of_readValue hread

/-- White-space does not matter to whether component values can be the value of a declaration. -/
theorem isDeclarationValue_iff_solid (h : solid cs ≠ []) : isDeclarationValue cs ↔
    ((∃ c ∈ solid cs, c.isBraceBlock) → (solid cs).length = 1) := by
  have hne : cs ≠ [] := by
    rintro rfl
    exact h rfl
  have hblock : (∃ c ∈ solid cs, c.isBraceBlock) ↔ ∃ c ∈ cs, c.isBraceBlock := by
    refine exists_congr fun c => ⟨fun hc => ⟨(List.mem_filter.1 hc.1).1, hc.2⟩, fun hc => ⟨?_, hc.2⟩⟩
    exact List.mem_filter.2 ⟨hc.1, by simp [isWhite_of_isBraceBlock hc.2]⟩
  rw [hblock]
  simp [isDeclarationValue, solid, hne, imp_iff_not_or]

theorem isDeclarationValue_of_solid_eq (hne : solid cs ≠ []) (h : solid cs = solid ds)
    (hcs : isDeclarationValue cs) : isDeclarationValue ds := by
  rw [isDeclarationValue_iff_solid (h ▸ hne), ← h]
  exact (isDeclarationValue_iff_solid hne).1 hcs

/-- What is read as a setting can be the value of a declaration, if the mark is split off. -/
theorem ReadsSetting.isDeclarationValue (h : ReadsSetting resolve name cs s)
    (hunmarked : ¬∃ front, IsMarked front cs) : isDeclarationValue cs := by
  rw [isDeclarationValue_iff_solid h.solid_ne_nil]
  rintro ⟨block, hmem, hblock⟩
  rcases readsSetting_iff.1 h with ⟨p, value, c, -, -, hread, hends⟩
  obtain ⟨front, back, hsolid⟩ := List.append_of_mem hmem
  have hfront : solid front = front := by
    rw [solid, List.filter_eq_self]
    intro c hc
    exact (List.mem_filter.1 (hsolid ▸ List.mem_append_left _ hc : c ∈ solid cs)).2
  have hending : ∀ v ∈ (block :: back).head?, EndsValue v := by
    intro v hv
    cases hv
    exact .inr hblock
  rcases readValue_of_append hending (by rw [hfront, hsolid]) hread with
    ⟨c', -, hview⟩ | ⟨hnil, hview⟩
  · -- the block would be left, which is neither a bang nor the word
    have hleft : block.bare ∈ view c := by simp [hview]
    rw [← isBraceBlock_bare, hends.isBraceBlock_eq_false hleft] at hblock
    contradiction
  · -- the block is the colour, and there is no mark behind it
    rw [hfront] at hnil
    rw [hnil, List.nil_append] at hsolid
    rw [List.tail_cons] at hview
    rw [hview, endsSetting_map_bare] at hends
    rcases hends with rfl | ⟨bang, word, hbang, hword, rfl⟩
    · rw [hsolid, List.length_singleton]
    · obtain ⟨marked, hmarked, -⟩ := exists_isMarked hbang hword
        (hsolid.trans List.singleton_append.symm)
      exact absurd ⟨marked, hmarked⟩ hunmarked

/-! ## Values behind which a mark is written -/

variable {bang word : Component}

private theorem endsValue_mark (hbang : isBang bang) : ∀ v ∈ [bang, word].head?, EndsValue v := by
  intro v hv
  cases hv
  exact .inl hbang

/-- What is read with a mark behind it has none itself, and is read without. -/
theorem ReadsSetting.of_mark (hbang : isBang bang) (h : solid ds = solid cs ++ [bang, word])
    (hread : ReadsSetting resolve name ds s) :
    ReadsSetting resolve name cs s ∧ ¬∃ front, IsMarked front cs := by
  rcases readsSetting_iff.1 hread with ⟨p, value, d, hname, hs, hvalue, hends⟩
  rcases readValue_of_append (endsValue_mark hbang) h hvalue with ⟨c, hvalue', hview⟩ | ⟨-, hview⟩
  · have hnil : view c = [] := by
      have hlength := hends.length_eq
      rw [hview] at hlength
      simpa using hlength
    refine ⟨readsSetting_iff.2 ⟨p, value, c, hname, hs, hvalue', .inl hnil⟩, ?_⟩
    rintro ⟨front, hmarked⟩
    obtain ⟨bang', word', hbang', -, hsolid⟩ := hmarked.solid_eq
    rcases readValue_of_append (endsValue_mark hbang') hsolid hvalue' with
      ⟨c', -, hview'⟩ | ⟨-, hview'⟩
    · simp [hnil] at hview'
    · simp [hnil] at hview'
  · -- a colour that is the bang of the mark leaves the word
    have hlength := hends.length_eq
    rw [hview] at hlength
    rcases hlength with hlength | hlength <;> cases hlength

/-- With a mark behind it a value is read as before, if it had none already. -/
theorem ReadsSetting.mark (hbang : isBang bang) (hword : isImportantIdent word)
    (h : solid ds = solid cs ++ [bang, word]) (hread : ReadsSetting resolve name cs s) :
    ReadsSetting resolve name ds s ∨ ∃ front, IsMarked front cs := by
  rcases readsSetting_iff.1 hread with ⟨p, value, c, hname, hs, hvalue, hends⟩
  rcases endsSetting_map_bare.1 hends with hnil | ⟨bang', word', hbang', hword', hrest⟩
  · obtain ⟨d, hvalue', hview⟩ := readValue_append (endsValue_mark hbang) h hvalue
    have hleft : view d = [bang, word].map bare := by
      rw [hview, view, outline, hnil, List.map_nil, List.nil_append]
    have hends : EndsSetting (view d) := by
      rw [hleft, endsSetting_map_bare]
      exact .inr ⟨bang, word, hbang, hword, rfl⟩
    exact .inl (readsSetting_iff.2 ⟨p, value, d, hname, hs, hvalue', hends⟩)
  · -- the mark that is left is the end of the value
    have hover := locates_readValue resolve p (.ofList cs none) ⟨rfl, rfl⟩
    rw [hvalue] at hover
    have hsuffix : solid c.rest <:+ solid cs := by
      have hdrop : c.rest <:+ cs := by
        rw [ComponentCursor.rest, Cursor.rest, hover.1.items_eq]
        exact List.drop_suffix _ _
      exact hdrop.filter _
    obtain ⟨before, hbefore⟩ := hsuffix
    rw [hrest] at hbefore
    obtain ⟨front, hmarked, -⟩ := exists_isMarked hbang' hword' hbefore.symm
    exact .inr ⟨front, hmarked⟩

/-! ## Declarations -/

/-- A value without a semicolon, behind a name and a colon, is a declaration if it can be one. -/
theorem Item.ofTokens_declaration {name colon : Token} {property : String} {value : List Component}
    (hname : name.kind = .ident property) (hcolon : colon.kind = .colon) (hvalue : IsArranged value)
    (hends : ∀ c ∈ value, c.isSemicolon = false) :
    Item.ofTokens (name :: colon :: listTokens value) =
      let v := splitImportant (value.dropWhile Component.isWhite)
      if isDeclarationValue v.value then
        [.declaration ⟨name, [], colon, value.takeWhile Component.isWhite, v.value, v.beforeMark,
          v.mark, v.afterMark⟩]
      else [.malformed (token name :: token colon :: value)] := by
  have harranged : Component.ofTokens (name :: colon :: listTokens value) =
      token name :: token colon :: value := by
    rw [ofTokens_cons_of_closer?_eq_none _ (by rw [hname]; rfl),
      ofTokens_cons_of_closer?_eq_none _ (by rw [hcolon]; rfl), hvalue]
  have hrun : ∀ cs : List Component, (∀ c ∈ cs, c ∈ token colon :: value) →
      splitRun (!endsDeclaration false ·) cs = (cs, []) := by
    intro cs hcs
    have hall : ∀ c ∈ cs, !endsDeclaration false c := by
      intro c hc
      rcases List.mem_cons.1 (hcs c hc) with rfl | hmem
      · simp [endsDeclaration, isSemicolon, hcolon, TokenKind.isSemicolon]
      · simp [endsDeclaration, hends c hmem]
    rw [splitRun, List.takeWhile_eq_self_iff.2 hall, List.dropWhile_eq_nil_iff.2 hall]
  have hbody := hrun (value.dropWhile Component.isWhite) fun c hc =>
    List.mem_cons_of_mem _ ((List.dropWhile_sublist _).mem hc)
  have hall := hrun (token colon :: value) fun c hc => hc
  have hcolonWhite : (token colon).isWhite = false := by
    simp [isWhite, Token.isWhite, hcolon, TokenKind.isWhite]
  have htake : Declaration.take? false (token name :: token colon :: value) =
      let v := splitImportant (value.dropWhile Component.isWhite)
      if isDeclarationValue v.value then
        some (⟨name, [], colon, value.takeWhile Component.isWhite, v.value, v.beforeMark, v.mark,
          v.afterMark⟩, [])
      else none := by
    have hgap : splitRun Component.isWhite (token colon :: value) = ([], token colon :: value) := by
      simp [splitRun, hcolonWhite]
    simp only [Declaration.take?, hname, hgap, hcolon, TokenKind.isColon, if_true]
    rw [show (splitRun Component.isWhite value).2 = value.dropWhile Component.isWhite from rfl, hbody]
    rfl
  have hitem : Item.take false (token name) (token colon :: value) =
      Item.takeDeclaration false (token name) (token colon :: value) := by
    simp [Item.take, Token.isWhite, hname, TokenKind.isWhite, TokenKind.isSemicolon]
  rw [Item.ofTokens, harranged, Item.ofComponents, Item.takeAll, Bool.false_and,
    if_neg Bool.false_ne_true, hitem, Item.takeDeclaration, htake]
  by_cases hv : isDeclarationValue (splitImportant (value.dropWhile Component.isWhite)).value
  · simp [hv, Item.takeAll]
  · simp [hv, Item.takeMalformed, hall, Item.takeAll]

private theorem Declaration.outcome_eq_result_iff (d : Declaration) (s : Setting) :
    d.outcome resolve = .result s ↔ ReadsSetting resolve d.property d.value s := by
  have hplace : ReadsSetting resolve d.property d.value s ↔
      ∃ c, setting resolve d.property (some d.name.location) (.ofList d.value none) = .ok s c :=
    ⟨fun ⟨_, h⟩ => setting_of_solid_eq rfl h, fun ⟨_, h⟩ => setting_of_solid_eq rfl h⟩
  rw [hplace, Declaration.outcome, EStateM.run]
  cases setting resolve d.property (some d.name.location) (.ofList d.value none) with
  | ok s' c => simp [Outcome.result]
  | error e c =>
    cases e with
    | fault f => simp [Outcome.result, Outcome.broken]
    | parse e =>
      by_cases he : e.category = .property <;> simp [he, Outcome.result, Outcome.report]

private theorem Item.listOutcome_declaration_iff_trimmed {name colon : Token} {property : String}
    {value : List Component} (hname : name.kind = .ident property) (hcolon : colon.kind = .colon)
    (hvalue : IsArranged value) (hends : ∀ c ∈ value, c.isSemicolon = false) (s : Setting) :
    Item.listOutcome resolve (Item.ofTokens (name :: colon :: listTokens value)) = .result s ↔
      isDeclarationValue (splitImportant (value.dropWhile Component.isWhite)).value ∧
        ReadsSetting resolve property (splitImportant (value.dropWhile Component.isWhite)).value s := by
  rw [Item.ofTokens_declaration hname hcolon hvalue hends, Item.listOutcome]
  dsimp only
  by_cases hv : isDeclarationValue (splitImportant (value.dropWhile Component.isWhite)).value
  · rw [if_pos hv, Outcome.collect_singleton, Item.outcome, Declaration.outcome_eq_result_iff,
      Declaration.property, hname]
    simp [hv]
  · rw [if_neg hv, Outcome.collect_singleton]
    simp [hv, Item.outcome, Outcome.result, Outcome.report]

/-- A value that is marked twice is not read as a whole. -/
private theorem ReadsSetting.not_markedTwice {property : String} {value : List Component}
    {s : Setting} (h : ReadsSetting resolve property value s) :
    ¬∃ once front, IsMarked once value ∧ IsMarked front once := by
  rintro ⟨once, front, honce, hfront⟩
  obtain ⟨bang, word, hbang, -, hsolid⟩ := honce.solid_eq
  exact (h.of_mark hbang hsolid).2 ⟨front, hfront⟩

/-- Without the mark and the white-space around it, a value is read as it is as a whole, or as it is with
one of two marks less. -/
private theorem readsSetting_splitImportant_iff (property : String) (value : List Component)
    (s : Setting) :
    (isDeclarationValue (splitImportant (value.dropWhile Component.isWhite)).value ∧
      ReadsSetting resolve property (splitImportant (value.dropWhile Component.isWhite)).value s) ↔
      ReadsSetting resolve property value s ∨ ∃ once front, IsMarked once value ∧
        IsMarked front once ∧ isDeclarationValue once ∧ ReadsSetting resolve property once s := by
  have hkept := solid_dropWhile value
  by_cases hmarked : ∃ inner, IsMarked inner (value.dropWhile Component.isWhite)
  · obtain ⟨inner, hmarked⟩ := hmarked
    obtain ⟨bang, word, hbang, hword, hsolid⟩ := hmarked.solid_eq
    rw [hkept, ← solid_dropTrailing inner] at hsolid
    rw [hmarked.value_splitImportant]
    constructor
    · intro hinside
      rcases hinside with ⟨hblock, hread⟩
      rcases hread.mark hbang hword hsolid with hwhole | hfront
      · exact .inl hwhole
      · obtain ⟨once, honce, hsame⟩ := exists_isMarked hbang hword hsolid
        obtain ⟨front, hfront⟩ := exists_isMarked_of_solid_eq hsame.symm hfront
        exact .inr ⟨once, front, honce, hfront,
          isDeclarationValue_of_solid_eq hread.solid_ne_nil hsame.symm hblock,
          setting_of_solid_eq hsame.symm hread.choose_spec⟩
    · rintro (hwhole | ⟨once, front, honce, -, hblock, hread⟩)
      · obtain ⟨hread, hunmarked⟩ := hwhole.of_mark hbang hsolid
        exact ⟨hread.isDeclarationValue hunmarked, hread⟩
      · obtain ⟨bang', word', -, -, hsolid'⟩ := honce.solid_eq
        rw [hsolid] at hsolid'
        have hsame := (List.append_inj' hsolid' rfl).1
        exact ⟨isDeclarationValue_of_solid_eq hread.solid_ne_nil hsame.symm hblock,
          setting_of_solid_eq hsame.symm hread.choose_spec⟩
  · have hsame : solid (dropTrailing Component.isWhite (value.dropWhile Component.isWhite)) =
        solid value := by
      rw [solid_dropTrailing, hkept]
    rw [splitImportant_of_not_isMarked hmarked, unmarked]
    constructor
    · intro hinside
      exact .inl (setting_of_solid_eq hsame hinside.2.choose_spec)
    · rintro (hwhole | ⟨once, front, honce, -, -⟩)
      · have hread : ReadsSetting resolve property _ s :=
          setting_of_solid_eq hsame.symm hwhole.choose_spec
        have hunmarked := fun h => hmarked (exists_isMarked_of_solid_eq (hsame.trans hkept.symm) h)
        exact ⟨hread.isDeclarationValue hunmarked, hread⟩
      · exact absurd (exists_isMarked_of_solid_eq hkept.symm ⟨once, honce⟩) hmarked

/-- Whatever resolves colours, a declaration makes the setting that its value is read as, as a whole. It also
makes one where the mark was written twice and the value is read with one mark less, which it is not as a
whole. -/
theorem Item.listOutcome_declaration_iff (resolve : Color.Resolver) {name colon : Token}
    {property : String} {value : List Component} (hname : name.kind = .ident property)
    (hcolon : colon.kind = .colon) (hvalue : IsArranged value)
    (hends : ∀ c ∈ value, c.isSemicolon = false) (s : Setting) :
    (Item.listOutcome resolve (Item.ofTokens (name :: colon :: listTokens value)) = .result s ↔
      ReadsSetting resolve property value s ∨ ∃ once front, IsMarked once value ∧
        IsMarked front once ∧ isDeclarationValue once ∧ ReadsSetting resolve property once s) ∧
    (ReadsSetting resolve property value s →
      ¬∃ once front, IsMarked once value ∧ IsMarked front once) := by
  refine ⟨?_, ReadsSetting.not_markedTwice⟩
  rw [Item.listOutcome_declaration_iff_trimmed hname hcolon hvalue hends,
    readsSetting_splitImportant_iff]

/-- The tokens of `none!important`, as a value. -/
def markedOnce : List Component :=
  [.token ⟨.ident "none", "none", ⟨1, 9⟩⟩, .token ⟨.delim '!', "!", ⟨1, 13⟩⟩,
    .token ⟨.ident "important", "important", ⟨1, 14⟩⟩]

/-- The same value with one more mark. -/
def markedTwice : List Component :=
  markedOnce ++ [.token ⟨.delim '!', "!", ⟨1, 23⟩⟩,
    .token ⟨.ident "important", "important", ⟨1, 24⟩⟩]

theorem Item.listOutcome_declaration_markedTwice :
    IsArranged markedTwice ∧ (∀ c ∈ markedTwice, c.isSemicolon = false) ∧
      ∀ resolve, Item.listOutcome resolve (Item.ofTokens (⟨.ident "display", "display", ⟨1, 1⟩⟩ ::
          ⟨.colon, ":", ⟨1, 8⟩⟩ :: listTokens markedTwice)) = .result ⟨.display, .none⟩ ∧
        ∀ s, ¬ReadsSetting resolve "display" markedTwice s := by
  have hname : (⟨.ident "display", "display", ⟨1, 1⟩⟩ : Token).kind = .ident "display" := rfl
  have hcolon : (⟨.colon, ":", ⟨1, 8⟩⟩ : Token).kind = .colon := rfl
  have harranged : IsArranged markedTwice := by rfl
  have hends : ∀ c ∈ markedTwice, c.isSemicolon = false := by decide
  have honce : IsMarked markedOnce markedTwice :=
    ⟨.token ⟨.delim '!', "!", ⟨1, 23⟩⟩, [], .token ⟨.ident "important", "important", ⟨1, 24⟩⟩, [],
      rfl, rfl, by decide, by simp, by simp⟩
  have hfront : IsMarked [.token ⟨.ident "none", "none", ⟨1, 9⟩⟩] markedOnce :=
    ⟨.token ⟨.delim '!', "!", ⟨1, 13⟩⟩, [], .token ⟨.ident "important", "important", ⟨1, 14⟩⟩, [],
      rfl, rfl, by decide, by simp, by simp⟩
  refine ⟨harranged, hends, fun resolve => ?_⟩
  have hread : ReadsSetting resolve "display" markedOnce ⟨.display, .none⟩ := ⟨_, by rfl⟩
  have hsettings := Item.listOutcome_declaration_iff resolve hname hcolon harranged hends
  exact ⟨(hsettings _).1.2 (.inr ⟨_, _, honce, hfront, by decide, hread⟩),
    fun s hwhole => (hsettings s).2 hwhole ⟨_, _, honce, hfront⟩⟩

end Styling
