import Styling.Proofs.Component.Arrangement
import Styling.Proofs.Rule.Basic
import Styling.Proofs.Rule.Declaration
import Styling.Proofs.Token.Stream

/-!
# Reading from a stream, and reading arranged component values

Every reader finds on a token stream what is read from the component values of the tokens ahead, and
leaves the stream in front of the tokens of what is left over, unless the source of the stream fails
(`StreamReader.Obtains`). A stream that does not fail is read to its end (`StreamReader.Exhausts`).
-/

namespace Styling.StreamReader

open TokenStream (Behind behind_self)

/-- On any stream that stands before `xs`, with any marks, the reader gives `a` and leaves the stream
before `ys` with the same marks. -/
def Reads (r : StreamReader α) (xs : List Token) (a : α) (ys : List Token) : Prop :=
  ∀ (ts : List Token) (marks : List Nat) (s : TokenStream), s.Stands ts marks xs →
    ∃ s', r s = pure (a, s') ∧ s'.Stands ts marks ys

/-- On any stream over tokens, at any place with `xs` ahead and with any marks, the reader gives `a` and leaves
the stream before `ys` with the same marks, unless the source of the stream fails. -/
def Obtains (r : StreamReader α) (xs : List Token) (a : α) (ys : List Token) : Prop :=
  ∀ ts e i marks s, s.IsAt ts e i marks → ts.drop i = xs →
    (∃ s', r s = pure (a, s') ∧ Behind ts e i marks ys s') ∨
      ∃ error, e = some error ∧ r s = throw (.range error)

variable {r : StreamReader α} {f : α → StreamReader β} {xs ys zs : List Token} {a : α} {b : β}

/-- A stream that does not fail is read to the end. -/
theorem Obtains.reads (h : Obtains r xs a ys) : Reads r xs a ys := by
  intro ts marks s hs
  obtain ⟨i, hat, hdrop, hstands⟩ := hs.isAt
  rcases h ts none i marks s hat hdrop with ⟨s', hrun, hbehind⟩ | ⟨error, hnone, -⟩
  · exact ⟨s', hrun, hstands ys s' hbehind⟩
  · cases hnone

theorem Obtains.pure (a : α) (xs : List Token) : Obtains (Pure.pure a) xs a xs := by
  intro ts e i marks s hs hdrop
  rw [← hdrop]
  exact .inl ⟨s, rfl, behind_self hs⟩

private theorem bind_of_ok {s s' : TokenStream} (h : r s = Pure.pure (a, s')) : (r >>= f) s = f a s' := by
  show (r s >>= fun (a, s) => f a s) = _
  rw [h, pure_bind]

private theorem bind_of_error {s : TokenStream} {fault : StreamFault} (h : r s = throw fault) :
    (r >>= f) s = throw fault := by
  show (r s >>= fun (a, s) => f a s) = _
  rw [h]
  rfl

theorem Obtains.bind (hr : Obtains r xs a ys) (hf : Obtains (f a) ys b zs) :
    Obtains (r >>= f) xs b zs := by
  intro ts e i marks s hs hdrop
  rcases hr ts e i marks s hs hdrop with ⟨s', hrun, n, hn, hdrop', hs'⟩ | ⟨error, he, hrun⟩
  · rw [bind_of_ok hrun]
    rcases hf ts e (i + n) marks s' hs' hdrop' with ⟨s'', hnext, hs''⟩ | hfails
    · exact .inl ⟨s'', hnext, hs''.trans hn hdrop'⟩
    · exact .inr hfails
  · exact .inr ⟨error, he, bind_of_error hrun⟩

theorem obtains_peek (xs : List Token) : Obtains peek xs xs.head? xs := by
  intro ts e i marks s hs hdrop
  rw [← hdrop, List.head?_drop]
  rcases hs.next with ⟨s', hnext, hs'⟩ | ⟨error, s', he, hnext⟩
  · exact .inl ⟨s', by simp [peek, hnext], behind_self hs'⟩
  · exact .inr ⟨error, he, by simp [peek, hnext]⟩

theorem obtains_consume (t : Token) (xs : List Token) : Obtains consume (t :: xs) t xs := by
  intro ts e i marks s hs hdrop
  have hhead : ts[i]? = some t := by rw [← List.head?_drop, hdrop, List.head?_cons]
  have htail : ts.drop (i + 1) = xs := by rw [← List.tail_drop, hdrop, List.tail_cons]
  rcases hs.consume with ⟨s', hnext, hs'⟩ | ⟨error, s', he, hnext⟩
  · rw [hhead] at hnext
    refine .inl ⟨s', by simp [consume, hnext], 1, ?_, htail, hs'⟩
    rw [hdrop, List.length_cons, Nat.add_comm]
  · exact .inr ⟨error, he, by simp [consume, hnext]⟩

theorem obtains_expect {p : TokenKind → Bool} {t : Token} (xs : List Token) (h : p t.kind) :
    Obtains (expect p) (t :: xs) () (t :: xs) := by
  apply (obtains_peek _).bind
  simp only [List.head?_cons, Option.any_some, h, if_true]
  exact .pure () _

/-- What was read under a mark stays read when the mark is dropped. -/
theorem Obtains.discard {next : StreamReader β} (hr : Obtains r xs a ys)
    (hf : f a = discardMark >>= fun _ => next) (hnext : Obtains next ys b zs) :
    Obtains (mark >>= fun _ => r >>= f) xs b zs := by
  intro ts e i marks s hs hdrop
  have hmark : (mark >>= fun _ => r >>= f) s = (r >>= f) s.mark := rfl
  rw [hmark]
  rcases hr ts e i (i :: marks) s.mark hs.mark hdrop with
    ⟨read, hrun, n, hn, hdrop', hread⟩ | ⟨error, he, hrun⟩
  · obtain ⟨dropped, hdiscard, hdropped⟩ := hread.discardMark?
    have hstep : discardMark read = Pure.pure ((), dropped) := by simp [discardMark, hdiscard]
    rw [bind_of_ok hrun, hf, bind_of_ok hstep]
    rcases hnext ts e (i + n) marks dropped hdropped hdrop' with ⟨final, hlast, hfinal⟩ | hfails
    · exact .inl ⟨final, hlast, hfinal.trans hn hdrop'⟩
    · exact .inr hfails
  · exact .inr ⟨error, he, bind_of_error hrun⟩

/-- Going back to a mark undoes what was read since it was set. -/
theorem Obtains.restore {next : StreamReader β} (hr : Obtains r xs a ys)
    (hf : f a = restoreMark >>= fun _ => next) (hnext : Obtains next xs b zs) :
    Obtains (mark >>= fun _ => r >>= f) xs b zs := by
  intro ts e i marks s hs hdrop
  have hmark : (mark >>= fun _ => r >>= f) s = (r >>= f) s.mark := rfl
  rw [hmark]
  rcases hr ts e i (i :: marks) s.mark hs.mark hdrop with
    ⟨read, hrun, n, -, -, hread⟩ | ⟨error, he, hrun⟩
  · obtain ⟨back, hrestore, hback⟩ := hread.restoreMark? (Nat.le_add_right i n)
    have hstep : restoreMark read = Pure.pure ((), back) := by simp [restoreMark, hrestore]
    rw [bind_of_ok hrun, hf, bind_of_ok hstep]
    exact hnext ts e i marks back hback hdrop
  · exact .inr ⟨error, he, bind_of_error hrun⟩

/-! ## Component values -/

open Component

/-- In the last turn nothing more is read. -/
private theorem Obtains.last (a : α) (rest : StreamReader α) (xs : List Token) :
    Obtains (Pure.pure (Turn.done a) >>= PartialReader.after rest) xs a xs :=
  .pure a xs

/-- In any other turn the turns after it are read. -/
private theorem Obtains.more {rest : StreamReader α} (hr : Obtains rest xs a ys) (g : α → α) :
    Obtains (Pure.pure (Turn.more g) >>= PartialReader.after rest) xs (g a) ys :=
  hr.bind (f := fun a => Pure.pure (g a)) (.pure (g a) ys)

theorem white_eq : white = whiteTurn >>= PartialReader.after white := PartialReader.untilDone_eq _

theorem componentsUntil_eq (ends : TokenKind → Bool) :
    componentsUntil ends = componentTurn ends >>= PartialReader.after (componentsUntil ends) :=
  PartialReader.untilDone_eq _

theorem obtains_white {cs : List Component} (h : ∀ c ∈ cs, HeadFits c) :
    Obtains white (listTokens cs) (splitRun Component.isWhite cs).1
      (listTokens (splitRun Component.isWhite cs).2) := by
  induction cs with
  | nil =>
    rw [white_eq, whiteTurn, bind_assoc]
    exact (obtains_peek _).bind (.last [] _ _)
  | cons c cs ih =>
    obtain ⟨hc, hcs⟩ := List.forall_mem_cons.1 h
    rw [white_eq, whiteTurn, bind_assoc]
    apply (obtains_peek _).bind
    rw [head?_listTokens_cons]
    simp only [hc.isWhite_head]
    by_cases hwhite : c.isWhite
    · cases c with
      | group => simp [Component.isWhite] at hwhite
      | token t =>
        simp only [hwhite, if_true, splitRun, List.takeWhile_cons_of_pos, List.dropWhile_cons_of_pos]
        rw [bind_assoc]
        exact (obtains_consume t _).bind ((ih hcs).more (.token t :: ·))
    · simp only [hwhite, splitRun, Bool.false_eq_true, if_false, not_false_eq_true,
        List.takeWhile_cons_of_neg, List.dropWhile_cons_of_neg]
      exact .last [] _ _

/-- Reading what a group holds, when each component value in it can be read. -/
private theorem obtains_contents_of {head : Token} {items cs : List Component}
    {closing : Option Token}
    (hread : ∀ c ds, IsArranged (c :: ds) →
      (listTokens (c :: ds)).length ≤ (listTokens (items ++ (closing.map token).toList ++ cs)).length →
        Obtains c.head.component (listTokens (c :: ds)) c (listTokens ds))
    (harr : IsArranged (items ++ (closing.map token).toList ++ cs))
    (hitems : ∀ c ∈ items, ¬closes head c) (hclosing : ∀ t ∈ closing, closes head (token t))
    (hend : closing = none → cs = []) :
    Obtains head.contents (listTokens (items ++ (closing.map token).toList ++ cs)) (items, closing)
      (listTokens cs) := by
  induction items with
  | nil =>
    rw [Token.contents]
    cases closing with
    | none =>
      rw [hend rfl]
      exact (obtains_peek _).bind (.pure _ _)
    | some t =>
      have ht : head.kind.closer?.any (t.kind.isClosing ·) := hclosing t rfl
      apply (obtains_peek _).bind
      simp only [List.nil_append, Option.map_some, Option.toList_some, List.singleton_append,
        head?_listTokens_cons, Component.head, ht, if_true]
      exact (obtains_consume t _).bind (.pure _ _)
  | cons c items ih =>
    have hfits := harr.headFits c List.mem_cons_self
    have hnot : head.kind.closer?.any (c.head.kind.isClosing ·) = false := by
      rw [hfits.closes_head]
      simpa using hitems c List.mem_cons_self
    have hrest := ih (fun d ds hd hlen => hread d ds hd (hlen.trans (by simp [listTokens])))
      harr.tail (fun d hd => hitems d (List.mem_cons_of_mem c hd))
    rw [Token.contents]
    apply (obtains_peek _).bind
    simp only [List.cons_append, head?_listTokens_cons, hnot, Bool.false_eq_true, if_false]
    exact (hread c _ harr le_rfl).bind (hrest.bind (.pure _ _))

private theorem obtains_group_of {head : Token} {items cs : List Component} {closing : Option Token}
    (hread : ∀ c ds, IsArranged (c :: ds) → (listTokens (c :: ds)).length <
      (listTokens (.group head items closing :: cs)).length →
        Obtains c.head.component (listTokens (c :: ds)) c (listTokens ds))
    (h : IsArranged (.group head items closing :: cs)) :
    Obtains head.group (listTokens (.group head items closing :: cs)) (.group head items closing)
      (listTokens cs) := by
  obtain ⟨hopen, harr, hitems, hclosing, hend⟩ := h.group_cons
  rw [listTokens_group_cons] at hread ⊢
  have hcontents := obtains_contents_of (fun c ds hc hlen => hread c ds hc (Nat.lt_succ_of_le hlen))
    harr hitems hclosing hend
  rw [Token.group, if_pos hopen]
  exact (obtains_consume head _).bind (hcontents.bind (.pure _ _))

theorem obtains_component {c : Component} {cs : List Component} (h : IsArranged (c :: cs)) :
    Obtains c.head.component (listTokens (c :: cs)) c (listTokens cs) := by
  -- What a group holds is read in turn, before fewer tokens than the group itself.
  induction hn : (listTokens (c :: cs)).length using Nat.strong_induction_on generalizing c cs with
  | _ n ih =>
    rw [Token.component]
    cases c with
    | token t =>
      simp only [Component.head, h.closer?_eq_none, Option.isSome_none, Bool.false_eq_true, if_false]
      exact (obtains_consume t _).bind (.pure _ _)
    | group head items closing =>
      simp only [Component.head, h.group_cons.1, if_true]
      exact obtains_group_of (fun d ds hd hlen => ih _ (hn ▸ hlen) hd rfl) h

theorem obtains_group {head : Token} {items cs : List Component} {closing : Option Token}
    (h : IsArranged (.group head items closing :: cs)) :
    Obtains head.group (listTokens (.group head items closing :: cs)) (.group head items closing)
      (listTokens cs) :=
  obtains_group_of (fun _ _ hd _ => obtains_component hd) h

/-- Reading up to a token that ends the component values takes those in front of the first whose
first token does. -/
theorem obtains_componentsUntil {ends : TokenKind → Bool} {p : Component → Bool}
    {cs : List Component} (h : IsArranged cs) (hp : ∀ c, HeadFits c → ends c.head.kind = p c) :
    Obtains (componentsUntil ends) (listTokens cs) (splitRun (!p ·) cs).1
      (listTokens (splitRun (!p ·) cs).2) := by
  induction cs with
  | nil =>
    rw [componentsUntil_eq, componentTurn, bind_assoc]
    exact (obtains_peek _).bind (.last [] _ _)
  | cons c cs ih =>
    rw [componentsUntil_eq, componentTurn, bind_assoc]
    apply (obtains_peek _).bind
    simp only [head?_listTokens_cons, hp c (h.headFits c List.mem_cons_self)]
    by_cases hc : p c
    · simp only [hc, if_true, splitRun, Bool.not_true, Bool.false_eq_true, not_false_eq_true,
        List.takeWhile_cons_of_neg, List.dropWhile_cons_of_neg]
      exact .last [] _ _
    · simp only [hc, Bool.false_eq_true, if_false, splitRun, Bool.not_false,
        List.takeWhile_cons_of_pos, List.dropWhile_cons_of_pos, bind_assoc]
      exact (obtains_component h).bind ((ih h.tail).more (c :: ·))

theorem obtains_components {cs : List Component} (h : IsArranged cs) :
    Obtains components (listTokens cs) cs [] := by
  have hread : Obtains components (listTokens cs) (splitRun (fun _ => !false) cs).1 _ :=
    obtains_componentsUntil (p := fun _ => false) h (fun _ _ => rfl)
  have hall : splitRun (fun _ : Component => !false) cs = (cs, []) := by simp [splitRun]
  rwa [hall] at hread

/-! ## Declaration lists -/

theorem endsDeclaration_head (nested : Bool) {c : Component} (h : HeadFits c) :
    endsDeclaration nested c.head.kind = Styling.endsDeclaration nested c := by
  rw [endsDeclaration, Styling.endsDeclaration, h.isSemicolon_head, h.isClosing_head]

theorem endsPrelude_head (nested : Bool) {c : Component} (h : HeadFits c) :
    endsPrelude nested c.head.kind = AtRule.endsPrelude nested c := by
  rw [endsPrelude, endsDeclaration, AtRule.endsPrelude, h.isSemicolon_head, h.isClosing_head,
    h.opensBrace_head, Bool.or_right_comm]

theorem obtains_atRule (nested : Bool) {keyword : Token} {name : String} {cs : List Component}
    (hkind : keyword.kind = .atKeyword name) (h : IsArranged cs) :
    Obtains (atRule nested) (keyword :: listTokens cs) (AtRule.take nested keyword cs).1
      (listTokens (AtRule.take nested keyword cs).2) := by
  have hprelude := obtains_componentsUntil h (fun c hc => endsPrelude_head nested hc)
  have hrest : IsArranged (splitRun (!AtRule.endsPrelude nested ·) cs).2 :=
    h.of_isSuffix (isSuffix_splitRun _ _)
  rw [atRule]
  apply (obtains_expect _ (by rw [hkind])).bind
  apply (obtains_consume keyword _).bind
  apply hprelude.bind
  apply (obtains_peek _).bind
  rw [AtRule.take]
  generalize hsplit : splitRun (!AtRule.endsPrelude nested ·) cs = split at hrest ⊢
  rcases split with ⟨prelude, rest⟩
  cases rest with
  | nil => exact .pure _ _
  | cons c rest =>
    have hends : AtRule.endsPrelude nested c := by
      simpa using not_of_splitRun_eq_cons (congrArg Prod.snd hsplit)
    have hfits := hrest.headFits c List.mem_cons_self
    simp only [head?_listTokens_cons, hfits.isSemicolon_head]
    cases c with
    | token t =>
      simp only [Component.head, hrest.closer?_eq_none, Option.isSome_none, Bool.false_eq_true,
        if_false]
      by_cases hsemi : (Component.token t).isSemicolon
      · have hbrace : (Component.token t).isStrayBrace = false := by
          rw [← Bool.not_eq_true]
          intro hbrace
          rw [isSemicolon_eq_false_of_isStrayBrace hbrace] at hsemi
          contradiction
        simp only [hsemi, hbrace, Bool.and_false, Bool.false_eq_true, if_false, if_true]
        exact (obtains_consume t _).bind (.pure _ _)
      · have hbrace : nested && (Component.token t).isStrayBrace := by
          simpa [AtRule.endsPrelude, hsemi, Component.isBraceBlock] using hends
        simp only [hsemi, hbrace, Bool.false_eq_true, if_false, if_true]
        exact .pure _ _
    | group head items closing =>
      have hopen := hrest.group_cons.1
      simp only [Component.isSemicolon, Component.isStrayBrace, Component.head, hopen, Bool.and_false,
        Bool.false_eq_true, if_false, if_true]
      exact (obtains_group hrest).bind (.pure _ _)

private theorem isColon_eq_false_of_closer? {kind : TokenKind} (h : kind.closer?.isSome) :
    kind.isColon = false := by
  cases kind <;> simp_all [TokenKind.closer?, TokenKind.isColon]

/-- A reader for a declaration finds in `cs` the one that is there, if any, and stops before the component
values that follow the declaration. -/
def FindsDeclaration (nested : Bool) (cs : List Component) : Prop :=
  ∃ rest, (∀ found ∈ Declaration.take? nested cs, rest = found.2) ∧
    Obtains (declaration nested) (listTokens cs) ((Declaration.take? nested cs).map Prod.fst)
      (listTokens rest)

private theorem findsDeclaration_group {nested : Bool} {head : Token} {items cs : List Component}
    {closing : Option Token} (h : IsArranged (.group head items closing :: cs)) :
    FindsDeclaration nested (.group head items closing :: cs) := by
  rcases head with ⟨kind, source, location⟩
  have hopen := h.group_cons.1
  refine ⟨.group ⟨kind, source, location⟩ items closing :: cs, by simp [Declaration.take?], (obtains_peek _).bind ?_⟩
  rw [head?_listTokens_cons]
  cases kind with
  | ident _ => cases hopen
  | _ => exact .pure _ _

private theorem findsDeclaration_of_colon {nested : Bool} {name : String} {source : String}
    {location : Source.Location} {colon : Token} {cs rest afterName : List Component}
    (h : IsArranged (.token ⟨.ident name, source, location⟩ :: cs))
    (hsplit : splitRun Component.isWhite cs = (afterName, .token colon :: rest))
    (hcolon : colon.kind.isColon) :
    FindsDeclaration nested (.token ⟨.ident name, source, location⟩ :: cs) := by
  have hname := obtains_white h.tail.headFits
  have hrest : (Component.token colon :: rest) <:+ cs := by
    have hdrop := isSuffix_splitRun Component.isWhite cs
    rwa [hsplit] at hdrop
  have harr : IsArranged rest := (h.tail.of_isSuffix hrest).tail
  have hwhite := obtains_white harr.headFits
  have hbody := obtains_componentsUntil (harr.of_isSuffix (isSuffix_splitRun Component.isWhite rest))
    (fun c hc => endsDeclaration_head nested hc)
  rw [hsplit] at hname
  refine ⟨(splitRun (!Styling.endsDeclaration nested ·) (splitRun Component.isWhite rest).2).2, ?_, (obtains_peek _).bind ((obtains_consume _ _).bind (hname.bind ?_))⟩
  · simp only [Declaration.take?, hsplit, hcolon, if_true]
    split <;> simp
  · apply (obtains_peek _).bind
    simp only [head?_listTokens_cons, Component.head, Option.any_some, hcolon, if_true]
    refine (obtains_consume colon _).bind (hwhite.bind (hbody.bind ?_))
    simp only [cutImportant_eq_splitImportant, Declaration.take?, hsplit, hcolon, if_true]
    split
    · exact .pure _ _
    · exact .pure _ _

private theorem findsDeclaration_ident {nested : Bool} {name : String} {source : String}
    {location : Source.Location} {cs : List Component}
    (h : IsArranged (.token ⟨.ident name, source, location⟩ :: cs)) :
    FindsDeclaration nested (.token ⟨.ident name, source, location⟩ :: cs) := by
  have hname := obtains_white h.tail.headFits
  have hrest := h.tail.of_isSuffix (isSuffix_splitRun Component.isWhite cs)
  cases hsplit : splitRun Component.isWhite cs with
  | mk afterName rest =>
    rw [hsplit] at hname hrest
    cases rest with
    | nil =>
      refine ⟨[], by simp [Declaration.take?, hsplit], ?_⟩
      simp only [Declaration.take?, hsplit]
      exact (obtains_peek _).bind ((obtains_consume _ _).bind (hname.bind
        ((obtains_peek _).bind (.pure _ _))))
    | cons c rest =>
      by_cases hcolon : c.head.kind.isColon
      · cases c with
        | group head items closing =>
          have hnot := isColon_eq_false_of_closer? hrest.group_cons.1
          rw [Component.head, hnot] at hcolon
          contradiction
        | token colon => exact findsDeclaration_of_colon h hsplit hcolon
      · have hnone : Declaration.take? nested (.token ⟨.ident name, source, location⟩ :: cs) = none := by
          cases c with
          | group head items closing => simp [Declaration.take?, hsplit]
          | token colon =>
            have hcolon' : ¬colon.kind.isColon := hcolon
            simp [Declaration.take?, hsplit, hcolon']
        refine ⟨c :: rest, by simp [hnone], ?_⟩
        rw [hnone]
        refine (obtains_peek _).bind ((obtains_consume _ _).bind (hname.bind ((obtains_peek _).bind ?_)))
        simp only [head?_listTokens_cons, Option.any_some, hcolon, Bool.false_eq_true, if_false]
        exact .pure _ _

/-- Reading a declaration finds the one that is there, if any. -/
theorem obtains_declaration (nested : Bool) {cs : List Component} (h : IsArranged cs) :
    FindsDeclaration nested cs := by
  cases cs with
  | nil => exact ⟨[], by simp [Declaration.take?], (obtains_peek _).bind (.pure _ _)⟩
  | cons c cs =>
    cases c with
    | group head items closing => exact findsDeclaration_group h
    | token name =>
      rcases name with ⟨kind, source, location⟩
      cases kind with
      | ident value => exact findsDeclaration_ident h
      | _ =>
        exact ⟨_ :: cs, by simp [Declaration.take?], (obtains_peek _).bind (.pure _ _)⟩

theorem obtains_malformed (nested : Bool) {cs : List Component} (h : IsArranged cs) :
    Obtains (malformed nested) (listTokens cs) (Item.takeMalformed nested cs).1
      (listTokens (Item.takeMalformed nested cs).2) := by
  have hbody := obtains_componentsUntil h (fun c hc => endsDeclaration_head nested hc)
  have hrest := h.of_isSuffix (isSuffix_splitRun (!Styling.endsDeclaration nested ·) cs)
  rw [malformed]
  refine hbody.bind ((obtains_peek _).bind ?_)
  rw [Item.takeMalformed]
  generalize splitRun (!Styling.endsDeclaration nested ·) cs = split at hrest ⊢
  rcases split with ⟨body, rest⟩
  cases rest with
  | nil => exact .pure _ _
  | cons c rest =>
    have hfits := hrest.headFits c List.mem_cons_self
    simp only [head?_listTokens_cons, Option.any_some, hfits.isSemicolon_head]
    by_cases hsemi : c.isSemicolon
    · cases c with
      | group => cases hsemi
      | token t =>
        simp only [hsemi, if_true]
        exact (obtains_consume t _).bind (.pure _ _)
    · simp only [hsemi, Bool.false_eq_true, if_false]
      exact .pure _ _

private theorem takeMalformed_cons {nested : Bool} {c : Component} (cs : List Component)
    (h : Styling.endsDeclaration nested c = false) : Item.takeMalformed nested (c :: cs) =
      (c :: (Item.takeMalformed nested cs).1, (Item.takeMalformed nested cs).2) := by
  have hsplit : splitRun (!Styling.endsDeclaration nested ·) (c :: cs) =
      (c :: (splitRun (!Styling.endsDeclaration nested ·) cs).1,
        (splitRun (!Styling.endsDeclaration nested ·) cs).2) := by simp [splitRun, h]
  simp only [Item.takeMalformed, hsplit]
  cases (splitRun (!Styling.endsDeclaration nested ·) cs).2 with
  | nil => rfl
  | cons d rest => by_cases hd : d.isSemicolon <;> simp [hd]

theorem obtains_declarationOrMalformed {nested : Bool} {c : Component} {cs : List Component}
    (h : IsArranged (c :: cs)) (hc : Styling.endsDeclaration nested c = false) :
    Obtains (declarationOrMalformed nested) (listTokens (c :: cs)) (Item.takeDeclaration nested c cs).1
      (listTokens (Item.takeDeclaration nested c cs).2) := by
  obtain ⟨rest, hfound, hread⟩ := obtains_declaration nested h
  rw [Item.takeDeclaration]
  cases hd : Declaration.take? nested (c :: cs) with
  | some found =>
    rw [hd] at hread
    obtain rfl := hfound found hd
    exact hread.discard rfl (.pure _ _)
  | none =>
    rw [hd] at hread
    refine hread.restore rfl ((obtains_peek _).bind ?_)
    have hfits := h.headFits c List.mem_cons_self
    simp only [head?_listTokens_cons, Option.any_some, hfits.isClosing_head]
    by_cases hbrace : c.isStrayBrace
    · cases c with
      | group => cases hbrace
      | token t =>
        simp only [hbrace, if_true]
        exact (obtains_consume t _).bind ((obtains_malformed nested h.tail).bind (.pure _ _))
    · have hmalformed := obtains_malformed nested h
      rw [takeMalformed_cons cs hc] at hmalformed
      simp only [hbrace, Bool.false_eq_true, if_false]
      exact hmalformed.bind (.pure _ _)

private theorem endsDeclaration_eq_false {nested : Bool} {c : Component}
    (hbrace : (nested && c.isStrayBrace) = false) (hsemi : c.isSemicolon = false) :
    Styling.endsDeclaration nested c = false := by
  rw [Styling.endsDeclaration, hsemi, hbrace]
  rfl

theorem obtains_item {nested : Bool} {c : Component} {cs : List Component}
    (h : IsArranged (c :: cs)) (hc : (nested && c.isStrayBrace) = false) :
    Obtains (item nested c.head) (listTokens (c :: cs)) (Item.take nested c cs).1
      (listTokens (Item.take nested c cs).2) := by
  have hfits := h.headFits c List.mem_cons_self
  rw [item, hfits.isWhite_head, hfits.isSemicolon_head]
  cases c with
  | group head items closing =>
    have hread := obtains_declarationOrMalformed h (endsDeclaration_eq_false hc rfl)
    have hopen := h.group_cons.1
    simp only [Component.isWhite, Component.isSemicolon, Component.head, Bool.or_self,
      Bool.false_eq_true, if_false]
    cases hkind : head.kind with
    | atKeyword name =>
      rw [hkind] at hopen
      cases hopen
    | _ => exact hread
  | token t =>
    simp only [Component.isWhite, Component.isSemicolon, Component.head, Item.take]
    by_cases hloose : t.isWhite || t.kind.isSemicolon
    · simp only [hloose, if_true]
      exact (obtains_consume t _).bind (.pure _ _)
    · simp only [hloose, Bool.false_eq_true, if_false]
      have hsemi : t.kind.isSemicolon = false := by simp_all
      have hread := obtains_declarationOrMalformed h (endsDeclaration_eq_false hc hsemi)
      cases hkind : t.kind with
      | atKeyword name => exact (obtains_atRule nested hkind h.tail).bind (.pure _ _)
      | _ => exact hread

theorem items_eq (nested : Bool) :
    items nested = itemTurn nested >>= PartialReader.after (items nested) :=
  PartialReader.untilDone_eq _

/-- The items of a declaration list, up to the `}` that ends it inside a block. -/
theorem obtains_items (nested : Bool) {cs : List Component} (h : IsArranged cs) :
    Obtains (items nested) (listTokens cs) (Item.takeAll nested cs).1
      (listTokens (Item.takeAll nested cs).2) := by
  fun_induction Item.takeAll nested cs with
  | case1 =>
    rw [items_eq, itemTurn, bind_assoc]
    exact (obtains_peek _).bind (.last [] _ _)
  | case2 c cs hc =>
    have hfits := h.headFits c List.mem_cons_self
    rw [items_eq, itemTurn, bind_assoc]
    apply (obtains_peek _).bind
    simp only [head?_listTokens_cons, hfits.isClosing_head, hc, if_true]
    exact .last [] _ _
  | case3 c cs hc first others ih =>
    have hfits := h.headFits c List.mem_cons_self
    have hstop : (nested && c.isStrayBrace) = false := by simpa using hc
    have hrest : first.2 <:+ c :: cs := ⟨_, Item.components_take nested c cs⟩
    rw [items_eq, itemTurn, bind_assoc]
    apply (obtains_peek _).bind
    simp only [head?_listTokens_cons, hfits.isClosing_head, hstop, Bool.false_eq_true, if_false, bind_assoc]
    exact (obtains_item h hstop).bind ((ih (h.of_isSuffix hrest)).more _)

/-! ## Rules -/

theorem obtains_block {head : Token} {contents cs : List Component} {closing : Option Token}
    (h : IsArranged (.group head contents closing :: cs))
    (hblock : (Component.group head contents closing).isBraceBlock) :
    Obtains block (listTokens (.group head contents closing :: cs))
      (Block.ofGroup head contents closing) (listTokens cs) := by
  obtain ⟨-, harr, -, hclosing, hend⟩ := h.group_cons
  have hopen := closer?_of_isBraceBlock hblock
  have hitems := obtains_items true harr
  rw [List.append_assoc, takeAll_of_isBraceBlock h hblock] at hitems
  rw [listTokens_group_cons, List.append_assoc, block]
  apply (obtains_expect _ (by rw [hopen]; rfl)).bind
  refine (obtains_consume head _).bind (hitems.bind ((obtains_peek _).bind ?_))
  cases closing with
  | none =>
    rw [hend rfl]
    exact .pure _ _
  | some t =>
    have ht : t.kind.isClosing .brace := by
      have hcloses := hclosing t rfl
      rwa [closes_eq_isStrayBrace hopen] at hcloses
    exact (obtains_expect (listTokens cs) ht).bind ((obtains_consume t _).bind (.pure _ _))

theorem reads_block {head : Token} {contents cs : List Component} {closing : Option Token}
    (h : IsArranged (.group head contents closing :: cs))
    (hblock : (Component.group head contents closing).isBraceBlock) :
    Reads block (listTokens (.group head contents closing :: cs))
      (Block.ofGroup head contents closing) (listTokens cs) :=
  (obtains_block h hblock).reads

theorem obtains_qualifiedRule {cs : List Component} (h : IsArranged cs) :
    Obtains qualifiedRule (listTokens cs) (Rule.takeQualified cs).1
      (listTokens (Rule.takeQualified cs).2) := by
  have hprelude : Obtains (componentsUntil (·.closer? == some .brace)) (listTokens cs)
      (splitRun (!·.isBraceBlock) cs).1 (listTokens (splitRun (!·.isBraceBlock) cs).2) :=
    obtains_componentsUntil h (fun c hc => hc.opensBrace_head)
  have hrest := h.of_isSuffix (isSuffix_splitRun (!·.isBraceBlock) cs)
  rw [qualifiedRule]
  refine hprelude.bind ((obtains_peek _).bind ?_)
  rw [Rule.takeQualified]
  generalize hsplit : splitRun (!·.isBraceBlock) cs = split at hrest ⊢
  rcases split with ⟨prelude, rest⟩
  cases rest with
  | nil => exact .pure _ _
  | cons c rest =>
    have hblock : c.isBraceBlock := by
      simpa using not_of_splitRun_eq_cons (congrArg Prod.snd hsplit)
    rw [head?_listTokens_cons]
    cases c with
    | token t => cases hblock
    | group head contents closing => exact (obtains_block hrest hblock).bind (.pure _ _)

theorem obtains_rule {c : Component} {cs : List Component} (h : IsArranged (c :: cs)) :
    Obtains (rule c.head) (listTokens (c :: cs)) (Rule.take c cs).1
      (listTokens (Rule.take c cs).2) := by
  have hqualified := obtains_qualifiedRule h
  rw [rule]
  cases c with
  | group head contents closing =>
    have hopen := h.group_cons.1
    rcases head with ⟨kind, source, location⟩
    cases kind with
    | function name => exact hqualified
    | opening b => exact hqualified
    | _ => cases hopen
  | token t =>
    simp only [Component.head, Rule.take]
    by_cases hloose : Rule.isLoose t.kind
    · simp only [hloose, if_true]
      exact (obtains_consume t _).bind (.pure _ _)
    · simp only [hloose, Bool.false_eq_true, if_false]
      cases hkind : t.kind with
      | atKeyword name => exact (obtains_atRule false hkind h.tail).bind (.pure _ _)
      | _ => exact hqualified

theorem rules_eq : rules = ruleTurn >>= PartialReader.after rules := PartialReader.untilDone_eq _

/-- The rules of a stylesheet. -/
theorem obtains_rules {cs : List Component} (h : IsArranged cs) :
    Obtains rules (listTokens cs) (Rule.ofComponents cs) [] := by
  fun_induction Rule.ofComponents cs with
  | case1 =>
    rw [rules_eq, ruleTurn, bind_assoc]
    exact (obtains_peek _).bind (.last [] _ _)
  | case2 c cs first ih =>
    rw [rules_eq, ruleTurn, bind_assoc]
    apply (obtains_peek _).bind
    simp only [head?_listTokens_cons, bind_assoc]
    exact (obtains_rule h).bind ((ih (h.of_isSuffix (Rule.isSuffix_take c cs))).more _)

/-! ## Whole streams -/

/-- On a stream over `ts` the reader ends without a fault and gives `a`; it has consumed every token
and left no mark. -/
def Exhausts (r : StreamReader α) (ts : List Token) (a : α) : Prop :=
  ∃ s, r.run (TokenStream.ofList ts) = some (.ok (a, s)) ∧
    s.index = ts.length ∧ s.source = [] ∧ s.marks = []

private theorem Obtains.exhausts {ts : List Token} (h : Obtains r ts a []) : Exhausts r ts a := by
  obtain ⟨s, hrun, hs⟩ := h.reads ts [] _ (TokenStream.stands_ofList ts)
  exact ⟨s, hrun, hs.nil⟩

theorem exhausts_components (ts : List Token) :
    Exhausts components ts (Component.ofTokens ts) := by
  have hread := obtains_components (isArranged_ofTokens ts)
  rw [Component.listTokens_ofTokens] at hread
  exact hread.exhausts

theorem exhausts_items (ts : List Token) : Exhausts (items false) ts (Item.ofTokens ts) := by
  have hread := obtains_items false (isArranged_ofTokens ts)
  rw [Component.listTokens_ofTokens, Item.snd_takeAll_false] at hread
  exact hread.exhausts

theorem exhausts_rules (ts : List Token) : Exhausts rules ts (Rule.ofTokens ts) := by
  have hread := obtains_rules (isArranged_ofTokens ts)
  rw [Component.listTokens_ofTokens] at hread
  exact hread.exhausts

/-- Component values, declaration lists and rules are read from any tokens without a fault. The
readers consume all of them, drop every mark they set, find what the arranged tokens hold, and lose
no token. -/
theorem readers_exhaust_stream (ts : List Token) :
    (Exhausts components ts (Component.ofTokens ts) ∧
      listTokens (Component.ofTokens ts) = ts) ∧
    (Exhausts (items false) ts (Item.ofTokens ts) ∧
      listTokens (Item.listComponents (Item.ofTokens ts)) = ts) ∧
    (Exhausts rules ts (Rule.ofTokens ts) ∧
      (Rule.ofTokens ts).flatMap Rule.tokens = ts) :=
  ⟨⟨exhausts_components ts, Component.listTokens_ofTokens ts⟩,
    ⟨exhausts_items ts, Item.listTokens_ofTokens ts⟩,
    ⟨exhausts_rules ts, Rule.flatMap_tokens_ofTokens ts⟩⟩

end Styling.StreamReader
