import Styling.Component.Basic
import Styling.Runs

/-!
# The arrangement of tokens from behind

`Component.ofTokens` arranges tokens in one pass and keeps the open groups on a stack. The same
component values arise from the last token on: every token is put in front of the component values
of the tokens after it, and one that opens a group takes up those before the bracket that closes it
(`Component.ofTokens_cons`). Hence no token is lost (`Component.listTokens_ofTokens`), and tokens
that leave no group open are arranged independently of those after them (`Component.ofTokens_append`).
Of component values that were arranged, every tail is arranged too (`Component.IsArranged`).
-/

namespace Styling

namespace Component

/-- Whether a component value is the bare bracket that closes a group with the given head. -/
def closes (head : Token) : Component → Bool
  | token t => head.kind.closer?.any (t.kind.isClosing ·)
  | group .. => false

/-- Ends a group, which holds `items` already, where its bracket is found among the component values
after it. -/
def enclose (head : Token) (items cs : List Component) : List Component :=
  let split := splitRun (!closes head ·) cs
  match split.2 with
  | token t :: after => group head (items ++ split.1) (some t) :: after
  | _ => [group head (items ++ split.1) none]

/-- Puts a token in front of the component values after it. -/
def prepend (t : Token) (cs : List Component) : List Component :=
  if t.kind.closer?.isSome then enclose t [] cs else token t :: cs

theorem enclose_nil (head : Token) (items : List Component) :
    enclose head items [] = [group head items none] := by
  simp [enclose, splitRun]

theorem enclose_cons_of_closes {head t : Token} (items cs : List Component)
    (h : closes head (token t)) :
    enclose head items (token t :: cs) = group head items (some t) :: cs := by
  simp [enclose, splitRun, h]

theorem enclose_cons_of_not_closes {head : Token} {c : Component} (items cs : List Component)
    (h : ¬closes head c) : enclose head items (c :: cs) = enclose head (items ++ [c]) cs := by
  simp [enclose, splitRun, h]

/-- A bracket that closes a group opens none. -/
theorem closer?_eq_none_of_closes {head t : Token} (h : closes head (token t)) :
    t.kind.closer? = none := by
  rcases t with ⟨kind, source, location⟩
  cases kind <;> simp_all [closes, TokenKind.isClosing, TokenKind.closer?]

end Component

namespace Builder

open Component

/-- The component values of a builder when those of the tokens still to be read are `cs`. -/
def finishBefore (b : Builder) (cs : List Component) : List Component :=
  b.finished.reverse ++ b.frames.foldl (fun cs f => enclose f.head f.items.reverse cs) cs

private theorem reverse_closeFrames (top : List Component) (fs : List Frame)
    (inner : Option Component) (h : ∀ c ∈ inner, ∀ head, ¬closes head c) :
    (closeFrames top fs inner).reverse =
      top.reverse ++ fs.foldl (fun cs f => enclose f.head f.items.reverse cs) inner.toList := by
  induction fs generalizing inner with
  | nil => cases inner <;> simp [closeFrames]
  | cons f fs ih =>
    have henclose : enclose f.head f.items.reverse inner.toList =
        [group f.head (inner.toList ++ f.items).reverse none] := by
      cases inner with
      | none => simp [enclose_nil]
      | some c => simp [enclose_cons_of_not_closes _ _ (h c rfl f.head), enclose_nil]
    rw [closeFrames, ih _ (by simp [closes]), List.foldl_cons, henclose]
    rfl

theorem finish_eq_finishBefore (b : Builder) : b.finish = b.finishBefore [] :=
  reverse_closeFrames b.finished b.frames none (by simp)

private theorem finishBefore_push (c : Component) (b : Builder) (cs : List Component)
    (h : ∀ f ∈ b.frames.head?, ¬closes f.head c) :
    (b.push c).finishBefore cs = b.finishBefore (c :: cs) := by
  rcases b with ⟨top, frames⟩
  cases frames with
  | nil => simp [push, finishBefore]
  | cons f fs =>
    have hf := enclose_cons_of_not_closes f.items.reverse cs (h f rfl)
    simp [push, finishBefore, hf]

private theorem finishBefore_enter (b : Builder) (t : Token) (cs : List Component)
    (h : ∀ f ∈ b.frames.head?, ¬closes f.head (.token t)) :
    (b.enter t).finishBefore cs = b.finishBefore (prepend t cs) := by
  unfold enter prepend
  split
  · rfl
  · exact finishBefore_push (.token t) b cs h

/-- Reading a token first, or putting it in front of what follows it, comes to the same. -/
theorem finishBefore_step (b : Builder) (t : Token) (cs : List Component) :
    (b.step t).finishBefore cs = b.finishBefore (prepend t cs) := by
  rcases b with ⟨top, frames⟩
  cases frames with
  | nil => exact finishBefore_enter ⟨top, []⟩ t cs (by simp)
  | cons f fs =>
    by_cases hc : closes f.head (.token t)
    · have hstep : step ⟨top, f :: fs⟩ t =
          push (.group f.head f.items.reverse (some t)) ⟨top, fs⟩ := if_pos hc
      rw [hstep, finishBefore_push _ _ _ (by simp [closes])]
      simp [finishBefore, prepend, closer?_eq_none_of_closes hc, enclose_cons_of_closes _ _ hc]
    · have hstep : step ⟨top, f :: fs⟩ t = enter ⟨top, f :: fs⟩ t := if_neg hc
      rw [hstep]
      exact finishBefore_enter ⟨top, f :: fs⟩ t cs (by simpa using hc)

theorem finish_run (b : Builder) (ts : List Token) :
    (b.run ts).finish = b.finishBefore (ts.foldr prepend []) := by
  induction ts generalizing b with
  | nil => exact finish_eq_finishBefore b
  | cons t ts ih => exact (ih (b.step t)).trans (finishBefore_step b t _)

private theorem closeFrames_cons (top : List Component) (f : Frame) (fs : List Frame)
    (inner : Option Component) :
    ∃ head contents, closeFrames top (f :: fs) inner = .group head contents none :: top := by
  induction fs generalizing f inner with
  | nil => exact ⟨_, _, rfl⟩
  | cons g fs ih => exact ih g _

/-- What is read while a group is open ends with a group that has no closing bracket. -/
theorem finish_of_frames_ne_nil {b : Builder} (h : b.frames ≠ []) :
    ∃ head contents, b.finish = b.finished.reverse ++ [.group head contents none] := by
  rcases b with ⟨top, frames⟩
  cases frames with
  | nil => exact absurd rfl h
  | cons f fs =>
    obtain ⟨head, contents, hclose⟩ := closeFrames_cons top f fs none
    exact ⟨head, contents, by simp [finish, hclose]⟩

end Builder

namespace Component

theorem ofTokens_eq_foldr (ts : List Token) : ofTokens ts = ts.foldr prepend [] :=
  Builder.finish_run .start ts

@[simp] theorem ofTokens_nil : ofTokens [] = [] := rfl

/-- A token is put in front of the component values of the tokens after it. -/
theorem ofTokens_cons (t : Token) (ts : List Token) :
    ofTokens (t :: ts) = prepend t (ofTokens ts) := by
  rw [ofTokens_eq_foldr, ofTokens_eq_foldr, List.foldr_cons]

theorem ofTokens_cons_of_closer? {t : Token} (ts : List Token) (h : t.kind.closer?.isSome) :
    ofTokens (t :: ts) = enclose t [] (ofTokens ts) := by
  rw [ofTokens_cons, prepend, if_pos h]

/-! ## No token is lost -/

@[simp] theorem listTokens_append (cs ds : List Component) :
    listTokens (cs ++ ds) = listTokens cs ++ listTokens ds := by
  induction cs with
  | nil => rfl
  | cons c cs ih => simp [listTokens, ih]

/-- A group is its head in front of what it holds and its closing bracket. -/
theorem listTokens_group_cons (head : Token) (contents cs : List Component)
    (closing : Option Token) : listTokens (group head contents closing :: cs) =
      head :: listTokens (contents ++ (closing.map token).toList ++ cs) := by
  cases closing <;> simp [listTokens, tokens]

theorem listTokens_enclose (head : Token) (items cs : List Component) :
    listTokens (enclose head items cs) = head :: (listTokens items ++ listTokens cs) := by
  induction cs generalizing items with
  | nil => simp [enclose_nil, listTokens, tokens]
  | cons c cs ih =>
    by_cases hc : closes head c
    · cases c with
      | token t => simp [enclose_cons_of_closes _ _ hc, listTokens, tokens]
      | group => simp [closes] at hc
    · rw [enclose_cons_of_not_closes _ _ hc, ih]
      simp [listTokens]

theorem listTokens_prepend (t : Token) (cs : List Component) :
    listTokens (prepend t cs) = t :: listTokens cs := by
  unfold prepend
  split
  · rw [listTokens_enclose]
    rfl
  · rfl

/-- The component values of tokens hold these tokens in order. -/
theorem listTokens_ofTokens (ts : List Token) : listTokens (ofTokens ts) = ts := by
  induction ts with
  | nil => rfl
  | cons t ts ih => rw [ofTokens_cons, listTokens_prepend, ih]

/-! ## Tokens that leave nothing open -/

/-- Tokens whose last component value is no open group are arranged independently of what follows. -/
theorem ofTokens_append {ts : List Token} (us : List Token)
    (h : ∀ head contents, (ofTokens ts).getLast? ≠ some (group head contents none)) :
    ofTokens (ts ++ us) = ofTokens ts ++ ofTokens us := by
  have hframes : (Builder.start.run ts).frames = [] := by
    apply Classical.byContradiction
    intro hne
    obtain ⟨head, contents, hfinish⟩ := Builder.finish_of_frames_ne_nil hne
    exact h head contents (by rw [ofTokens, hfinish, List.getLast?_concat])
  have hts : ofTokens ts = (Builder.start.run ts).finished.reverse := by
    rw [ofTokens, Builder.finish, hframes]
    rfl
  rw [hts, ofTokens, Builder.run_append, Builder.finish_run, Builder.finishBefore, hframes,
    ofTokens_eq_foldr us]
  rfl

/-! ## Arranged component values -/

/-- Component values as they arise from their tokens. -/
def IsArranged (cs : List Component) : Prop := ofTokens (listTokens cs) = cs

private theorem tail_enclose_isSuffix (head : Token) (items cs : List Component) :
    (enclose head items cs).tail <:+ cs := by
  induction cs generalizing items with
  | nil => simp [enclose_nil]
  | cons c cs ih =>
    by_cases hc : closes head c
    · cases c with
      | token t =>
        rw [enclose_cons_of_closes _ _ hc]
        exact List.suffix_cons _ cs
      | group => simp [closes] at hc
    · rw [enclose_cons_of_not_closes _ _ hc]
      exact (ih _).trans (List.suffix_cons c cs)

private theorem tail_prepend_isSuffix (t : Token) (cs : List Component) :
    (prepend t cs).tail <:+ cs := by
  unfold prepend
  split
  · exact tail_enclose_isSuffix t [] cs
  · exact List.suffix_refl cs

/-- What is left of the component values of tokens, after any number of them, is arranged. -/
theorem isArranged_of_isSuffix {ts : List Token} {cs : List Component} (h : cs <:+ ofTokens ts) :
    IsArranged cs := by
  induction ts generalizing cs with
  | nil =>
    rw [ofTokens_nil, List.suffix_nil] at h
    subst h
    rfl
  | cons t ts ih =>
    rw [ofTokens_cons] at h
    cases hp : prepend t (ofTokens ts) with
    | nil =>
      rw [hp, List.suffix_nil] at h
      subst h
      rfl
    | cons d ds =>
      rw [hp, List.suffix_cons_iff] at h
      rcases h with rfl | h
      · rw [← hp, ← ofTokens_cons, IsArranged, listTokens_ofTokens]
      · have htail := tail_prepend_isSuffix t (ofTokens ts)
        rw [hp, List.tail_cons] at htail
        exact ih (h.trans htail)

theorem isArranged_ofTokens (ts : List Token) : IsArranged (ofTokens ts) :=
  isArranged_of_isSuffix (List.suffix_refl _)

theorem IsArranged.of_isSuffix {cs ds : List Component} (h : IsArranged cs) (hs : ds <:+ cs) :
    IsArranged ds :=
  isArranged_of_isSuffix (h.symm ▸ hs)

theorem IsArranged.tail {c : Component} {cs : List Component} (h : IsArranged (c :: cs)) :
    IsArranged cs :=
  h.of_isSuffix (List.suffix_cons c cs)

private theorem enclose_eq_cons {head : Token} {items cs ds : List Component} {d : Component}
    (h : enclose head items cs = d :: ds) :
    ∃ contents closing, d = group head (items ++ contents) closing ∧
      cs = contents ++ (closing.map token).toList ++ ds ∧ (∀ c ∈ contents, ¬closes head c) ∧
      (∀ t ∈ closing, closes head (token t)) ∧ (closing = none → ds = []) := by
  induction cs generalizing items with
  | nil =>
    rw [enclose_nil] at h
    obtain ⟨rfl, rfl⟩ := List.cons.inj h
    exact ⟨[], none, by simp, rfl, by simp, by simp, fun _ => rfl⟩
  | cons c cs ih =>
    by_cases hc : closes head c
    · cases c with
      | token t =>
        rw [enclose_cons_of_closes _ _ hc] at h
        obtain ⟨rfl, rfl⟩ := List.cons.inj h
        exact ⟨[], some t, by simp, rfl, by simp, by simpa using hc, by simp⟩
      | group => simp [closes] at hc
    · rw [enclose_cons_of_not_closes _ _ hc] at h
      obtain ⟨contents, closing, hd, hcs, hnone, hclosing, hend⟩ := ih h
      refine ⟨c :: contents, closing, by simpa using hd, by simp [hcs], ?_, hclosing, hend⟩
      exact List.forall_mem_cons.2 ⟨hc, hnone⟩

private theorem enclose_ne_token (head t : Token) (items cs ds : List Component) :
    enclose head items cs ≠ token t :: ds := by
  intro h
  obtain ⟨contents, closing, hd, -⟩ := enclose_eq_cons h
  cases hd

/-- A token among arranged component values opens no group. -/
theorem IsArranged.closer?_eq_none {t : Token} {cs : List Component}
    (h : IsArranged (token t :: cs)) : t.kind.closer? = none := by
  apply Classical.byContradiction
  intro hne
  have hopen : t.kind.closer?.isSome := Option.isSome_iff_ne_none.2 hne
  have harr : ofTokens (t :: listTokens cs) = token t :: cs := h
  rw [ofTokens_cons_of_closer? _ hopen] at harr
  exact enclose_ne_token t t [] _ cs harr

/-- A group among arranged component values: it is opened by its head, holds nothing that would
close it earlier, and goes to the end without a closing bracket. What it holds, the bracket and what
follows are arranged in turn. -/
theorem IsArranged.group_cons {head : Token} {contents cs : List Component} {closing : Option Token}
    (h : IsArranged (group head contents closing :: cs)) :
    head.kind.closer?.isSome ∧ IsArranged (contents ++ (closing.map token).toList ++ cs) ∧
      (∀ c ∈ contents, ¬closes head c) ∧ (∀ t ∈ closing, closes head (token t)) ∧
      (closing = none → cs = []) := by
  have harr : ofTokens (listTokens (group head contents closing :: cs)) = _ := h
  rw [listTokens_group_cons, ofTokens_cons] at harr
  unfold prepend at harr
  split at harr
  · rename_i hopen
    obtain ⟨contents', closing', hd, hcs, hnone, hclosing, hend⟩ := enclose_eq_cons harr
    obtain ⟨rfl, rfl⟩ : contents = contents' ∧ closing = closing' := by simpa using hd
    exact ⟨hopen, hcs ▸ isArranged_ofTokens _, hnone, hclosing, hend⟩
  · cases harr

/-! ## What the first token tells -/

/-- Whether the first token of a component value tells a group from a token that stands alone. -/
def HeadFits : Component → Prop
  | token t => t.kind.closer? = none
  | group head _ _ => head.kind.closer?.isSome

theorem IsArranged.headFits {cs : List Component} (h : IsArranged cs) : ∀ c ∈ cs, HeadFits c := by
  induction cs with
  | nil => simp
  | cons c cs ih =>
    refine List.forall_mem_cons.2 ⟨?_, ih h.tail⟩
    cases c with
    | token t => exact h.closer?_eq_none
    | group head contents closing => exact h.group_cons.1

private theorem of_closer?_isSome {kind : TokenKind} (h : kind.closer?.isSome) :
    kind.isWhite = false ∧ kind.isSemicolon = false ∧ ∀ b, kind.isClosing b = false := by
  cases kind <;> simp_all [TokenKind.closer?, TokenKind.isWhite, TokenKind.isSemicolon,
    TokenKind.isClosing]

theorem HeadFits.isWhite_head {c : Component} (h : HeadFits c) : c.head.isWhite = c.isWhite := by
  cases c with
  | token t => rfl
  | group head _ _ => exact (of_closer?_isSome h).1

theorem HeadFits.isSemicolon_head {c : Component} (h : HeadFits c) :
    c.head.kind.isSemicolon = c.isSemicolon := by
  cases c with
  | token t => rfl
  | group head _ _ => exact (of_closer?_isSome h).2.1

theorem HeadFits.isClosing_head {c : Component} (h : HeadFits c) :
    c.head.kind.isClosing .brace = c.isStrayBrace := by
  cases c with
  | token t => rfl
  | group head _ _ => exact (of_closer?_isSome h).2.2 .brace

theorem HeadFits.closes_head {c : Component} (h : HeadFits c) (head : Token) :
    head.kind.closer?.any (c.head.kind.isClosing ·) = closes head c := by
  cases c with
  | token t => rfl
  | group inner _ _ =>
    have hnone : ∀ b, inner.kind.isClosing b = false := (of_closer?_isSome h).2.2
    cases head.kind.closer? with
    | none => rfl
    | some b => exact hnone b

theorem HeadFits.opensBrace_head {c : Component} (h : HeadFits c) :
    (c.head.kind.closer? == some .brace) = c.isBraceBlock := by
  cases c with
  | token t =>
    have ht : t.kind.closer? = none := h
    simp [Component.head, ht, isBraceBlock]
  | group head _ _ =>
    rcases head with ⟨kind, source, location⟩
    cases kind with
    | opening b => cases b <;> rfl
    | _ => simp_all [HeadFits, TokenKind.closer?, Component.head, isBraceBlock]

@[simp] theorem head?_listTokens_cons (c : Component) (cs : List Component) :
    (listTokens (c :: cs)).head? = some c.head := by
  cases c <;> simp [listTokens, tokens, Component.head]

end Component

end Styling
