import Mathlib.Data.List.TakeWhile
import Styling.Proofs.Component.Owed
import Styling.Rule.Declaration

/-!
# What component values are read for

White-space between component values carries no meaning, nor does the place where a token stands, nor the
bracket that closes a group. The `outline` of component values is what there is besides. White-space outside
of groups may be left out before tokens are arranged (`Component.ofTokens_outerSolid`), and so may places
(`Component.ofTokens_map_unplaced`).
-/

namespace Styling

/-- The token as if it stood at the beginning of the input. -/
def Token.unplaced (t : Token) : Token := { t with location := .start }

/-- The tokens without the white-space and comments that stand outside of every group, where the given
brackets are owed before them. -/
def outerSolid (bs : List Bracket) : List Token → List Token
  | [] => []
  | t :: ts => if bs.isEmpty && t.isWhite then outerSolid bs ts else t :: outerSolid (t.owe bs) ts

/-- What there is besides white-space. -/
def solid (cs : List Component) : List Component := cs.filter (!·.isWhite)

theorem solid_append (cs ds : List Component) : solid (cs ++ ds) = solid cs ++ solid ds :=
  List.filter_append ..

theorem solid_of_white {cs : List Component} (h : ∀ c ∈ cs, c.isWhite) : solid cs = [] := by
  rw [solid, List.filter_eq_nil_iff]
  simpa using h

theorem solid_cons_of_white {c : Component} (cs : List Component) (h : c.isWhite) :
    solid (c :: cs) = solid cs := by simp [solid, h]

theorem solid_cons_of_not_white {c : Component} (cs : List Component) (h : c.isWhite = false) :
    solid (c :: cs) = c :: solid cs := by simp [solid, h]

theorem solid_dropWhile (cs : List Component) : solid (cs.dropWhile Component.isWhite) = solid cs := by
  induction cs with
  | nil => rfl
  | cons c cs ih =>
    by_cases hc : c.isWhite
    · rw [List.dropWhile_cons_of_pos hc, ih, solid_cons_of_white cs hc]
    · rw [List.dropWhile_cons_of_neg hc]

theorem solid_dropTrailing (cs : List Component) :
    solid (dropTrailing Component.isWhite cs) = solid cs := by
  have hparts := dropTrailing_append_takeTrailing Component.isWhite cs
  have hwhite : solid (takeTrailing Component.isWhite cs) = [] := by
    apply solid_of_white
    intro c hc
    exact List.mem_takeWhile_imp (List.mem_reverse.1 hc)
  conv => rhs; rw [← hparts, solid_append, hwhite, List.append_nil]

/-! ## White-space outside of groups -/

namespace Builder

open Component

/-- The builder without the white-space that stands outside of groups. -/
def solid (b : Builder) : Builder := ⟨b.finished.filter (!·.isWhite), b.frames⟩

private theorem solid_push {c : Component} {b : Builder} (h : b.frames = [] → c.isWhite = false) :
    (b.push c).solid = b.solid.push c := by
  rcases b with ⟨top, _ | ⟨f, fs⟩⟩
  · simp [push, solid, h rfl]
  · rfl

private theorem solid_enter {t : Token} {b : Builder} (h : b.frames = [] → t.isWhite = false) :
    (b.enter t).solid = b.solid.enter t := by
  unfold enter
  split
  · rfl
  · exact solid_push h

private theorem solid_step {t : Token} {b : Builder} (h : b.frames = [] → t.isWhite = false) :
    (b.step t).solid = b.solid.step t := by
  rcases b with ⟨top, _ | ⟨f, fs⟩⟩
  · exact solid_enter h
  · by_cases hc : closes f.head (.token t)
    · have hstep : ∀ top : List Component, step ⟨top, f :: fs⟩ t =
          push (.group f.head f.items.reverse (some t)) ⟨top, fs⟩ := fun _ => if_pos hc
      rw [hstep, solid_push fun _ => rfl]
      exact (hstep _).symm
    · have hstep : ∀ top : List Component, step ⟨top, f :: fs⟩ t = enter ⟨top, f :: fs⟩ t :=
        fun _ => if_neg hc
      rw [hstep, solid_enter h]
      exact (hstep _).symm

private theorem solid_step_of_white {t : Token} {b : Builder} (hb : b.frames = []) (h : t.isWhite) :
    (b.step t).solid = b.solid := by
  have hcloser : t.kind.closer?.isSome = false := by
    rcases t with ⟨kind, source, location⟩
    cases kind <;> simp_all [Token.isWhite, TokenKind.isWhite, TokenKind.closer?]
  rcases b with ⟨top, frames⟩
  subst hb
  have hwhite : (Component.token t).isWhite := h
  simp [step, enter, hcloser, push, solid, hwhite]

private theorem owes_eq_nil_iff {b : Builder} (h : b.IsSound) : b.owes = [] ↔ b.frames = [] := by
  rcases b with ⟨top, _ | ⟨f, fs⟩⟩
  · simp [owes]
  · obtain ⟨bracket, hf⟩ := Option.isSome_iff_exists.1 (h f (List.mem_cons_self ..))
    simp [owes, hf]

/-- White-space outside of groups leaves no trace in what else is read. -/
theorem run_outerSolid {b : Builder} (ts : List Token) (h : b.IsSound) :
    b.solid.run (outerSolid b.owes ts) = (b.run ts).solid := by
  induction ts generalizing b with
  | nil => rfl
  | cons t ts ih =>
    obtain ⟨howes, hsound⟩ := owes_step t h
    have hrest := ih hsound
    rw [outerSolid]
    by_cases ht : b.owes.isEmpty && t.isWhite
    · rw [if_pos ht]
      simp only [Bool.and_eq_true, List.isEmpty_iff] at ht
      have hframes := (owes_eq_nil_iff h).1 ht.1
      have hsame : (b.step t).owes = b.owes := by
        rw [howes, ht.1, Token.owe]
        rcases t with ⟨kind, source, location⟩
        cases kind <;> simp_all [Token.isWhite, TokenKind.isWhite, TokenKind.closer?]
      rw [solid_step_of_white hframes ht.2, hsame] at hrest
      exact hrest
    · rw [if_neg ht, ← howes]
      have hkept : b.frames = [] → t.isWhite = false := by
        intro hframes
        simpa [(owes_eq_nil_iff h).2 hframes] using ht
      rw [solid_step hkept] at hrest
      exact hrest

private theorem closeFrames_filter (top : List Component) (fs : List Frame) (inner : Option Component)
    (h : ∀ c ∈ inner, c.isWhite = false) :
    closeFrames (top.filter (!·.isWhite)) fs inner =
      (closeFrames top fs inner).filter (!·.isWhite) := by
  induction fs generalizing inner with
  | nil => cases inner <;> simp_all [closeFrames]
  | cons f fs ih => exact ih _ (by simp [Component.isWhite])

theorem finish_solid (b : Builder) : b.solid.finish = Styling.solid b.finish := by
  rw [finish, finish, Styling.solid, List.filter_reverse]
  exact congrArg List.reverse (closeFrames_filter b.finished b.frames none (by simp))

end Builder

/-- White-space outside of groups may be left out before tokens are arranged, or after. -/
theorem Component.ofTokens_outerSolid (ts : List Token) :
    ofTokens (outerSolid [] ts) = solid (ofTokens ts) := by
  have hstart : Builder.start.IsSound := by simp [Builder.IsSound, Builder.start]
  have hrun := Builder.run_outerSolid ts hstart
  rw [ofTokens, ofTokens, ← Builder.finish_solid, ← hrun]
  rfl

/-! ## Places and closing brackets -/

namespace Component

mutual

/-- The component value as if its tokens stood nowhere and the input had ended before every closing
bracket of a group. -/
def bare : Component → Component
  | token t => token t.unplaced
  | group head contents _ => group head.unplaced (listBare contents) none

def listBare : List Component → List Component
  | [] => []
  | c :: cs => bare c :: listBare cs

end

theorem listBare_eq_map (cs : List Component) : listBare cs = cs.map bare := by
  induction cs with
  | nil => rfl
  | cons c cs ih => simp [listBare, ih]

@[simp] theorem isWhite_bare (c : Component) : c.bare.isWhite = c.isWhite := by
  cases c <;> rfl

@[simp] theorem isSemicolon_bare (c : Component) : c.bare.isSemicolon = c.isSemicolon := by
  cases c <;> rfl

@[simp] theorem isStrayBrace_bare (c : Component) : c.bare.isStrayBrace = c.isStrayBrace := by
  cases c <;> rfl

theorem isBraceBlock_group_of_kind {head head' : Token} (cs ds : List Component)
    (closing closing' : Option Token) (h : head.kind = head'.kind) :
    (group head cs closing).isBraceBlock = (group head' ds closing').isBraceBlock := by
  rcases head with ⟨kind, source, location⟩
  rcases head' with ⟨kind', source', location'⟩
  cases h
  cases kind with
  | opening b => cases b <;> rfl
  | _ => rfl

@[simp] theorem isBraceBlock_bare (c : Component) : c.bare.isBraceBlock = c.isBraceBlock := by
  cases c with
  | token t => rfl
  | group head contents closing => exact isBraceBlock_group_of_kind _ _ _ _ rfl

theorem isWhite_of_isBraceBlock {c : Component} (h : c.isBraceBlock) : c.isWhite = false := by
  cases c with
  | token t => cases h
  | group => rfl

theorem isBraceBlock_of_isBang {c : Component} (h : isBang c) : c.isBraceBlock = false := by
  unfold isBang at h
  split at h
  · rfl
  · contradiction

theorem isBraceBlock_of_isImportantIdent {c : Component} (h : isImportantIdent c) :
    c.isBraceBlock = false := by
  unfold isImportantIdent at h
  split at h
  · rfl
  · contradiction

theorem isBang_token_iff (t : Token) : isBang (token t) ↔ t.kind = .delim '!' := by
  rcases t with ⟨kind, source, location⟩
  unfold isBang
  split <;> simp_all

@[simp] theorem isBang_bare (c : Component) : isBang c.bare = isBang c := by
  cases c with
  | token t =>
    rw [Bool.eq_iff_iff, bare, isBang_token_iff, isBang_token_iff]
    rfl
  | group => rfl

@[simp] theorem isImportantIdent_bare (c : Component) :
    isImportantIdent c.bare = isImportantIdent c := by
  rcases c with ⟨kind, source, location⟩ | ⟨head, contents, closing⟩
  · cases kind <;> rfl
  · rfl

theorem bare_token_congr {kind : TokenKind} {source : String} {place place' : Source.Location} :
    (token ⟨kind, source, place⟩).bare = (token ⟨kind, source, place'⟩).bare := rfl

/-- Component values that differ in places and closing brackets only are tokens of one kind and source, or
groups with such heads. -/
theorem cases_of_bare_eq {c d : Component} (h : c.bare = d.bare) :
    (∃ kind source place place', c = token ⟨kind, source, place⟩ ∧ d = token ⟨kind, source, place'⟩) ∨
      ∃ kind source place place' contents contents' closing closing',
        c = group ⟨kind, source, place⟩ contents closing ∧
          d = group ⟨kind, source, place'⟩ contents' closing' ∧
            listBare contents = listBare contents' := by
  rcases c with ⟨kind, source, place⟩ | ⟨⟨kind, source, place⟩, contents, closing⟩ <;>
    rcases d with ⟨kind', source', place'⟩ | ⟨⟨kind', source', place'⟩, contents', closing'⟩ <;>
    simp only [bare, Token.unplaced, token.injEq, group.injEq, Token.mk.injEq, and_true,
      reduceCtorEq] at h
  · obtain ⟨rfl, rfl⟩ := h
    exact .inl ⟨kind, source, place, place', rfl, rfl⟩
  · obtain ⟨⟨rfl, rfl⟩, hcontents⟩ := h
    exact .inr ⟨kind, source, place, place', contents, contents', closing, closing', rfl, rfl, hcontents⟩

/-- Brackets that close what is left open change nothing else. -/
theorem ClosedBy.map_bare {ks : List Token} {cs ds : List Component} (h : ClosedBy ks cs ds) :
    cs.map bare = ds.map bare := by
  induction h with
  | nil cs => rfl
  | last front k _ ih => simp [bare, listBare_eq_map, ih]

/-! ## Places -/

mutual

/-- The component value as if its tokens stood nowhere. -/
def unplaced : Component → Component
  | token t => token t.unplaced
  | group head contents closing =>
    group head.unplaced (listUnplaced contents) (closing.map Token.unplaced)

def listUnplaced : List Component → List Component
  | [] => []
  | c :: cs => unplaced c :: listUnplaced cs

end

theorem listUnplaced_eq_map (cs : List Component) : listUnplaced cs = cs.map unplaced := by
  induction cs with
  | nil => rfl
  | cons c cs ih => simp [listUnplaced, ih]

mutual

theorem bare_unplaced : (c : Component) → c.unplaced.bare = c.bare
  | token _ => rfl
  | group head contents _ => by
    rw [unplaced, bare, bare, listBare_listUnplaced contents]
    rfl

theorem listBare_listUnplaced : (cs : List Component) → listBare (listUnplaced cs) = listBare cs
  | [] => rfl
  | c :: cs => by rw [listUnplaced, listBare, listBare, bare_unplaced c, listBare_listUnplaced cs]

end

mutual

theorem tokens_unplaced : (c : Component) → c.unplaced.tokens = c.tokens.map Token.unplaced
  | token _ => rfl
  | group head contents closing => by
    rw [unplaced, tokens, tokens, listTokens_listUnplaced contents]
    cases closing <;> simp

theorem listTokens_listUnplaced : (cs : List Component) →
    listTokens (listUnplaced cs) = (listTokens cs).map Token.unplaced
  | [] => rfl
  | c :: cs => by
    rw [listUnplaced, listTokens, listTokens, tokens_unplaced c, listTokens_listUnplaced cs,
      List.map_append]

end

theorem source_unplaced (c : Component) : c.unplaced.source = c.source := by
  rw [source, source, tokens_unplaced, sourceOf, sourceOf, List.map_map]
  rfl

private theorem map_unplaced_enclose (head : Token) (items cs : List Component) :
    (enclose head items cs).map unplaced =
      enclose head.unplaced (items.map unplaced) (cs.map unplaced) := by
  induction cs generalizing items with
  | nil => simp [enclose_nil, unplaced, listUnplaced_eq_map]
  | cons c cs ih =>
    have hcloses : closes head.unplaced c.unplaced = closes head c := by cases c <;> rfl
    by_cases hc : closes head c
    · cases c with
      | token t =>
        rw [enclose_cons_of_closes _ _ hc, List.map_cons, List.map_cons]
        rw [unplaced] at hcloses ⊢
        rw [enclose_cons_of_closes _ _ (hcloses.trans hc), unplaced, listUnplaced_eq_map]
        rfl
      | group => cases hc
    · rw [enclose_cons_of_not_closes _ _ hc, ih, List.map_cons,
        enclose_cons_of_not_closes _ _ (hcloses ▸ hc), List.map_append]
      rfl

/-- How tokens are arranged does not depend on where they stand. -/
theorem ofTokens_map_unplaced (ts : List Token) :
    ofTokens (ts.map Token.unplaced) = (ofTokens ts).map unplaced := by
  induction ts with
  | nil => rfl
  | cons t ts ih =>
    have hkind : t.unplaced.kind = t.kind := rfl
    rw [List.map_cons, ofTokens_cons, ofTokens_cons, ih, prepend, prepend, hkind]
    split
    · rw [map_unplaced_enclose]
      rfl
    · rfl

/-! ## The outline -/

/-- What there is besides white-space between component values, places and closing brackets. -/
def outline (cs : List Component) : List Component := (solid cs).map bare

theorem outline_append (cs ds : List Component) : outline (cs ++ ds) = outline cs ++ outline ds := by
  rw [outline, solid_append, List.map_append]
  rfl

theorem outline_of_white {cs : List Component} (h : ∀ c ∈ cs, c.isWhite) : outline cs = [] := by
  rw [outline, solid_of_white h, List.map_nil]

theorem outline_cons_of_white {c : Component} (cs : List Component) (h : c.isWhite) :
    outline (c :: cs) = outline cs := by rw [outline, solid_cons_of_white cs h, outline]

theorem outline_cons_of_not_white {c : Component} (cs : List Component) (h : c.isWhite = false) :
    outline (c :: cs) = c.bare :: outline cs := by
  rw [outline, solid_cons_of_not_white cs h, List.map_cons, outline]

theorem outline_dropWhile (cs : List Component) : outline (cs.dropWhile isWhite) = outline cs := by
  rw [outline, solid_dropWhile, outline]

theorem outline_dropTrailing (cs : List Component) : outline (dropTrailing isWhite cs) = outline cs := by
  rw [outline, solid_dropTrailing, outline]

theorem isWhite_of_mem_outline {c : Component} {cs : List Component} (h : c ∈ outline cs) :
    c.isWhite = false := by
  obtain ⟨d, hd, rfl⟩ := List.mem_map.1 h
  simpa using (List.mem_filter.1 hd).2

end Component

end Styling
