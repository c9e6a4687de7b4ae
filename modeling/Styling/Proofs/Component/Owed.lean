import Styling.Proofs.Component.Arrangement

/-!
# Brackets that are owed at the end

Tokens may end inside of groups. Each of these owes a closing bracket, and where the brackets follow,
innermost first, they close the last component value, the last one in it, and so on as far as these are
left open (`Component.closedBy_ofTokens_append`).
-/

namespace Styling

/-- The brackets that are owed after one more token, given those before it. A bracket that does not close
the innermost group closes nothing. -/
def Token.owe (bs : List Bracket) (t : Token) : List Bracket :=
  match bs with
  | [] => t.kind.closer?.toList
  | b :: bs => if t.kind.isClosing b then bs else t.kind.closer?.toList ++ b :: bs

/-- The brackets that close what the tokens leave open, innermost first. -/
def owed (ts : List Token) : List Bracket := ts.foldl Token.owe []

/-- Component values with brackets behind them: if the last one is a group that is left open, the last of
the brackets closes it, and those before it what is left open in it. -/
inductive Component.ClosedBy : List Token → List Component → List Component → Prop
  | nil (cs : List Component) : ClosedBy [] cs cs
  | last (front : List Component) {ks : List Token} (k : Token) {head : Token}
      {contents contents' : List Component} : ClosedBy ks contents contents' →
      ClosedBy (ks ++ [k]) (front ++ [group head contents none])
        (front ++ [group head contents' (some k)])

namespace Builder

open Component

/-- The brackets that the open groups of a builder wait for. -/
def owes (b : Builder) : List Bracket := b.frames.filterMap (·.head.kind.closer?)

/-- Every open group has been opened by a token that does so. -/
def IsSound (b : Builder) : Prop := ∀ f ∈ b.frames, f.head.kind.closer?.isSome

private theorem owes_push (c : Component) (b : Builder) : (b.push c).owes = b.owes := by
  rcases b with ⟨top, _ | ⟨f, fs⟩⟩ <;> rfl

private theorem isSound_push (c : Component) {b : Builder} (h : b.IsSound) : (b.push c).IsSound := by
  rcases b with ⟨top, _ | ⟨f, fs⟩⟩
  · exact h
  · intro g hg
    rcases List.mem_cons.1 hg with rfl | hg
    · exact h f (List.mem_cons_self ..)
    · exact h g (List.mem_cons_of_mem _ hg)

private theorem owes_enter (b : Builder) (t : Token) :
    (b.enter t).owes = t.kind.closer?.toList ++ b.owes := by
  unfold enter
  cases ht : t.kind.closer? with
  | none => simp [owes_push]
  | some bracket => simp [owes, ht]

private theorem isSound_enter {b : Builder} (t : Token) (h : b.IsSound) : (b.enter t).IsSound := by
  unfold enter
  split
  · rename_i ht
    exact List.forall_mem_cons.2 ⟨ht, h⟩
  · exact isSound_push _ h

/-- A token changes what is owed in the same way whatever else has been read. -/
theorem owes_step {b : Builder} (t : Token) (h : b.IsSound) :
    (b.step t).owes = t.owe b.owes ∧ (b.step t).IsSound := by
  rcases b with ⟨top, _ | ⟨f, fs⟩⟩
  · exact ⟨(owes_enter _ t).trans (by simp [owes, Token.owe]), isSound_enter t h⟩
  · have hfs : IsSound ⟨top, fs⟩ := fun g hg => h g (List.mem_cons_of_mem _ hg)
    obtain ⟨bracket, hf⟩ := Option.isSome_iff_exists.1 (h f (List.mem_cons_self ..))
    have howes : owes ⟨top, f :: fs⟩ = bracket :: owes ⟨top, fs⟩ := by simp [owes, hf]
    by_cases ht : t.kind.isClosing bracket
    · have hstep : step ⟨top, f :: fs⟩ t =
          push (.group f.head f.items.reverse (some t)) ⟨top, fs⟩ := by simp [step, hf, ht]
      rw [hstep, owes_push, howes, Token.owe, if_pos ht]
      exact ⟨rfl, isSound_push _ hfs⟩
    · have hstep : step ⟨top, f :: fs⟩ t = enter ⟨top, f :: fs⟩ t := by simp [step, hf, ht]
      rw [hstep, owes_enter, howes, Token.owe, if_neg ht]
      exact ⟨rfl, isSound_enter t h⟩

theorem owes_run {b : Builder} (ts : List Token) (h : b.IsSound) :
    (b.run ts).owes = ts.foldl Token.owe b.owes ∧ (b.run ts).IsSound := by
  induction ts generalizing b with
  | nil => exact ⟨rfl, h⟩
  | cons t ts ih =>
    obtain ⟨howes, hsound⟩ := owes_step t h
    have hrest := ih hsound
    rw [howes] at hrest
    exact hrest

private theorem reverse_toList (inner : Option Component) : inner.toList.reverse = inner.toList := by
  cases inner <;> rfl

/-- Where what is owed follows, the open groups become one, as they do at the end of the input, but closed
by what is owed. -/
theorem closedBy_run (top : List Component) {f : Frame} {fs : List Frame} {ks us : List Token}
    {inner inner' : Option Component}
    (hinner : ClosedBy ks (f.items.reverse ++ inner.toList) (f.items.reverse ++ inner'.toList))
    (hsound : IsSound ⟨top, f :: fs⟩)
    (hus : us.map Token.kind = (owes ⟨top, f :: fs⟩).map .closing) :
    ∃ c c', closeFrames top (f :: fs) inner = c :: top ∧
      run ⟨top, ⟨f.head, inner'.toList ++ f.items⟩ :: fs⟩ us = ⟨c' :: top, []⟩ ∧
      ClosedBy (ks ++ us) (top.reverse ++ [c]) (top.reverse ++ [c']) := by
  induction fs generalizing f ks us inner inner' with
  | nil =>
    obtain ⟨bracket, hf⟩ := Option.isSome_iff_exists.1 (hsound f (List.mem_cons_self ..))
    have hone : us.map Token.kind = [.closing bracket] := by simpa [owes, hf] using hus
    obtain ⟨u, rfl, hu⟩ := List.map_eq_singleton_iff.1 hone
    refine ⟨group f.head (f.items.reverse ++ inner.toList) none,
      group f.head (f.items.reverse ++ inner'.toList) (some u), ?_, ?_, .last _ u hinner⟩
    · simp [closeFrames, reverse_toList]
    · simp [run, step, hf, hu, TokenKind.isClosing, push, reverse_toList]
  | cons g fs ih =>
    obtain ⟨bracket, hf⟩ := Option.isSome_iff_exists.1 (hsound f (List.mem_cons_self ..))
    have hrest : IsSound ⟨top, g :: fs⟩ := fun g' hg => hsound g' (List.mem_cons_of_mem _ hg)
    have howes : owes ⟨top, f :: g :: fs⟩ = bracket :: owes ⟨top, g :: fs⟩ := by simp [owes, hf]
    rw [howes, List.map_cons, List.map_eq_cons_iff] at hus
    obtain ⟨u, us, rfl, hu, hus⟩ := hus
    have hgroup : ClosedBy (ks ++ [u])
        (g.items.reverse ++
          (some (group f.head (f.items.reverse ++ inner.toList) none)).toList)
        (g.items.reverse ++
          (some (group f.head (f.items.reverse ++ inner'.toList) (some u))).toList) :=
      .last _ u hinner
    have hstep : step ⟨top, ⟨f.head, inner'.toList ++ f.items⟩ :: g :: fs⟩ u = ⟨top,
        ⟨g.head, group f.head (f.items.reverse ++ inner'.toList) (some u) :: g.items⟩ :: fs⟩ := by
      simp [step, hf, hu, TokenKind.isClosing, push, reverse_toList]
    obtain ⟨c, c', hclose, hrun, hclosed⟩ := ih hgroup hrest hus
    refine ⟨c, c', ?_, ?_, ?_⟩
    · rw [closeFrames, List.reverse_append, reverse_toList]
      exact hclose
    · rw [run, List.foldl_cons, hstep]
      exact hrun
    · rwa [List.append_assoc] at hclosed

end Builder

namespace Component

/-- The brackets owed at the end of tokens close what is left open, and nothing else changes. -/
theorem closedBy_ofTokens_append {ts us : List Token}
    (h : us.map Token.kind = (owed ts).map .closing) :
    ClosedBy us (ofTokens ts) (ofTokens (ts ++ us)) := by
  have hstart : Builder.start.IsSound := by simp [Builder.IsSound, Builder.start]
  obtain ⟨howes, hsound⟩ := Builder.owes_run ts hstart
  have howed : owed ts = (Builder.start.run ts).owes := howes.symm
  rw [howed] at h
  rw [ofTokens, ofTokens, Builder.run_append]
  generalize Builder.start.run ts = b at h hsound
  rcases b with ⟨top, _ | ⟨f, fs⟩⟩
  · have hnil : us = [] := by simpa [Builder.owes] using h
    rw [hnil]
    exact .nil _
  · have hinner : ClosedBy [] (f.items.reverse ++ Option.toList none)
        (f.items.reverse ++ Option.toList none) := .nil _
    obtain ⟨c, c', hclose, hrun, hclosed⟩ := Builder.closedBy_run top hinner hsound h
    have hopen : Builder.finish ⟨top, f :: fs⟩ = top.reverse ++ [c] := by
      simp [Builder.finish, hclose]
    have hrun' : Builder.run ⟨top, f :: fs⟩ us = ⟨c' :: top, []⟩ := hrun
    have hfinish : (Builder.run ⟨top, f :: fs⟩ us).finish = top.reverse ++ [c'] := by
      simp [hrun', Builder.finish, Builder.closeFrames]
    rw [hopen, hfinish]
    exact hclosed

theorem ClosedBy.listTokens_eq {ks : List Token} {cs ds : List Component} (h : ClosedBy ks cs ds) :
    listTokens ds = listTokens cs ++ ks := by
  induction h with
  | nil cs => simp
  | last front k _ ih => simp [listTokens_append, listTokens, tokens, ih]

end Component

end Styling
