import Mathlib.Data.Set.Function
import Styling.Proofs.Component.Closed
import Styling.Proofs.Rule.StreamReader

/-!
# Component values as trees

The component values that arise from tokens are the well-formed trees: groups are opened and closed by
brackets that belong together, hold no bracket that would close them earlier, and are left open only where
everything around them is left open too. Each of these trees arises from one list of tokens, its own
(`Component.ofTokens_bijOn_areWellFormed`).
-/

namespace Styling.Component

mutual

/-- A token that stands alone opens nothing. A group is opened by its head; none of the component values in
it is a bare bracket that closes it, and its closing bracket, if it has one, does. Only a group without its
closing bracket may hold others without theirs. -/
def IsWellFormed : Component → Prop
  | token t => t.kind.closer? = none
  | group head contents closing =>
    head.kind.closer?.isSome ∧ (∀ c ∈ contents, ¬closes head c) ∧
      (∀ t ∈ closing, closes head (token t)) ∧ (closing.isSome → areClosed contents) ∧
      AreWellFormed contents

/-- Well-formed component values, of which only the last may be, or hold at any depth, a group without its
closing bracket. -/
def AreWellFormed : List Component → Prop
  | [] => True
  | c :: cs => IsWellFormed c ∧ (cs ≠ [] → c.isClosed) ∧ AreWellFormed cs

end

/-- Arranged component values are well-formed, and those in front of others are closed. -/
theorem areWellFormed_of_isArranged : (cs ds : List Component) → IsArranged (cs ++ ds) →
    AreWellFormed cs ∧ (ds ≠ [] → areClosed cs)
  | [], _, _ => ⟨trivial, fun _ => rfl⟩
  | token t :: cs, ds, harranged => by
    obtain ⟨hcs, hclosed⟩ := areWellFormed_of_isArranged cs ds harranged.tail
    exact ⟨⟨harranged.closer?_eq_none, fun _ => rfl, hcs⟩, hclosed⟩
  | group head contents closing :: cs, ds, harranged => by
    obtain ⟨hopen, hinner, hnone, hclosing, hend⟩ := harranged.group_cons
    rw [List.append_assoc] at hinner
    obtain ⟨hcontents, hheld⟩ := areWellFormed_of_isArranged contents _ hinner
    obtain ⟨hcs, hclosed⟩ := areWellFormed_of_isArranged cs ds harranged.tail
    have hfull : closing.isSome → areClosed contents := by
      intro hsome
      obtain ⟨t, rfl⟩ := Option.isSome_iff_exists.1 hsome
      exact hheld (by simp)
    -- What follows the group tells that it has its closing bracket.
    have hgroup : cs ++ ds ≠ [] → (group head contents closing).isClosed := by
      intro hne
      have hsome : closing.isSome := Option.isSome_iff_ne_none.2 fun hnil => hne (hend hnil)
      rw [isClosed, hsome, hfull hsome]
      rfl
    refine ⟨⟨⟨hopen, hnone, hclosing, hfull, hcontents⟩, fun hne => hgroup (by simp [hne]), hcs⟩, ?_⟩
    intro hne
    rw [areClosed, hgroup (by simp [hne]), hclosed hne]
    rfl

private theorem enclose_of_forall {head : Token} {cs : List Component} (h : ∀ c ∈ cs, ¬closes head c) :
    enclose head [] cs = [group head cs none] := by
  have hrun : ∀ c ∈ cs, !closes head c := by simpa using h
  rw [enclose, splitRun, List.takeWhile_eq_self_iff.2 hrun, List.dropWhile_eq_nil_iff.2 hrun]
  rfl

theorem AreWellFormed.isArranged : (cs : List Component) → AreWellFormed cs → IsArranged cs
  | [], _ => rfl
  | token t :: cs, h => by
    obtain ⟨ht, -, hcs⟩ := h
    have harranged : ofTokens (listTokens cs) = cs := AreWellFormed.isArranged cs hcs
    have hcons := ofTokens_cons_of_closer?_eq_none (listTokens cs) ht
    rwa [harranged] at hcons
  | group head contents (some t) :: cs, h => by
    obtain ⟨⟨hopen, hnone, hclosing, hclosed, hcontents⟩, -, hcs⟩ := h
    have hinner : ofTokens (listTokens contents) = contents := AreWellFormed.isArranged contents hcontents
    have houter : ofTokens (listTokens cs) = cs := AreWellFormed.isArranged cs hcs
    have hgroup : ofTokens (head :: (listTokens contents ++ t :: listTokens cs)) =
        group head contents (some t) :: cs := by
      rw [ofTokens_group (listTokens cs) hopen (by rw [hinner]; exact hclosed rfl) (by rwa [hinner])
        (hclosing t rfl), hinner, houter]
    rw [IsArranged, listTokens_group_cons]
    simpa [listTokens, tokens] using hgroup
  | group head contents none :: cs, h => by
    obtain ⟨⟨hopen, hnone, -, -, hcontents⟩, hlast, -⟩ := h
    have hinner : ofTokens (listTokens contents) = contents := AreWellFormed.isArranged contents hcontents
    have hcs : cs = [] := Classical.byContradiction fun hne => by simpa [isClosed] using hlast hne
    subst hcs
    have hgroup := ofTokens_cons_of_closer? (listTokens contents) hopen
    rw [hinner, enclose_of_forall hnone] at hgroup
    simpa [IsArranged, listTokens, tokens] using hgroup

/-- The well-formed component values are those that arise from their tokens. -/
theorem areWellFormed_iff_isArranged {cs : List Component} : AreWellFormed cs ↔ IsArranged cs := by
  constructor
  · exact AreWellFormed.isArranged cs
  · intro h
    rw [← List.append_nil cs] at h
    exact (areWellFormed_of_isArranged cs [] h).1

/-- Reading tokens to their end gives component values for any tokens. They are a well-formed tree, every
such tree is read from some tokens, and its tokens, depth first, are the only ones it is read from. -/
theorem ofTokens_bijOn_areWellFormed :
    (∀ ts, StreamReader.Exhausts StreamReader.components ts (ofTokens ts)) ∧
      Set.BijOn ofTokens Set.univ {cs | AreWellFormed cs} ∧
      Set.InvOn listTokens ofTokens Set.univ {cs | AreWellFormed cs} := by
  have hleft : Set.LeftInvOn listTokens ofTokens Set.univ := fun ts _ => listTokens_ofTokens ts
  have hright : Set.RightInvOn listTokens ofTokens {cs | AreWellFormed cs} :=
    fun cs hcs => areWellFormed_iff_isArranged.1 hcs
  have hmaps : Set.MapsTo ofTokens Set.univ {cs | AreWellFormed cs} :=
    fun ts _ => areWellFormed_iff_isArranged.2 (isArranged_ofTokens ts)
  have hinv : Set.InvOn listTokens ofTokens Set.univ {cs | AreWellFormed cs} := ⟨hleft, hright⟩
  exact ⟨StreamReader.exhausts_components, hinv.bijOn hmaps (Set.mapsTo_univ ..), hinv⟩

end Styling.Component
