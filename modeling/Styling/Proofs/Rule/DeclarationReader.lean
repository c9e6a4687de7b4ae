import Styling.Proofs.Rule.DeclarationParts
import Styling.Proofs.Rule.StreamReader

/-!
# Declarations read from a stream

The reader takes the tokens of the declaration that stands ahead and no others; if there is none, the mark set
before it leads back to where it began (`StreamReader.declarationTo_exact`).
-/

namespace Styling

open Component

namespace StreamReader

/-- Reading a declaration from a stream, and appending it to a list, finds the one that the tokens ahead begin
with, if any, and leaves what is behind it. -/
private theorem obtains_declarationTo (nested : Bool) (items : List Item) (xs : List Token) :
    ∃ found ys, Obtains (declarationTo nested items) xs (found, items ++ (found.map .declaration).toList) ys ∧
      ∀ d, (found = some d → listTokens d.components ++ ys = xs) ∧
        (found = some d ↔ d.Begins nested (ofTokens xs)) := by
  obtain ⟨rest, hfound, hread⟩ := obtains_declaration nested (isArranged_ofTokens xs)
  rw [listTokens_ofTokens] at hread
  refine ⟨(Declaration.take? nested (ofTokens xs)).map Prod.fst, listTokens rest, hread.bind ?_, fun d => ?_⟩
  · cases Declaration.take? nested (ofTokens xs) with
    | none =>
      rw [Option.map_none, Option.map_none, Option.toList_none, List.append_nil]
      exact .pure _ _
    | some found => exact .pure _ _
  · have hbegins : (Declaration.take? nested (ofTokens xs)).map Prod.fst = some d ↔
        d.Begins nested (ofTokens xs) := by
      rw [Declaration.begins_iff, Option.map_eq_some_iff]
      exact ⟨fun ⟨⟨_, rest⟩, htake, rfl⟩ => ⟨rest, htake⟩, fun ⟨rest, htake⟩ => ⟨_, htake, rfl⟩⟩
    refine ⟨fun hd => ?_, hbegins⟩
    obtain ⟨⟨_, after⟩, htake, rfl⟩ := Option.map_eq_some_iff.1 hd
    obtain rfl := hfound _ htake
    have hparts := congrArg listTokens (Declaration.components_take? htake)
    rwa [listTokens_append, listTokens_ofTokens] at hparts

/-- On every token stream, whatever marks are set, reading a declaration under a mark ends. If a declaration is
found, it is the one that the tokens ahead begin with; it is appended to the list, and the stream has moved past
its tokens, which are those that stood there, in order. If none is found, the tokens ahead begin with none, the
list is as before, and going back to the mark leads to where the stream was. Nothing else can happen but that the
source of the stream fails. -/
theorem declarationTo_exact (nested : Bool) (items : List Item) {ts : List Token} {s : TokenStream}
    (hs : s.IsOver ts) : ∃ outcome, declarationTo nested items s.mark = some outcome ∧
      (∀ d items' s', outcome = .ok ((some d, items'), s') →
        items' = items ++ [.declaration d] ∧ d.Begins nested (ofTokens (ts.drop s.index)) ∧
          (ts.drop s.index).take (listTokens d.components).length = listTokens d.components ∧
          s'.IsAt ts s.failure (s.index + (listTokens d.components).length) (s.index :: s.marks)) ∧
      (∀ items' s', outcome = .ok ((none, items'), s') →
        items' = items ∧ (∀ d, ¬Declaration.Begins nested d (ofTokens (ts.drop s.index))) ∧
          ∃ back, s'.restoreMark? = some back ∧ back.IsAt ts s.failure s.index s.marks) ∧
      ∀ fault, outcome = .error fault → ∃ error, s.failure = some error ∧ fault = .range error := by
  obtain ⟨found, ys, hread, hfound⟩ := obtains_declarationTo nested items (ts.drop s.index)
  rcases hread ts s.failure s.index (s.index :: s.marks) s.mark hs.isAt.mark rfl with
    ⟨s', hrun, n, hn, -, hs'⟩ | ⟨error, he, hrun⟩
  · refine ⟨_, hrun, ?_, ?_, by rintro _ ⟨⟩⟩
    · rintro d _ _ ⟨⟩
      obtain ⟨htokens, hbegins⟩ := hfound d
      have hsplit := htokens rfl
      have hlength := congrArg List.length hsplit
      rw [List.length_append] at hlength
      obtain rfl : n = (listTokens d.components).length := by omega
      refine ⟨rfl, hbegins.1 rfl, ?_, hs'⟩
      rw [← hsplit, List.take_left]
    · rintro _ _ ⟨⟩
      refine ⟨by simp, fun d hbegins => ?_, hs'.restoreMark? (Nat.le_add_right _ _)⟩
      cases (hfound d).2.2 hbegins
  · refine ⟨_, hrun, by rintro _ _ _ ⟨⟩, by rintro _ _ ⟨⟩, ?_⟩
    rintro _ ⟨⟩
    exact ⟨error, he, rfl⟩

/-- The tokens of `;a:b! IMPORTANT`, of which the first stands before the declaration. -/
def importantTokens : List Token :=
  [⟨.semicolon, ";", ⟨1, 1⟩⟩, ⟨.ident "a", "a", ⟨1, 2⟩⟩, ⟨.colon, ":", ⟨1, 3⟩⟩, ⟨.ident "b", "b", ⟨1, 4⟩⟩,
    ⟨.delim '!', "!", ⟨1, 5⟩⟩, ⟨.whitespace " ", " ", ⟨1, 6⟩⟩, ⟨.ident "IMPORTANT", "IMPORTANT", ⟨1, 7⟩⟩]

theorem declarationTo_importantTokens : (TokenStream.ofEntries importantTokens 2 1 [0]).IsOver importantTokens ∧
    ∃ d s', declarationTo true [] (TokenStream.ofEntries importantTokens 2 1 [0]).mark =
        some (.ok ((some d, [.declaration d]), s')) ∧
      d.isImportant ∧ d.value = [.token ⟨.ident "b", "b", ⟨1, 4⟩⟩] ∧ s'.index = 7 ∧ s'.marks = [1, 0] := by
  have hover : (TokenStream.ofEntries importantTokens 2 1 [0]).IsOver importantTokens :=
    TokenStream.isOver_ofEntries _ _ (Nat.le_succ 1)
  obtain ⟨found, htake⟩ : ∃ found,
      Declaration.take? true (ofTokens (importantTokens.drop 1)) = some (found, []) := ⟨_, rfl⟩
  obtain ⟨outcome, hrun, hsome, hnone, herror⟩ := declarationTo_exact true [] hover
  refine ⟨hover, ?_⟩
  rcases outcome with fault | ⟨⟨_ | d, items⟩, s'⟩
  · obtain ⟨error, hfailure, -⟩ := herror fault rfl
    cases hfailure
  · exact absurd (Declaration.begins_iff.2 ⟨[], htake⟩) ((hnone items s' rfl).2.1 found)
  · obtain ⟨rfl, hbegins, -, hat⟩ := hsome d items s' rfl
    obtain ⟨rest, hsame⟩ := Declaration.begins_iff.1 hbegins
    cases hsame
    exact ⟨_, s', hrun, rfl, rfl, hat.index_eq, hat.marks_eq⟩

end StreamReader

end Styling
