import Styling.Source.Filter

/-!
# Places in source text

The place of an offset is told by the line breaks before it. The text written for filtered
characters is the whole source text, and every filtered character carries the place of the offset at
which its text starts (`located_filter`).
-/

namespace Styling.Source

/-- Whether a line ends with the character at an offset: a line feed, a form feed, or a carriage
return that no line feed follows. -/
def endsLine (text : List Char) (i : Nat) : Bool :=
  match text[i]? with
  | some c => c == '\n' || c == '\x0C' || (c == '\r' && text[i + 1]? != some '\n')
  | none => false

/-- The place of an offset: a line for every line break before it, and a column for every character
since the last of them. -/
def locationAt (text : List Char) (offset : Nat) : Location :=
  let ends := (List.range offset).filter (endsLine text)
  ⟨ends.length + 1, offset - (ends.getLast?.map (· + 1)).getD 0 + 1⟩

private theorem lastEnd_le (text : List Char) (offset : Nat) :
    ((((List.range offset).filter (endsLine text)).getLast?).map (· + 1)).getD 0 ≤ offset := by
  cases hlast : ((List.range offset).filter (endsLine text)).getLast? with
  | none => exact Nat.zero_le offset
  | some i =>
    have hmem := List.mem_of_getLast? hlast
    have hlt : i < offset := List.mem_range.1 (List.mem_filter.1 hmem).1
    exact hlt

theorem locationAt_succ_of_endsLine {text : List Char} {offset : Nat} (h : endsLine text offset) :
    locationAt text (offset + 1) = (locationAt text offset).nextLine := by
  simp [locationAt, Location.nextLine, List.range_succ, List.filter_append, h]

theorem locationAt_succ_of_not_endsLine {text : List Char} {offset : Nat}
    (h : ¬endsLine text offset) :
    locationAt text (offset + 1) = (locationAt text offset).nextColumn := by
  have hle := lastEnd_le text offset
  have hends : (List.range (offset + 1)).filter (endsLine text) =
      (List.range offset).filter (endsLine text) := by
    simp [List.range_succ, List.filter_append, h]
  rw [locationAt, hends]
  simp only [locationAt, Location.nextColumn, Location.mk.injEq, true_and]
  omega

private theorem endsLine_of_drop {text cs : List Char} {offset : Nat} {c : Char}
    (h : text.drop offset = c :: cs) : endsLine text offset =
      (c == '\n' || c == '\x0C' || (c == '\r' && cs.head? != some '\n')) := by
  have hhead : text[offset]? = some c := by rw [← List.head?_drop, h, List.head?_cons]
  have hnext : text[offset + 1]? = cs.head? := by
    rw [← List.head?_drop, ← List.tail_drop, h, List.tail_cons]
  simp only [endsLine, hhead, hnext]

private theorem drop_succ_of_drop {text cs : List Char} {offset : Nat} {c : Char}
    (h : text.drop offset = c :: cs) : text.drop (offset + 1) = cs := by
  rw [← List.tail_drop, h, List.tail_cons]

/-- A line break of one character, or of two, is passed as one. -/
private theorem locationAt_after {text cs : List Char} {offset : Nat} {c : Char}
    (h : text.drop offset = c :: cs) (hpair : ¬(c = '\r' ∧ cs.head? = some '\n')) :
    locationAt text (offset + 1) = (locationAt text offset).after c := by
  have hends := endsLine_of_drop h
  by_cases hbreak : c == '\r' || c == '\n' || c == '\x0C'
  · have hend : endsLine text offset := by
      rw [hends]
      grind
    rw [Location.after, if_pos hbreak, locationAt_succ_of_endsLine hend]
  · have hend : ¬endsLine text offset := by
      rw [hends]
      grind
    rw [Location.after, if_neg hbreak, locationAt_succ_of_not_endsLine hend]

/-- The text written for filtered characters. -/
def sourcesOf (cs : List SourceChar) : List Char := cs.flatMap SourceChar.source

@[simp] theorem sourcesOf_cons (c : SourceChar) (cs : List SourceChar) :
    sourcesOf (c :: cs) = c.source ++ sourcesOf cs := rfl

@[simp] theorem sourcesOf_append (cs ds : List SourceChar) :
    sourcesOf (cs ++ ds) = sourcesOf cs ++ sourcesOf ds := List.flatMap_append

/-- Filtered characters that stand in a text from an offset on carry the places they stand at. -/
def Located (text : List Char) : Nat → List SourceChar → Prop
  | _, [] => True
  | offset, c :: cs =>
    c.location = locationAt text offset ∧ c.source ≠ [] ∧
      Located text (offset + c.source.length) cs

theorem sourcesOf_filterFrom (here : Location) (cs : List Char) :
    sourcesOf (filterFrom here cs) = cs := by
  fun_induction filterFrom here cs with
  | case1 => rfl
  | case2 here cs ih => simp [ih]
  | case3 here c cs _ ih => simp [ih]

theorem located_filterFrom {text : List Char} {offset : Nat} {cs : List Char}
    (h : text.drop offset = cs) : Located text offset (filterFrom (locationAt text offset) cs) := by
  generalize hhere : locationAt text offset = here
  fun_induction filterFrom here cs generalizing offset with
  | case1 => trivial
  | case2 here cs ih =>
    have hdrop := drop_succ_of_drop h
    have hfirst : ¬endsLine text offset := by simp [endsLine_of_drop h]
    have hsecond : endsLine text (offset + 1) := by simp [endsLine_of_drop hdrop]
    have hplace : locationAt text (offset + 2) = here.nextLine := by
      rw [locationAt_succ_of_endsLine hsecond, locationAt_succ_of_not_endsLine hfirst, hhere]
      rfl
    exact ⟨hhere.symm, by simp, ih (drop_succ_of_drop hdrop) hplace⟩
  | case3 here c cs hpair ih =>
    have hsingle : ¬(c = '\r' ∧ cs.head? = some '\n') := by
      intro hcr
      rcases hcr with ⟨rfl, hhead⟩
      cases cs with
      | nil => cases hhead
      | cons d ds =>
        obtain rfl := Option.some.inj hhead
        exact hpair ds rfl rfl
    have hplace : locationAt text (offset + 1) = here.after c := by
      rw [locationAt_after h hsingle, hhere]
    exact ⟨hhere.symm, by simp, ih (drop_succ_of_drop h) hplace⟩

theorem located_filter (text : String) : Located text.toList 0 (filter text) :=
  located_filterFrom rfl

theorem sourcesOf_filter (text : String) : sourcesOf (filter text) = text.toList :=
  sourcesOf_filterFrom .start text.toList

end Styling.Source
