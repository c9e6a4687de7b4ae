import Mathlib.Data.List.TakeWhile
import Styling.Rule.StreamReader

/-!
# Cutting the mark out of a value

The `!important` at the end of a value is found either from behind, by passing over white-space, or
by the places of the last two component values that are no white-space. Both cut a value in the same
way (`StreamReader.cutImportant_eq_splitImportant`).
-/

namespace Styling

variable {α : Type u} {p : α → Bool}

/-- A list satisfies `p` throughout, or there is a last element that does not. -/
theorem forall_or_exists_last (p : α → Bool) (xs : List α) : (∀ x ∈ xs, p x) ∨
    ∃ front x back, xs = front ++ x :: back ∧ p x = false ∧ ∀ y ∈ back, p y := by
  induction xs with
  | nil => simp
  | cons y ys ih =>
    rcases ih with h | ⟨front, x, back, rfl, hx, hback⟩
    · by_cases hy : p y
      · exact .inl (List.forall_mem_cons.2 ⟨hy, h⟩)
      · exact .inr ⟨[], y, ys, rfl, by simpa using hy, h⟩
    · exact .inr ⟨y :: front, x, back, rfl, hx, hback⟩

private theorem splitRun_reverse_append (front : List α) {back : List α} {x : α}
    (hback : ∀ y ∈ back, p y) (hx : p x = false) :
    splitRun p (back.reverse ++ x :: front) = (back.reverse, x :: front) :=
  splitRun_eq_iff.2 ⟨rfl, by simpa using hback, by simpa using hx⟩

private theorem trailing_append_cons (front : List α) {back : List α} {x : α}
    (hback : ∀ y ∈ back, p y) (hx : p x = false) :
    dropTrailing p (front ++ x :: back) = front ++ [x] ∧
      takeTrailing p (front ++ x :: back) = back :=
  trailing_eq_iff.2 ⟨List.append_cons front x back, hback, by simpa using hx⟩

private theorem take_length_sub_takeTrailing (p : α → Bool) (xs : List α) :
    xs.take (xs.length - (takeTrailing p xs).length) = dropTrailing p xs := by
  have h := dropTrailing_append_takeTrailing p xs
  have hlen : xs.length - (takeTrailing p xs).length = (dropTrailing p xs).length := by
    have hsum := congrArg List.length h
    rw [List.length_append] at hsum
    omega
  calc xs.take (xs.length - (takeTrailing p xs).length)
      = (dropTrailing p xs ++ takeTrailing p xs).take (dropTrailing p xs).length := by rw [hlen, h]
    _ = dropTrailing p xs := List.take_left

private theorem filter_zipIdx_eq_nil {cs : List Component} (h : ∀ c ∈ cs, c.isWhite) (k : Nat) :
    (cs.zipIdx k).filter (fun (c, _) => !c.isWhite) = [] := by
  rw [List.filter_eq_nil_iff]
  rintro ⟨c, i⟩ hmem
  simp [h c (List.fst_mem_of_mem_zipIdx hmem)]

/-- A value that is not marked, white-space at its end split off. -/
def unmarked (body : List Component) : MarkedValue :=
  ⟨dropTrailing Component.isWhite body, takeTrailing Component.isWhite body, [], []⟩

namespace StreamReader

private theorem cutImportant_of_none {body : List Component} (h : markPlaces? body = none) :
    cutImportant body = unmarked body := by
  simp [cutImportant, unmarked, h, take_length_sub_takeTrailing]

/-- Two values or more that are no white-space: the places are those of the last two. -/
private theorem markPlaces?_append (front : List Component) {gap back : List Component}
    {bang word : Component}
    (hbang : bang.isWhite = false) (hgap : ∀ c ∈ gap, c.isWhite) (hword : word.isWhite = false)
    (hback : ∀ c ∈ back, c.isWhite) : markPlaces? (front ++ bang :: (gap ++ word :: back)) =
      if isBang bang && isImportantIdent word then
        some (front.length, front.length + 1 + gap.length) else none := by
  simp [markPlaces?, List.zipIdx_append, List.zipIdx_cons, List.filter_append, hbang, hword,
    filter_zipIdx_eq_nil hgap, filter_zipIdx_eq_nil hback, Nat.add_comm, Nat.add_left_comm]

/-- At most one value that is no white-space: there is no mark. -/
private theorem markPlaces?_eq_none {front back : List Component} {word : Component}
    (hfront : ∀ c ∈ front, c.isWhite) (hword : word.isWhite = false)
    (hback : ∀ c ∈ back, c.isWhite) : markPlaces? (front ++ word :: back) = none := by
  simp [markPlaces?, List.zipIdx_append, List.zipIdx_cons, List.filter_append, hword,
    filter_zipIdx_eq_nil hfront, filter_zipIdx_eq_nil hback]

private theorem cutImportant_of_some {front gap back : List Component} {bang word : Component}
    (hback : ∀ c ∈ back, c.isWhite)
    (h : markPlaces? (front ++ bang :: (gap ++ word :: back)) =
      some (front.length, front.length + 1 + gap.length)) :
    cutImportant (front ++ bang :: (gap ++ word :: back)) =
      ⟨dropTrailing Component.isWhite front, takeTrailing Component.isWhite front,
        bang :: (gap ++ [word]), back⟩ := by
  generalize hbody : front ++ bang :: (gap ++ word :: back) = body at h ⊢
  have hmark : body = (front ++ bang :: (gap ++ [word])) ++ back := by simp [← hbody]
  have hlen : front.length + 1 + gap.length + 1 = (front ++ bang :: (gap ++ [word])).length := by
    simp only [List.length_append, List.length_cons, List.length_nil]
    omega
  have hbefore : body.take front.length = front := by rw [← hbody, List.take_left]
  have htake : body.take (front.length + 1 + gap.length + 1) = front ++ bang :: (gap ++ [word]) := by
    rw [hmark, hlen, List.take_left]
  have hdrop : body.drop (front.length + 1 + gap.length + 1) = back := by
    rw [hmark, hlen, List.drop_left]
  have hafter : back.takeWhile Component.isWhite = back := List.takeWhile_eq_self_iff.2 hback
  have hend : body.drop (front.length + 1 + gap.length + 1 + back.length) = [] := by
    rw [hmark, hlen, ← List.length_append, List.drop_length]
  have hvalue : body.take (front.length - (takeTrailing Component.isWhite front).length) =
      dropTrailing Component.isWhite front := by
    rw [← hbody, List.take_append_of_le_length (Nat.sub_le ..), take_length_sub_takeTrailing]
  simp only [cutImportant, h, hbefore, htake, hdrop, hafter, hend, hvalue, List.append_nil,
    List.drop_left]

theorem splitImportant_of_all {body : List Component} (h : ∀ c ∈ body, c.isWhite) :
    splitImportant body = unmarked body := by
  have hcore : dropTrailing Component.isWhite body = [] := by
    rw [dropTrailing, List.dropWhile_eq_nil_iff.2 (fun c hc => h c (List.mem_reverse.1 hc))]
    rfl
  simp [splitImportant, unmarked, hcore]

theorem splitImportant_of_single {front back : List Component} {word : Component}
    (hfront : ∀ c ∈ front, c.isWhite) (hword : word.isWhite = false)
    (hback : ∀ c ∈ back, c.isWhite) :
    splitImportant (front ++ word :: back) = unmarked (front ++ word :: back) := by
  have hdrop : front.reverse.dropWhile Component.isWhite = [] :=
    List.dropWhile_eq_nil_iff.2 (fun c hc => hfront c (List.mem_reverse.1 hc))
  obtain ⟨hcore, -⟩ := trailing_append_cons front hback hword
  simp [splitImportant, unmarked, hcore, splitRun, hdrop]

theorem splitImportant_append_cons {front gap back : List Component} {bang word : Component}
    (hbang : bang.isWhite = false) (hgap : ∀ c ∈ gap, c.isWhite) (hword : word.isWhite = false)
    (hback : ∀ c ∈ back, c.isWhite) : splitImportant (front ++ bang :: (gap ++ word :: back)) =
      if isBang bang && isImportantIdent word then
        ⟨dropTrailing Component.isWhite front, takeTrailing Component.isWhite front,
          bang :: (gap ++ [word]), back⟩
      else unmarked (front ++ bang :: (gap ++ word :: back)) := by
  have hbody : front ++ bang :: (gap ++ word :: back) = (front ++ bang :: gap) ++ word :: back := by
    simp
  obtain ⟨hcore, htrail⟩ := trailing_append_cons (front ++ bang :: gap) hback hword
  have hsplit := splitRun_reverse_append front.reverse hgap hbang
  have hrev : (front ++ bang :: gap ++ [word]).reverse =
      word :: (gap.reverse ++ bang :: front.reverse) := by simp
  rw [hbody, splitImportant, unmarked]
  simp only [hcore, htrail, hrev, hsplit]
  cases hb : isBang bang <;> cases isImportantIdent word <;> simp [hb]

/-- Cutting the mark out by its place and splitting it off from behind come to the same. -/
theorem cutImportant_eq_splitImportant (body : List Component) :
    cutImportant body = splitImportant body := by
  rcases forall_or_exists_last Component.isWhite body with h | ⟨core, word, back, rfl, hword, hback⟩
  · have hnone : markPlaces? body = none := by simp [markPlaces?, filter_zipIdx_eq_nil h]
    rw [cutImportant_of_none hnone, splitImportant_of_all h]
  rcases forall_or_exists_last Component.isWhite core with h | ⟨front, bang, gap, rfl, hbang, hgap⟩
  · rw [cutImportant_of_none (markPlaces?_eq_none h hword hback),
      splitImportant_of_single h hword hback]
  have hplaces := markPlaces?_append front hbang hgap hword hback
  rw [List.append_assoc, List.cons_append, splitImportant_append_cons hbang hgap hword hback]
  by_cases hmark : isBang bang && isImportantIdent word
  · rw [if_pos hmark] at hplaces ⊢
    exact cutImportant_of_some hback hplaces
  · rw [if_neg hmark] at hplaces ⊢
    exact cutImportant_of_none hplaces

end StreamReader

end Styling
