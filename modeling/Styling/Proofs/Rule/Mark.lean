import Styling.Proofs.Component.Outline
import Styling.Proofs.Rule.Declaration

/-!
# Values with a mark

A value is marked if the last two component values in it, white-space apart, are a `!` and the word
`important` (`isMarked_iff_solid`). What is split off a value is its mark, with all white-space around it, or
the white-space at its end if it has none (`splitImportant_eq_iff`).
-/

namespace Styling

/-- A value that has an `!important` behind `front`. -/
def IsMarked (front marked : List Component) : Prop :=
  ∃ bang gap word back, marked = front ++ bang :: (gap ++ word :: back) ∧ isBang bang ∧
    isImportantIdent word ∧ (∀ c ∈ gap, c.isWhite) ∧ ∀ c ∈ back, c.isWhite

/-- An `!important`, from the `!` to the word. -/
def IsMark (mark : List Component) : Prop :=
  ∃ bang gap word, mark = bang :: (gap ++ [word]) ∧ isBang bang ∧ isImportantIdent word ∧
    ∀ c ∈ gap, c.isWhite

variable {front marked mark body : List Component} {bang word : Component}

theorem isMarked_iff : IsMarked front marked ↔
    ∃ mark back, IsMark mark ∧ marked = front ++ mark ++ back ∧ ∀ c ∈ back, c.isWhite := by
  constructor
  · rintro ⟨bang, gap, word, back, rfl, hbang, hword, hgap, hback⟩
    exact ⟨_, back, ⟨bang, gap, word, rfl, hbang, hword, hgap⟩, by simp, hback⟩
  · rintro ⟨_, back, ⟨bang, gap, word, rfl, hbang, hword, hgap⟩, rfl, hback⟩
    exact ⟨bang, gap, word, back, by simp, hbang, hword, hgap, hback⟩

theorem isWhite_of_isBang {c : Component} (h : isBang c) : c.isWhite = false := by
  unfold isBang at h
  split at h
  · rfl
  · contradiction

theorem isWhite_of_isImportantIdent {c : Component} (h : isImportantIdent c) :
    c.isWhite = false := by
  unfold isImportantIdent at h
  split at h
  · rfl
  · contradiction

theorem IsMark.ne_nil (h : IsMark mark) : mark ≠ [] := by
  obtain ⟨bang, gap, word, rfl, -⟩ := h
  exact List.cons_ne_nil _ _

theorem IsMark.solid_eq (h : IsMark mark) :
    ∃ bang word, isBang bang ∧ isImportantIdent word ∧ solid mark = [bang, word] := by
  rcases h with ⟨bang, gap, word, rfl, hbang, hword, hgap⟩
  refine ⟨bang, word, hbang, hword, ?_⟩
  rw [solid_cons_of_not_white _ (isWhite_of_isBang hbang), solid_append, solid_of_white hgap,
    solid_cons_of_not_white _ (isWhite_of_isImportantIdent hword)]
  rfl

/-- The mark is the last there is besides white-space. -/
theorem IsMarked.solid_eq (h : IsMarked front marked) :
    ∃ bang word, isBang bang ∧ isImportantIdent word ∧ solid marked = solid front ++ [bang, word] := by
  obtain ⟨mark, back, hmark, rfl, hback⟩ := isMarked_iff.1 h
  obtain ⟨bang, word, hbang, hword, hsolid⟩ := hmark.solid_eq
  refine ⟨bang, word, hbang, hword, ?_⟩
  rw [solid_append, solid_append, hsolid, solid_of_white hback, List.append_nil]

private theorem solid_append_cons {front back : List Component} {c : Component}
    (hc : c.isWhite = false) (hback : ∀ c ∈ back, c.isWhite) :
    solid (front ++ c :: back) = solid front ++ [c] := by
  have hsolid : solid [c] = [c] := by simp [solid, hc]
  rw [List.append_cons, solid_append, solid_append, solid_of_white hback, hsolid, List.append_nil]

/-- A value that ends with a bang and the word is marked. -/
theorem exists_isMarked {cs before : List Component} {bang word : Component} (hbang : isBang bang)
    (hword : isImportantIdent word) (h : solid cs = before ++ [bang, word]) :
    ∃ front, IsMarked front cs ∧ solid front = before := by
  rcases forall_or_exists_last Component.isWhite cs with
    hall | ⟨inner, last, back, rfl, hlast, hback⟩
  · rw [solid_of_white hall] at h
    simp at h
  · rw [solid_append_cons hlast hback, List.append_cons before] at h
    obtain ⟨hinner, heq⟩ := List.append_inj' h rfl
    cases heq
    rcases forall_or_exists_last Component.isWhite inner with
      hall | ⟨front, other, gap, rfl, hother, hgap⟩
    · rw [solid_of_white hall] at hinner
      simp at hinner
    · rw [solid_append_cons hother hgap] at hinner
      obtain ⟨hfront, heq⟩ := List.append_inj' hinner rfl
      cases heq
      exact ⟨front, ⟨bang, gap, word, back, by simp, hbang, hword, hgap, hback⟩, hfront⟩

/-- Whether the last two component values, white-space apart, are a `!` and the word `important`. -/
def EndsInMark (cs : List Component) : Prop :=
  ∃ before bang word, solid cs = before ++ [bang, word] ∧ isBang bang ∧ isImportantIdent word

theorem endsInMark_iff {cs : List Component} : EndsInMark cs ↔ ∃ front, IsMarked front cs := by
  constructor
  · rintro ⟨before, bang, word, hsolid, hbang, hword⟩
    obtain ⟨front, hmarked, -⟩ := exists_isMarked hbang hword hsolid
    exact ⟨front, hmarked⟩
  · rintro ⟨front, hmarked⟩
    obtain ⟨bang, word, hbang, hword, hsolid⟩ := hmarked.solid_eq
    exact ⟨solid front, bang, word, hsolid, hbang, hword⟩

/-- Whether a value is marked depends on what there is besides white-space. -/
theorem exists_isMarked_of_solid_eq {cs ds : List Component} (h : solid cs = solid ds)
    (hcs : ∃ front, IsMarked front cs) : ∃ front, IsMarked front ds := by
  rw [← endsInMark_iff, EndsInMark, h] at hcs
  exact endsInMark_iff.1 hcs

/-- A mark is split off with the white-space around it. -/
theorem splitImportant_of_isMark (front : List Component) {mark back : List Component} (hmark : IsMark mark)
    (hback : ∀ c ∈ back, c.isWhite) : splitImportant (front ++ mark ++ back) =
      ⟨dropTrailing Component.isWhite front, takeTrailing Component.isWhite front, mark, back⟩ := by
  obtain ⟨bang, gap, word, rfl, hbang, hword, hgap⟩ := hmark
  have hbody : front ++ bang :: (gap ++ [word]) ++ back = front ++ bang :: (gap ++ word :: back) := by
    simp
  rw [hbody, StreamReader.splitImportant_append_cons (isWhite_of_isBang hbang) hgap
    (isWhite_of_isImportantIdent hword) hback, hbang, hword]
  rfl

theorem IsMarked.value_splitImportant (h : IsMarked front marked) :
    (splitImportant marked).value = dropTrailing Component.isWhite front := by
  obtain ⟨mark, back, hmark, rfl, hback⟩ := isMarked_iff.1 h
  rw [splitImportant_of_isMark front hmark hback]

theorem splitImportant_of_not_isMarked {body : List Component} (h : ¬∃ front, IsMarked front body) :
    splitImportant body = unmarked body := by
  rcases forall_or_exists_last Component.isWhite body with
    hall | ⟨inner, last, back, rfl, hlast, hback⟩
  · exact StreamReader.splitImportant_of_all hall
  rcases forall_or_exists_last Component.isWhite inner with
    hall | ⟨front, other, gap, rfl, hother, hgap⟩
  · exact StreamReader.splitImportant_of_single hall hlast hback
  have hbody : front ++ other :: gap ++ last :: back = front ++ other :: (gap ++ last :: back) := by
    simp
  have hnone : ¬(isBang other && isImportantIdent last) := by
    intro hmark
    obtain ⟨hbang, hword⟩ := Bool.and_eq_true_iff.1 hmark
    exact h ⟨front, other, gap, last, back, hbody, hbang, hword, hgap, hback⟩
  rw [hbody, StreamReader.splitImportant_append_cons hother hgap hlast hback, if_neg hnone]

/-- The parts that a value is split into: it ends before the white-space in front of the mark, if it has one,
or before the white-space at its end. -/
theorem splitImportant_eq_iff {body value beforeMark mark afterMark : List Component} :
    splitImportant body = ⟨value, beforeMark, mark, afterMark⟩ ↔
      body = value ++ beforeMark ++ mark ++ afterMark ∧
        (∀ c ∈ value.getLast?, c.isWhite = false) ∧ (∀ c ∈ beforeMark, c.isWhite) ∧
        (∀ c ∈ afterMark, c.isWhite) ∧
        (IsMark mark ∨ mark = [] ∧ afterMark = [] ∧ ¬EndsInMark body) := by
  constructor
  · intro h
    by_cases hmarked : ∃ front, IsMarked front body
    · obtain ⟨front, hmarked⟩ := hmarked
      obtain ⟨mark', back, hmark, rfl, hback⟩ := isMarked_iff.1 hmarked
      rw [splitImportant_of_isMark front hmark hback] at h
      obtain ⟨hvalue, hbefore, rfl, rfl⟩ := MarkedValue.mk.inj h
      obtain ⟨rfl, hwhite, hlast⟩ := trailing_eq_iff.1 ⟨hvalue, hbefore⟩
      exact ⟨rfl, hlast, hwhite, hback, .inl hmark⟩
    · rw [splitImportant_of_not_isMarked hmarked] at h
      obtain ⟨hvalue, hbefore, rfl, rfl⟩ := MarkedValue.mk.inj h
      obtain ⟨rfl, hwhite, hlast⟩ := trailing_eq_iff.1 ⟨hvalue, hbefore⟩
      refine ⟨by simp, hlast, hwhite, by simp, .inr ⟨rfl, rfl, ?_⟩⟩
      rwa [endsInMark_iff]
  · rintro ⟨rfl, hlast, hwhite, hback, hmark | ⟨rfl, rfl, hnone⟩⟩
    · obtain ⟨hvalue, hbefore⟩ := trailing_eq_iff.2 ⟨rfl, hwhite, hlast⟩
      rw [splitImportant_of_isMark _ hmark hback, hvalue, hbefore]
    · rw [endsInMark_iff] at hnone
      rw [splitImportant_of_not_isMarked hnone, unmarked, List.append_nil, List.append_nil]
      obtain ⟨hvalue, hbefore⟩ := trailing_eq_iff.2 ⟨rfl, hwhite, hlast⟩
      rw [hvalue, hbefore]

end Styling
