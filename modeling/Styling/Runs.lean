/-!
# Runs at the ends of a list

The longest run of elements with a property at the front or at the end of a list, split off from
the rest of it.
-/

namespace Styling

/-- The longest run of elements satisfying `p` at the front, and the rest. -/
def splitRun (p : α → Bool) (xs : List α) : List α × List α := (xs.takeWhile p, xs.dropWhile p)

/-- The list without the longest run of elements satisfying `p` at its end. -/
def dropTrailing (p : α → Bool) (xs : List α) : List α := (xs.reverse.dropWhile p).reverse

/-- The longest run of elements satisfying `p` at the end of the list. -/
def takeTrailing (p : α → Bool) (xs : List α) : List α := (xs.reverse.takeWhile p).reverse

theorem splitRun_append (p : α → Bool) (xs : List α) : (splitRun p xs).1 ++ (splitRun p xs).2 = xs :=
  List.takeWhile_append_dropWhile

theorem length_splitRun_le (p : α → Bool) (xs : List α) : (splitRun p xs).2.length ≤ xs.length :=
  (List.dropWhile_sublist p).length_le

theorem isSuffix_splitRun (p : α → Bool) (xs : List α) : (splitRun p xs).2 <:+ xs :=
  List.dropWhile_suffix p

/-- The run at the front ends where the property does. -/
theorem head?_splitRun (p : α → Bool) (xs : List α) : ∀ x ∈ (splitRun p xs).2.head?, p x = false := by
  intro x hx
  have hhead := List.head?_dropWhile_not p xs
  rw [show (xs.dropWhile p).head? = some x from hx] at hhead
  simpa using hhead

theorem not_of_splitRun_eq_cons {p : α → Bool} {xs ys : List α} {y : α}
    (h : (splitRun p xs).2 = y :: ys) : p y = false := by
  exact head?_splitRun p xs y (by rw [h, List.head?_cons, Option.mem_def])

theorem splitRun_congr {p q : α → Bool} {xs : List α} (h : ∀ x ∈ xs, p x = q x) :
    splitRun p xs = splitRun q xs := by
  induction xs with
  | nil => rfl
  | cons x xs ih =>
    obtain ⟨hx, hxs⟩ := List.forall_mem_cons.1 h
    obtain ⟨htake, hdrop⟩ := Prod.mk.inj (ih hxs)
    simp [splitRun, List.takeWhile_cons, List.dropWhile_cons, hx, htake, hdrop]

/-- What is put behind a list leaves the run at its front as it is, where the run ended already or
would not go on. -/
theorem splitRun_append_right {p : α → Bool} {xs : List α} (ys : List α)
    (h : (splitRun p xs).2 = [] → ∀ y ∈ ys.head?, p y = false) :
    splitRun p (xs ++ ys) = ((splitRun p xs).1, (splitRun p xs).2 ++ ys) := by
  induction xs with
  | nil =>
    cases ys with
    | nil => rfl
    | cons y ys => simp [splitRun, h rfl y rfl]
  | cons x xs ih =>
    by_cases hx : p x
    · simp only [splitRun, List.dropWhile_cons_of_pos hx] at h
      obtain ⟨htake, hdrop⟩ := Prod.mk.inj (ih h)
      simp [splitRun, hx, htake, hdrop]
    · simp [splitRun, hx]

/-- A list is split where the elements in front have the property and the first of the others has not. -/
theorem splitRun_eq_iff {p : α → Bool} {xs ys zs : List α} :
    splitRun p zs = (xs, ys) ↔ zs = xs ++ ys ∧ (∀ x ∈ xs, p x) ∧ ∀ y ∈ ys.head?, p y = false := by
  constructor
  · intro h
    obtain ⟨rfl, rfl⟩ := Prod.mk.inj h
    refine ⟨List.takeWhile_append_dropWhile.symm, List.all_eq_true.1 List.all_takeWhile, ?_⟩
    intro y hy
    obtain ⟨ys, hys⟩ := List.head?_eq_some_iff.1 hy
    exact not_of_splitRun_eq_cons hys
  · rintro ⟨rfl, hxs, hys⟩
    rw [splitRun, List.takeWhile_append_of_pos hxs, List.dropWhile_append_of_pos hxs]
    cases ys with
    | nil => simp
    | cons y ys => simp [hys y rfl]

theorem dropTrailing_append_takeTrailing (p : α → Bool) (xs : List α) :
    dropTrailing p xs ++ takeTrailing p xs = xs := by
  rw [dropTrailing, takeTrailing, ← List.reverse_append, List.takeWhile_append_dropWhile,
    List.reverse_reverse]

theorem trailing_eq_iff {p : α → Bool} {xs ys zs : List α} :
    dropTrailing p zs = xs ∧ takeTrailing p zs = ys ↔
      zs = xs ++ ys ∧ (∀ y ∈ ys, p y) ∧ ∀ x ∈ xs.getLast?, p x = false := by
  have hsplit : dropTrailing p zs = xs ∧ takeTrailing p zs = ys ↔
      splitRun p zs.reverse = (ys.reverse, xs.reverse) := by
    rw [splitRun, Prod.mk.injEq, dropTrailing, takeTrailing, List.reverse_eq_iff, List.reverse_eq_iff]
    exact and_comm
  rw [hsplit, splitRun_eq_iff, ← List.reverse_append, List.reverse_inj]
  simp

end Styling
