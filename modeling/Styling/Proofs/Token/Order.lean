import Mathlib
import Styling.Proofs.Token.Sequence

/-!
# The order of places

Every offset of a text has a later place than those before it, and no token is empty. So each token of a
text stands at a later place than the one before (`pairwise_isBefore_of_tokenize`).
-/

namespace Styling

namespace Source

/-- Whether a place comes before another: on an earlier line, or on the same line further to the left. -/
def Location.IsBefore (a b : Location) : Prop :=
  a.line < b.line ∨ a.line = b.line ∧ a.column < b.column

instance : IsTrans Location Location.IsBefore where
  trans a b c hab hbc := by
    unfold Location.IsBefore at *
    omega

theorem isBefore_locationAt_succ (text : List Char) (offset : Nat) :
    (locationAt text offset).IsBefore (locationAt text (offset + 1)) := by
  by_cases h : endsLine text offset
  · rw [locationAt_succ_of_endsLine h]
    exact .inl (Nat.lt_succ_self _)
  · rw [locationAt_succ_of_not_endsLine h]
    exact .inr ⟨rfl, Nat.lt_succ_self _⟩

theorem isBefore_locationAt (text : List Char) {i j : Nat} (h : i < j) :
    (locationAt text i).IsBefore (locationAt text j) :=
  Nat.rel_of_forall_rel_succ_of_lt Location.IsBefore (isBefore_locationAt_succ text) h

end Source

/-- Where tokens are not empty, a later one has a longer text before it. -/
private theorem length_sourceOf_take_lt {ts : List Token} (hne : ∀ t ∈ ts, t.source ≠ "") {i j : Nat}
    (hij : i < j) (hj : j < ts.length) :
    (sourceOf (ts.take i)).length < (sourceOf (ts.take j)).length := by
  induction ts generalizing i j with
  | nil => cases hj
  | cons t ts ih =>
    have hts : ∀ u ∈ ts, u.source ≠ "" := fun u hu => hne u (List.mem_cons_of_mem t hu)
    have htake : ∀ k, (sourceOf ((t :: ts).take (k + 1))).length =
        t.source.length + (sourceOf (ts.take k)).length := by
      intro k
      rw [List.take_succ_cons, sourceOf, List.map_cons, String.join_cons, String.length_append]
      rfl
    cases j with
    | zero => cases hij
    | succ j =>
      rw [htake]
      cases i with
      | zero =>
        have hpos : t.source.length ≠ 0 := by
          rw [Ne, String.length_eq_zero_iff]
          exact hne t List.mem_cons_self
        rw [List.take_zero]
        show 0 < _
        omega
      | succ i =>
        have hrest := ih hts (Nat.lt_of_succ_lt_succ hij) (Nat.lt_of_succ_lt_succ hj)
        rw [htake]
        omega

/-- The tokens of a text stand at ever later places. -/
theorem pairwise_isBefore_of_tokenize {text : String} {ts : List Token} (h : tokenize text = .ok ts) :
    (ts.map Token.location).Pairwise Source.Location.IsBefore := by
  have hformed := formed_of_tokenize h
  have hne := hformed.source_ne_empty (Source.located_filter text)
  have hplace := hformed.location_eq (Source.located_filter text)
  rw [List.pairwise_map, List.pairwise_iff_getElem]
  intro i j hi hj hij
  rw [hplace i hi, hplace j hj, Nat.zero_add, Nat.zero_add]
  exact Source.isBefore_locationAt _ (length_sourceOf_take_lt hne hij hj)

end Styling
