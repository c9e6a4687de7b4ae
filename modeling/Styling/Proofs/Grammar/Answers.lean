import Styling.Proofs.Grammar.Products
import Styling.Proofs.Grammar.Taking

/-!
# Reading comes to what a production takes

Reading by a usable production gives what the production takes from the tokens ahead, moves past these
and leaves the marks alone; if it takes nothing, the cursor is where it was (`Production.answers_read`).
-/

namespace Styling

namespace Reading

variable {α β : Type} {r second : Reading α} {f g : Taking α}

/-- On every cursor the reading gives what `f` takes from the tokens ahead, and moves past what was
taken. Marks stay as they are. Where nothing is taken, the cursor may have moved. -/
def Answers (r : Reading α) (f : Taking α) : Prop :=
  ∀ c : Cursor Token, match f c.rest with
    | some (a, us) => ∃ taken, c.rest = taken ++ us ∧ r c = .ok (some a, c.advance taken.length)
    | none => ∃ n, r c = .ok (none, c.advance n)

/-- Where nothing is read, the cursor is where it was. -/
def IsAtomic (r : Reading α) : Prop := ∀ c c', r c = .ok (none, c') → c' = c

theorem Answers.some (h : Answers r f) {c : Cursor Token} {a : α} {us : List Token}
    (hf : f c.rest = some (a, us)) :
    ∃ taken, c.rest = taken ++ us ∧ r c = .ok (some a, c.advance taken.length) := by
  have hc := h c
  rwa [hf] at hc

theorem Answers.none (h : Answers r f) {c : Cursor Token} (hf : f c.rest = none) :
    ∃ n, r c = .ok (none, c.advance n) := by
  have hc := h c
  rwa [hf] at hc

private theorem rest_advance {c : Cursor Token} {taken us : List Token} (h : c.rest = taken ++ us) :
    (c.advance taken.length).rest = us := by
  have hdrop : (c.advance taken.length).rest = c.rest.drop taken.length := by
    simp [Cursor.rest, Cursor.advance]
  rw [hdrop, h, List.drop_left]

theorem answers_accept (a : α) : Answers (accept a) (.accept a) :=
  fun _ => ⟨[], rfl, rfl⟩

theorem answers_reject : Answers (reject : Reading α) fun _ => none :=
  fun _ => ⟨0, rfl⟩

theorem Answers.andThen {next : α → Reading β} {next' : α → Taking β} (hr : Answers r f)
    (hnext : ∀ a, Answers (next a) (next' a)) : Answers (r.andThen next) (f.andThen next') := by
  intro c
  cases hf : f c.rest with
  | none =>
    obtain ⟨n, hrun⟩ := hr.none hf
    simp only [Taking.andThen, hf, Option.bind_none]
    refine ⟨n, ?_⟩
    rw [Reading.andThen, hrun]
    rfl
  | some found =>
    rcases found with ⟨a, us⟩
    obtain ⟨taken, hrest, hrun⟩ := hr.some hf
    have hstep : r.andThen next c = next a (c.advance taken.length) := by
      rw [Reading.andThen, hrun]
      rfl
    have hus := rest_advance hrest
    simp only [Taking.andThen, hf, Option.bind_some, hstep]
    cases hg : next' a us with
    | none =>
      obtain ⟨n, hrun'⟩ := (hnext a).none (hus ▸ hg)
      exact ⟨taken.length + n, by rw [hrun', Cursor.advance, Cursor.advance, Nat.add_assoc]; rfl⟩
    | some found =>
      rcases found with ⟨b, vs⟩
      obtain ⟨taken', hrest', hrun'⟩ := (hnext a).some (hus ▸ hg)
      refine ⟨taken ++ taken', ?_, ?_⟩
      · rw [hrest, ← hus, hrest', List.append_assoc]
      · rw [hrun', List.length_append, Cursor.advance, Cursor.advance, Nat.add_assoc]
        rfl

theorem Answers.orElse (hr : Answers r f) (hatomic : IsAtomic r) (hsecond : Answers second g) :
    Answers (r.orElse second) (f.orElse g) := by
  intro c
  cases hf : f c.rest with
  | none =>
    obtain ⟨n, hrun⟩ := hr.none hf
    have hstep : r.orElse second c = second c := by
      rw [Reading.orElse, hrun]
      show second (c.advance n) = second c
      rw [hatomic c _ hrun]
    simp only [Taking.orElse, hf, Option.none_or, hstep]
    exact hsecond c
  | some found =>
    rcases found with ⟨a, us⟩
    obtain ⟨taken, hrest, hrun⟩ := hr.some hf
    simp only [Taking.orElse, hf, Option.some_or]
    refine ⟨taken, hrest, ?_⟩
    rw [Reading.orElse, hrun]
    rfl

/-- Going back to the mark undoes what was read in vain. -/
theorem Answers.attempt (hr : Answers r f) : Answers r.attempt f := by
  intro c
  have hmark := hr c.mark
  rw [show c.mark.rest = c.rest from rfl] at hmark
  cases hf : f c.rest with
  | none =>
    rw [hf] at hmark
    obtain ⟨n, hrun⟩ := hmark
    refine ⟨0, ?_⟩
    rw [Reading.attempt, hrun]
    rfl
  | some found =>
    rw [hf] at hmark
    obtain ⟨taken, hrest, hrun⟩ := hmark
    refine ⟨taken, hrest, ?_⟩
    rw [Reading.attempt, hrun]
    rfl

theorem Answers.isAtomic_attempt (hr : Answers r f) : IsAtomic r.attempt := by
  intro c c' h
  have hmark := hr c.mark
  rw [Reading.attempt] at h
  cases hf : f c.mark.rest with
  | none =>
    rw [hf] at hmark
    obtain ⟨n, hrun⟩ := hmark
    rw [hrun] at h
    cases h
    rfl
  | some found =>
    rw [hf] at hmark
    obtain ⟨taken, hrest, hrun⟩ := hmark
    rw [hrun] at h
    cases h

theorem Answers.atomic_attempt (hr : Answers r f) : Answers r.attempt f ∧ IsAtomic r.attempt :=
  ⟨hr.attempt, hr.isAtomic_attempt⟩

theorem answers_tokenIf (p : Token → Bool) :
    Answers (tokenIf p) (.tokenIf p) ∧ IsAtomic (tokenIf p) := by
  refine Answers.atomic_attempt fun c => ?_
  have hnext : c.next? = c.rest.head? := by simp [Cursor.next?, Cursor.rest]
  simp only [Cursor.consume, hnext]
  cases c.rest with
  | nil => exact ⟨1, rfl⟩
  | cons t ts =>
    by_cases hp : p t
    · simp only [Taking.tokenIf, List.head?_cons, if_pos hp]
      exact ⟨[t], rfl, rfl⟩
    · simp only [Taking.tokenIf, List.head?_cons, if_neg hp]
      exact ⟨1, rfl⟩

/-- What always goes on to accept gives up only where the first reading does. -/
theorem IsAtomic.andThen {next : α → Reading β} {next' : α → Taking β} (hatomic : IsAtomic r)
    (hr : Answers r f) (hnext : ∀ a, Answers (next a) (next' a))
    (haccepts : ∀ a ts, (next' a ts).isSome) : IsAtomic (r.andThen next) := by
  intro c c' h
  rw [Reading.andThen] at h
  cases hf : f c.rest with
  | none =>
    obtain ⟨n, hrun⟩ := hr.none hf
    rw [hrun] at h
    cases h
    exact hatomic c _ hrun
  | some found =>
    rcases found with ⟨a, us⟩
    obtain ⟨taken, hrest, hrun⟩ := hr.some hf
    obtain ⟨⟨b, vs⟩, hg⟩ := Option.isSome_iff_exists.1 (haccepts a us)
    obtain ⟨taken', -, hrun'⟩ := (hnext a).some (c := c.advance taken.length) ((rest_advance hrest).symm ▸ hg)
    have hstep : next a (c.advance taken.length) = .ok (none, c') := by
      rw [hrun] at h
      exact h
    cases hrun'.symm.trans hstep

/-! ## Repetition -/

section Repetition

variable {element : Reading Product} {separator : Reading (List Product)} {e : Taking Product}
  {s : Taking (List Product)}

theorem answers_repeated (he : Answers element e) (hatomic : IsAtomic element)
    (hs : Answers separator s) (limit : Nat) (first : Bool) :
    Answers (repeated element separator limit first)
      fun ts => some (Taking.repeated e s limit first ts) := by
  induction limit generalizing first with
  | zero => exact answers_accept _
  | succ limit ih =>
    rw [repeated]
    generalize hstep : (if first then element.andThen fun p => accept [p]
      else Reading.attempt (separator.andThen fun s => element.andThen fun p =>
        accept (s ++ [p]))) = step
    have hanswers : Answers step (Taking.repetition e s first) ∧ IsAtomic step := by
      subst hstep
      cases first with
      | true =>
        have haccept := fun p : Product => answers_accept [p]
        exact ⟨he.andThen haccept, hatomic.andThen he haccept fun _ _ => rfl⟩
      | false =>
        have hboth := hs.andThen fun s => he.andThen fun p => answers_accept (s ++ [p])
        exact ⟨hboth.attempt, hboth.isAtomic_attempt⟩
    have hothers := fun ps : List Product => (ih false).andThen fun rest =>
      answers_accept (ps ++ rest.1, rest.2 + 1)
    have honward := (hanswers.1.andThen hothers).orElse
      (hanswers.2.andThen hanswers.1 hothers fun _ _ => rfl) (answers_accept ([], 0))
    have hsame : ∀ ts, ((Taking.repetition e s first).andThen fun ps =>
        Taking.andThen (fun ts => some (Taking.repeated e s limit false ts)) fun rest =>
          Taking.accept (ps ++ rest.1, rest.2 + 1)).orElse (Taking.accept ([], 0)) ts =
        some (Taking.repeated e s (limit + 1) first ts) := by
      intro ts
      rw [Taking.orElse, Taking.andThen, Taking.repeated]
      cases Taking.repetition e s first ts <;> rfl
    rw [funext hsame] at honward
    exact honward

theorem answers_readRepetition (he : Answers element e) (hatomic : IsAtomic element)
    (hs : Answers separator s) (least : Nat) (most : Option Nat) :
    Answers (Production.readRepetition element separator least most)
        (Taking.ofRepetition e s least most) ∧
      IsAtomic (Production.readRepetition element separator least most) := by
  refine Answers.atomic_attempt fun c => ?_
  obtain ⟨taken, hrest, hrun⟩ :=
    (answers_repeated he hatomic hs (Production.repetitionLimit most c) true).some rfl
  simp only [Taking.ofRepetition]
  rw [← Production.repetitionLimit, hrun]
  by_cases hleast :
      least ≤ (Taking.repeated e s (Production.repetitionLimit most c) true c.rest).1.2
  · rw [if_pos hleast]
    refine ⟨taken, hrest, ?_⟩
    show Except.ok (if _ then _ else _, _) = _
    rw [if_pos hleast]
  · rw [if_neg hleast]
    refine ⟨taken.length, ?_⟩
    show Except.ok (if _ then _ else _, _) = _
    rw [if_neg hleast]

end Repetition

theorem answers_readAnyValue : Answers Production.readAnyValue .anyValue ∧
    IsAtomic Production.readAnyValue := by
  refine ⟨fun c => ?_, fun c c' h => ?_⟩
  · simp only [Production.readAnyValue, Taking.anyValue]
    have hprefix := takeAnyValue_isPrefix .zero c.rest
    by_cases hnil : (takeAnyValue .zero c.rest).isEmpty
    · simp only [if_pos hnil]
      exact ⟨0, rfl⟩
    · simp only [if_neg hnil]
      exact ⟨takeAnyValue .zero c.rest, (List.prefix_iff_eq_append.1 hprefix).symm, rfl⟩
  · simp only [Production.readAnyValue] at h
    by_cases hnil : (takeAnyValue .zero c.rest).isEmpty
    · rw [if_pos hnil] at h
      cases h
      rfl
    · rw [if_neg hnil] at h
      cases h

end Reading

namespace Production

open Reading

mutual

/-- Reading by a usable production gives what the production takes, and goes back to where it was if
that is nothing. -/
theorem answers_read : (p : Production) → p.IsUsable → Answers p.read p.taking ∧ IsAtomic p.read
  | token pattern, _ => by
    simp only [read, taking]
    exact answers_tokenIf _
  | alternatives elements, h => by
    rw [IsUsable] at h
    simp only [read, taking]
    exact (answers_readFirst elements h).atomic_attempt
  | juxtaposition elements, h => by
    rw [IsUsable] at h
    simp only [read, taking]
    have heach := (answers_readEach elements h).andThen fun ps => answers_accept (Product.group ps)
    exact heach.atomic_attempt
  | nonEmpty element, h => by
    rw [IsUsable] at h
    simp only [read, taking]
    have hfilled := (answers_read element h).1.andThen fun p =>
      show Answers (if p.tokens.isEmpty then reject else accept p)
        (if p.tokens.isEmpty then fun _ => none else .accept p) by
        split
        · exact answers_reject
        · exact answers_accept p
    exact hfilled.atomic_attempt
  | reference element, h => by
    rw [IsUsable] at h
    simp only [read, taking]
    exact answers_read element h
  | repetition element least most, h => by
    rw [IsUsable] at h
    simp only [read, taking]
    obtain ⟨helement, hatomic⟩ := answers_read element h
    exact answers_readRepetition helement hatomic (answers_accept []) least most
  | separated element separator least most, h => by
    rw [IsUsable] at h
    simp only [read, taking]
    obtain ⟨helement, hatomic⟩ := answers_read element h.1
    exact answers_readRepetition helement hatomic
      ((answers_read separator h.2).1.andThen fun p => answers_accept [p]) least most
  | anyValue, _ => by
    simp only [read, taking]
    exact answers_readAnyValue
  | bare, h => by
    rw [IsUsable] at h
    contradiction

theorem answers_readFirst : (ps : List Production) → AreUsable ps →
    Answers (readFirst ps) (takingFirst ps)
  | [], _ => by
    simp only [readFirst, takingFirst]
    exact answers_reject
  | p :: ps, h => by
    rw [AreUsable] at h
    simp only [readFirst, takingFirst]
    obtain ⟨hp, hatomic⟩ := answers_read p h.1
    exact hp.orElse hatomic (answers_readFirst ps h.2)

theorem answers_readEach : (ps : List Production) → AreUsable ps →
    Answers (readEach ps) (takingEach ps)
  | [], _ => by
    simp only [readEach, takingEach]
    exact answers_accept []
  | p :: ps, h => by
    rw [AreUsable] at h
    simp only [readEach, takingEach]
    exact (answers_read p h.1).1.andThen fun first =>
      (answers_readEach ps h.2).andThen fun others => answers_accept (first :: others)

end

end Production

end Styling
