import Styling.Grammar.Engine

/-!
# What a production yields

Reading by a usable production fails on no input, goes back to the marks it finds, and gives products
of the production only (`Production.gives_read`).
-/

namespace Styling

namespace Reading

variable {α β : Type} {P : α → Prop} {Q : β → Prop} {r second : Reading α} {f : α → Reading β}

/-- On every cursor the reading ends without a fault and with the marks it found, and what it accepts
has the property. -/
def Gives (P : α → Prop) (r : Reading α) : Prop :=
  ∀ c, ∃ found c', r c = .ok (found, c') ∧ c'.marks = c.marks ∧ ∀ a ∈ found, P a

theorem Gives.mono {P' : α → Prop} (h : Gives P r) (himp : ∀ a, P a → P' a) : Gives P' r := by
  intro c
  obtain ⟨found, c', hrun, hmarks, hfound⟩ := h c
  exact ⟨found, c', hrun, hmarks, fun a ha => himp a (hfound a ha)⟩

theorem Gives.accept {a : α} (h : P a) : Gives P (accept a) := by
  intro c
  refine ⟨some a, c, rfl, rfl, ?_⟩
  rintro b ⟨⟩
  exact h

theorem Gives.reject : Gives P (reject : Reading α) := by
  intro c
  refine ⟨none, c, rfl, rfl, ?_⟩
  rintro a ⟨⟩

theorem Gives.andThen (hr : Gives P r) (hf : ∀ a, P a → Gives Q (f a)) :
    Gives Q (r.andThen f) := by
  intro c
  obtain ⟨found, c₁, hrun, hmarks, hfound⟩ := hr c
  cases found with
  | none =>
    refine ⟨none, c₁, ?_, hmarks, ?_⟩
    · rw [Reading.andThen, hrun]
      rfl
    · rintro b ⟨⟩
  | some a =>
    obtain ⟨last, c₂, hnext, hmarks', hlast⟩ := hf a (hfound a rfl) c₁
    refine ⟨last, c₂, ?_, hmarks'.trans hmarks, hlast⟩
    rw [Reading.andThen, hrun]
    exact hnext

theorem Gives.orElse (hr : Gives P r) (hsecond : Gives P second) : Gives P (r.orElse second) := by
  intro c
  obtain ⟨found, c₁, hrun, hmarks, hfound⟩ := hr c
  cases found with
  | none =>
    obtain ⟨last, c₂, hnext, hmarks', hlast⟩ := hsecond c₁
    refine ⟨last, c₂, ?_, hmarks'.trans hmarks, hlast⟩
    rw [Reading.orElse, hrun]
    exact hnext
  | some a =>
    refine ⟨some a, c₁, ?_, hmarks, hfound⟩
    rw [Reading.orElse, hrun]
    rfl

/-- The mark that was set is still there when it is dropped or gone back to. -/
theorem Gives.attempt (hr : Gives P r) : Gives P r.attempt := by
  intro c
  obtain ⟨found, c', hrun, hmarks, hfound⟩ := hr c.mark
  have hmarks : c'.marks = c.index :: c.marks := hmarks
  cases found with
  | none =>
    refine ⟨none, c'.restoreMark, ?_, ?_, hfound⟩
    · rw [Reading.attempt, hrun]
      rfl
    · simp [Cursor.restoreMark, Cursor.restoreMark?, hmarks]
  | some a =>
    refine ⟨some a, c'.discardMark, ?_, ?_, hfound⟩
    · rw [Reading.attempt, hrun]
      rfl
    · simp [Cursor.discardMark, Cursor.discardMark?, hmarks]

theorem gives_tokenIf (p : Token → Bool) :
    Gives (fun product => ∃ t, product = .token t ∧ p t) (tokenIf p) := by
  refine Gives.attempt fun c => ?_
  cases hnext : c.next? with
  | none =>
    refine ⟨none, c.advance 1, ?_, rfl, ?_⟩
    · rw [Cursor.consume, hnext]
    · rintro a ⟨⟩
  | some t =>
    refine ⟨if p t then some (.token t) else none, c.advance 1, ?_, rfl, ?_⟩
    · rw [Cursor.consume, hnext]
    · intro a ha
      by_cases hp : p t
      · rw [if_pos hp] at ha
        cases ha
        exact ⟨t, rfl, hp⟩
      · rw [if_neg hp] at ha
        cases ha

/-- The products `ps` of `n` repetitions of an element, each after the first preceded by those of a
separator. -/
inductive Repeats (P : Product → Prop) (S : List Product → Prop) :
    (first : Bool) → (ps : List Product) → (n : Nat) → Prop
  | nil (first : Bool) : Repeats P S first [] 0
  | first {p ps n} : P p → Repeats P S false ps n → Repeats P S true (p :: ps) (n + 1)
  | next {s p ps n} : S s → P p → Repeats P S false ps n →
      Repeats P S false (s ++ [p] ++ ps) (n + 1)

variable {E : Product → Prop} {S : List Product → Prop} {element : Reading Product}
  {separator : Reading (List Product)}

theorem gives_repeated (helement : Gives E element) (hseparator : Gives S separator) (limit : Nat)
    (first : Bool) :
    Gives (fun result => Repeats E S first result.1 result.2 ∧ result.2 ≤ limit)
      (repeated element separator limit first) := by
  induction limit generalizing first with
  | zero => exact .accept ⟨.nil first, Nat.le_refl 0⟩
  | succ limit ih =>
    rw [repeated]
    refine Gives.orElse ?_ (.accept ⟨.nil first, Nat.zero_le _⟩)
    cases first with
    | true =>
      have hstep : Gives (fun ps => ∃ p, ps = [p] ∧ E p)
          (element.andThen fun p => Reading.accept [p]) :=
        helement.andThen fun p hp => .accept ⟨p, rfl, hp⟩
      apply hstep.andThen
      rintro ps ⟨p, rfl, hp⟩
      refine (ih false).andThen fun others hothers => ?_
      exact .accept ⟨.first hp hothers.1, Nat.succ_le_succ hothers.2⟩
    | false =>
      have hstep : Gives (fun ps => ∃ s p, ps = s ++ [p] ∧ S s ∧ E p)
          (Reading.attempt (separator.andThen fun s =>
            element.andThen fun p => Reading.accept (s ++ [p]))) :=
        (hseparator.andThen fun s hs =>
          helement.andThen fun p hp => Gives.accept ⟨s, p, rfl, hs, hp⟩).attempt
      apply hstep.andThen
      rintro ps ⟨s, p, rfl, hs, hp⟩
      refine (ih false).andThen fun others hothers => ?_
      exact .accept ⟨.next hs hp hothers.1, Nat.succ_le_succ hothers.2⟩

end Reading

namespace Production

open Reading

/-- A group of as many repetitions as are asked for. -/
def YieldsRepetition (E : Product → Prop) (S : List Product → Prop) (least : Nat)
    (most : Option Nat) (product : Product) : Prop :=
  ∃ ps n, product = .group ps ∧ Repeats E S true ps n ∧ least ≤ n ∧ ∀ m ∈ most, n ≤ m

theorem gives_readRepetition {E : Product → Prop} {S : List Product → Prop}
    {element : Reading Product} {separator : Reading (List Product)} (helement : Gives E element)
    (hseparator : Gives S separator) (least : Nat) (most : Option Nat) :
    Gives (YieldsRepetition E S least most) (readRepetition element separator least most) := by
  refine Gives.attempt fun c => ?_
  obtain ⟨found, c', hrun, hmarks, hfound⟩ :=
    gives_repeated helement hseparator (repetitionLimit most c) true c
  cases found with
  | none =>
    refine ⟨none, c', ?_, hmarks, ?_⟩
    · rw [hrun]
      rfl
    · rintro a ⟨⟩
  | some result =>
    rcases result with ⟨ps, n⟩
    obtain ⟨hrepeats, hlimit⟩ := hfound _ rfl
    refine ⟨if least ≤ n then some (.group ps) else none, c', ?_, hmarks, ?_⟩
    · rw [hrun]
      rfl
    · intro product hproduct
      by_cases hleast : least ≤ n
      · rw [if_pos hleast] at hproduct
        cases hproduct
        refine ⟨ps, n, rfl, hrepeats, hleast, ?_⟩
        rintro m rfl
        exact hlimit
      · rw [if_neg hleast] at hproduct
        cases hproduct

mutual

/-- The products of a production. -/
def Yields : Production → Product → Prop
  | token pattern, product => ∃ t, product = .token t ∧ pattern.accepts t
  | alternatives elements, product => YieldsFirst elements product
  | juxtaposition elements, product => ∃ ps, product = .group ps ∧ YieldsEach elements ps
  | nonEmpty element, product => element.Yields product ∧ product.tokens ≠ []
  | reference element, product => element.Yields product
  | repetition element least most, product =>
    YieldsRepetition element.Yields (· = []) least most product
  | separated element separator least most, product =>
    YieldsRepetition element.Yields (fun ps => ∃ p, ps = [p] ∧ separator.Yields p) least most product
  | anyValue, product => ∃ ts, product = .group (ts.map .token) ∧ ts ≠ []
  | bare, _ => False

/-- The products of several productions one of which is to be read. -/
def YieldsFirst : List Production → Product → Prop
  | [], _ => False
  | p :: ps, product => p.Yields product ∨ YieldsFirst ps product

/-- The products of several productions read one after another. -/
def YieldsEach : List Production → List Product → Prop
  | [], products => products = []
  | p :: ps, products => ∃ first others, products = first :: others ∧ p.Yields first ∧
      YieldsEach ps others

end

mutual

/-- Whether a production is built from those by which something can be read. -/
def IsUsable : Production → Prop
  | token _ | anyValue => True
  | alternatives elements | juxtaposition elements => AreUsable elements
  | nonEmpty element | reference element | repetition element _ _ => element.IsUsable
  | separated element separator _ _ => element.IsUsable ∧ separator.IsUsable
  | bare => False

def AreUsable : List Production → Prop
  | [] => True
  | p :: ps => p.IsUsable ∧ AreUsable ps

end

theorem gives_readAnyValue :
    Gives (fun product => ∃ ts, product = .group (ts.map .token) ∧ ts ≠ []) readAnyValue := by
  intro c
  rw [readAnyValue]
  cases takeAnyValue .zero c.rest with
  | nil =>
    refine ⟨none, c, rfl, rfl, ?_⟩
    rintro a ⟨⟩
  | cons t ts =>
    refine ⟨some (.group ((t :: ts).map .token)), c.advance (t :: ts).length, rfl, rfl, ?_⟩
    rintro product ⟨⟩
    exact ⟨t :: ts, rfl, List.cons_ne_nil t ts⟩

mutual

/-- Reading by a usable production ends without a fault and with the marks it found, and gives
products of the production. -/
theorem gives_read : (p : Production) → p.IsUsable → Gives p.Yields p.read
  | token pattern, _ => by
    simp only [read, Yields]
    exact gives_tokenIf _
  | alternatives elements, h => by
    rw [IsUsable] at h
    simp only [read, Yields]
    exact (gives_readFirst elements h).attempt
  | juxtaposition elements, h => by
    rw [IsUsable] at h
    simp only [read, Yields]
    exact ((gives_readEach elements h).andThen fun ps hps => .accept ⟨ps, rfl, hps⟩).attempt
  | nonEmpty element, h => by
    rw [IsUsable] at h
    simp only [read, Yields]
    refine ((gives_read element h).andThen fun p hp => ?_).attempt
    by_cases htokens : p.tokens.isEmpty
    · rw [if_pos htokens]
      exact .reject
    · rw [if_neg htokens]
      exact .accept ⟨hp, by simpa using htokens⟩
  | reference element, h => by
    rw [IsUsable] at h
    simp only [read, Yields]
    exact gives_read element h
  | repetition element least most, h => by
    rw [IsUsable] at h
    simp only [read, Yields]
    have hseparator : Gives (· = []) (Reading.accept ([] : List Product)) := .accept rfl
    exact gives_readRepetition (gives_read element h) hseparator least most
  | separated element separator least most, h => by
    rw [IsUsable] at h
    simp only [read, Yields]
    have hseparator := (gives_read separator h.2).andThen fun p hp =>
      Gives.accept (P := fun ps => ∃ p, ps = [p] ∧ separator.Yields p) ⟨p, rfl, hp⟩
    exact gives_readRepetition (gives_read element h.1) hseparator least most
  | anyValue, _ => by
    simp only [read, Yields]
    exact gives_readAnyValue
  | bare, h => by
    rw [IsUsable] at h
    contradiction

theorem gives_readFirst : (ps : List Production) → AreUsable ps →
    Gives (YieldsFirst ps) (readFirst ps)
  | [], _ => by
    rw [readFirst]
    exact .reject
  | p :: ps, h => by
    rw [AreUsable] at h
    simp only [readFirst, YieldsFirst]
    exact ((gives_read p h.1).mono fun _ => .inl).orElse
      ((gives_readFirst ps h.2).mono fun _ => .inr)

theorem gives_readEach : (ps : List Production) → AreUsable ps →
    Gives (YieldsEach ps) (readEach ps)
  | [], _ => by
    simp only [readEach, YieldsEach]
    exact .accept rfl
  | p :: ps, h => by
    rw [AreUsable] at h
    simp only [readEach, YieldsEach]
    refine (gives_read p h.1).andThen fun first hfirst => ?_
    refine (gives_readEach ps h.2).andThen fun others hothers => ?_
    exact .accept ⟨first, others, rfl, hfirst, hothers⟩

end

end Production

end Styling
