import Styling.Proofs.Value.Recovery

/-!
# Readers of values keep the cursor sound

A reader of values moves over the component values whatever marks are set, and leaves the marks as they are
(`ValueReader.Composed.moves`). So it goes neither back nor past the end, and trying it leaves the cursor
where the reader does, or just as it was if the reader fails (`ValueReader.keepsCursor`).
-/

namespace Styling

namespace ComponentCursor

variable {c c' c'' : ComponentCursor}

/-- The cursor with other marks set. -/
def withMarks (c : ComponentCursor) (marks : List Nat) : ComponentCursor :=
  { c with cursor := { c.cursor with marks } }

/-- Whether a cursor stands at one of its component values or at their end. -/
def IsInside (c : ComponentCursor) : Prop := c.cursor.index ≤ c.cursor.items.length

/-- A cursor further on in the same component values, with the same marks. -/
structure LeadsTo (c c' : ComponentCursor) : Prop where
  items_eq : c'.cursor.items = c.cursor.items
  endLocation_eq : c'.endLocation = c.endLocation
  marks_eq : c'.cursor.marks = c.cursor.marks
  index_le : c.cursor.index ≤ c'.cursor.index
  isInside : c'.IsInside

theorem leadsTo_advance {n : Nat} (h : (c.advance n).IsInside) : c.LeadsTo (c.advance n) :=
  ⟨rfl, rfl, rfl, Nat.le_add_right _ _, h⟩

theorem advance_advance (c : ComponentCursor) (m n : Nat) :
    (c.advance m).advance n = c.advance (m + n) := by
  simp only [advance, Cursor.advance, Nat.add_assoc]

theorem IsInside.skipWhite (h : c.IsInside) : c.skipWhite.IsInside := by
  have hwhite := (List.takeWhile_sublist (l := c.rest) Component.isWhite).length_le
  have hrest : c.rest.length = c.cursor.items.length - c.cursor.index := List.length_drop
  simp only [IsInside] at h
  show c.cursor.index + _ ≤ c.cursor.items.length
  omega

end ComponentCursor

namespace ValueReader

variable {α β : Type} {allowed : Prop} {r : ValueReader α} {f : α → ValueReader β}
  {c : ComponentCursor}

theorem isInside_of_upcoming? {v : Component} (h : upcoming? c = some v) :
    (c.skipWhite.advance 1).IsInside := by
  rw [upcoming?, ← rest_skipWhite, ComponentCursor.rest, Cursor.rest, List.head?_drop] at h
  obtain ⟨hlt, -⟩ := List.getElem?_eq_some_iff.1 h
  exact hlt

/-! ## One reading -/

/-- How a reading ends that found a value or failed with a parse error. -/
def conclude : Except ParseError α → ComponentCursor → EStateM.Result Failure ComponentCursor α
  | .ok a, c => .ok a c
  | .error e, c => .error (.parse e) c

/-- A reading from `c` that ends `n` component values further on, whatever marks are set. -/
def EndsAt (r : ValueReader α) (c : ComponentCursor) (n : Nat) (result : Except ParseError α) : Prop :=
  ∀ marks, r (c.withMarks marks) = conclude result ((c.advance n).withMarks marks)

/-- A reading that breaks off, whatever marks are set. -/
def Breaks (r : ValueReader α) (c : ComponentCursor) : Prop :=
  ∀ marks, ∃ f c', r (c.withMarks marks) = .error (.fault f) c'

/-- A reader that moves on, without regard to the marks, but not past the end. -/
def Moves (r : ValueReader α) : Prop :=
  ∀ c : ComponentCursor, c.IsInside →
    (∃ n result, (c.advance n).IsInside ∧ EndsAt r c n result) ∨ Breaks r c

/-- A reader that ends on the spot. -/
theorem moves_of_conclude (result : Except ParseError α) (h : ∀ c, r c = conclude result c) :
    Moves r :=
  fun c hc => .inl ⟨0, result, hc, fun marks => h (c.withMarks marks)⟩

theorem moves_peek : Moves peek := by
  intro c hc
  exact .inl ⟨_, .ok (upcoming? c), hc.skipWhite, fun marks => peek_eq (c.withMarks marks)⟩

theorem moves_location : Moves location := by
  intro c hc
  have hpeek : ∀ marks, peek (c.withMarks marks) = .ok (upcoming? c) (c.skipWhite.withMarks marks) :=
    fun marks => peek_eq (c.withMarks marks)
  cases hv : upcoming? c with
  | none =>
    refine .inl ⟨_, .ok c.endLocation, hc.skipWhite, fun marks => ?_⟩
    rw [location, bind_of_ok (hpeek marks), hv]
    rfl
  | some v =>
    refine .inl ⟨_, .ok (some v.location), hc.skipWhite, fun marks => ?_⟩
    rw [location, bind_of_ok (hpeek marks), hv]
    rfl

theorem moves_next : Moves next := by
  intro c hc
  have hpeek : ∀ marks, peek (c.withMarks marks) = .ok (upcoming? c) (c.skipWhite.withMarks marks) :=
    fun marks => peek_eq (c.withMarks marks)
  cases hv : upcoming? c with
  | none =>
    refine .inl ⟨_, .error ⟨.general, .endOfInput, c.endLocation, none⟩, hc.skipWhite, fun marks => ?_⟩
    rw [next, bind_of_ok (hpeek marks), hv]
    rfl
  | some v =>
    have hinside := isInside_of_upcoming? hv
    rw [ComponentCursor.skipWhite, ComponentCursor.advance_advance] at hinside
    refine .inl ⟨_, .ok v, hinside, fun marks => ?_⟩
    rw [next, bind_of_ok (hpeek marks), hv]
    rfl

theorem Moves.bind (hr : Moves r) (hf : ∀ a, Moves (f a)) : Moves (r >>= f) := by
  intro c hc
  rcases hr c hc with ⟨n, result, hinside, hend⟩ | hbreaks
  · cases result with
    | error e => exact .inl ⟨n, .error e, hinside, fun marks => bind_of_error (hend marks)⟩
    | ok a =>
      have hfirst : ∀ marks, (r >>= f) (c.withMarks marks) = f a ((c.advance n).withMarks marks) :=
        fun marks => bind_of_ok (hend marks)
      rcases hf a (c.advance n) hinside with ⟨m, result, hinside', hend'⟩ | hbreaks
      · rw [ComponentCursor.advance_advance] at hinside'
        refine .inl ⟨n + m, result, hinside', fun marks => ?_⟩
        rw [hfirst, hend', ComponentCursor.advance_advance]
      · refine .inr fun marks => ?_
        rw [hfirst]
        exact hbreaks marks
  · refine .inr fun marks => ?_
    obtain ⟨e, c', herror⟩ := hbreaks marks
    exact ⟨e, c', bind_of_error herror⟩

/-- A try ends where the reader does, or does not move at all. -/
theorem EndsAt.attempt {n : Nat} {result : Except ParseError α} (h : EndsAt r c n result) :
    match result with
    | .ok a => EndsAt (attempt r) c n (.ok (some a))
    | .error _ => EndsAt (attempt r) c 0 (.ok none) := by
  cases result with
  | ok a =>
    intro marks
    have hrun : r (c.withMarks marks).mark = _ := h (c.cursor.index :: marks)
    rw [ValueReader.attempt, hrun]
    rfl
  | error e =>
    intro marks
    have hrun : r (c.withMarks marks).mark = _ := h (c.cursor.index :: marks)
    rw [ValueReader.attempt, hrun]
    rfl

theorem Moves.attempt (hr : Moves r) : Moves (attempt r) := by
  intro c hc
  rcases hr c hc with ⟨n, result, hinside, hend⟩ | hbreaks
  · have htry := hend.attempt
    cases result with
    | ok a => exact .inl ⟨n, _, hinside, htry⟩
    | error e => exact .inl ⟨0, _, hc, htry⟩
  · refine .inr fun marks => ?_
    obtain ⟨e, c', herror⟩ := hbreaks (c.cursor.index :: marks)
    have hrun : r (c.withMarks marks).mark = _ := herror
    exact ⟨e, c', by rw [ValueReader.attempt, hrun]⟩

/-! ## All readers -/

/-- What readers are made of moves on, and so do they. -/
theorem Composed.moves (h : Composed allowed r) : Moves r := by
  induction h with
  | pure a => exact moves_of_conclude (.ok a) fun _ => rfl
  | fail e => exact moves_of_conclude (.error e) fun _ => rfl
  | fault _ f => exact fun c _ => .inr fun marks => ⟨f, c.withMarks marks, rfl⟩
  | peek => exact moves_peek
  | next => exact moves_next
  | location => exact moves_location
  | bind _ _ ih ih' => exact ih.bind ih'
  | attempt _ ih => exact ih.attempt

/-- A reader that leads from `c` to a place further on, whether it succeeds or fails. Trying it comes to the
same place if it succeeds, and else to no other cursor. -/
structure KeepsCursor (r : ValueReader α) (c : ComponentCursor) : Prop where
  ok : ∀ a c', r c = .ok a c' → c.LeadsTo c' ∧ attempt r c = .ok (some a) c'
  error : ∀ e c', r c = .error (.parse e) c' → c.LeadsTo c' ∧ attempt r c = .ok none c

theorem Moves.toKeepsCursor (hr : Moves r) (hc : c.IsInside) : KeepsCursor r c := by
  rcases hr c hc with ⟨n, result, hinside, hend⟩ | hbreaks
  · have hrun : r c = conclude result (c.advance n) := hend c.cursor.marks
    have htry := hend.attempt
    have hleads := ComponentCursor.leadsTo_advance hinside
    cases result with
    | ok a =>
      constructor
      · intro b c' h
        rw [hrun] at h
        cases h
        exact ⟨hleads, htry c.cursor.marks⟩
      · intro e c' h
        rw [hrun] at h
        cases h
    | error e =>
      constructor
      · intro b c' h
        rw [hrun] at h
        cases h
      · intro e' c' h
        rw [hrun] at h
        cases h
        exact ⟨hleads, htry c.cursor.marks⟩
  · obtain ⟨e, c', herror⟩ := hbreaks c.cursor.marks
    have hrun : r c = _ := herror
    constructor
    · intro b c'' h
      rw [hrun] at h
      cases h
    · intro e' c'' h
      rw [hrun] at h
      cases h

/-- Whatever colours are resolved by, from any place in any component values, with any marks set: the
readers of the values of properties, of the mark behind them and of settings lead to a place further on
with the same marks, whether they succeed or fail. Trying one of them comes to where it leads, or changes
nothing if it fails, as does trying the word or the delimiter that tells alternatives apart. -/
theorem keepsCursor (resolve : Color.Resolver) (h : c.IsInside) :
    (∀ p : Property, KeepsCursor (p.readValue resolve) c) ∧ KeepsCursor important c ∧
      (∀ name place, KeepsCursor (setting resolve name place) c) ∧
      (∀ name, KeepsCursor (expectIdentMatching name) c) ∧
      ∀ delim, KeepsCursor (expectDelim delim) c := by
  refine ⟨fun p => ?_, ?_, fun name place => ?_, fun name => ?_, fun delim => ?_⟩
  · have hvalue : Composed True (p.readValue resolve) := composed_readValue resolve fun _ => trivial
    exact hvalue.moves.toKeepsCursor h
  · have himportant : Composed True important := composed_important
    exact himportant.moves.toKeepsCursor h
  · exact (composed_setting resolve name place).moves.toKeepsCursor h
  · have hword : Composed True (expectIdentMatching name) := composed_expectIdentMatching name
    exact hword.moves.toKeepsCursor h
  · have hdelim : Composed True (expectDelim delim) := composed_expectDelim delim
    exact hdelim.moves.toKeepsCursor h

/-- Behind a value stand a bang and another word than that of the mark, so the bang is not taken either. -/
theorem keepsCursor_otherWord :
    let c : ComponentCursor := ⟨⟨[.token ⟨.ident "auto", "auto", ⟨1, 1⟩⟩,
      .token ⟨.whitespace " ", " ", ⟨1, 5⟩⟩, .token ⟨.delim '!', "!", ⟨1, 6⟩⟩,
      .token ⟨.ident "none", "none", ⟨1, 7⟩⟩], 1, [0]⟩, none⟩
    c.IsInside ∧ important c =
        .error (.parse ⟨.general, .unexpectedToken, some ⟨1, 7⟩, some "none"⟩) (c.advance 3) ∧
      c.LeadsTo (c.advance 3) ∧ attempt important c = .ok none c := by
  intro c
  have hinside : c.IsInside := by simp [ComponentCursor.IsInside, c]
  have hmark : important c =
      .error (.parse ⟨.general, .unexpectedToken, some ⟨1, 7⟩, some "none"⟩) (c.advance 3) := rfl
  obtain ⟨-, himportant, -⟩ := keepsCursor (fun _ => .ok .unknown) hinside
  obtain ⟨hleads, htry⟩ := himportant.error _ _ hmark
  exact ⟨hinside, hmark, hleads, htry⟩

end ValueReader

end Styling
