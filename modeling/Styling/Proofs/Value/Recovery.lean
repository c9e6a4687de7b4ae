import Styling.Proofs.Value.Composed

/-!
# Readers of values recover

A reader of values either succeeds or fails with a parse error, and keeps the marks it finds, so
that one who set a mark can go back to it. Only reading a colour can fail in another way, and only
where the resolver breaks off at the text of the colour (`setting_fault_iff`).
-/

namespace Styling.ValueReader

/-- How a reading ended is in order: the marks are the given ones, or it broke off where that is
allowed. -/
def IsRecovered (allowed : Prop) (marks : List Nat) :
    EStateM.Result Failure ComponentCursor α → Prop
  | .ok _ c | .error (.parse _) c => c.cursor.marks = marks
  | .error (.fault _) _ => allowed

/-- Whatever cursor the reader begins with, it keeps the marks, and fails with parse errors only if
no others are allowed. -/
def Recovers (allowed : Prop) (r : ValueReader α) : Prop :=
  ∀ c, IsRecovered allowed c.cursor.marks (r c)

variable {α β : Type} {allowed : Prop} {r : ValueReader α} {f : α → ValueReader β}
  (resolve : Color.Resolver)

theorem Recovers.pure (a : α) : Recovers allowed (Pure.pure a : ValueReader α) := fun _ => rfl

theorem Recovers.fail (e : ParseError) : Recovers allowed (fail e : ValueReader α) := fun _ => rfl

theorem Recovers.get : Recovers allowed (MonadState.get : ValueReader ComponentCursor) :=
  fun _ => rfl

theorem Recovers.bind (hr : Recovers allowed r) (hf : ∀ a, Recovers allowed (f a)) :
    Recovers allowed (r >>= f) := by
  intro c
  have hc := hr c
  show IsRecovered allowed c.cursor.marks (EStateM.bind r f c)
  cases hrun : r c with
  | ok a c' =>
    rw [hrun] at hc
    have hmarks : c'.cursor.marks = c.cursor.marks := hc
    have hnext := hf a c'
    rw [hmarks] at hnext
    simpa only [EStateM.bind, hrun] using hnext
  | error e c' =>
    rw [hrun] at hc
    simp only [EStateM.bind, hrun]
    cases e with
    | parse e => exact hc
    | fault f => exact hc

/-- After a reader that recovers, the mark set before it is there. -/
theorem Recovers.attempt (hr : Recovers allowed r) : Recovers allowed (attempt r) := by
  intro c
  have hc := hr c.mark
  rw [ValueReader.attempt]
  cases hrun : r c.mark with
  | ok a c' =>
    rw [hrun] at hc
    have hmarks : c'.cursor.marks = c.cursor.index :: c.cursor.marks := hc
    show c'.discardMark.cursor.marks = c.cursor.marks
    simp [ComponentCursor.discardMark, Cursor.discardMark, Cursor.discardMark?, hmarks]
  | error e c' =>
    rw [hrun] at hc
    cases e with
    | parse e =>
      have hmarks : c'.cursor.marks = c.cursor.index :: c.cursor.marks := hc
      show c'.restoreMark.cursor.marks = c.cursor.marks
      simp [ComponentCursor.restoreMark, Cursor.restoreMark, Cursor.restoreMark?, hmarks]
    | fault f => exact hc

/-! ## What readers are made of -/

theorem recovers_skipWhite : Recovers allowed skipWhite := fun _ => rfl

theorem recovers_peek : Recovers allowed peek :=
  recovers_skipWhite.bind fun _ => Recovers.get.bind fun _ => .pure _

theorem recovers_next : Recovers allowed next := by
  apply recovers_peek.bind
  intro value
  cases value with
  | none => exact Recovers.get.bind fun _ => .fail _
  | some value => exact Recovers.bind (fun _ => rfl) fun _ => .pure _

theorem recovers_location : Recovers allowed location := by
  apply recovers_peek.bind
  intro value
  cases value with
  | none => exact Recovers.get.bind fun _ => .pure _
  | some value => exact .pure _

/-- What readers are made of recovers, and so do they. -/
theorem Composed.recovers (h : Composed allowed r) : Recovers allowed r := by
  induction h with
  | pure a => exact .pure a
  | fail e => exact .fail e
  | fault hallowed f => exact fun _ => hallowed
  | peek => exact recovers_peek
  | next => exact recovers_next
  | location => exact recovers_location
  | bind _ _ ih ih' => exact ih.bind ih'
  | attempt _ ih => exact ih.attempt

/-! ## Colours -/

private theorem drop_length_takeWhile (p : α → Bool) (xs : List α) :
    xs.drop (xs.takeWhile p).length = xs.dropWhile p := by
  calc xs.drop (xs.takeWhile p).length
      = (xs.takeWhile p ++ xs.dropWhile p).drop (xs.takeWhile p).length := by
        rw [List.takeWhile_append_dropWhile]
    _ = xs.dropWhile p := List.drop_left

theorem rest_skipWhite (c : ComponentCursor) :
    c.skipWhite.rest = c.rest.dropWhile Component.isWhite := by
  show c.cursor.items.drop (c.cursor.index + _) = _
  rw [← List.drop_drop]
  exact drop_length_takeWhile _ c.rest

/-- The component value that `peek` and `next` come to. -/
def upcoming? (c : ComponentCursor) : Option Component :=
  (c.rest.dropWhile Component.isWhite).head?

/-- Passing over white-space comes to the same component value as before. -/
theorem upcoming?_skipWhite (c : ComponentCursor) : upcoming? c.skipWhite = upcoming? c := by
  have hhead := List.head?_dropWhile_not Component.isWhite c.rest
  rw [upcoming?, upcoming?, rest_skipWhite]
  cases hrest : c.rest.dropWhile Component.isWhite with
  | nil => rfl
  | cons v vs =>
    rw [hrest] at hhead
    have hv : ¬v.isWhite := by simpa using hhead
    rw [List.dropWhile_cons_of_neg hv]

theorem bind_of_ok {c c' : ComponentCursor} {a : α} (h : r c = .ok a c') :
    (r >>= f) c = f a c' := by
  show EStateM.bind r f c = _
  rw [EStateM.bind, h]

theorem bind_of_error {c c' : ComponentCursor} {e : Failure} (h : r c = .error e c') :
    (r >>= f) c = .error e c' := by
  show EStateM.bind r f c = _
  rw [EStateM.bind, h]

theorem peek_eq (c : ComponentCursor) : peek c = .ok (upcoming? c) c.skipWhite := by
  rw [upcoming?, ← rest_skipWhite]
  show EStateM.Result.ok c.skipWhite.cursor.next? c.skipWhite = _
  rw [Cursor.next?, ComponentCursor.rest, Cursor.rest, List.head?_drop]

theorem location_eq (c : ComponentCursor) : ∃ place, location c = .ok place c.skipWhite := by
  rw [location, bind_of_ok (peek_eq c)]
  cases upcoming? c with
  | none => exact ⟨_, rfl⟩
  | some v => exact ⟨_, rfl⟩

theorem next_of_some {c : ComponentCursor} {v : Component} (h : upcoming? c = some v) :
    next c = .ok v (c.skipWhite.advance 1) := by
  rw [next, bind_of_ok (peek_eq c), h]
  rfl

theorem next_of_none {c : ComponentCursor} (h : upcoming? c = none) :
    ∃ e c', next c = .error (.parse e) c' := by
  rw [next, bind_of_ok (peek_eq c), h]
  exact ⟨_, _, rfl⟩

/-- Reading a colour breaks off where the resolver does at the text of the next component value. -/
theorem color_fault_iff (fault : Fault) (c : ComponentCursor) :
    (∃ c', color resolve c = .error (.fault fault) c') ↔
      ∃ v ∈ upcoming? c, resolve v.source = .error fault := by
  obtain ⟨place, hplace⟩ := location_eq c
  rw [color, bind_of_ok hplace]
  cases hv : upcoming? c with
  | none =>
    rw [← upcoming?_skipWhite] at hv
    obtain ⟨e, c', hnext⟩ := next_of_none hv
    rw [bind_of_error hnext]
    simp
  | some v =>
    rw [← upcoming?_skipWhite] at hv
    rw [bind_of_ok (next_of_some hv)]
    simp only [Option.mem_def, Option.some.injEq, exists_eq_left']
    cases hcolor : resolve v.source with
    | error f =>
      constructor
      · intro herror
        rcases herror with ⟨c', ⟨⟩⟩
        rfl
      · intro hfault
        cases hfault
        exact ⟨_, rfl⟩
    | ok reference =>
      refine iff_of_false ?_ (by simp)
      intro herror
      rcases herror with ⟨c', h⟩
      cases reference <;> cases h

/-- The reading of a setting goes back to the marks it finds. -/
theorem recovers_setting (name : String) (place : Option Source.Location) :
    Recovers True (setting resolve name place) :=
  (composed_setting resolve name place).recovers

theorem Recovers.ne_fault (hr : Recovers False r) (fault : Fault) (c : ComponentCursor) :
    ¬∃ c', r c = .error (.fault fault) c' := by
  intro herror
  rcases herror with ⟨c', h⟩
  have hc := hr c
  rw [h] at hc
  exact hc

/-- Before readers that fail with parse errors only, a reader is what fails otherwise. -/
theorem bind_fault_iff (hf : ∀ a, Recovers False (f a)) (fault : Fault) (c : ComponentCursor) :
    (∃ c', (r >>= f) c = .error (.fault fault) c') ↔ ∃ c', r c = .error (.fault fault) c' := by
  cases hr : r c with
  | ok a c' =>
    rw [bind_of_ok hr]
    simpa using (hf a).ne_fault fault c'
  | error e c' =>
    rw [bind_of_error hr]
    simp only [EStateM.Result.error.injEq]

/-- Reading a setting breaks off where it is read for a colour at whose text the resolver does, and nowhere
else. -/
theorem setting_fault_iff (name : String) (place : Option Source.Location) (fault : Fault)
    (c : ComponentCursor) : (∃ c', setting resolve name place c = .error (.fault fault) c') ↔
      Property.ofName? name = some .color ∧ ∃ v ∈ upcoming? c, resolve v.source = .error fault := by
  rw [setting, ← color_fault_iff]
  cases hname : Property.ofName? name with
  | none =>
    refine iff_of_false ?_ (by simp)
    rintro ⟨c', ⟨⟩⟩
  | some p =>
    have hend : ∀ value : p.Value, Recovers False (do
        let _ ← attempt important
        expectExhausted
        return (⟨p, value⟩ : Setting)) := by
      intro value
      apply Composed.recovers
      exact composed_important.attempt.bind fun _ => composed_expectExhausted.bind fun _ => .pure _
    -- What is read after the value fails with parse errors only, so the value decides.
    rw [bind_fault_iff hend]
    by_cases hp : p = .color
    · subst hp
      simp only [true_and]
      exact Iff.rfl
    · have hvalue : Composed False (p.readValue resolve) := composed_readValue resolve hp
      apply iff_of_false (hvalue.recovers.ne_fault fault c)
      intro hcolor
      rcases hcolor with ⟨h, -⟩
      exact hp (Option.some.inj h)

end Styling.ValueReader
