import Styling.Proofs.Source.Reader
import Styling.Token.CharReader

/-!
# Forming tokens from a reader agrees with scanning

Every reader takes from the front of the characters ahead what scanning them gives, notes the same
faults and meets no fault of its own (`CharReader.Scans`). What was consumed is kept, in order, with
the end of the text only where no character is left (`CharReader.Takes`).
-/

namespace Styling.CharReader

open Source Lexer PartialReader

/-- The characters themselves. -/
abbrev values (xs : List SourceChar) : List Char := xs.map SourceChar.value

theorem values_cons (x : SourceChar) (xs : List SourceChar) :
    values (x :: xs) = x.value :: values xs := rfl

/-- What was consumed, and the characters ahead. -/
structure Stands (s : Formation) (done : List (Option SourceChar)) (xs : List SourceChar) :
    Prop where
  consumed : s.consumed = done
  ahead : s.input.toList = xs

/-- Wherever `done` was consumed and `xs` is ahead, the reader gives `a`, adds the notes, and leaves
`done'` consumed and `ys` ahead. -/
def Reads (r : CharReader α) (done : List (Option SourceChar)) (xs : List SourceChar) (a : α)
    (done' : List (Option SourceChar)) (ys : List SourceChar) (notes : List Note) : Prop :=
  ∀ s, Stands s done xs →
    ∃ s', r s = pure (a, s') ∧ Stands s' done' ys ∧ s'.notes = s.notes ++ notes

/-- The reader gives `a` and consumes nothing. -/
abbrev Looks (r : CharReader α) (done : List (Option SourceChar)) (xs : List SourceChar) (a : α) :
    Prop :=
  Reads r done xs a done xs []

variable {α β : Type} {r : CharReader α} {f : α → CharReader β}
  {done done' done'' : List (Option SourceChar)} {xs ys zs : List SourceChar} {a : α} {b : β}
  {m n : List Note}

theorem Reads.pure (a : α) (done : List (Option SourceChar)) (xs : List SourceChar) :
    Looks (Pure.pure a) done xs a :=
  fun s hs => ⟨s, rfl, hs, (List.append_nil _).symm⟩

theorem Reads.bind (hr : Reads r done xs a done' ys m) (hf : Reads (f a) done' ys b done'' zs n) :
    Reads (r >>= f) done xs b done'' zs (m ++ n) := by
  intro s hs
  obtain ⟨s', hrun, hs', hnotes⟩ := hr s hs
  obtain ⟨s'', hnext, hs'', hnotes'⟩ := hf s' hs'
  refine ⟨s'', ?_, hs'', ?_⟩
  · show (r s >>= fun (a, s) => f a s) = _
    rw [hrun, pure_bind]
    exact hnext
  · rw [hnotes', hnotes, List.append_assoc]

/-- What follows a look goes on where the look was. -/
theorem Reads.look (hr : Looks r done xs a) (hf : Reads (f a) done xs b done' ys n) :
    Reads (r >>= f) done xs b done' ys n :=
  hr.bind hf

/-! ## Single steps -/

private theorem consume_eq (k : Nat) (s : Formation) : consume k s = Pure.pure ((), { s with
    input := (s.input.read k).2
    consumed := s.consumed ++
      if (s.input.read k).1.isEmpty then [none] else (s.input.read k).1.map some }) := rfl

theorem looks_next (k : Nat) (done : List (Option SourceChar)) (xs : List SourceChar) :
    Looks (next k) done xs (values (xs.take k)) := by
  intro s hs
  refine ⟨{ s with input := (s.input.peek k).2 }, ?_, ⟨hs.consumed, ?_⟩, (List.append_nil _).symm⟩
  · rw [← hs.ahead, ← BufferedReader.fst_peek]
    rfl
  · rw [BufferedReader.toList_snd_peek]
    exact hs.ahead

theorem reads_consume_end (k : Nat) (done : List (Option SourceChar)) :
    Reads (consume k) done [] () (done ++ [none]) [] [] := by
  intro s hs
  have hitems : (s.input.read k).1 = [] := by
    rw [BufferedReader.fst_read, hs.ahead, List.take_nil]
  refine ⟨{ s with input := (s.input.read k).2, consumed := s.consumed ++ [none] }, ?_, ⟨?_, ?_⟩,
    (List.append_nil _).symm⟩
  · rw [consume_eq, hitems]
    rfl
  · rw [hs.consumed]
  · rw [BufferedReader.toList_snd_read, hs.ahead, List.drop_nil]

/-- Consuming takes the characters at the front, if there are any. -/
theorem reads_consume (front : List SourceChar) (done : List (Option SourceChar))
    (xs : List SourceChar) (h : front ≠ []) :
    Reads (consume front.length) done (front ++ xs) () (done ++ front.map some) xs [] := by
  intro s hs
  have hitems : (s.input.read front.length).1 = front := by
    rw [BufferedReader.fst_read, hs.ahead, List.take_left]
  refine ⟨{ s with
    input := (s.input.read front.length).2, consumed := s.consumed ++ front.map some }, ?_,
    ⟨?_, ?_⟩, (List.append_nil _).symm⟩
  · rw [consume_eq, hitems, if_neg (by simpa using h)]
  · rw [hs.consumed]
  · rw [BufferedReader.toList_snd_read, hs.ahead, List.drop_left]

theorem reads_consume_one (x : SourceChar) (done : List (Option SourceChar))
    (xs : List SourceChar) : Reads (consume 1) done (x :: xs) () (done ++ [some x]) xs [] :=
  reads_consume [x] done xs (List.cons_ne_nil x [])

theorem looks_current (c : Option SourceChar) (done : List (Option SourceChar))
    (xs : List SourceChar) : Looks current (done ++ [c]) xs c := by
  intro s hs
  refine ⟨s, ?_, hs, (List.append_nil _).symm⟩
  simp [current, hs.consumed]

/-- A character that was put back is ahead again. -/
theorem reads_reconsume (c : Option SourceChar) (done : List (Option SourceChar))
    (xs : List SourceChar) :
    Reads (reconsume c) (done ++ [c]) xs () done (c.toList ++ xs) [] := by
  intro s hs
  refine ⟨{ s with input := s.input.unread c.toList, consumed := s.consumed.dropLast }, ?_,
    ⟨?_, ?_⟩, (List.append_nil _).symm⟩
  · simp [reconsume, hs.consumed]
  · rw [hs.consumed, List.dropLast_concat]
  · rw [BufferedReader.toList_unread, hs.ahead]

theorem reads_note (n : Note) (done : List (Option SourceChar)) (xs : List SourceChar) :
    Reads (note n) done xs () done xs [n] :=
  fun s hs => ⟨{ s with notes := s.notes ++ [n] }, rfl, ⟨hs.consumed, hs.ahead⟩, rfl⟩

theorem looks_count (done : List (Option SourceChar)) (xs : List SourceChar) :
    Looks count done xs done.length := by
  intro s hs
  refine ⟨s, ?_, hs, (List.append_nil _).symm⟩
  rw [← hs.consumed]
  rfl

theorem looks_consumedFrom (k : Nat) (done : List (Option SourceChar)) (xs : List SourceChar) :
    Looks (consumedFrom k) done xs ((done.drop k).filterMap (·.map SourceChar.value)) := by
  intro s hs
  refine ⟨s, ?_, hs, (List.append_nil _).symm⟩
  rw [← hs.consumed]
  rfl

theorem looks_ahead (k : Nat) (c : Option SourceChar) (done : List (Option SourceChar))
    (xs : List SourceChar) : Looks (ahead k) (done ++ [c]) xs
      ((c.map SourceChar.value).toList ++ values (xs.take k)) :=
  (looks_current c done xs).look ((looks_next k _ xs).look (.pure _ _ _))

theorem looks_isEscape {cs : List Char} (h : cs ≠ []) (done : List (Option SourceChar))
    (xs : List SourceChar) : Looks (isEscape cs) done xs (startsEscape cs) := by
  have hcs : cs.isEmpty = false := by simpa using h
  rw [isEscape, orAhead, hcs]
  exact (Reads.pure cs done xs).look (.pure _ _ _)

/-! ## Scanning -/

/-- Characters are consumed from the front, and the end of the text where none is left. -/
inductive Takes : List SourceChar → List (Option SourceChar) → List SourceChar → Prop
  | nil (xs : List SourceChar) : Takes xs [] xs
  | cons (x : SourceChar) {xs taken ys} : Takes xs taken ys → Takes (x :: xs) (some x :: taken) ys
  | last {taken ys} : Takes [] taken ys → Takes [] (none :: taken) ys

variable {taken taken' : List (Option SourceChar)}

theorem Takes.trans (h : Takes xs taken ys) (h' : Takes ys taken' zs) :
    Takes xs (taken ++ taken') zs := by
  induction h with
  | nil => exact h'
  | cons x _ ih => exact .cons x (ih h')
  | last _ ih => exact .last (ih h')

theorem Takes.append (front : List SourceChar) (xs : List SourceChar) :
    Takes (front ++ xs) (front.map some) xs := by
  induction front with
  | nil => exact .nil xs
  | cons x front ih => exact .cons x ih

theorem Takes.filterMap_append (h : Takes xs taken ys) : taken.filterMap id ++ ys = xs := by
  induction h with
  | nil => rfl
  | cons x _ ih => exact congrArg (x :: ·) ih
  | last _ ih => exact ih

/-- The reader takes what the scan of the characters ahead takes and notes the same, and gives what
`g` makes of all that was consumed and of what was scanned. -/
def ScansInto (g : List (Option SourceChar) → α → β) (r : CharReader β)
    (done : List (Option SourceChar)) (xs : List SourceChar) (s : Scan α) : Prop :=
  ∃ taken ys, Takes xs taken ys ∧ values ys = s.rest ∧
    Reads r done xs (g (done ++ taken) s.value) (done ++ taken) ys s.notes

/-- The reader gives what was scanned. -/
abbrev Scans (r : CharReader α) : List (Option SourceChar) → List SourceChar → Scan α → Prop :=
  ScansInto (fun _ a => a) r

/-- The reader gives the token of all that was consumed, of the kind that was scanned. -/
abbrev Forms (r : CharReader Token) :
    List (Option SourceChar) → List SourceChar → Scan TokenKind → Prop :=
  ScansInto tokenOf r

theorem ScansInto.of_reads (hr : Reads r done xs a (done ++ taken) ys n) (ht : Takes xs taken ys) :
    Scans r done xs ⟨a, values ys, n⟩ :=
  ⟨taken, ys, ht, rfl, hr⟩

theorem ScansInto.of_looks (hr : Looks r done xs a) : Scans r done xs ⟨a, values xs, []⟩ := by
  refine ⟨[], xs, .nil xs, rfl, ?_⟩
  rw [List.append_nil]
  exact hr

theorem ScansInto.pure (a : α) (done : List (Option SourceChar)) (xs : List SourceChar) :
    Scans (Pure.pure a) done xs ⟨a, values xs, []⟩ :=
  .of_looks (.pure a done xs)

/-- Changing what was read reads and notes nothing more. -/
theorem ScansInto.map {s : Scan α} (g : α → β) (hr : Scans r done xs s) :
    Scans (r >>= fun a => Pure.pure (g a)) done xs ⟨g s.value, s.rest, s.notes⟩ := by
  rcases hr with ⟨taken, ys, ht, hys, hreads⟩
  refine ⟨taken, ys, ht, hys, ?_⟩
  rw [← List.append_nil s.notes]
  exact hreads.bind (.pure _ _ _)

private theorem looks_token (kind : TokenKind) (done : List (Option SourceChar))
    (xs : List SourceChar) : Looks (token kind) done xs (tokenOf done kind) := by
  intro s hs
  refine ⟨s, ?_, hs, (List.append_nil _).symm⟩
  rw [← hs.consumed]
  rfl

theorem forms_token (kind : TokenKind) (done : List (Option SourceChar)) (xs : List SourceChar) :
    Forms (token kind) done xs ⟨kind, values xs, []⟩ := by
  refine ⟨[], xs, .nil xs, rfl, ?_⟩
  rw [List.append_nil]
  exact looks_token kind done xs

/-- The token of what was read, which is of a kind by it. -/
theorem ScansInto.token {s : Scan α} (kind : α → TokenKind) (hr : Scans r done xs s) :
    Forms (r >>= fun a => token (kind a)) done xs ⟨kind s.value, s.rest, s.notes⟩ := by
  rcases hr with ⟨taken, ys, ht, hys, hreads⟩
  refine ⟨taken, ys, ht, hys, ?_⟩
  rw [← List.append_nil s.notes]
  exact hreads.bind (looks_token _ _ ys)

section

variable {γ : Type} {g : List (Option SourceChar) → γ → β} {s : Scan α} {t : Scan γ}

theorem ScansInto.look (hr : Looks r done xs a) (hf : ScansInto g (f a) done xs t) :
    ScansInto g (r >>= f) done xs t := by
  rcases hf with ⟨taken, ys, ht, hys, hreads⟩
  exact ⟨taken, ys, ht, hys, hr.bind hreads⟩

/-- What follows a step goes on where the step ended. -/
theorem ScansInto.after (hr : Reads r done xs a (done ++ taken) ys n) (ht : Takes xs taken ys)
    (hf : ScansInto g (f a) (done ++ taken) ys t) :
    ScansInto g (r >>= f) done xs ⟨t.value, t.rest, n ++ t.notes⟩ := by
  rcases hf with ⟨taken', zs, ht', hzs, hreads⟩
  refine ⟨taken ++ taken', zs, ht.trans ht', hzs, ?_⟩
  rw [← List.append_assoc]
  exact hr.bind hreads

/-- The same when nothing is noted after the step. -/
theorem ScansInto.afterQuietly {c : γ} {rest : List Char}
    (hr : Reads r done xs a (done ++ taken) ys n) (ht : Takes xs taken ys)
    (hf : ScansInto g (f a) (done ++ taken) ys ⟨c, rest, []⟩) :
    ScansInto g (r >>= f) done xs ⟨c, rest, n⟩ := by
  have h := ScansInto.after hr ht hf
  rwa [List.append_nil] at h

/-- The same when nothing is noted in the step. -/
theorem ScansInto.step (hr : Reads r done xs a (done ++ taken) ys []) (ht : Takes xs taken ys)
    (hf : ScansInto g (f a) (done ++ taken) ys t) : ScansInto g (r >>= f) done xs t :=
  ScansInto.after hr ht hf

/-- Consuming a character and looking at it. -/
theorem ScansInto.char {f : Option SourceChar → CharReader β} {x : SourceChar}
    (hf : ScansInto g (f (some x)) (done ++ [some x]) xs t) :
    ScansInto g (consume 1 >>= fun _ => current >>= f) done (x :: xs) t :=
  .step (reads_consume_one x done xs) (.cons x (.nil xs)) (.look (looks_current (some x) done xs) hf)

/-- Consuming the end of the text and looking at it. -/
theorem ScansInto.charEnd {f : Option SourceChar → CharReader β}
    (hf : ScansInto g (f none) (done ++ [none]) [] t) :
    ScansInto g (consume 1 >>= fun _ => current >>= f) done [] t :=
  .step (reads_consume_end 1 done) (.last (.nil [])) (.look (looks_current none done []) hf)

/-- A character that was put back is consumed again. -/
theorem ScansInto.again {f : Unit → CharReader β} {x : SourceChar}
    (hf : ScansInto g (f ()) (done ++ [some x]) xs t) :
    ScansInto g (reconsume (some x) >>= fun _ => consume 1 >>= f) (done ++ [some x]) xs t := by
  rcases hf with ⟨taken, ys, ht, hys, hreads⟩
  refine ⟨taken, ys, ht, hys, (reads_reconsume (some x) done xs).bind ?_⟩
  exact (reads_consume_one x done xs).bind hreads

theorem ScansInto.note {f : Unit → CharReader β} (n : Note) (hf : ScansInto g (f ()) done xs t) :
    ScansInto g (note n >>= f) done xs ⟨t.value, t.rest, n :: t.notes⟩ := by
  rcases hf with ⟨taken, ys, ht, hys, hreads⟩
  exact ⟨taken, ys, ht, hys, (reads_note n done xs).bind hreads⟩

theorem ScansInto.bind (hr : Scans r done xs s)
    (hf : ∀ taken ys, Takes xs taken ys → values ys = s.rest →
      ScansInto g (f s.value) (done ++ taken) ys t) :
    ScansInto g (r >>= f) done xs ⟨t.value, t.rest, s.notes ++ t.notes⟩ := by
  rcases hr with ⟨taken, ys, ht, hys, hreads⟩
  exact .after hreads ht (hf taken ys ht hys)

end

/-! ## Turns -/

/-- In the last turn nothing more is read. -/
theorem Reads.last (a : α) (rest : CharReader α) (done : List (Option SourceChar))
    (xs : List SourceChar) : Looks (Pure.pure (Turn.done a) >>= PartialReader.after rest) done xs a :=
  .pure a done xs

/-- In any other turn the turns after it are read. -/
theorem Reads.more {rest : CharReader α} (hr : Reads rest done xs a done' ys n) (g : α → α) :
    Reads (Pure.pure (Turn.more g) >>= PartialReader.after rest) done xs (g a) done' ys n := by
  have hmade := hr.bind (f := fun a => Pure.pure (g a)) (.pure (g a) done' ys)
  rwa [List.append_nil] at hmade

/-- A character is put back in the last turn. -/
theorem reads_reconsume_last (c : Option SourceChar) (a : α) (rest : CharReader α)
    (done : List (Option SourceChar)) (xs : List SourceChar) :
    Reads (reconsume c >>= fun _ => Pure.pure (Turn.done a) >>= PartialReader.after rest)
      (done ++ [c]) xs a done (c.toList ++ xs) [] :=
  (reads_reconsume c done xs).bind (.last a rest done _)

theorem ScansInto.last (a : α) (rest : CharReader α) (done : List (Option SourceChar))
    (xs : List SourceChar) :
    Scans (Pure.pure (Turn.done a) >>= PartialReader.after rest) done xs ⟨a, values xs, []⟩ :=
  .of_looks (.last a rest done xs)

theorem ScansInto.more {rest : CharReader α} {s : Scan α} (hr : Scans rest done xs s) (g : α → α) :
    Scans (Pure.pure (Turn.more g) >>= PartialReader.after rest) done xs ⟨g s.value, s.rest, s.notes⟩ :=
  hr.map g

private theorem consumeWhile_eq (p : Char → Bool) :
    consumeWhile p = whileTurn p >>= PartialReader.after (consumeWhile p) := untilDone_eq _

private theorem name_eq : name = nameTurn >>= PartialReader.after name := untilDone_eq _

private theorem leadingWhitespace_eq :
    leadingWhitespace = leadingTurn >>= PartialReader.after leadingWhitespace := untilDone_eq _

private theorem badUrl_eq : badUrl = badUrlTurn >>= PartialReader.after badUrl := untilDone_eq _

private theorem urlBody_eq : urlBody = urlTurn >>= PartialReader.after urlBody := untilDone_eq _

private theorem stringBody_eq (ending : Char) :
    stringBody ending = stringTurn ending >>= PartialReader.after (stringBody ending) := untilDone_eq _

private theorem commentBody_eq :
    commentBody = commentTurn >>= PartialReader.after commentBody := untilDone_eq _

/-! ## Escapes -/

theorem escapes_take (k : Nat) (cs : List Char) : escapes (cs.take (k + 1)) = escapes cs := by
  cases cs with
  | nil => rfl
  | cons c cs =>
    by_cases hc : c = '\n'
    · subst hc
      rfl
    · simp [escapes, hc]

/-- Asked of what was consumed last, whether an escape comes next depends on it being a backslash. -/
theorem looks_isEscape_nil (c : SourceChar) (done : List (Option SourceChar))
    (xs : List SourceChar) : Looks (isEscape []) (done ++ [some c]) xs
      (c.value == '\\' && escapes (values xs)) := by
  have hstart : startsEscape (c.value :: values (xs.take 1)) =
      (c.value == '\\' && escapes (values xs)) := by
    rw [values, List.map_take]
    by_cases hc : c.value = '\\'
    · simp [hc, startsEscape, escapes_take]
    · simp [hc, startsEscape]
  rw [← hstart]
  exact (looks_ahead 1 (some c) done xs).look (.pure _ _ _)

theorem looks_isEscape_end (done : List (Option SourceChar)) :
    Looks (isEscape []) (done ++ [none]) [] false :=
  (looks_ahead 1 none done []).look (.pure _ _ _)

/-- Whether the next character satisfies a condition. -/
private theorem any_next (p : Char → Bool) (x : SourceChar) (xs : List SourceChar) :
    (values ((x :: xs).take 1)).any p = p x.value := by
  simp

theorem reads_hexDigits (k : Nat) (done : List (Option SourceChar)) (xs : List SourceChar) :
    ∃ front ys, xs = front ++ ys ∧ spanHex k (values xs) = (values front, values ys) ∧
      Reads (hexDigits k) done xs () (done ++ front.map some) ys [] := by
  induction k generalizing done xs with
  | zero =>
    refine ⟨[], xs, rfl, rfl, ?_⟩
    rw [List.map_nil, List.append_nil]
    exact .pure () done xs
  | succ k ih =>
    cases xs with
    | nil =>
      refine ⟨[], [], rfl, rfl, ?_⟩
      rw [List.map_nil, List.append_nil]
      exact (looks_next 1 done []).look (.pure () done [])
    | cons x xs =>
      by_cases hx : isHexDigit x.value
      · obtain ⟨front, ys, rfl, hspan, hreads⟩ := ih (done ++ [some x]) xs
        refine ⟨x :: front, ys, rfl, ?_, ?_⟩
        · show (if isHexDigit x.value then _ else _) = _
          rw [if_pos hx, hspan]
          rfl
        · apply (looks_next 1 done _).look
          rw [any_next, if_pos hx, List.map_cons, List.append_cons]
          exact (reads_consume_one x done _).bind hreads
      · refine ⟨[], x :: xs, rfl, ?_, ?_⟩
        · show (if isHexDigit x.value then _ else _) = _
          rw [if_neg hx]
          rfl
        · apply (looks_next 1 done _).look
          rw [any_next, if_neg hx, List.map_nil, List.append_nil]
          exact .pure () done _

theorem scans_oneWhitespace (done : List (Option SourceChar)) (xs : List SourceChar) :
    Scans oneWhitespace done xs ⟨(), dropOneWhitespace (values xs), []⟩ := by
  cases xs with
  | nil => exact .look (looks_next 1 done []) (.pure _ _ _)
  | cons x xs =>
    apply ScansInto.look (looks_next 1 done (x :: xs))
    rw [any_next]
    by_cases hx : isWhitespace x.value
    · rw [if_pos hx, values_cons, dropOneWhitespace, if_pos hx]
      exact .of_reads (reads_consume_one x done xs) (.cons x (.nil xs))
    · rw [if_neg hx, values_cons, dropOneWhitespace, if_neg hx]
      exact .pure () done (x :: xs)

/-- What was consumed since some characters ago, all of which were there. -/
private theorem filterMap_drop (done : List (Option SourceChar)) (front : List SourceChar) :
    ((done ++ front.map some).drop done.length).filterMap (·.map SourceChar.value) =
      values front := by
  rw [List.drop_left, List.filterMap_map]
  exact congrFun List.filterMap_eq_map front

theorem scans_escape (done : List (Option SourceChar)) (xs : List SourceChar) :
    Scans escape done xs (scanEscape (values xs)) := by
  cases xs with
  | nil =>
    apply ScansInto.charEnd
    exact ScansInto.note (t := ⟨'\uFFFD', [], []⟩) .escapeAtEnd (.pure '\uFFFD' _ [])
  | cons x xs =>
    apply ScansInto.char
    rw [values_cons, scanEscape]
    by_cases hx : isHexDigit x.value
    · rw [if_pos hx]
      dsimp only
      rw [if_pos hx]
      apply ScansInto.look (looks_count _ xs)
      obtain ⟨front, ys, rfl, hspan, hreads⟩ := reads_hexDigits 5 (done ++ [some x]) xs
      rw [hspan]
      apply ScansInto.step hreads (.append front ys)
      have hlen : (done ++ [some x]).length - 1 = done.length := by simp
      have hdone : done ++ [some x] ++ front.map some = done ++ (x :: front).map some := by simp
      rw [hlen, hdone]
      apply ScansInto.look (looks_consumedFrom done.length _ ys)
      rw [filterMap_drop]
      exact (scans_oneWhitespace _ ys).map fun _ => charOfCodePoint (ofHexDigits (values (x :: front)))
    · rw [if_neg hx]
      dsimp only
      rw [if_neg hx]
      exact .pure x.value _ xs

theorem scans_name (done : List (Option SourceChar)) (xs : List SourceChar) :
    Scans name done xs (scanName (values xs)) := by
  generalize hcs : values xs = cs
  fun_induction scanName cs generalizing done xs with
  | case1 =>
    obtain rfl := List.map_eq_nil_iff.1 hcs
    rw [name_eq, nameTurn]
    simp only [bind_assoc]
    refine .of_looks ((reads_consume_end 1 done).bind ?_)
    apply (looks_current none done []).look
    rw [Option.filter_none, bind_assoc]
    apply (looks_isEscape_end done).look
    rw [if_neg Bool.false_ne_true, bind_assoc]
    exact reads_reconsume_last none [] name done []
  | case2 c cs h s ih =>
    obtain ⟨x, xs, rfl, rfl, rfl⟩ := List.map_eq_cons_iff.1 hcs
    rw [name_eq, nameTurn]
    simp only [bind_assoc]
    apply ScansInto.char
    rw [Option.filter_some, if_pos h]
    exact (ih _ xs rfl).more (x.value :: ·)
  | case3 c cs h h' e s ih =>
    obtain ⟨x, xs, rfl, rfl, rfl⟩ := List.map_eq_cons_iff.1 hcs
    rw [name_eq, nameTurn]
    simp only [bind_assoc]
    apply ScansInto.char
    rw [Option.filter_some, if_neg h]
    simp only [bind_assoc]
    apply ScansInto.look (looks_isEscape_nil x done xs)
    rw [if_pos h', bind_assoc]
    exact ScansInto.bind (t := ⟨e.value :: s.value, s.rest, s.notes⟩) (scans_escape _ xs)
      fun taken ys _ hys => (ih _ ys hys).more (e.value :: ·)
  | case4 c cs h h' =>
    obtain ⟨x, xs, rfl, rfl, rfl⟩ := List.map_eq_cons_iff.1 hcs
    rw [name_eq, nameTurn]
    simp only [bind_assoc]
    refine .of_looks ((reads_consume_one x done xs).bind ?_)
    apply (looks_current (some x) done xs).look
    rw [Option.filter_some, if_neg h]
    simp only [bind_assoc]
    apply (looks_isEscape_nil x done xs).look
    rw [if_neg h', bind_assoc]
    exact reads_reconsume_last (some x) [] name done xs

/-! ## Runs of characters -/

theorem reads_consumeWhile (p : Char → Bool) (done : List (Option SourceChar))
    (xs : List SourceChar) :
    ∃ front ys, xs = front ++ ys ∧ values front = (values xs).takeWhile p ∧
      values ys = (values xs).dropWhile p ∧
      Reads (consumeWhile p) done xs (values front) (done ++ front.map some) ys [] := by
  induction xs generalizing done with
  | nil =>
    refine ⟨[], [], rfl, rfl, rfl, ?_⟩
    rw [consumeWhile_eq, whileTurn, bind_assoc, List.map_nil, List.append_nil]
    exact (looks_next 1 done []).look (.pure [] done [])
  | cons x xs ih =>
    rw [values_cons, consumeWhile_eq, whileTurn, bind_assoc]
    by_cases hx : p x.value
    · obtain ⟨front, ys, rfl, hfront, hys, hreads⟩ := ih (done ++ [some x])
      refine ⟨x :: front, ys, rfl, ?_, ?_, ?_⟩
      · rw [List.takeWhile_cons_of_pos hx, ← hfront, values_cons]
      · rw [List.dropWhile_cons_of_pos hx, hys]
      · rw [List.map_cons, List.append_cons]
        apply (looks_next 1 done _).look
        show Reads ((if p x.value then _ else _) >>= _) _ _ _ _ _ _
        rw [if_pos hx, bind_assoc]
        exact (reads_consume_one x done _).bind (hreads.more (x.value :: ·))
    · refine ⟨[], x :: xs, rfl, ?_, ?_, ?_⟩
      · rw [List.takeWhile_cons_of_neg hx, values, List.map_nil]
      · rw [List.dropWhile_cons_of_neg hx, values_cons]
      · rw [List.map_nil, List.append_nil]
        apply (looks_next 1 done _).look
        show Reads ((if p x.value then _ else _) >>= _) _ _ _ _ _ _
        rw [if_neg hx]
        exact .pure [] done _

private theorem scans_leadingWhitespace_nil (done : List (Option SourceChar)) :
    Scans leadingWhitespace done [] ⟨(), [], []⟩ := by
  rw [leadingWhitespace_eq, leadingTurn, bind_assoc]
  exact .look (looks_next 2 done []) (.last () _ done [])

theorem scans_leadingWhitespace (done : List (Option SourceChar)) (xs : List SourceChar) :
    Scans leadingWhitespace done xs ⟨(), dropLeadingWhitespace (values xs), []⟩ := by
  generalize hcs : values xs = cs
  fun_induction dropLeadingWhitespace cs generalizing done xs with
  | case1 c d cs h ih =>
    obtain ⟨x, xs, rfl, rfl, hxs⟩ := List.map_eq_cons_iff.1 hcs
    obtain ⟨y, ys, rfl, rfl, rfl⟩ := List.map_eq_cons_iff.1 hxs
    rw [leadingWhitespace_eq, leadingTurn]
    simp only [bind_assoc]
    apply ScansInto.look (looks_next 2 done _)
    rw [if_pos (by simpa using h), bind_assoc]
    exact .step (reads_consume_one x done _) (.cons x (.nil _)) ((ih _ (y :: ys) rfl).more id)
  | case2 c d cs h =>
    obtain ⟨x, xs, rfl, rfl, hxs⟩ := List.map_eq_cons_iff.1 hcs
    obtain ⟨y, ys, rfl, rfl, rfl⟩ := List.map_eq_cons_iff.1 hxs
    rw [leadingWhitespace_eq, leadingTurn]
    simp only [bind_assoc]
    apply ScansInto.look (looks_next 2 done _)
    rw [if_neg (by simpa using h)]
    exact .last () _ done _
  | case3 c h =>
    obtain ⟨x, xs, rfl, rfl, hxs⟩ := List.map_eq_cons_iff.1 hcs
    obtain rfl := List.map_eq_nil_iff.1 hxs
    rw [leadingWhitespace_eq, leadingTurn]
    simp only [bind_assoc]
    apply ScansInto.look (looks_next 2 done _)
    rw [if_pos (by simpa using h), bind_assoc]
    apply ScansInto.step (reads_consume_one x done []) (.cons x (.nil []))
    exact (scans_leadingWhitespace_nil _).more id
  | case4 c h =>
    obtain ⟨x, xs, rfl, rfl, hxs⟩ := List.map_eq_cons_iff.1 hcs
    obtain rfl := List.map_eq_nil_iff.1 hxs
    rw [leadingWhitespace_eq, leadingTurn]
    simp only [bind_assoc]
    apply ScansInto.look (looks_next 2 done _)
    rw [if_neg (by simpa using h)]
    exact .last () _ done _
  | case5 =>
    obtain rfl := List.map_eq_nil_iff.1 hcs
    exact scans_leadingWhitespace_nil done

/-! ## URLs -/

theorem scans_badUrl (done : List (Option SourceChar)) (xs : List SourceChar) :
    Scans badUrl done xs (scanBadUrl (values xs)) := by
  generalize hcs : values xs = cs
  fun_induction scanBadUrl cs generalizing done xs with
  | case1 =>
    obtain rfl := List.map_eq_nil_iff.1 hcs
    rw [badUrl_eq, badUrlTurn]
    simp only [bind_assoc]
    exact .charEnd (.last () _ _ [])
  | case2 c cs h =>
    obtain ⟨x, xs, rfl, rfl, rfl⟩ := List.map_eq_cons_iff.1 hcs
    rw [badUrl_eq, badUrlTurn]
    simp only [bind_assoc]
    apply ScansInto.char
    dsimp only
    rw [if_pos h]
    exact .last () _ _ xs
  | case3 c cs h h' e s ih =>
    obtain ⟨x, xs, rfl, rfl, rfl⟩ := List.map_eq_cons_iff.1 hcs
    rw [badUrl_eq, badUrlTurn]
    simp only [bind_assoc]
    apply ScansInto.char
    dsimp only
    rw [if_neg h, bind_assoc]
    apply ScansInto.look (looks_isEscape_nil x done xs)
    rw [if_pos h', bind_assoc]
    exact ScansInto.bind (t := s) (scans_escape _ xs) fun taken ys _ hys => (ih _ ys hys).more id
  | case4 c cs h h' ih =>
    obtain ⟨x, xs, rfl, rfl, rfl⟩ := List.map_eq_cons_iff.1 hcs
    rw [badUrl_eq, badUrlTurn]
    simp only [bind_assoc]
    apply ScansInto.char
    dsimp only
    rw [if_neg h, bind_assoc]
    apply ScansInto.look (looks_isEscape_nil x done xs)
    rw [if_neg h']
    exact (ih _ xs rfl).more id

theorem scans_urlBody (done : List (Option SourceChar)) (xs : List SourceChar) :
    Scans urlBody done xs (scanUrlBody (values xs)) := by
  generalize hcs : values xs = cs
  fun_induction scanUrlBody cs generalizing done xs with
  | case1 =>
    obtain rfl := List.map_eq_nil_iff.1 hcs
    rw [urlBody_eq, urlTurn]
    simp only [bind_assoc]
    apply ScansInto.charEnd
    rw [bind_assoc]
    exact ScansInto.note (t := ⟨some [], [], []⟩) .unterminatedUrl (.last (some []) _ _ [])
  | case2 c cs h =>
    obtain ⟨x, xs, rfl, rfl, rfl⟩ := List.map_eq_cons_iff.1 hcs
    rw [urlBody_eq, urlTurn]
    simp only [bind_assoc]
    apply ScansInto.char
    dsimp only
    rw [if_pos h]
    exact .last (some []) _ _ xs
  | case3 c cs h h' hrest =>
    obtain ⟨x, xs, rfl, rfl, rfl⟩ := List.map_eq_cons_iff.1 hcs
    rw [urlBody_eq, urlTurn]
    simp only [bind_assoc]
    apply ScansInto.char
    dsimp only
    rw [if_neg h, if_pos h']
    simp only [bind_assoc]
    obtain ⟨front, ys, rfl, -, hys, hreads⟩ := reads_consumeWhile isWhitespace (done ++ [some x]) xs
    obtain rfl := List.map_eq_nil_iff.1 (hys.trans hrest)
    apply ScansInto.step hreads (.append front [])
    apply ScansInto.look (looks_next 1 _ [])
    simp only [List.take_nil, List.map_nil, bind_assoc]
    apply ScansInto.step (reads_consume_end 1 _) (.last (.nil []))
    exact ScansInto.note (t := ⟨some [], [], []⟩) .unterminatedUrl (.last (some []) _ _ [])
  | case4 c cs h h' rest hrest =>
    obtain ⟨x, xs, rfl, rfl, rfl⟩ := List.map_eq_cons_iff.1 hcs
    rw [urlBody_eq, urlTurn]
    simp only [bind_assoc]
    apply ScansInto.char
    dsimp only
    rw [if_neg h, if_pos h']
    simp only [bind_assoc]
    obtain ⟨front, ys, rfl, -, hys, hreads⟩ := reads_consumeWhile isWhitespace (done ++ [some x]) xs
    obtain ⟨y, ys, rfl, hy, rfl⟩ := List.map_eq_cons_iff.1 (hys.trans hrest)
    apply ScansInto.step hreads (.append front (y :: ys))
    apply ScansInto.look (looks_next 1 _ (y :: ys))
    show ScansInto _ ((if y.value == ')' then _ else _) >>= _) _ _ _
    rw [if_pos (by rw [hy]; rfl), bind_assoc]
    exact .step (reads_consume_one y _ ys) (.cons y (.nil ys)) (.last (some []) _ _ ys)
  | case5 c cs h h' hnil hparen s =>
    obtain ⟨x, xs, rfl, rfl, rfl⟩ := List.map_eq_cons_iff.1 hcs
    rw [urlBody_eq, urlTurn]
    simp only [bind_assoc]
    apply ScansInto.char
    dsimp only
    rw [if_neg h, if_pos h']
    simp only [bind_assoc]
    obtain ⟨front, ys, rfl, -, hys, hreads⟩ := reads_consumeWhile isWhitespace (done ++ [some x]) xs
    apply ScansInto.step hreads (.append front ys)
    apply ScansInto.look (looks_next 1 _ ys)
    cases ys with
    | nil => exact absurd hys.symm hnil
    | cons y ys =>
      have hy : ¬(y.value == ')') := by
        intro hy
        exact hparen (values ys) (by rw [← beq_iff_eq.1 hy]; exact hys.symm)
      show ScansInto _ ((if y.value == ')' then _ else _) >>= _) _ _ _
      rw [if_neg hy, bind_assoc]
      have hbad := scans_badUrl (done ++ [some x] ++ front.map some) (y :: ys)
      rw [hys] at hbad
      exact hbad.map fun _ => none
  | case6 c cs h h' h'' s =>
    obtain ⟨x, xs, rfl, rfl, rfl⟩ := List.map_eq_cons_iff.1 hcs
    rw [urlBody_eq, urlTurn]
    simp only [bind_assoc]
    apply ScansInto.char
    dsimp only
    rw [if_neg h, if_neg h', if_pos h'']
    simp only [bind_assoc]
    apply ScansInto.note (t := ⟨none, s.rest, s.notes⟩) .invalidCodePointInUrl
    exact (scans_badUrl _ xs).map fun _ => none
  | case7 c cs h h' h'' hbackslash hescape e s ih =>
    obtain ⟨x, xs, rfl, rfl, rfl⟩ := List.map_eq_cons_iff.1 hcs
    rw [urlBody_eq, urlTurn]
    simp only [bind_assoc]
    apply ScansInto.char
    dsimp only
    rw [if_neg h, if_neg h', if_neg h'', if_pos hbackslash, bind_assoc]
    apply ScansInto.look (looks_isEscape_nil x done xs)
    rw [if_pos (by rw [hbackslash, hescape]; rfl)]
    simp only [bind_assoc]
    apply ScansInto.again
    exact ScansInto.bind (t := ⟨s.value.map (e.value :: ·), s.rest, s.notes⟩) (scans_escape _ xs)
      fun taken ys _ hys => (ih _ ys hys).more (Option.map (e.value :: ·))
  | case8 c cs h h' h'' hbackslash hescape s =>
    obtain ⟨x, xs, rfl, rfl, rfl⟩ := List.map_eq_cons_iff.1 hcs
    rw [urlBody_eq, urlTurn]
    simp only [bind_assoc]
    apply ScansInto.char
    dsimp only
    rw [if_neg h, if_neg h', if_neg h'', if_pos hbackslash, bind_assoc]
    apply ScansInto.look (looks_isEscape_nil x done xs)
    rw [if_neg (by simp [hescape])]
    simp only [bind_assoc]
    apply ScansInto.note (t := ⟨none, s.rest, s.notes⟩) .invalidEscapeInUrl
    exact (scans_badUrl _ xs).map fun _ => none
  | case9 c cs h h' h'' hbackslash s ih =>
    obtain ⟨x, xs, rfl, rfl, rfl⟩ := List.map_eq_cons_iff.1 hcs
    rw [urlBody_eq, urlTurn]
    simp only [bind_assoc]
    apply ScansInto.char
    dsimp only
    rw [if_neg h, if_neg h', if_neg h'', if_neg hbackslash]
    exact (ih _ xs rfl).more (Option.map (x.value :: ·))

theorem forms_url (done : List (Option SourceChar)) (xs : List SourceChar) :
    Forms url done xs
      (let u := scanUrlBody ((values xs).dropWhile isWhitespace)
      ⟨match u.value with
        | some value => .url (String.ofList value)
        | none => .badUrl, u.rest, u.notes⟩) := by
  obtain ⟨front, ys, rfl, -, hys, hreads⟩ := reads_consumeWhile isWhitespace done xs
  rw [← hys, url]
  apply ScansInto.step hreads (.append front ys)
  exact (scans_urlBody _ ys).token _

private theorem startsQuoted_take (cs : List Char) : startsQuoted (cs.take 2) = startsQuoted cs := by
  match cs with
  | [] | [_] | _ :: _ :: _ => rfl

theorem forms_functionOrUrl (name : String) (done : List (Option SourceChar))
    (xs : List SourceChar) :
    Forms (functionOrUrl name) done xs (scanFunctionOrUrl name (values xs)) := by
  unfold functionOrUrl scanFunctionOrUrl
  by_cases hurl : Text.asciiLower name == "url"
  · rw [if_pos hurl, if_pos hurl]
    obtain ⟨taken, ys, ht, hys, hspace⟩ := scans_leadingWhitespace done xs
    have hys : values ys = dropLeadingWhitespace (values xs) := hys
    have hquoted : startsQuoted (values (ys.take 2)) = startsQuoted (values ys) := by
      rw [values, List.map_take, startsQuoted_take]
    rw [← hys]
    refine .step hspace ht (.look (looks_next 2 _ ys) ?_)
    rw [hquoted]
    by_cases hq : startsQuoted (values ys)
    · simp only [if_pos hq]
      exact forms_token _ _ ys
    · simp only [if_neg hq]
      exact forms_url _ ys
  · rw [if_neg hurl, if_neg hurl]
    exact forms_token _ done xs

theorem forms_identLike (done : List (Option SourceChar)) (xs : List SourceChar) :
    Forms identLike done xs (scanIdentLike (values xs)) := by
  have hscan := scans_name done xs
  rw [scanIdentLike, identLike]
  generalize scanName (values xs) = n at hscan ⊢
  rcases n with ⟨name, rest, notes⟩
  rcases hscan with ⟨taken, ys, ht, rfl, hname⟩
  dsimp only at hname ⊢
  cases ys with
  | nil =>
    apply ScansInto.afterQuietly hname ht
    exact .look (looks_next 1 _ []) (forms_token _ _ [])
  | cons y ys =>
    have hnext := looks_next 1 (done ++ taken) (y :: ys)
    by_cases hy : y.value = '('
    · rw [values_cons, hy]
      refine .after hname ht (.look hnext ?_)
      rw [if_pos (by simp [hy])]
      exact .step (reads_consume_one y _ ys) (.cons y (.nil ys)) (forms_functionOrUrl _ _ ys)
    · rw [values_cons]
      split
      · rename_i hcons
        exact absurd (List.cons.inj hcons).1 hy
      · refine .afterQuietly hname ht (.look hnext ?_)
        rw [if_neg (by simpa using hy)]
        exact forms_token _ _ (y :: ys)

/-! ## Strings and comments -/

private theorem scans_stringBody_nil (ending : Char) (done : List (Option SourceChar)) :
    Scans (stringBody ending) done [] ⟨some [], [], [.unterminatedString]⟩ := by
  rw [stringBody_eq, stringTurn]
  simp only [bind_assoc]
  apply ScansInto.charEnd
  dsimp only
  rw [bind_assoc]
  exact ScansInto.note (t := ⟨some [], [], []⟩) .unterminatedString (.last (some []) _ _ [])

theorem scans_stringBody (ending : Char) (done : List (Option SourceChar))
    (xs : List SourceChar) : Scans (stringBody ending) done xs (scanString ending (values xs)) := by
  generalize hcs : values xs = cs
  fun_induction scanString ending cs generalizing done xs with
  | case1 =>
    obtain rfl := List.map_eq_nil_iff.1 hcs
    exact scans_stringBody_nil ending done
  | case2 c cs h =>
    obtain ⟨x, xs, rfl, rfl, rfl⟩ := List.map_eq_cons_iff.1 hcs
    rw [stringBody_eq, stringTurn]
    simp only [bind_assoc]
    apply ScansInto.char
    dsimp only
    rw [if_pos h]
    exact .last (some []) _ _ xs
  | case3 c cs h h' =>
    obtain ⟨x, xs, rfl, rfl, rfl⟩ := List.map_eq_cons_iff.1 hcs
    rw [stringBody_eq, stringTurn]
    simp only [bind_assoc]
    refine ⟨[], x :: xs, .nil _, rfl, ?_⟩
    rw [List.append_nil]
    refine (reads_consume_one x done xs).bind ((looks_current (some x) done xs).look ?_)
    dsimp only
    rw [if_neg h, if_pos h']
    simp only [bind_assoc]
    exact (reads_note .newlineInString _ xs).bind (reads_reconsume_last (some x) none _ done xs)
  | case4 c h h' hbackslash =>
    obtain ⟨x, xs, rfl, rfl, hxs⟩ := List.map_eq_cons_iff.1 hcs
    obtain rfl := List.map_eq_nil_iff.1 hxs
    rw [stringBody_eq, stringTurn]
    simp only [bind_assoc]
    apply ScansInto.char
    dsimp only
    rw [if_neg h, if_neg h', if_pos hbackslash, bind_assoc]
    apply ScansInto.look (looks_next 1 _ [])
    exact (scans_stringBody_nil ending _).more id
  | case5 c h h' hbackslash cs ih =>
    obtain ⟨x, xs, rfl, rfl, hxs⟩ := List.map_eq_cons_iff.1 hcs
    obtain ⟨y, ys, rfl, hy, rfl⟩ := List.map_eq_cons_iff.1 hxs
    rw [stringBody_eq, stringTurn]
    simp only [bind_assoc]
    apply ScansInto.char
    dsimp only
    rw [if_neg h, if_neg h', if_pos hbackslash, bind_assoc]
    apply ScansInto.look (looks_next 1 _ (y :: ys))
    show ScansInto _ ((if y.value == '\n' then _ else _) >>= _) _ _ _
    rw [if_pos (by rw [hy]; rfl), bind_assoc]
    exact .step (reads_consume_one y _ ys) (.cons y (.nil ys)) ((ih _ ys rfl).more id)
  | case6 c h h' hbackslash d ds hd e s ih =>
    obtain ⟨x, xs, rfl, rfl, hxs⟩ := List.map_eq_cons_iff.1 hcs
    obtain ⟨y, ys, rfl, rfl, rfl⟩ := List.map_eq_cons_iff.1 hxs
    rw [stringBody_eq, stringTurn]
    simp only [bind_assoc]
    apply ScansInto.char
    dsimp only
    rw [if_neg h, if_neg h', if_pos hbackslash, bind_assoc]
    apply ScansInto.look (looks_next 1 _ (y :: ys))
    show ScansInto _ ((if y.value == '\n' then _ else _) >>= _) _ _ _
    rw [if_neg (by simpa using hd), bind_assoc]
    exact ScansInto.bind (t := ⟨s.value.map (e.value :: ·), s.rest, s.notes⟩)
      (scans_escape _ (y :: ys)) fun taken zs _ hzs => (ih _ zs hzs).more (Option.map (e.value :: ·))
  | case7 c cs h h' hbackslash s ih =>
    obtain ⟨x, xs, rfl, rfl, rfl⟩ := List.map_eq_cons_iff.1 hcs
    rw [stringBody_eq, stringTurn]
    simp only [bind_assoc]
    apply ScansInto.char
    dsimp only
    rw [if_neg h, if_neg h', if_neg hbackslash]
    exact (ih _ xs rfl).more (Option.map (x.value :: ·))

theorem forms_string (ending : Char) (done : List (Option SourceChar)) (xs : List SourceChar) :
    Forms (string ending) done xs
      (let s := scanString ending (values xs)
      ⟨match s.value with
        | some value => .string (String.ofList value)
        | none => .badString, s.rest, s.notes⟩) :=
  (scans_stringBody ending done xs).token _

/-- What was consumed of a comment is its text and then its end mark, if there is one. -/
theorem reads_commentBody (done : List (Option SourceChar)) (xs : List SourceChar) :
    ∃ front ys mark, xs = front ++ ys ∧ values ys = (scanComment (values xs)).rest ∧
      mark ≤ front.length ∧
      (values front).take (front.length - mark) = (scanComment (values xs)).value ∧
      Reads commentBody done xs mark (done ++ front.map some) ys (scanComment (values xs)).notes := by
  generalize hcs : values xs = cs
  fun_induction scanComment cs generalizing done xs with
  | case1 =>
    obtain rfl := List.map_eq_nil_iff.1 hcs
    refine ⟨[], [], 0, rfl, rfl, Nat.le_refl 0, rfl, ?_⟩
    rw [commentBody_eq, commentTurn, bind_assoc, List.map_nil, List.append_nil]
    apply (looks_next 1 done []).look
    simp only [List.take_nil, List.map_nil, bind_assoc]
    exact (reads_note .unterminatedComment done []).bind (.pure 0 done [])
  | case2 cs =>
    obtain ⟨x, xs, rfl, hx, hxs⟩ := List.map_eq_cons_iff.1 hcs
    obtain ⟨y, ys, rfl, hy, rfl⟩ := List.map_eq_cons_iff.1 hxs
    refine ⟨[x, y], ys, 2, rfl, rfl, Nat.le_refl 2, rfl, ?_⟩
    rw [commentBody_eq, commentTurn, bind_assoc]
    apply (looks_next 1 done _).look
    simp only [List.take_succ_cons, List.map_cons, bind_assoc]
    apply (looks_next 2 done _).look
    rw [if_pos (by simp [hx, hy]), bind_assoc]
    exact (reads_consume [x, y] done ys (List.cons_ne_nil x _)).bind (.pure 2 _ ys)
  | case3 c cs hmark s ih =>
    obtain ⟨x, xs, rfl, rfl, rfl⟩ := List.map_eq_cons_iff.1 hcs
    obtain ⟨front, ys, mark, rfl, hys, hle, htext, hreads⟩ := ih (done ++ [some x]) xs rfl
    refine ⟨x :: front, ys, mark, rfl, hys, Nat.le_succ_of_le hle, ?_, ?_⟩
    · rw [List.length_cons, Nat.succ_sub hle, values_cons, List.take_succ_cons, htext]
    · rw [commentBody_eq, commentTurn, bind_assoc, List.map_cons, List.append_cons]
      apply (looks_next 1 done _).look
      simp only [List.take_succ_cons, List.map_cons, bind_assoc]
      apply (looks_next 2 done _).look
      rw [if_neg, bind_assoc]
      · exact (reads_consume_one x done _).bind (hreads.more id)
      · intro h
        cases hrest : front ++ ys with
        | nil => simp [hrest] at h
        | cons z zs =>
          have hchars : x.value = '*' ∧ z.value = '/' := by simpa [hrest] using h
          exact hmark (values zs) hchars.1 (by rw [hrest, List.map_cons, hchars.2])

theorem forms_comment (x y : SourceChar) (xs : List SourceChar)
    (hx : x.value = '/') (hy : y.value = '*') : Forms comment [] (x :: y :: xs)
      (let s := scanComment (values xs)
      ⟨.comment (String.ofList s.value), s.rest, s.notes⟩) := by
  obtain ⟨front, ys, mark, rfl, hys, hle, htext, hreads⟩ := reads_commentBody [some x, some y] xs
  rw [comment]
  apply ScansInto.look (looks_next 2 [] _)
  rw [if_pos (by simp [hx, hy])]
  apply ScansInto.step (reads_consume [x, y] [] _ (List.cons_ne_nil x _)) (.append [x, y] _)
  dsimp only
  rw [← hys, ← htext]
  refine .afterQuietly hreads (.append front ys) ?_
  refine .look (looks_consumedFrom 2 _ ys) ?_
  have htext := filterMap_drop [some x, some y] front
  rw [show [] ++ [x, y].map some ++ front.map some = [some x, some y] ++ front.map some from rfl]
  rw [show 2 = [some x, some y].length from rfl, htext, List.length_map]
  exact forms_token _ _ ys

end Styling.CharReader
