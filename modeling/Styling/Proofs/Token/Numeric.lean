import Styling.Proofs.Token.CharReader

/-!
# Numbers formed from a reader

Reading a number from a reader breaks off where its literal has no value, and gives what scanning
gives everywhere else (`CharReader.formsLexeme_numeric`). That its literal has digits, which is taken
for granted, follows from what was asked about the characters ahead before.
-/

namespace Styling

open Source Lexer

namespace CharReader

variable {α β : Type} {r : CharReader α} {f : α → CharReader β}
  {done done' done'' : List (Option SourceChar)} {xs ys zs : List SourceChar} {a : α} {b : β}

/-- Wherever `done` was consumed and `xs` is ahead, the reader meets the fault. -/
def Breaks (r : CharReader α) (done : List (Option SourceChar)) (xs : List SourceChar)
    (e : FormationFault) : Prop :=
  ∀ s, Stands s done xs → r s = throw e

theorem Breaks.bind {e : FormationFault} (hr : Breaks r done xs e) : Breaks (r >>= f) done xs e := by
  intro s hs
  show (r s >>= fun (a, s) => f a s) = _
  rw [hr s hs]
  rfl

theorem Breaks.after {e : FormationFault} {notes : List Note}
    (hr : Reads r done xs a done' ys notes) (hf : Breaks (f a) done' ys e) :
    Breaks (r >>= f) done xs e := by
  intro s hs
  obtain ⟨s', hrun, hs', -⟩ := hr s hs
  show (r s >>= fun (a, s) => f a s) = _
  rw [hrun, pure_bind]
  exact hf s' hs'

/-! ## Numbers -/

/-- If digits were read, the last of them was consumed last; if not, nothing was consumed. -/
def EndsIn (digits : List Char) (done done' : List (Option SourceChar)) : Prop :=
  (digits = [] ∧ done' = done) ∨ ∃ front c, done' = front ++ [some c] ∧ isDigit c.value

/-- The reader takes what the scan takes, notes nothing, and consumes digits last. -/
def ScansDigits (r : CharReader α) (digits : α → List Char) (done : List (Option SourceChar))
    (xs : List SourceChar) (a : α) (rest : List Char) : Prop :=
  ∃ taken ys, Takes xs taken ys ∧ values ys = rest ∧ Reads r done xs a (done ++ taken) ys [] ∧
    EndsIn (digits a) done (done ++ taken)

section

variable {digits : α → List Char} {digits' : β → List Char} {rest : List Char}
  {taken : List (Option SourceChar)}

theorem ScansDigits.none (hr : Looks r done xs a) (h : digits a = []) :
    ScansDigits r digits done xs a (values xs) := by
  refine ⟨[], xs, .nil xs, rfl, ?_, .inl ⟨h, List.append_nil done⟩⟩
  rw [List.append_nil]
  exact hr

theorem ScansDigits.look (hr : Looks r done xs a) (hf : ScansDigits (f a) digits' done xs b rest) :
    ScansDigits (r >>= f) digits' done xs b rest := by
  rcases hf with ⟨taken, ys, ht, hys, hreads, hends⟩
  exact ⟨taken, ys, ht, hys, hr.look hreads, hends⟩

theorem ScansDigits.map (digits' : β → List Char) (g : α → β) (hr : ScansDigits r digits done xs a rest)
    (h : digits' (g a) = digits a) :
    ScansDigits (r >>= fun a => Pure.pure (g a)) digits' done xs (g a) rest := by
  rcases hr with ⟨taken, ys, ht, hys, hreads, hends⟩
  refine ⟨taken, ys, ht, hys, hreads.bind (.pure _ _ ys), ?_⟩
  rw [h]
  exact hends

/-- Digits that were read after a step were consumed last. -/
theorem ScansDigits.step (hr : Reads r done xs a (done ++ taken) ys []) (ht : Takes xs taken ys)
    (hf : ScansDigits (f a) digits' (done ++ taken) ys b rest) (h : digits' b ≠ []) :
    ScansDigits (r >>= f) digits' done xs b rest := by
  rcases hf with ⟨taken', zs, ht', hzs, hreads, hends⟩
  refine ⟨taken ++ taken', zs, ht.trans ht', hzs, ?_, ?_⟩
  · rw [← List.append_assoc]
    exact hr.bind hreads
  · rw [← List.append_assoc]
    exact .inr (hends.resolve_left fun hnone => h hnone.1)

end

theorem scansDigits_consumeWhile (done : List (Option SourceChar)) (xs : List SourceChar) :
    ScansDigits (consumeWhile isDigit) id done xs (Number.scanDigits (values xs)).1
      (Number.scanDigits (values xs)).2 := by
  obtain ⟨front, ys, rfl, hfront, hys, hreads⟩ := reads_consumeWhile isDigit done xs
  have hfront : (Number.scanDigits (values (front ++ ys))).1 = values front := hfront.symm
  have hall : ∀ c ∈ values front, isDigit c := by
    rw [← hfront, ← List.all_eq_true]
    exact List.all_takeWhile
  rw [hfront]
  refine ⟨front.map some, ys, .append front ys, hys, hreads, ?_⟩
  rcases List.eq_nil_or_concat front with rfl | ⟨init, c, hinit⟩
  · exact .inl ⟨rfl, List.append_nil done⟩
  · rw [List.concat_eq_append] at hinit
    subst hinit
    exact .inr ⟨done ++ init.map some, c, by simp, hall c.value (by simp)⟩

theorem scans_sign (done : List (Option SourceChar)) (xs : List SourceChar) :
    Scans sign done xs ⟨(Number.scanSign (values xs)).1, (Number.scanSign (values xs)).2, []⟩ := by
  rw [sign]
  cases xs with
  | nil => exact .look (looks_next 1 done []) (.pure none done [])
  | cons x xs =>
    have hnext : (values ((x :: xs).take 1)).head?.bind Number.Sign.ofChar? =
        Number.Sign.ofChar? x.value := rfl
    apply ScansInto.look (looks_next 1 done (x :: xs))
    rw [hnext, values_cons, Number.scanSign]
    cases Number.Sign.ofChar? x.value with
    | none => exact .pure none done (x :: xs)
    | some s => exact .step (reads_consume_one x done xs) (.cons x (.nil xs)) (.pure (some s) _ xs)

theorem scansDigits_fraction (done : List (Option SourceChar)) (xs : List SourceChar) :
    ScansDigits fraction id done xs (Number.scanFraction (values xs)).1
      (Number.scanFraction (values xs)).2 := by
  have hnext := looks_next 2 done xs
  generalize hcs : values xs = cs
  rw [fraction]
  fun_cases Number.scanFraction cs with
  | case1 d cs hd =>
    obtain ⟨x, xs, rfl, hx, hxs⟩ := List.map_eq_cons_iff.1 hcs
    obtain ⟨y, ys, rfl, rfl, rfl⟩ := List.map_eq_cons_iff.1 hxs
    apply ScansDigits.look hnext
    have hchars : values ((x :: y :: ys).take 2) = ['.', y.value] := by simp [hx]
    have hdigits : id (Number.scanDigits (y.value :: values ys)).1 ≠ [] := by
      simp [Number.scanDigits, hd]
    have hd : isDigit y.value := hd
    rw [hchars]
    show ScansDigits (if isDigit y.value then _ else _) _ _ _ _ _
    rw [if_pos hd]
    exact .step (reads_consume_one x done _) (.cons x (.nil _))
      (scansDigits_consumeWhile _ (y :: ys)) hdigits
  | case2 d cs hd =>
    obtain ⟨x, xs, rfl, hx, hxs⟩ := List.map_eq_cons_iff.1 hcs
    obtain ⟨y, ys, rfl, rfl, rfl⟩ := List.map_eq_cons_iff.1 hxs
    apply ScansDigits.look hnext
    have hchars : values ((x :: y :: ys).take 2) = ['.', y.value] := by simp [hx]
    have hd : ¬isDigit y.value := hd
    rw [hchars, ← hcs]
    show ScansDigits (if isDigit y.value then _ else _) _ _ _ _ _
    rw [if_neg hd]
    exact .none (.pure [] done _) rfl
  | case3 =>
    rename_i h
    apply ScansDigits.look hnext
    rw [← hcs]
    split
    · rename_i d hchars
      rw [values, List.map_take, ← values, hcs] at hchars
      cases cs with
      | nil => cases hchars
      | cons c cs =>
        cases cs with
        | nil => cases hchars
        | cons e cs => exact absurd (by rw [(List.cons.inj hchars).1]) (h e cs)
    · exact .none (.pure [] done xs) rfl

private theorem startsExponent_take (cs : List Char) :
    startsExponent (cs.take 3) = startsExponent cs := by
  match cs with
  | [] | [_] | [_, _] | _ :: _ :: _ :: _ => rfl

private theorem isEmpty_scanDigits (cs : List Char) :
    (Number.scanDigits cs).1.isEmpty = !cs.head?.any isDigit := by
  cases cs with
  | nil => rfl
  | cons c cs =>
    show ((c :: cs).takeWhile isDigit).isEmpty = !(isDigit c)
    cases hc : isDigit c <;> simp [hc]

private theorem scanDigits_ne_nil {d : Char} (hd : isDigit d) (ds : List Char) :
    (Number.scanDigits (d :: ds)).1 ≠ [] := by
  have h := isEmpty_scanDigits (d :: ds)
  rw [show (d :: ds).head?.any isDigit from hd] at h
  simpa using h

private theorem isDigit_of_ofChar? {c : Char} {s : Number.Sign} (h : Number.Sign.ofChar? c = some s) :
    isDigit c = false := by
  unfold Number.Sign.ofChar? at h
  split at h
  · rename_i hc
    rw [beq_iff_eq.1 hc]
    rfl
  · split at h
    · rename_i hc
      rw [beq_iff_eq.1 hc]
      rfl
    · cases h

/-- An exponent comes next where digits follow its mark and sign. -/
private theorem startsExponent_cons (e : Char) (cs : List Char) : startsExponent (e :: cs) =
    ((e == 'e' || e == 'E') && !(Number.scanDigits (Number.scanSign cs).2).1.isEmpty) := by
  rw [isEmpty_scanDigits, Bool.not_not]
  unfold startsExponent
  cases cs with
  | nil => rfl
  | cons c cs =>
    cases hsign : Number.Sign.ofChar? c with
    | none => simp [Number.scanSign, hsign]
    | some s => simp [Number.scanSign, hsign, isDigit_of_ofChar? hsign]

theorem scansDigits_exponent (done : List (Option SourceChar)) (xs : List SourceChar) :
    ScansDigits exponent Prod.snd done xs
      ((Number.scanExponent (values xs)).1, (Number.scanExponent (values xs)).2.1)
      (Number.scanExponent (values xs)).2.2 := by
  have hnext : values (xs.take 3) = (values xs).take 3 := List.map_take
  rw [exponent]
  cases xs with
  | nil => exact .look (looks_next 3 done []) (.none (.pure (none, []) done []) rfl)
  | cons x xs =>
    apply ScansDigits.look (looks_next 3 done _)
    rw [hnext, startsExponent_take, values_cons, startsExponent_cons, Number.scanExponent]
    dsimp only
    by_cases h : (x.value == 'e' || x.value == 'E') &&
        !(Number.scanDigits (Number.scanSign (values xs)).2).1.isEmpty
    · rw [if_pos h, if_pos h]
      obtain ⟨taken, ys, ht, hys, hsign⟩ := scans_sign (done ++ [some x]) xs
      have hys : values ys = (Number.scanSign (values xs)).2 := hys
      rw [← hys] at h ⊢
      have hdigits : ¬(Number.scanDigits (values ys)).1.isEmpty := by
        intro hnone
        simp [hnone] at h
      have hread := scansDigits_consumeWhile (done ++ [some x] ++ taken) ys
      have hpair := hread.map Prod.snd (Prod.mk (Number.scanSign (values xs)).1) rfl
      have hne : (Number.scanDigits (values ys)).1 ≠ [] := by simpa using hdigits
      exact .step (reads_consume_one x done xs) (.cons x (.nil xs)) (.step hsign ht hpair hne) hne
    · rw [if_neg h, if_neg h]
      exact .none (.pure (none, []) done _) rfl

/-- After a literal with digits, a digit was consumed last. -/
theorem reads_literal (done : List (Option SourceChar)) (xs : List SourceChar) :
    ∃ taken ys, Takes xs taken ys ∧ values ys = (Number.scanLiteral (values xs)).2 ∧
      Reads literal done xs (Number.scanLiteral (values xs)).1 (done ++ taken) ys [] ∧
      ((Number.scanLiteral (values xs)).1.whole ++ (Number.scanLiteral (values xs)).1.fraction ≠ [] →
        ∃ front c, done ++ taken = front ++ [some c] ∧ isDigit c.value) := by
  obtain ⟨t₁, x₁, h₁, hx₁, hsign⟩ := scans_sign done xs
  have hx₁ : values x₁ = (Number.scanSign (values xs)).2 := hx₁
  obtain ⟨t₂, x₂, h₂, hx₂, hwhole, hwends⟩ := scansDigits_consumeWhile (done ++ t₁) x₁
  obtain ⟨t₃, x₃, h₃, hx₃, hfraction, hfends⟩ := scansDigits_fraction (done ++ t₁ ++ t₂) x₂
  obtain ⟨t₄, x₄, h₄, hx₄, hexponent, heends⟩ :=
    scansDigits_exponent (done ++ t₁ ++ t₂ ++ t₃) x₃
  rw [hx₁] at hx₂ hwhole hwends
  rw [hx₂] at hx₃ hfraction hfends
  rw [hx₃] at hx₄ hexponent heends
  have hdone : done ++ (t₁ ++ t₂ ++ t₃ ++ t₄) = done ++ t₁ ++ t₂ ++ t₃ ++ t₄ := by
    simp only [List.append_assoc]
  refine ⟨t₁ ++ t₂ ++ t₃ ++ t₄, x₄, ((h₁.trans h₂).trans h₃).trans h₄, hx₄, ?_, ?_⟩
  · rw [literal, hdone]
    exact hsign.bind (hwhole.bind (hfraction.bind (hexponent.bind (.pure _ _ x₄))))
  · -- The part read last ends in a digit; if it is empty, the part before it was read last.
    intro hdigits
    rw [hdone]
    rcases heends with ⟨-, hnone⟩ | hdigit
    · rw [hnone]
      rcases hfends with ⟨hfraction, hnone⟩ | hdigit
      · rw [hnone]
        have hwhole : (Number.scanDigits (Number.scanSign (values xs)).2).1 ≠ [] := by
          intro hwhole
          exact hdigits (by rw [show (Number.scanLiteral (values xs)).1.whole = [] from hwhole,
            show (Number.scanLiteral (values xs)).1.fraction = [] from hfraction, List.append_nil])
        exact hwends.resolve_left fun hnone => hwhole hnone.1
      · exact hdigit
    · exact hdigit

/-- A digit, or a point and a digit, come next. -/
private def StartsDigits (cs : List Char) : Prop :=
  ∃ d ds, isDigit d ∧ (cs = d :: ds ∨ cs = '.' :: d :: ds)

private theorem startsDigits_of_startsNumber {cs : List Char} (h : startsNumber cs) :
    StartsDigits (Number.scanSign cs).2 := by
  cases cs with
  | nil => cases h
  | cons c cs =>
    unfold startsNumber at h
    dsimp only at h
    by_cases hsign : c == '+' || c == '-'
    · have hrest : (Number.scanSign (c :: cs)).2 = cs := by
        rcases Bool.or_eq_true_iff.1 hsign with hc | hc
        · simp [Number.scanSign, Number.Sign.ofChar?, hc]
        · simp [Number.scanSign, Number.Sign.ofChar?, beq_iff_eq.1 hc]
      rw [if_pos hsign] at h
      rw [hrest]
      split at h
      · exact ⟨_, _, h, .inr rfl⟩
      · exact ⟨_, _, h, .inl rfl⟩
      · cases h
    · have hrest : (Number.scanSign (c :: cs)).2 = c :: cs := by
        have hnone : Number.Sign.ofChar? c = none := by
          simp only [Bool.or_eq_true, not_or, Bool.not_eq_true] at hsign
          simp [Number.Sign.ofChar?, hsign]
        simp [Number.scanSign, hnone]
      rw [if_neg hsign] at h
      rw [hrest]
      split at h
      · rename_i hpoint
        split at h
        · exact ⟨_, _, h, .inr (by rw [beq_iff_eq.1 hpoint])⟩
        · cases h
      · exact ⟨c, cs, h, .inl rfl⟩

theorem digits_ne_nil_of_startsNumber {cs : List Char} (h : startsNumber cs) :
    (Number.scanLiteral cs).1.whole ++ (Number.scanLiteral cs).1.fraction ≠ [] := by
  obtain ⟨d, ds, hd, hcs⟩ := startsDigits_of_startsNumber h
  show (Number.scanDigits (Number.scanSign cs).2).1 ++
    (Number.scanFraction (Number.scanDigits (Number.scanSign cs).2).2).1 ≠ []
  rcases hcs with hcs | hcs
  · rw [hcs]
    exact List.append_ne_nil_of_left_ne_nil (scanDigits_ne_nil hd ds) _
  · rw [hcs]
    have hnone : Number.scanDigits ('.' :: d :: ds) = ([], '.' :: d :: ds) := rfl
    have hfraction : Number.scanFraction ('.' :: d :: ds) = Number.scanDigits (d :: ds) := if_pos hd
    rw [hnone, hfraction]
    exact scanDigits_ne_nil hd ds

private theorem scanExponent_ne_nil {cs : List Char} (h : (Number.scanExponent cs).1.isSome) :
    (Number.scanExponent cs).2.1 ≠ [] := by
  cases cs with
  | nil => cases h
  | cons e cs =>
    revert h
    simp only [Number.scanExponent]
    split
    · rename_i hexponent
      intro _ hnone
      rw [show (Number.scanDigits (Number.scanSign cs).2).1 = [] from hnone] at hexponent
      simp at hexponent
    · exact fun h => Bool.noConfusion h

theorem exponent_ne_nil_of_sign {cs : List Char}
    (h : (Number.scanLiteral cs).1.exponentSign.isSome) :
    (Number.scanLiteral cs).1.exponent ≠ [] :=
  scanExponent_ne_nil h

private theorem hasDigits_scanLiteral {cs : List Char} (h : startsNumber cs) :
    ((Number.scanLiteral cs).1.whole.isEmpty && (Number.scanLiteral cs).1.fraction.isEmpty ||
      (Number.scanLiteral cs).1.exponentSign.isSome &&
        (Number.scanLiteral cs).1.exponent.isEmpty) = false := by
  have hdigits := digits_ne_nil_of_startsNumber h
  have hexponent : _ → (Number.scanLiteral cs).1.exponent ≠ [] := exponent_ne_nil_of_sign
  generalize (Number.scanLiteral cs).1 = l at hdigits hexponent
  rw [Bool.or_eq_false_iff]
  constructor
  · rw [← Bool.not_eq_true, Bool.and_eq_true, List.isEmpty_iff, List.isEmpty_iff]
    exact fun hnone => hdigits (by rw [hnone.1, hnone.2, List.append_nil])
  · cases hsign : l.exponentSign with
    | none => rfl
    | some s =>
      rw [← Bool.not_eq_true, Option.isSome_some, Bool.true_and, List.isEmpty_iff]
      exact hexponent (by rw [hsign]; rfl)

/-- A number ends in a digit. -/
theorem reads_number (done : List (Option SourceChar)) {v : Number.Value}
    (h : startsNumber (values xs)) (hv : (Number.scanLiteral (values xs)).1.value = .ok v) :
    ∃ taken ys front c, Takes xs taken ys ∧ values ys = (Number.scanLiteral (values xs)).2 ∧
      Reads number done xs ((Number.scanLiteral (values xs)).1, v) (done ++ taken) ys [] ∧
      done ++ taken = front ++ [some c] ∧ isDigit c.value := by
  obtain ⟨taken, ys, ht, hys, hreads, hends⟩ := reads_literal done xs
  obtain ⟨front, c, hdone, hc⟩ := hends (digits_ne_nil_of_startsNumber h)
  refine ⟨taken, ys, front, c, ht, hys, hreads.bind ?_, hdone, hc⟩
  rw [if_neg (by rw [hasDigits_scanLiteral h]; exact Bool.false_ne_true), hv]
  exact .pure _ _ ys

theorem breaks_number (done : List (Option SourceChar)) {e : Number.RangeError}
    (h : startsNumber (values xs)) (he : (Number.scanLiteral (values xs)).1.value = .error e) :
    Breaks number done xs (.range e) := by
  obtain ⟨taken, ys, -, -, hreads, -⟩ := reads_literal done xs
  apply Breaks.after hreads
  rw [if_neg (by rw [hasDigits_scanLiteral h]; exact Bool.false_ne_true), he]
  exact fun s _ => rfl

/-! ## Whether an escape or a name comes next -/

private theorem startsEscape_take (k : Nat) (cs : List Char) :
    startsEscape (cs.take (k + 2)) = startsEscape cs := by
  cases cs with
  | nil => rfl
  | cons c cs =>
    by_cases hc : c = '\\'
    · subst hc
      exact escapes_take k cs
    · simp [startsEscape, hc]

/-- After a character that starts no escape, whether an escape comes next depends on what is ahead. -/
theorem looks_isEscape_next {c : SourceChar} (hc : c.value ≠ '\\') (done : List (Option SourceChar))
    (xs : List SourceChar) : Looks (isEscape ((values (xs.take 3)).take 2)) (done ++ [some c]) xs
      (startsEscape (values xs)) := by
  cases xs with
  | nil =>
    have hnone := looks_isEscape_nil c done []
    rw [beq_eq_false_iff_ne.2 hc] at hnone
    exact hnone
  | cons x xs =>
    rw [← startsEscape_take 0, values, ← List.map_take, ← List.map_take, List.take_take]
    exact looks_isEscape (List.cons_ne_nil x.value _) _ _

private theorem startsIdent_take (cs : List Char) : startsIdent (cs.take 3) = startsIdent cs := by
  match cs with
  | [] | [_] | [_, _] => rfl
  | c :: d :: e :: cs =>
    by_cases hc : c = '-'
    · subst hc
      by_cases hd : d = '-'
      · subst hd
        rfl
      · have hescape := startsEscape_take 0 (d :: e :: cs)
        simp only [List.take] at hescape
        simp [startsIdent, hescape]
    · by_cases hc' : c = '\\'
      · subst hc'
        exact escapes_take 1 (d :: e :: cs)
      · simp [startsIdent, hc]

/-- After anything but a backslash, whether a name comes next depends on what is asked about. -/
private theorem looks_isName {c : SourceChar} {cs cs' : List Char} (hc : c.value ≠ '\\')
    (hr : Looks (orAhead 2 cs) (done ++ [some c]) xs cs') :
    Looks (isName cs) (done ++ [some c]) xs (startsIdent cs') := by
  rw [isName]
  apply hr.look
  split
  · rename_i cs
    cases cs with
    | nil =>
      have hnone := looks_isEscape_nil c done xs
      rw [beq_eq_false_iff_ne.2 hc] at hnone
      exact hnone
    | cons d ds =>
      show Looks (if isIdentStart d || d == '-' then _ else _) _ _ _
      rw [startsIdent_minus]
      by_cases hd : isIdentStart d || d == '-'
      · rw [if_pos hd, hd]
        exact .pure true _ xs
      · rw [if_neg hd, Bool.eq_false_iff.2 hd, Bool.false_or, ← startsEscape_take 0]
        exact looks_isEscape (List.cons_ne_nil d _) _ xs
  · rename_i cs
    rw [show startsIdent ('\\' :: cs) = escapes cs from rfl, ← escapes_take 0]
    exact looks_isEscape (List.cons_ne_nil '\\' _) _ xs
  · rename_i d cs hminus hbackslash
    rw [startsIdent_of_ne cs hminus hbackslash]
    exact .pure _ _ xs
  · exact .pure false _ xs

theorem looks_isName_nil {c : SourceChar} (hc : c.value ≠ '\\') (done : List (Option SourceChar))
    (xs : List SourceChar) :
    Looks (isName []) (done ++ [some c]) xs (startsIdent (c.value :: values xs)) := by
  have hahead := looks_ahead 2 (some c) done xs
  have htake := startsIdent_take (c.value :: values xs)
  rw [← htake, List.take_succ_cons, values, ← List.map_take]
  exact looks_isName hc hahead

/-- After a character that starts no name, whether a name comes next depends on what is ahead. -/
theorem looks_isName_next {c : SourceChar} (hc : startsIdent [c.value] = false)
    (done : List (Option SourceChar)) (xs : List SourceChar) :
    Looks (isName (values (xs.take 3))) (done ++ [some c]) xs (startsIdent (values xs)) := by
  have hbackslash : c.value ≠ '\\' := by
    intro h
    rw [h] at hc
    cases hc
  cases xs with
  | nil =>
    have hend := looks_isName_nil hbackslash done []
    rw [show values [] = [] from rfl, hc] at hend
    exact hend
  | cons x xs =>
    rw [← startsIdent_take, values, ← List.map_take]
    exact looks_isName hbackslash (.pure _ _ _)

/-! ## Lexemes -/

/-- The reader forms the token of what was scanned, or breaks off if its literal has no value. -/
def FormsLexeme (r : CharReader Token) (done : List (Option SourceChar)) (xs : List SourceChar)
    (s : Scan Lexeme) : Prop :=
  match s.value.kind with
  | .ok kind => Forms r done xs ⟨kind, s.rest, s.notes⟩
  | .error e => Breaks r done xs (.range e)

private theorem kind_scanNumeric_eq_error {cs : List Char} {e : Number.RangeError}
    (h : (Number.scanLiteral cs).1.value = .error e) : (scanNumeric cs).value.kind = .error e := by
  simp only [scanNumeric]
  split
  · simp only [Lexeme.kind, h]
    rfl
  · split <;> simp only [Lexeme.kind, h] <;> rfl

private theorem startsIdent_of_isDigit {c : Char} (h : isDigit c) : startsIdent [c] = false := by
  have hc : 0x30 ≤ c.toNat ∧ c.toNat ≤ 0x39 := by
    simpa [isDigit, CodePoint.isDigit] using h
  have hminus : c ≠ '-' := by
    intro heq
    subst heq
    exact absurd hc (by decide)
  have hbackslash : c ≠ '\\' := by
    intro heq
    subst heq
    exact absurd hc (by decide)
  rw [startsIdent_of_ne [] hminus hbackslash]
  simp [isIdentStart, CodePoint.isIdentStart, CodePoint.isLetter, CodePoint.isNonAsciiIdent]
  omega

theorem formsLexeme_numeric (done : List (Option SourceChar)) (h : startsNumber (values xs)) :
    FormsLexeme numeric done xs (scanNumeric (values xs)) := by
  cases hv : (Number.scanLiteral (values xs)).1.value with
  | error e =>
    rw [FormsLexeme, kind_scanNumeric_eq_error hv]
    exact (breaks_number done h hv).bind
  | ok v =>
    obtain ⟨taken, ys, front, c, ht, hys, hnumber, hdone, hc⟩ := reads_number done h hv
    have hname := looks_isName_next (startsIdent_of_isDigit hc) front ys
    have hnext := looks_next 3 (done ++ taken) ys
    rw [← hdone] at hname
    unfold scanNumeric
    dsimp only
    rw [← hys]
    by_cases hident : startsIdent (values ys)
    · rw [if_pos hident]
      simp only [FormsLexeme, Lexeme.kind, hv]
      rw [hident] at hname
      refine .step hnumber ht (.look hnext (.look hname ?_))
      exact (scans_name _ ys).token _
    · rw [if_neg hident]
      rw [Bool.eq_false_iff.2 hident] at hname
      have hfollow : Looks (next 1) (done ++ taken) ys (values (ys.take 1)) := looks_next 1 _ ys
      cases ys with
      | nil =>
        show FormsLexeme _ _ _ ⟨.number (Number.scanLiteral (values xs)).1, [], []⟩
        simp only [FormsLexeme, Lexeme.kind, hv]
        refine .step hnumber ht (.look hnext (.look hname (.look hfollow ?_)))
        exact forms_token _ _ []
      | cons y ys =>
        by_cases hy : y.value = '%'
        · rw [values_cons, hy]
          simp only [FormsLexeme, Lexeme.kind, hv]
          refine .step hnumber ht (.look hnext (.look hname (.look hfollow ?_)))
          rw [if_pos (by simp [hy])]
          exact .step (reads_consume_one y _ ys) (.cons y (.nil ys)) (forms_token _ _ ys)
        · rw [values_cons]
          split
          · rename_i hcons
            exact absurd (List.cons.inj hcons).1 hy
          · simp only [FormsLexeme, Lexeme.kind, hv]
            refine .step hnumber ht (.look hnext (.look hname (.look hfollow ?_)))
            rw [if_neg (by simpa using hy)]
            exact forms_token _ _ (y :: ys)

theorem FormsLexeme.look {s : Scan Lexeme} {f : α → CharReader Token} (hr : Looks r done xs a)
    (hf : FormsLexeme (f a) done xs s) : FormsLexeme (r >>= f) done xs s := by
  unfold FormsLexeme at hf ⊢
  split at hf
  · exact ScansInto.look hr hf
  · exact .after hr hf

/-- A character put back is taken again by what takes a character at least. -/
theorem ScansInto.back {γ : Type} {g : List (Option SourceChar) → γ → β} {r : CharReader β}
    {t : Scan γ} {x : SourceChar} (h : ScansInto g r [] (x :: xs) t)
    (hlen : t.rest.length ≤ xs.length) :
    ScansInto g (reconsume (some x) >>= fun _ => r) [some x] xs t := by
  rcases h with ⟨taken, ys, ht, hys, hreads⟩
  have hle : ys.length ≤ xs.length := by
    rw [← hys, List.length_map] at hlen
    exact hlen
  cases ht with
  | nil => exact absurd hle (Nat.not_succ_le_self xs.length)
  | cons _ ht => exact ⟨_, ys, ht, hys, (reads_reconsume (some x) [] xs).bind hreads⟩

theorem FormsLexeme.back {r : CharReader Token} {s : Scan Lexeme} {x : SourceChar}
    (h : FormsLexeme r [] (x :: xs) s) (hlen : s.rest.length ≤ xs.length) :
    FormsLexeme (reconsume (some x) >>= fun _ => r) [some x] xs s := by
  unfold FormsLexeme at h ⊢
  cases hkind : s.value.kind with
  | ok kind =>
    rw [hkind] at h
    exact h.back hlen
  | error e =>
    rw [hkind] at h
    exact .after (reads_reconsume (some x) [] xs) h

end CharReader

end Styling
