import Styling.Grammar.StreamReader
import Styling.Proofs.Grammar.Answers
import Styling.Proofs.Grammar.Elements
import Styling.Proofs.Token.Stream

/-!
# Reading from a stream is atomic and exact

Reading by a production from a token stream gives what the production takes from the tokens ahead, moves the
index past these and leaves the marks as they were; if it takes nothing, the index stays as well
(`GrammarReader.parses_parse`). It ends if no repetition without an upper bound can go on without taking a
token (`GrammarReader.IsProgressive`).
-/

namespace Styling.GrammarReader

open TokenStream (Behind behind_self)

variable {α β : Type} {ts : List Token} {e : Option Number.RangeError} {i m : Nat} {marks : List Nat}
  {s : TokenStream}

/-! ## Runs that end -/

/-- A run ends, and what it comes to has the property, or the source of the stream fails. -/
def Ends (e : Option Number.RangeError) (post : α → TokenStream → Prop) :
    ExceptT GrammarFault Option (α × TokenStream) → Prop
  | none => False
  | some (.error fault) => ∃ error, e = some error ∧ fault = .stream (.range error)
  | some (.ok (a, s)) => post a s

theorem ends_pure {post : α → TokenStream → Prop} {a : α} (h : post a s) :
    Ends e post ((pure a : GrammarReader α) s) := h

theorem Ends.bind {r : GrammarReader α} {f : α → GrammarReader β} {post : α → TokenStream → Prop}
    {post' : β → TokenStream → Prop} (hr : Ends e post (r s))
    (hf : ∀ a s', post a s' → Ends e post' (f a s')) : Ends e post' ((r >>= f) s) := by
  show Ends e post' (r s >>= fun (a, s') => f a s')
  rcases hrun : r s with _ | fault | ⟨a, s'⟩
  · rw [hrun] at hr
    exact hr.elim
  · rw [hrun] at hr
    exact hr
  · rw [hrun] at hr
    exact hf a s' hr

theorem Ends.mono {post post' : α → TokenStream → Prop}
    {o : ExceptT GrammarFault Option (α × TokenStream)} (h : Ends e post o)
    (himp : ∀ a s', post a s' → post' a s') : Ends e post' o := by
  rcases o with _ | fault | ⟨a, s'⟩
  · exact h
  · exact h
  · exact himp a s' h

theorem ends_consume (h : s.IsAt ts e i marks) :
    Ends e (fun t s' => t = ts[i]? ∧ s'.IsAt ts e (i + 1) marks) (consume s) := by
  rcases h.consume with ⟨s', hrun, hs'⟩ | ⟨error, s', he, hrun⟩
  · rw [consume, hrun]
    exact ⟨rfl, hs'⟩
  · rw [consume, hrun]
    exact ⟨error, he, rfl⟩

theorem ends_mark (h : s.IsAt ts e i marks) :
    Ends e (fun _ s' => s'.IsAt ts e i (i :: marks)) (mark s) := h.mark

theorem ends_restoreMark (h : s.IsAt ts e i (m :: marks)) (hle : m ≤ i) :
    Ends e (fun _ s' => s'.IsAt ts e m marks) (restoreMark s) := by
  obtain ⟨s', hrun, hs'⟩ := h.restoreMark? hle
  rw [restoreMark, ofStream, StreamReader.restoreMark, hrun]
  exact hs'

theorem ends_discardMark (h : s.IsAt ts e i (m :: marks)) :
    Ends e (fun _ s' => s'.IsAt ts e i marks) (discardMark s) := by
  obtain ⟨s', hrun, hs'⟩ := h.discardMark?
  rw [discardMark, ofStream, StreamReader.discardMark, hrun]
  exact hs'

/-! ## Readers that find what is taken -/

/-- The reader finds what `f` takes from the tokens ahead, moves past this and leaves the marks as they
were. Where nothing is found, it may have moved on. -/
def Finds (r : GrammarReader (Option α)) (f : Taking α) : Prop :=
  ∀ ts e i marks s, s.IsAt ts e i marks → Ends e (fun found s' => match f (ts.drop i) with
    | some (a, us) => found = some a ∧ Behind ts e i marks us s'
    | none => found = none ∧ ∃ n, s'.IsAt ts e (i + n) marks) (r s)

/-- The same, and where nothing is found, the stream is where it was. -/
def Parses (r : GrammarReader (Option α)) (f : Taking α) : Prop :=
  ∀ ts e i marks s, s.IsAt ts e i marks → Ends e (fun found s' => match f (ts.drop i) with
    | some (a, us) => found = some a ∧ Behind ts e i marks us s'
    | none => found = none ∧ s'.IsAt ts e i marks) (r s)

variable {r : GrammarReader (Option α)} {f : Taking α}

theorem Parses.finds (h : Parses r f) : Finds r f := by
  intro ts e i marks s hs
  refine (h ts e i marks s hs).mono fun found s' hfound => ?_
  cases hf : f (ts.drop i) with
  | none =>
    rw [hf] at hfound
    exact ⟨hfound.1, 0, hfound.2⟩
  | some taken =>
    rw [hf] at hfound
    exact hfound

theorem Finds.bind {next : Option α → GrammarReader β} {post : β → TokenStream → Prop}
    (h : Finds r f) (hs : s.IsAt ts e i marks)
    (none : f (ts.drop i) = none → ∀ n s', s'.IsAt ts e (i + n) marks → Ends e post (next none s'))
    (some : ∀ a us s', f (ts.drop i) = some (a, us) → Behind ts e i marks us s' →
      Ends e post (next (some a) s')) : Ends e post ((r >>= next) s) := by
  apply (h ts e i marks s hs).bind
  intro found s' hfound
  cases hf : f (ts.drop i) with
  | none =>
    rw [hf] at hfound
    obtain ⟨rfl, n, hs'⟩ := hfound
    exact none hf n s' hs'
  | some taken =>
    rw [hf] at hfound
    obtain ⟨rfl, hbehind⟩ := hfound
    exact some taken.1 taken.2 s' hf hbehind

theorem Parses.bind {next : Option α → GrammarReader β} {post : β → TokenStream → Prop}
    (h : Parses r f) (hs : s.IsAt ts e i marks)
    (none : f (ts.drop i) = none → ∀ s', s'.IsAt ts e i marks → Ends e post (next none s'))
    (some : ∀ a us s', f (ts.drop i) = some (a, us) → Behind ts e i marks us s' →
      Ends e post (next (some a) s')) : Ends e post ((r >>= next) s) := by
  apply (h ts e i marks s hs).bind
  intro found s' hfound
  cases hf : f (ts.drop i) with
  | none =>
    rw [hf] at hfound
    obtain ⟨rfl, hs'⟩ := hfound
    exact none hf s' hs'
  | some taken =>
    rw [hf] at hfound
    obtain ⟨rfl, hbehind⟩ := hfound
    exact some taken.1 taken.2 s' hf hbehind

/-- What was found stays found when the mark is dropped, and going back to it undoes what was read in
vain. -/
theorem Finds.attempt (h : Finds r f) : Parses (attempt r) f := by
  intro ts e i marks s hs
  apply (ends_mark hs).bind
  intro _ s₁ hs₁
  apply h.bind hs₁
  case none =>
    intro hf n s₂ hs₂
    apply (ends_restoreMark hs₂ (Nat.le_add_right i n)).bind
    intro _ s₃ hs₃
    rw [hf]
    exact ends_pure ⟨rfl, hs₃⟩
  case some =>
    rintro a us s₂ hf ⟨n, hn, hdrop, hs₂⟩
    apply (ends_discardMark hs₂).bind
    intro _ s₃ hs₃
    rw [hf]
    exact ends_pure ⟨rfl, n, hn, hdrop, hs₃⟩

theorem parses_tokenIf (p : Token → Bool) : Parses (tokenIf p) (.tokenIf p) := by
  apply Finds.attempt
  intro ts e i marks s hs
  apply (ends_consume hs).bind
  rintro t s₁ ⟨rfl, hs₁⟩
  rw [← List.head?_drop]
  cases hd : ts.drop i with
  | nil => exact ends_pure ⟨rfl, 1, hs₁⟩
  | cons t us =>
    have hus : ts.drop (i + 1) = us := by rw [← List.tail_drop, hd, List.tail_cons]
    by_cases hp : p t
    · simp only [List.head?_cons, Taking.tokenIf, if_pos hp]
      exact ends_pure ⟨rfl, 1, by rw [hd, List.length_cons, Nat.add_comm], hus, hs₁⟩
    · simp only [List.head?_cons, Taking.tokenIf, if_neg hp]
      exact ends_pure ⟨rfl, 1, hs₁⟩

/-! ## Repetition -/

/-- Whether a separator is what is read between two elements; without one, nothing is. -/
def ParsesBetween : Option (GrammarReader (Option Product)) → Taking (List Product) → Prop
  | none, between => between = .accept []
  | some r, between => ∃ f, Parses r f ∧ between = f.andThen fun p => .accept [p]

section Repetition

variable {element : GrammarReader (Option Product)}
  {separator : Option (GrammarReader (Option Product))} {f : Taking Product}
  {between : Taking (List Product)}

private theorem repetition_of_alone {first : Bool} (h : first = true ∨ between = .accept [])
    (us : List Token) :
    Taking.repetition f between first us = (f us).map fun (p, vs) => ([p], vs) := by
  cases first with
  | true =>
    rw [Taking.repetition, if_pos rfl, Taking.andThen]
    cases f us <;> rfl
  | false =>
    obtain rfl : between = .accept [] := by simpa using h
    show (f us).bind _ = _
    cases f us <;> rfl

private theorem repetition_of_between {g : Taking Product} {first : Bool} (h : first = false)
    (us : List Token) :
    Taking.repetition f (g.andThen fun p => .accept [p]) first us =
      (g us).bind fun (q, vs) => (f vs).map fun (p, ws) => ([q, p], ws) := by
  subst h
  show ((g us).bind _).bind _ = _
  cases g us with
  | none => rfl
  | some taken =>
    rcases taken with ⟨q, vs⟩
    show (f vs).bind _ = (f vs).map _
    cases f vs <;> rfl

/-- What going on with a repetition from `i` comes to, if there are `parts` of `count` elements already and
at most `limit` repetitions to come. -/
def RepeatsFrom (f : Taking Product) (between : Taking (List Product)) (ts : List Token)
    (e : Option Number.RangeError) (marks : List Nat) (i limit count : Nat) (parts : List Product)
    (result : Repeated) (s : TokenStream) : Prop :=
  let taken := Taking.repeated f between limit (count == 0) (ts.drop i)
  result = ⟨parts ++ taken.1.1, count + taken.1.2⟩ ∧ Behind ts e i marks taken.2 s

private theorem repeatsFrom_zero (count : Nat) (parts : List Product) (h : s.IsAt ts e i marks) :
    RepeatsFrom f between ts e marks i 0 count parts ⟨parts, count⟩ s :=
  ⟨by simp [Taking.repeated], behind_self h⟩

private theorem repeatsFrom_stop {count : Nat} (limit : Nat) (parts : List Product)
    (hstep : Taking.repetition f between (count == 0) (ts.drop i) = none) (h : s.IsAt ts e i marks) :
    RepeatsFrom f between ts e marks i (limit + 1) count parts ⟨parts, count⟩ s := by
  simp only [RepeatsFrom, Taking.repeated, hstep]
  exact ⟨by simp, behind_self h⟩

private theorem repeatsFrom_next {limit count : Nat} {parts ps : List Product} {us : List Token}
    {r : GrammarReader Repeated}
    (hstep : Taking.repetition f between (count == 0) (ts.drop i) = some (ps, us))
    (hbehind : Behind ts e i marks us s)
    (hnext : ∀ j, ts.drop j = us → s.IsAt ts e j marks →
      Ends e (RepeatsFrom f between ts e marks j limit (count + 1) (parts ++ ps)) (r s)) :
    Ends e (RepeatsFrom f between ts e marks i (limit + 1) count parts) (r s) := by
  obtain ⟨n, hn, hdrop, hs⟩ := hbehind
  refine (hnext (i + n) hdrop hs).mono fun result s' hresult => ?_
  obtain ⟨hresult, hrest⟩ := hresult
  have hlater : (count + 1 == 0) = false := rfl
  have hrest := hrest.trans hn hdrop
  simp only [hdrop, hlater] at hresult hrest
  simp only [RepeatsFrom, Taking.repeated, hstep]
  refine ⟨?_, hrest⟩
  rw [hresult, List.append_assoc, Nat.add_assoc, Nat.add_comm 1]

/-- Going on with a repetition comes to as many further repetitions as are permitted, or, where there is no
upper bound, as there are, since each but the first takes a token. -/
theorem ends_extend (helement : Parses element f) (hseparator : ParsesBetween separator between)
    (most : Option Nat) (limit count : Nat) (parts : List Product)
    (hmost : ∀ k ∈ most, limit = k - count)
    (hlimit : most = none → Taking.IsProgressive f between ∧
      (ts.drop i).length + (count == 0).toNat < limit)
    (hs : s.IsAt ts e i marks) :
    Ends e (RepeatsFrom f between ts e marks i limit count parts)
      ((Repeated.mk parts count).extend element separator most s) := by
  induction limit generalizing count parts i s with
  | zero =>
    have hdone : ¬most.all (count < ·) := by
      cases most with
      | none => exact absurd (hlimit rfl).2 (Nat.not_lt_zero _)
      | some k => simpa using Nat.sub_eq_zero_iff_le.1 (hmost k rfl).symm
    rw [Repeated.extend, if_neg hdone]
    exact ends_pure (repeatsFrom_zero count parts hs)
  | succ limit ih =>
    have hmore : most.all (count < ·) := by
      cases most with
      | none => rfl
      | some k =>
        have hk := hmost k rfl
        simp only [Option.all_some, decide_eq_true_eq]
        omega
    have honward : ∀ {ps us s₁}, Taking.repetition f between (count == 0) (ts.drop i) = some (ps, us) →
        Behind ts e i marks us s₁ → Ends e (RepeatsFrom f between ts e marks i (limit + 1) count parts)
          ((Repeated.mk (parts ++ ps) (count + 1)).extend element separator most s₁) := by
      intro ps us s₁ hstep hbehind
      refine repeatsFrom_next hstep hbehind fun j hj hs₁ => ?_
      apply ih (count + 1) (parts ++ ps) ?_ ?_ hs₁
      · intro k hk
        have := hmost k hk
        omega
      · intro hnone
        obtain ⟨hprogressive, hlength⟩ := hlimit hnone
        rw [hj]
        exact ⟨hprogressive, Taking.length_lt_of_step hprogressive hlength hstep⟩
    rw [Repeated.extend, if_pos hmore]
    by_cases halone : count = 0 ∨ separator = none
    · have hnone : (if count = 0 then none else separator) = none := by
        rcases halone with h | h <;> simp [h]
      have hstep : Taking.repetition f between (count == 0) (ts.drop i) =
          (f (ts.drop i)).map fun (p, vs) => ([p], vs) := by
        apply repetition_of_alone
        rcases halone with h | rfl
        · exact .inl (by simp [h])
        · exact .inr hseparator
      simp only [hnone]
      apply helement.bind hs
      case none =>
        intro hf s₁ hs₁
        rw [hf] at hstep
        exact ends_pure (repeatsFrom_stop limit parts hstep hs₁)
      case some =>
        intro p us s₁ hf hbehind
        rw [hf] at hstep
        exact honward hstep hbehind
    · obtain ⟨hcount, hsome⟩ := not_or.1 halone
      cases separator with
      | none => exact absurd rfl hsome
      | some separate =>
        obtain ⟨g, hseparate, rfl⟩ := hseparator
        have hstep : Taking.repetition f (g.andThen fun p => .accept [p]) (count == 0) (ts.drop i) =
            (g (ts.drop i)).bind fun (q, us) => (f us).map fun (p, vs) => ([q, p], vs) :=
          repetition_of_between (by simpa using hcount) _
        simp only [if_neg hcount]
        apply (ends_mark hs).bind
        intro _ s₁ hs₁
        apply hseparate.bind hs₁
        case none =>
          intro hg s₂ hs₂
          rw [hg] at hstep
          apply (ends_restoreMark hs₂ (Nat.le_refl i)).bind
          intro _ s₃ hs₃
          exact ends_pure (repeatsFrom_stop limit parts hstep hs₃)
        case some =>
          rintro q us s₂ hg ⟨n, hn, rfl, hs₂⟩
          simp only [hg, Option.bind_some] at hstep
          apply helement.bind hs₂
          case none =>
            intro hf s₃ hs₃
            rw [hf] at hstep
            apply (ends_restoreMark hs₃ (Nat.le_add_right i n)).bind
            intro _ s₄ hs₄
            exact ends_pure (repeatsFrom_stop limit parts hstep hs₄)
          case some =>
            intro p vs s₃ hf hbehind
            rw [hf] at hstep
            obtain ⟨n', hn', hdrop', hs₃⟩ := hbehind.trans hn rfl
            apply (ends_discardMark hs₃).bind
            intro _ s₄ hs₄
            exact honward hstep ⟨n', hn', hdrop', hs₄⟩

theorem parses_repetition (helement : Parses element f) (hseparator : ParsesBetween separator between)
    (least : Nat) (most : Option Nat) (hprogressive : most = none → Taking.IsProgressive f between) :
    Parses (repetition element separator least most) (.ofRepetition f between least most) := by
  apply Finds.attempt
  intro ts e i marks s hs
  have hmost : ∀ k ∈ most, most.getD ((ts.drop i).length + 2) = k - 0 := by
    rintro k ⟨⟩
    rfl
  have hlimit : most = none → Taking.IsProgressive f between ∧
      (ts.drop i).length + (0 == 0).toNat < most.getD ((ts.drop i).length + 2) := by
    rintro rfl
    exact ⟨hprogressive rfl, Nat.lt_succ_self _⟩
  apply (ends_extend helement hseparator most _ 0 [] hmost hlimit hs).bind
  rintro _ s₁ ⟨rfl, n, hn, hdrop, hs₁⟩
  have hcount : (0 == 0) = true := rfl
  simp only [hcount, List.nil_append, Nat.zero_add] at hn hdrop ⊢
  simp only [Taking.ofRepetition]
  by_cases hleast : least ≤
      (Taking.repeated f between (most.getD ((ts.drop i).length + 2)) true (ts.drop i)).1.2
  · rw [if_pos hleast, if_pos hleast]
    exact ends_pure ⟨rfl, n, hn, hdrop, hs₁⟩
  · rw [if_neg hleast, if_neg hleast]
    exact ends_pure ⟨rfl, n, hs₁⟩

end Repetition

/-! ## Any value -/

theorem takeAnyValue_cons (counts : BracketCounts) (t : Token) (us : List Token) :
    takeAnyValue counts (t :: us) = match counts.after? t.kind with
      | some counts => t :: takeAnyValue counts us
      | none => [] := by
  rw [takeAnyValue]
  cases t.kind with
  | closing b =>
    simp only [BracketCounts.after?]
    by_cases hb : counts.get b = 0
    · rw [if_pos hb, if_pos hb]
    · rw [if_neg hb, if_neg hb]
  | _ => rfl

theorem ends_valueFrom (counts : BracketCounts) (tokens : List Token) (hs : s.IsAt ts e i marks) :
    Ends e (fun result s' => result = tokens ++ takeAnyValue counts (ts.drop i) ∧
      s'.IsAt ts e (i + (takeAnyValue counts (ts.drop i)).length) marks)
      (counts.valueFrom tokens s) := by
  generalize hus : ts.drop i = us
  induction us generalizing counts tokens i s with
  | nil =>
    have hend : ts[i]? = none := by rw [← List.head?_drop, hus, List.head?_nil]
    rw [BracketCounts.valueFrom]
    apply (ends_mark hs).bind
    intro _ s₁ hs₁
    apply (ends_consume hs₁).bind
    rintro t s₂ ⟨rfl, hs₂⟩
    rw [hend]
    apply (ends_restoreMark hs₂ (Nat.le_succ i)).bind
    intro _ s₃ hs₃
    exact ends_pure ⟨by simp [takeAnyValue], hs₃⟩
  | cons t us ih =>
    have hnext : ts[i]? = some t := by rw [← List.head?_drop, hus, List.head?_cons]
    rw [BracketCounts.valueFrom]
    apply (ends_mark hs).bind
    intro _ s₁ hs₁
    apply (ends_consume hs₁).bind
    rintro _ s₂ ⟨rfl, hs₂⟩
    simp only [hnext, takeAnyValue_cons]
    cases counts.after? t.kind with
    | none =>
      apply (ends_restoreMark hs₂ (Nat.le_succ i)).bind
      intro _ s₃ hs₃
      exact ends_pure ⟨by simp, hs₃⟩
    | some counts =>
      apply (ends_discardMark hs₂).bind
      intro _ s₃ hs₃
      have hrest : ts.drop (i + 1) = us := by rw [← List.tail_drop, hus, List.tail_cons]
      refine (ih counts (tokens ++ [t]) hs₃ hrest).mono fun result s' hresult => ?_
      obtain ⟨rfl, hs'⟩ := hresult
      refine ⟨by simp, ?_⟩
      rw [List.length_cons, Nat.add_comm _ 1, ← Nat.add_assoc]
      exact hs'

theorem parses_anyValue : Parses anyValue .anyValue := by
  intro ts e i marks s hs
  apply (ends_valueFrom .zero [] hs).bind
  rintro _ s₁ ⟨rfl, hs₁⟩
  simp only [List.nil_append, Taking.anyValue]
  by_cases hnil : (takeAnyValue .zero (ts.drop i)).isEmpty
  · rw [if_pos hnil, if_pos hnil]
    rw [List.isEmpty_iff.1 hnil] at hs₁
    exact ends_pure ⟨rfl, hs₁⟩
  · rw [if_neg hnil, if_neg hnil]
    have hprefix := List.prefix_iff_eq_append.1 (takeAnyValue_isPrefix .zero (ts.drop i))
    refine ends_pure ⟨rfl, _, ?_, List.drop_drop.symm, hs₁⟩
    rw [← List.length_append, hprefix]

/-! ## Productions -/

/-- A reader that finds nothing without consuming a token. -/
def Consumes (r : GrammarReader (Option Product)) : Prop :=
  ∀ ts s q s', s.IsOver ts → r s = some (.ok (some q, s')) → s.index < s'.index

mutual

/-- Whether every repetition in the production that has no upper bound has an element or a separator that
is not read without consuming a token. -/
def Advances : Production → Prop
  | .token _ | .anyValue | .bare => True
  | .alternatives elements | .juxtaposition elements => AllAdvance elements
  | .nonEmpty element | .reference element => Advances element
  | .repetition element _ most => Advances element ∧ (most = none → Consumes (parse element))
  | .separated element separator _ most => Advances element ∧ Advances separator ∧
      (most = none → Consumes (parse element) ∨ Consumes (parse separator))

def AllAdvance : List Production → Prop
  | [] => True
  | p :: ps => Advances p ∧ AllAdvance ps

end

/-- A run on a stream over tokens, from where it stands. -/
theorem Parses.cases {r : GrammarReader (Option α)} {f : Taking α} (h : Parses r f) (hs : s.IsOver ts) :
    (∃ a us n s', r s = some (.ok (some a, s')) ∧ f (ts.drop s.index) = some (a, us) ∧
      n + us.length = (ts.drop s.index).length ∧ s'.IsAt ts s.failure (s.index + n) s.marks) ∨
    (∃ s', r s = some (.ok (none, s')) ∧ f (ts.drop s.index) = none ∧
      s'.IsAt ts s.failure s.index s.marks) ∨
    ∃ error, r s = some (.error (.stream (.range error))) ∧ s.failure = some error := by
  have hrun := h ts _ _ _ s hs.isAt
  rcases hstep : r s with _ | fault | ⟨found, s'⟩
  · rw [hstep] at hrun
    exact hrun.elim
  · rw [hstep] at hrun
    obtain ⟨error, hfailure, rfl⟩ := hrun
    exact .inr (.inr ⟨error, rfl, hfailure⟩)
  · rw [hstep] at hrun
    simp only [Ends] at hrun
    cases hf : f (ts.drop s.index) with
    | none =>
      rw [hf] at hrun
      obtain ⟨rfl, hs'⟩ := hrun
      exact .inr (.inl ⟨s', rfl, rfl, hs'⟩)
    | some taken =>
      rw [hf] at hrun
      obtain ⟨rfl, n, hn, -, hs'⟩ := hrun
      exact .inl ⟨taken.1, taken.2, n, s', rfl, rfl, hn, hs'⟩

/-- A reader consumes a token if what it finds is taken from the front of the tokens. -/
theorem Parses.consumes_iff {r : GrammarReader (Option Product)} {f : Taking Product}
    (h : Parses r f) :
    Consumes r ↔ ∀ ts q us, f ts = some (q, us) → us.length < ts.length := by
  constructor
  · intro hr ts q us hf
    have hs := TokenStream.isOver_ofList ts
    have hstart : ts.drop (TokenStream.ofList ts).index = ts := rfl
    rcases h.cases hs with ⟨a, vs, n, s', hrun, hf', hn, hs'⟩ | ⟨s', -, hnone, -⟩ | ⟨error, -, ⟨⟩⟩
    · cases hf.symm.trans hf'
      have hlt := hr ts _ _ s' hs hrun
      rw [hs'.index_eq] at hlt
      rw [hstart] at hn
      omega
    · cases hf.symm.trans hnone
  · intro hf ts s q s' hs hrun
    rcases h.cases hs with ⟨a, us, n, s₁, hrun', hf', hn, hs₁⟩ | ⟨s₁, hrun', -⟩ | ⟨error, hrun', -⟩
    · cases hrun.symm.trans hrun'
      have hlt := hf _ _ _ hf'
      rw [hs₁.index_eq]
      omega
    · cases hrun.symm.trans hrun'
    · cases hrun.symm.trans hrun'

mutual

/-- Reading by a production finds what the production takes. -/
theorem parses_parse : (p : Production) → p.IsUsable → Advances p → Parses (parse p) p.taking
  | .token pattern, _, _ => by
    simp only [parse, Production.taking]
    exact parses_tokenIf _
  | .alternatives elements, h, hadvances => by
    rw [Production.IsUsable] at h
    rw [Advances] at hadvances
    simp only [parse, Production.taking]
    exact (Parses.finds (parses_parseFirst elements h hadvances)).attempt
  | .juxtaposition elements, h, hadvances => by
    rw [Production.IsUsable] at h
    rw [Advances] at hadvances
    simp only [parse, Production.taking]
    apply Finds.attempt
    intro ts e i marks s hs
    simp only [Taking.andThen]
    apply (finds_parseEach elements h hadvances).bind hs
    case none =>
      intro hf n s₁ hs₁
      rw [hf]
      exact ends_pure ⟨rfl, n, hs₁⟩
    case some =>
      intro qs us s₁ hf hbehind
      rw [hf]
      exact ends_pure ⟨rfl, hbehind⟩
  | .nonEmpty element, h, hadvances => by
    rw [Production.IsUsable] at h
    rw [Advances] at hadvances
    simp only [parse, Production.taking]
    apply Finds.attempt
    intro ts e i marks s hs
    simp only [Taking.andThen]
    apply (parses_parse element h hadvances).bind hs
    case none =>
      intro hf s₁ hs₁
      rw [hf]
      exact ends_pure ⟨rfl, 0, hs₁⟩
    case some =>
      intro q us s₁ hf hbehind
      rw [hf]
      by_cases hempty : q.tokens.isEmpty
      · obtain ⟨n, -, -, hs₁⟩ := hbehind
        simp only [Option.bind_some, if_pos hempty]
        exact ends_pure ⟨by simp [Option.filter, hempty], n, hs₁⟩
      · simp only [Option.bind_some, if_neg hempty]
        exact ends_pure ⟨by simp [Option.filter, hempty], hbehind⟩
  | .reference element, h, hadvances => by
    rw [Production.IsUsable] at h
    rw [Advances] at hadvances
    simp only [parse, Production.taking]
    exact parses_parse element h hadvances
  | .repetition element least most, h, hadvances => by
    rw [Production.IsUsable] at h
    rw [Advances] at hadvances
    simp only [parse, Production.taking]
    have helement := parses_parse element h hadvances.1
    have hbetween : ParsesBetween none (.accept []) := rfl
    apply parses_repetition helement hbetween
    intro hmost
    refine Taking.isProgressive_of_length_lt (Production.keeps_taking element) Taking.keeps_accept_nil ?_
    exact .inl (helement.consumes_iff.1 (hadvances.2 hmost))
  | .separated element separator least most, h, hadvances => by
    rw [Production.IsUsable] at h
    rw [Advances] at hadvances
    simp only [parse, Production.taking]
    have helement := parses_parse element h.1 hadvances.1
    have hseparator := parses_parse separator h.2 hadvances.2.1
    have hbetween : ParsesBetween (some (parse separator))
        (separator.taking.andThen fun p => .accept [p]) := ⟨_, hseparator, rfl⟩
    apply parses_repetition helement hbetween
    intro hmost
    refine Taking.isProgressive_of_length_lt (Production.keeps_taking element)
      (Taking.keeps_single (Production.keeps_taking separator)) ?_
    refine (hadvances.2.2 hmost).imp helement.consumes_iff.1 ?_
    intro hconsumes ts qs us hqs
    obtain ⟨⟨q, vs⟩, hq, hvs⟩ := Option.bind_eq_some_iff.1 hqs
    cases hvs
    exact hseparator.consumes_iff.1 hconsumes ts q us hq
  | .anyValue, _, _ => by
    simp only [parse, Production.taking]
    exact parses_anyValue
  | .bare, h, _ => by
    rw [Production.IsUsable] at h
    contradiction

theorem parses_parseFirst : (ps : List Production) → Production.AreUsable ps → AllAdvance ps →
    Parses (parseFirst ps) (Production.takingFirst ps)
  | [], _, _ => by
    intro ts e i marks s hs
    simp only [parseFirst, Production.takingFirst]
    exact ends_pure ⟨rfl, hs⟩
  | p :: ps, h, hadvances => by
    rw [Production.AreUsable] at h
    rw [AllAdvance] at hadvances
    intro ts e i marks s hs
    simp only [parseFirst, Production.takingFirst, Taking.orElse]
    apply (parses_parse p h.1 hadvances.1).bind hs
    case none =>
      intro hf s₁ hs₁
      rw [hf, Option.none_or]
      exact parses_parseFirst ps h.2 hadvances.2 ts e i marks s₁ hs₁
    case some =>
      intro q us s₁ hf hbehind
      rw [hf, Option.some_or]
      exact ends_pure ⟨rfl, hbehind⟩

theorem finds_parseEach : (ps : List Production) → Production.AreUsable ps → AllAdvance ps →
    Finds (parseEach ps) (Production.takingEach ps)
  | [], _, _ => by
    intro ts e i marks s hs
    simp only [parseEach, Production.takingEach]
    exact ends_pure ⟨rfl, behind_self hs⟩
  | p :: ps, h, hadvances => by
    rw [Production.AreUsable] at h
    rw [AllAdvance] at hadvances
    intro ts e i marks s hs
    simp only [parseEach, Production.takingEach, Taking.andThen]
    apply (parses_parse p h.1 hadvances.1).bind hs
    case none =>
      intro hf s₁ hs₁
      rw [hf]
      exact ends_pure ⟨rfl, 0, hs₁⟩
    case some =>
      rintro q us s₁ hf ⟨n, hn, rfl, hs₁⟩
      simp only [hf, Option.bind_some]
      apply (finds_parseEach ps h.2 hadvances.2).bind hs₁
      case none =>
        intro hf' n' s₂ hs₂
        rw [hf']
        exact ends_pure ⟨rfl, n + n', by rwa [← Nat.add_assoc]⟩
      case some =>
        intro qs vs s₂ hf' hbehind
        rw [hf']
        exact ends_pure ⟨rfl, hbehind.trans hn rfl⟩

end

theorem parse_reference (p : Production) : parse (.reference p) = parse p := by rw [parse]

/-- A production that takes nothing without a token is not read without consuming one. -/
theorem consumes_parse {p : Production} (h : p.IsUsable) (hadvances : Advances p)
    (hfilled : ∀ ts q us, p.taking ts = some (q, us) → q.tokens ≠ []) : Consumes (parse p) := by
  apply (parses_parse p h hadvances).consumes_iff.2
  intro ts q us hq
  have hlength := congrArg List.length (Production.tokens_append_of_taking hq)
  have hpos := List.length_pos_iff.2 (hfilled ts q us hq)
  rw [List.length_append] at hlength
  omega

theorem consumes_token (pattern : TokenPattern) : Consumes (parse (.token pattern)) := by
  have husable : (Production.token pattern).IsUsable := by simp [Production.IsUsable]
  have hadvances : Advances (.token pattern) := by simp [Advances]
  apply consumes_parse husable hadvances
  intro ts q us hq
  obtain ⟨t, -, rfl, -⟩ := Production.taking_token_eq_some_iff.1 hq
  exact List.cons_ne_nil t []

/-- Reading from a stream and reading from a cursor come to the same. -/
theorem parse_ofList {p : Production} (h : p.IsUsable) (hadvances : Advances p) (ts : List Token) :
    ∃ found s' c', parse p (.ofList ts) = some (.ok (found, s')) ∧
      p.read (.ofList ts) = .ok (found, c') ∧ s'.index = c'.index := by
  obtain ⟨hanswers, hatomic⟩ := Production.answers_read p h
  have hstart : (Cursor.ofList ts).rest = ts := rfl
  have hindex : ts.drop (TokenStream.ofList ts).index = ts := rfl
  rcases (parses_parse p h hadvances).cases (TokenStream.isOver_ofList ts) with
    ⟨q, us, n, s', hrun, hf, hn, hs'⟩ | ⟨s', hrun, hf, hs'⟩ | ⟨error, -, ⟨⟩⟩
  · obtain ⟨taken, hrest, hread⟩ := hanswers.some (hstart ▸ hf)
    have hlength := congrArg List.length hrest
    rw [hstart, List.length_append] at hlength
    rw [hindex] at hn
    obtain rfl : n = taken.length := by omega
    exact ⟨some q, s', _, hrun, hread, hs'.index_eq⟩
  · obtain ⟨n, hread⟩ := hanswers.none (hstart ▸ hf)
    refine ⟨none, s', _, hrun, hread, ?_⟩
    rw [hatomic _ _ hread]
    exact hs'.index_eq

/-- The grammar engine is atomic and exact. Reading by a usable production, in which every repetition without
an upper bound has an element or a separator that is not read without consuming a token, ends on every token
stream, whatever marks are set. If nothing is found, the index and the marks are as before. If a product is
found, the marks are as before, and the index has moved past the tokens of the product, which are those that
stood there, in order. Nothing else can happen but that the source of the stream fails. -/
theorem parse_atomic_exact {p : Production} (h : p.IsUsable) (hadvances : Advances p) {ts : List Token}
    {s : TokenStream} (hs : s.IsOver ts) :
    ∃ outcome, parse p s = some outcome ∧
      (∀ s', outcome = .ok (none, s') → s'.IsOver ts ∧ s'.index = s.index ∧ s'.marks = s.marks) ∧
      (∀ q s', outcome = .ok (some q, s') → s'.IsOver ts ∧ s'.marks = s.marks ∧
        s'.index = s.index + q.tokens.length ∧
        (ts.drop s.index).take q.tokens.length = q.tokens) ∧
      ∀ fault, outcome = .error fault →
        ∃ error, s.failure = some error ∧ fault = .stream (.range error) := by
  rcases (parses_parse p h hadvances).cases hs with
    ⟨q, us, n, s', hrun, hf, hn, hs'⟩ | ⟨s', hrun, hf, hs'⟩ | ⟨error, hrun, hfailure⟩
  · have hkept := Production.tokens_append_of_taking hf
    have hlength := congrArg List.length hkept
    rw [List.length_append] at hlength
    obtain rfl : n = q.tokens.length := by omega
    refine ⟨_, hrun, by rintro _ ⟨⟩, ?_, by rintro _ ⟨⟩⟩
    rintro _ _ ⟨⟩
    refine ⟨hs'.isOver, hs'.marks_eq, hs'.index_eq, ?_⟩
    rw [← hkept, List.take_left]
  · refine ⟨_, hrun, ?_, by rintro _ _ ⟨⟩, by rintro _ ⟨⟩⟩
    rintro _ ⟨⟩
    exact ⟨hs'.isOver, hs'.index_eq, hs'.marks_eq⟩
  · refine ⟨_, hrun, by rintro _ ⟨⟩, by rintro _ _ ⟨⟩, ?_⟩
    rintro _ ⟨⟩
    exact ⟨error, hfailure, rfl⟩

/-- The tokens of `.a, b`, of which the first stands before the list. -/
def dottedNames : List Token :=
  [⟨.delim '.', ".", ⟨1, 1⟩⟩, ⟨.ident "a", "a", ⟨1, 2⟩⟩, ⟨.comma, ",", ⟨1, 3⟩⟩,
    ⟨.whitespace " ", " ", ⟨1, 4⟩⟩, ⟨.ident "b", "b", ⟨1, 5⟩⟩]

/-- Names with commas between them. -/
def names : Production := .commaSeparated (.ofClass .ident)

theorem parse_dottedNames :
    names.IsUsable ∧ Advances names ∧ (TokenStream.ofEntries dottedNames 2 1 [1, 0]).IsOver dottedNames ∧
      ∃ q s', parse names (.ofEntries dottedNames 2 1 [1, 0]) = some (.ok (some q, s')) ∧
        s'.marks = [1, 0] ∧ s'.index = 5 ∧ q.tokens = dottedNames.drop 1 := by
  have husable : names.IsUsable := by
    simp [names, Production.commaSeparated, Production.comma, Production.optional, Production.whitespace,
      Production.ofClass, Production.IsUsable, Production.AreUsable]
  have hadvances : Advances names := by
    simp [names, Production.commaSeparated, Production.comma, Production.optional, Production.whitespace,
      Production.ofClass, Advances, AllAdvance, consumes_token]
  have hover : (TokenStream.ofEntries dottedNames 2 1 [1, 0]).IsOver dottedNames :=
    TokenStream.isOver_ofEntries _ _ (Nat.le_succ 1)
  have htaking : (names.taking (dottedNames.drop 1)).map (·.1.tokens) = some (dottedNames.drop 1) := by rfl
  obtain ⟨outcome, hrun, -, hfound, -⟩ := parse_atomic_exact husable hadvances hover
  rcases (parses_parse names husable hadvances).cases hover with
    ⟨q, us, n, s', hrun', hf, -⟩ | ⟨s', hrun', hf, -⟩ | ⟨error, -, ⟨⟩⟩
  · cases hrun.symm.trans hrun'
    obtain ⟨-, hmarks, hindex, -⟩ := hfound q s' rfl
    rw [show names.taking (dottedNames.drop 1) = some (q, us) from hf] at htaking
    have hq : q.tokens = dottedNames.drop 1 := Option.some.inj htaking
    refine ⟨husable, hadvances, hover, q, s', hrun, hmarks, ?_, hq⟩
    rw [hindex, hq]
    rfl
  · rw [show names.taking (dottedNames.drop 1) = none from hf] at htaking
    cases htaking

end Styling.GrammarReader
