import Styling.Proofs.Source.Slice

/-!
# Filtering as normalization

Filtering pulls a text one character at a time, and looks one character ahead behind a carriage return
(`Filtering.step`). What it yields is the text with a line feed in place of every form of line break and the
replacement character in place of NUL; nothing of the text is lost, and filtering once more changes nothing
(`filter_normalizes`). A text of characters has no surrogates.
-/

namespace Styling.Source

/-! ## One character at a time -/

/-- A text being filtered: the character that was pulled last, none at the end, the place at which it starts,
and the characters not yet pulled. -/
structure Filtering where
  here : Location
  current : Option Char
  pending : List Char

namespace Filtering

/-- Pulls the next character, which starts `here`. -/
def pull (here : Location) (pending : List Char) : Filtering := ⟨here, pending.head?, pending.tail⟩

/-- The filtered character that is yielded next. Behind a carriage return one more character is pulled; if it
is no line feed, it is dealt with next. -/
def step (s : Filtering) : Option (SourceChar × Filtering) :=
  s.current.map fun c =>
    if c = '\r' then
      let ahead := pull s.here.nextLine s.pending
      if ahead.current = some '\n' then
        (⟨'\n', ['\r', '\n'], s.here⟩, pull s.here.nextLine ahead.pending)
      else (⟨'\n', ['\r'], s.here⟩, ahead)
    else (⟨filterChar c, [c], s.here⟩, pull (s.here.after c) s.pending)

/-- The text that is not yet filtered. -/
def text (s : Filtering) : List Char :=
  match s.current with
  | some c => c :: s.pending
  | none => []

@[simp] theorem text_pull (here : Location) (cs : List Char) : (pull here cs).text = cs := by
  cases cs <;> rfl

/-- What a step does is told by the text: it is at its end, begins with a line break of two characters, or
with another character. -/
theorem step_cases (s : Filtering) :
    (s.text = [] ∧ s.step = none) ∨
      (∃ cs, s.text = '\r' :: '\n' :: cs ∧
        s.step = some (⟨'\n', ['\r', '\n'], s.here⟩, pull s.here.nextLine cs)) ∨
      ∃ c cs, s.text = c :: cs ∧ (∀ ds, c = '\r' → cs = '\n' :: ds → False) ∧
        s.step = some (⟨filterChar c, [c], s.here⟩, pull (s.here.after c) cs) := by
  rcases s with ⟨here, _ | c, pending⟩
  · exact .inl ⟨rfl, rfl⟩
  by_cases hreturn : c = '\r'
  · subst hreturn
    by_cases hfeed : pending.head? = some '\n'
    · obtain ⟨cs, rfl⟩ := List.head?_eq_some_iff.1 hfeed
      exact .inr (.inl ⟨cs, rfl, rfl⟩)
    · refine .inr (.inr ⟨'\r', pending, rfl, ?_, ?_⟩)
      · rintro ds - rfl
        exact hfeed rfl
      · show some (if pending.head? = some '\n' then _ else _) = _
        rw [if_neg hfeed]
        rfl
  · refine .inr (.inr ⟨c, pending, rfl, fun _ hc => absurd hc hreturn, ?_⟩)
    simp only [step, Option.map_some, if_neg hreturn]

/-- A step takes from the front of the text what the filtered character stands for. -/
theorem text_of_step {s s' : Filtering} {x : SourceChar} (h : s.step = some (x, s')) :
    s.text = x.source ++ s'.text ∧ x.source ≠ [] := by
  rcases s.step_cases with ⟨-, hstep⟩ | ⟨cs, htext, hstep⟩ | ⟨c, cs, htext, -, hstep⟩
  · rw [hstep] at h
    cases h
  all_goals
    rw [hstep] at h
    cases h
    simp [htext]

/-- What is yielded until the end. -/
def run (s : Filtering) : List SourceChar :=
  match _hstep : s.step with
  | some (x, s') => x :: s'.run
  | none => []
termination_by s.text.length
decreasing_by
  obtain ⟨htext, hsource⟩ := text_of_step _hstep
  rw [htext, List.length_append]
  exact Nat.lt_add_of_pos_left (List.length_pos_iff.2 hsource)

/-- Filtering from a place on yields what the whole text is filtered to. -/
theorem run_eq_filterFrom (s : Filtering) : s.run = filterFrom s.here s.text := by
  fun_induction run s with
  | case1 s x s' hstep ih =>
    rw [ih]
    rcases s.step_cases with ⟨-, hnone⟩ | ⟨cs, htext, hpair⟩ | ⟨c, cs, htext, hsingle, hchar⟩
    · rw [hnone] at hstep
      cases hstep
    · rw [hpair] at hstep
      cases hstep
      rw [htext, text_pull]
      rfl
    · rw [hchar] at hstep
      cases hstep
      rw [htext, text_pull, filterFrom_cons hsingle]
      rfl
  | case2 s hstep =>
    rcases s.step_cases with ⟨htext, -⟩ | ⟨cs, -, hpair⟩ | ⟨c, cs, -, -, hchar⟩
    · rw [htext]
      rfl
    · rw [hpair] at hstep
      cases hstep
    · rw [hchar] at hstep
      cases hstep

theorem run_pull (text : String) : (pull .start text.toList).run = filter text := by
  rw [run_eq_filterFrom, text_pull]
  rfl

end Filtering

/-! ## What takes the place of what -/

/-- Every occurrence of a pattern is replaced, from the left. -/
def replaceAll (pattern replacement : List Char) : List Char → List Char
  | [] => []
  | c :: cs =>
    if pattern <+: c :: cs then
      replacement ++ replaceAll pattern replacement (cs.drop (pattern.length - 1))
    else c :: replaceAll pattern replacement cs
termination_by cs => cs.length
decreasing_by
  · rw [List.length_drop, List.length_cons]
    omega
  · exact Nat.lt_succ_self cs.length

theorem replaceAll_append {pattern : List Char} (h : pattern ≠ []) (replacement cs : List Char) :
    replaceAll pattern replacement (pattern ++ cs) =
      replacement ++ replaceAll pattern replacement cs := by
  obtain ⟨p, ps, rfl⟩ := List.exists_cons_of_ne_nil h
  rw [List.cons_append, replaceAll, if_pos (by simp)]
  simp

theorem replaceAll_cons {pattern replacement cs : List Char} {c : Char} (h : ¬pattern <+: c :: cs) :
    replaceAll pattern replacement (c :: cs) = c :: replaceAll pattern replacement cs := by
  rw [replaceAll, if_neg h]

/-- A single character is replaced wherever it stands. -/
theorem replaceAll_singleton (c d : Char) (cs : List Char) :
    replaceAll [c] [d] cs = cs.map fun x => if x = c then d else x := by
  induction cs with
  | nil => simp [replaceAll]
  | cons x cs ih =>
    by_cases hx : x = c
    · subst hx
      have happend := replaceAll_append (List.cons_ne_nil x []) [d] cs
      simpa [ih] using happend
    · rw [replaceAll_cons (by simpa using Ne.symm hx), ih]
      simp [hx]

/-- The text in which every carriage return with a line feed, every other carriage return and every form feed
is a line feed, and every NUL the replacement character. -/
def normalized (text : List Char) : List Char :=
  replaceAll ['\x00'] ['\uFFFD'] <| replaceAll ['\x0C'] ['\n'] <| replaceAll ['\r'] ['\n'] <|
    replaceAll ['\r', '\n'] ['\n'] text

/-- The characters that are replaced one by one. -/
theorem normalized_eq_map (text : List Char) :
    normalized text = (replaceAll ['\r', '\n'] ['\n'] text).map filterChar := by
  simp only [normalized, replaceAll_singleton, List.map_map]
  refine List.map_congr_left fun c _ => ?_
  simp only [Function.comp_apply, filterChar]
  grind

theorem map_value_filterFrom_eq_normalized (here : Location) (cs : List Char) :
    (filterFrom here cs).map SourceChar.value = normalized cs := by
  rw [normalized_eq_map]
  fun_induction filterFrom here cs with
  | case1 => simp [replaceAll]
  | case2 here cs ih =>
    have happend := replaceAll_append (List.cons_ne_nil '\r' ['\n']) ['\n'] cs
    rw [show '\r' :: '\n' :: cs = ['\r', '\n'] ++ cs from rfl, happend]
    simp [ih, filterChar]
  | case3 here c cs hpair ih =>
    rw [replaceAll_cons, List.map_cons, List.map_cons, ih]
    rintro ⟨ds, hds⟩
    obtain ⟨rfl, hcs⟩ := List.cons.inj hds
    exact hpair ds rfl hcs.symm

/-! ## Filtering what was filtered -/

theorem filterChar_filterChar (c : Char) : filterChar (filterChar c) = filterChar c := by
  simp only [filterChar]
  grind

/-- Nothing that filtering would replace is left. -/
theorem filterChar_value {here : Location} {cs : List Char} {x : SourceChar}
    (h : x ∈ filterFrom here cs) : filterChar x.value = x.value := by
  rcases mem_filterFrom h with ⟨c, hvalue, -⟩ | ⟨hvalue, -⟩
  · rw [hvalue, filterChar_filterChar]
  · rw [hvalue]
    rfl

theorem map_value_filter_filter (text : String) :
    (filter (String.ofList ((filter text).map SourceChar.value))).map SourceChar.value =
      (filter text).map SourceChar.value := by
  rw [filter, String.toList_ofList]
  refine map_value_filterFrom ?_ _
  intro c hc
  obtain ⟨x, hx, rfl⟩ := List.mem_map.1 hc
  exact filterChar_value hx

/-- Filtering a text pulled one character at a time yields the text with every line break a line feed and every
NUL the replacement character, whatever stands next to what; the text written for what it yields is the whole
text, and filtered text is left as it is. -/
theorem filter_normalizes (text : String) :
    (Filtering.pull .start text.toList).run = filter text ∧
      (filter text).map SourceChar.value = normalized text.toList ∧
      sourcesOf (filter text) = text.toList ∧
      (filter (String.ofList ((filter text).map SourceChar.value))).map SourceChar.value =
        (filter text).map SourceChar.value :=
  ⟨Filtering.run_pull text, map_value_filterFrom_eq_normalized .start text.toList, sourcesOf_filter text,
    map_value_filter_filter text⟩

/-- A carriage return before one with its line feed, before NUL, before a form feed, and at the end. -/
example : (filter "\r\r\n\r\x00\r\x0C\r").map SourceChar.value =
    ['\n', '\n', '\n', '\uFFFD', '\n', '\n', '\n'] := by
  decide

end Styling.Source
