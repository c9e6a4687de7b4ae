import Styling.Proofs.Source.Filter

/-!
# Parts of source text

Source text that is cut out of a longer one at filtered characters is filtered to these, but for the
places (`map_unplaced_filter_sourcesOf`).
-/

namespace Styling.Source

/-- The same filtered character at the start of a text. -/
def SourceChar.unplaced (c : SourceChar) : SourceChar := { c with location := .start }

theorem filterFrom_cons {here : Location} {c : Char} {cs : List Char}
    (h : ∀ ds, c = '\r' → cs = '\n' :: ds → False) :
    filterFrom here (c :: cs) = ⟨filterChar c, [c], here⟩ :: filterFrom (here.after c) cs := by
  rw [filterFrom]
  exact h

/-- What text is filtered to does not depend on where it starts, but for the places. -/
theorem map_unplaced_filterFrom (here there : Location) (cs : List Char) :
    (filterFrom here cs).map SourceChar.unplaced = (filterFrom there cs).map SourceChar.unplaced := by
  fun_induction filterFrom here cs generalizing there with
  | case1 => rfl
  | case2 here cs ih =>
    rw [filterFrom, List.map_cons, List.map_cons, ih there.nextLine]
    rfl
  | case3 here c cs hpair ih =>
    rw [filterFrom_cons hpair, List.map_cons, List.map_cons, ih (there.after c)]
    rfl

/-- The first filtered characters of a text are those of the text written for them. -/
theorem filterFrom_sourcesOf_left {here : Location} {cs : List Char} {front back : List SourceChar}
    (h : filterFrom here cs = front ++ back) : filterFrom here (sourcesOf front) = front := by
  fun_induction filterFrom here cs generalizing front with
  | case1 =>
    rw [(List.append_eq_nil_iff.1 h.symm).1]
    rfl
  | case2 here cs ih =>
    cases front with
    | nil => rfl
    | cons x front =>
      rw [List.cons_append] at h
      obtain ⟨rfl, htail⟩ := List.cons.inj h
      show _ :: filterFrom here.nextLine (sourcesOf front) = _
      rw [ih htail]
  | case3 here c cs hpair ih =>
    cases front with
    | nil => rfl
    | cons x front =>
      rw [List.cons_append] at h
      obtain ⟨rfl, htail⟩ := List.cons.inj h
      have hcs : sourcesOf front ++ sourcesOf back = cs := by
        rw [← sourcesOf_append, ← htail, sourcesOf_filterFrom]
      have hpair' : ∀ ds, c = '\r' → sourcesOf front = '\n' :: ds → False := by
        intro ds hc hds
        rw [hds] at hcs
        exact hpair _ hc hcs.symm
      show filterFrom here (c :: sourcesOf front) = _
      rw [filterFrom_cons hpair', ih htail]

private theorem filterFrom_sourcesOf {here : Location} {cs : List Char} {ds : List SourceChar}
    (h : filterFrom here cs = ds) : filterFrom here (sourcesOf ds) = ds := by
  rw [← h, sourcesOf_filterFrom]

/-- The last filtered characters of a text are those of the text written for them, at some place. -/
theorem exists_filterFrom_sourcesOf_right {here : Location} {cs : List Char}
    {front back : List SourceChar} (h : filterFrom here cs = front ++ back) :
    ∃ there, filterFrom there (sourcesOf back) = back := by
  cases front with
  | nil => exact ⟨here, filterFrom_sourcesOf h⟩
  | cons x front =>
    fun_induction filterFrom here cs generalizing x front with
    | case1 => cases h
    | case2 here cs ih | case3 here c cs hpair ih =>
      have htail := (List.cons.inj h).2
      cases front with
      | nil => exact ⟨_, filterFrom_sourcesOf htail⟩
      | cons y front => exact ih _ _ htail

/-- Filtered characters from the middle of a text are, but for the places, what the text written for
them is filtered to. -/
theorem map_unplaced_filter_sourcesOf {text : String} {front middle back : List SourceChar}
    (h : filter text = front ++ (middle ++ back)) :
    (filter (String.ofList (sourcesOf middle))).map SourceChar.unplaced =
      middle.map SourceChar.unplaced := by
  obtain ⟨there, hthere⟩ := exists_filterFrom_sourcesOf_right h
  have hmiddle := filterFrom_sourcesOf_left hthere
  rw [filter, String.toList_ofList, map_unplaced_filterFrom _ there, hmiddle]

/-- Texts one after the other are filtered one by one, but for the places, unless the second begins with
a line feed. -/
theorem map_unplaced_filterFrom_append (here : Location) (cs ds : List Char) (h : ds.head? ≠ some '\n') :
    (filterFrom here (cs ++ ds)).map SourceChar.unplaced =
      (filterFrom here cs).map SourceChar.unplaced ++ (filterFrom here ds).map SourceChar.unplaced := by
  fun_induction filterFrom here cs with
  | case1 here => rfl
  | case2 here cs ih =>
    show _ :: (filterFrom here.nextLine (cs ++ ds)).map _ = _
    rw [ih, map_unplaced_filterFrom here.nextLine here ds]
    rfl
  | case3 here c cs hpair ih =>
    have hpair' : ∀ es, c = '\r' → cs ++ ds = '\n' :: es → False := by
      intro es hc hes
      cases cs with
      | nil => exact h (by rw [List.nil_append] at hes; rw [hes]; rfl)
      | cons d cs => exact hpair cs hc (by rw [(List.cons.inj hes).1])
    rw [List.cons_append, filterFrom_cons hpair', List.map_cons, ih, map_unplaced_filterFrom _ here ds]
    rfl

/-! ## Characters written out -/

/-- What a filtered character stands for: one character, or the two of a line break. -/
theorem mem_filterFrom {here : Location} {cs : List Char} {x : SourceChar} (h : x ∈ filterFrom here cs) :
    (∃ c, x.value = filterChar c ∧ x.source = [c]) ∨ x.value = '\n' ∧ x.source = ['\r', '\n'] := by
  fun_induction filterFrom here cs with
  | case1 => cases h
  | case2 here cs ih =>
    rcases List.mem_cons.1 h with rfl | h
    · exact .inr ⟨rfl, rfl⟩
    · exact ih h
  | case3 here c cs hpair ih =>
    rcases List.mem_cons.1 h with rfl | h
    · exact .inl ⟨c, rfl, rfl⟩
    · exact ih h

/-- Whether filtered characters, wherever they stand, are those that a text is filtered to. -/
def Spells (text : List Char) (cs : List SourceChar) : Prop :=
  cs.map SourceChar.unplaced = (filterFrom .start text).map SourceChar.unplaced

theorem spells_filterFrom (text : List Char) : Spells text (filterFrom .start text) := rfl

theorem spells_nil {cs : List SourceChar} (h : Spells [] cs) : cs = [] := List.map_eq_nil_iff.1 h

/-- Characters in the middle of a text are spelled by what is written for them. -/
theorem spells_sourcesOf {text : String} {front middle back : List SourceChar}
    (h : filter text = front ++ (middle ++ back)) : Spells (sourcesOf middle) middle := by
  have hmiddle := map_unplaced_filter_sourcesOf h
  rw [filter, String.toList_ofList] at hmiddle
  exact hmiddle.symm

theorem Spells.append {xs ys : List Char} {cs ds : List SourceChar} (h : Spells xs cs) (h' : Spells ys ds)
    (hds : ∀ d ∈ ds.head?, d.value ≠ '\n') : Spells (xs ++ ys) (cs ++ ds) := by
  have hbreak : ys.head? ≠ some '\n' := by
    intro hys
    obtain ⟨ys, rfl⟩ := List.head?_eq_some_iff.1 hys
    rw [Spells, filterFrom_cons (fun _ hc => by cases hc), List.map_cons, List.map_eq_cons_iff] at h'
    obtain ⟨d, ds, rfl, hd, -⟩ := h'
    have hvalue : d.unplaced.value = '\n' := congrArg SourceChar.value hd
    exact hds d rfl hvalue
  rw [Spells, map_unplaced_filterFrom_append _ _ _ hbreak, List.map_append, h, h']

theorem filterFrom_cons_of_filterChar {c : Char} (h : filterChar c = c) (here : Location)
    (cs : List Char) : filterFrom here (c :: cs) = ⟨c, [c], here⟩ :: filterFrom (here.after c) cs := by
  have hreturn : c ≠ '\r' := by
    rintro rfl
    cases h
  rw [filterFrom_cons fun _ hr => absurd hr hreturn, h]

/-- Characters that nothing else stands for are filtered to themselves. -/
theorem map_value_filterFrom {cs : List Char} (h : ∀ c ∈ cs, filterChar c = c) (here : Location) :
    (filterFrom here cs).map SourceChar.value = cs := by
  induction cs generalizing here with
  | nil => rfl
  | cons c cs ih =>
    obtain ⟨hc, hcs⟩ := List.forall_mem_cons.1 h
    rw [filterFrom_cons_of_filterChar hc, List.map_cons, ih hcs]

end Styling.Source
