import Mathlib
import Styling.Identity

/-!
# The notation of identities

An identity read from its notation has the last of the parts marked as ids and all of those marked as
classes, and reads the same from the notation it prints (`ofNotation_spec`). The one pass over the text is
compared with `segments`, which cuts the text at its markers.
-/

namespace Styling.Identity

/-! ## Cutting at markers -/

/-- Cuts text at its markers: what precedes the first, and each marker with what follows it. -/
def segments : List Char → List Char × List (Char × List Char)
  | [] => ([], [])
  | c :: cs =>
    let (first, marked) := segments cs
    if isMarker c then ([], (c, first) :: marked) else (c :: first, marked)

/-- One part of a text: after its marker it goes on to the next one or to the end. -/
structure IsPart (marker : Char) (part before after cs : List Char) : Prop where
  text_eq : cs = before ++ marker :: (part ++ after)
  isMarker_marker : isMarker marker
  unmarked : ∀ c ∈ part, isMarker c = false
  ends : ∀ c ∈ after.head?, isMarker c

variable {m : Char} {part before after cs : List Char}

theorem segments_append (hm : isMarker m) (before cs : List Char) :
    segments (before ++ m :: cs) =
      ((segments before).1, (segments before).2 ++ (m, (segments cs).1) :: (segments cs).2) := by
  induction before with
  | nil => simp [segments, hm]
  | cons c before ih => by_cases hc : isMarker c <;> simp [segments, ih, hc]

private theorem segments_unmarked_append (hpart : ∀ c ∈ part, isMarker c = false)
    (hends : ∀ c ∈ after.head?, isMarker c) :
    segments (part ++ after) = (part, (segments after).2) := by
  induction part with
  | nil =>
    cases after with
    | nil => simp [segments]
    | cons c after =>
      have hc : isMarker c := hends c (by simp)
      simp [segments, hc]
  | cons c part ih =>
    have hc : isMarker c = false := hpart c (by simp)
    simp [segments, hc, ih fun d hd => hpart d (by simp [hd])]

private theorem fst_segments (cs : List Char) : (segments cs).1 = cs.takeWhile (!isMarker ·) := by
  induction cs with
  | nil => simp [segments]
  | cons c cs ih => by_cases hc : isMarker c <;> simp [segments, ih, hc]

private theorem snd_segments_dropWhile (cs : List Char) :
    (segments (cs.dropWhile (!isMarker ·))).2 = (segments cs).2 := by
  induction cs with
  | nil => simp
  | cons c cs ih => by_cases hc : isMarker c <;> simp [segments, ih, hc]

theorem IsPart.segments_eq (h : IsPart m part before after cs) :
    segments cs = ((segments before).1, (segments before).2 ++ (m, part) :: (segments after).2) := by
  rw [h.text_eq, segments_append h.isMarker_marker, segments_unmarked_append h.unmarked h.ends]

/-- Every part that is cut out stands in the text, and those after it are cut out of what follows. -/
theorem exists_isPart {marked marked' : List (Char × List Char)}
    (h : (segments cs).2 = marked ++ (m, part) :: marked') :
    ∃ before after, IsPart m part before after cs ∧ (segments after).2 = marked' := by
  induction cs generalizing marked with
  | nil => simp [segments] at h
  | cons c cs ih =>
    -- the part is found further on, unless it is the one this character opens
    have hlater {marked : List (Char × List Char)} (h : (segments cs).2 = marked ++ (m, part) :: marked') :
        ∃ before after, IsPart m part before after (c :: cs) ∧ (segments after).2 = marked' := by
      obtain ⟨before, after, hpart, hafter⟩ := ih h
      exact ⟨c :: before, after, { hpart with text_eq := by simp [hpart.text_eq] }, hafter⟩
    by_cases hc : isMarker c
    · cases marked with
      | nil =>
        simp only [segments, hc, if_true, List.nil_append, List.cons.injEq, Prod.mk.injEq] at h
        obtain ⟨⟨rfl, rfl⟩, rfl⟩ := h
        have hunmarked : ∀ d ∈ cs.takeWhile (!isMarker ·), isMarker d = false := fun d hd => by
          simpa using List.mem_takeWhile_imp hd
        have hends : ∀ d ∈ (cs.dropWhile (!isMarker ·)).head?, isMarker d := fun d hd => by
          simpa using head?_splitRun (!isMarker ·) cs d hd
        refine ⟨[], cs.dropWhile (!isMarker ·), ⟨?_, hc, ?_, hends⟩, snd_segments_dropWhile cs⟩
        · simp [fst_segments]
        · rwa [fst_segments]
      | cons _ marked =>
        simp only [segments, hc, if_true, List.cons_append, List.cons.injEq] at h
        exact hlater h.2
    · simp only [segments, hc] at h
      exact hlater h

theorem mem_snd_segments :
    (m, part) ∈ (segments cs).2 ↔ ∃ before after, IsPart m part before after cs := by
  constructor
  · intro h
    obtain ⟨marked, marked', h⟩ := List.append_of_mem h
    obtain ⟨before, after, hpart, -⟩ := exists_isPart h
    exact ⟨before, after, hpart⟩
  · intro ⟨before, after, hpart⟩
    simp [hpart.segments_eq]

/-- A marker of the text opens a part. -/
private theorem exists_mem_snd_segments (hm : isMarker m) :
    m ∈ cs ↔ ∃ part, (m, part) ∈ (segments cs).2 := by
  constructor
  · intro h
    obtain ⟨before, after, rfl⟩ := List.append_of_mem h
    exact ⟨(segments after).1, by simp [segments_append hm]⟩
  · intro ⟨part, h⟩
    obtain ⟨before, after, hpart⟩ := mem_snd_segments.mp h
    simp [hpart.text_eq]

/-! ## What the parts say -/

/-- The last of the parts marked as ids, unless it is empty. -/
def lastId (marked : List (Char × List Char)) : Option String :=
  match (marked.filter (·.1 == '#')).getLast? with
  | some (_, id) => if id.isEmpty then none else some (String.ofList id)
  | none => none

/-- The parts marked as classes that are not empty. -/
def markedClasses (marked : List (Char × List Char)) : List String :=
  (marked.filter fun (c, name) => c == '.' && !name.isEmpty).map fun (_, name) => String.ofList name

/-- Takes in a part behind its marker. -/
def Parts.addMarked (text : String) (found : Parts) (m : Char × List Char) : Parts :=
  found.add text (some m.1) m.2

private theorem foldl_addMarked (text : String) (marked : List (Char × List Char)) (classes : List String)
    (notes : List Note) :
    marked.foldl (Parts.addMarked text) ⟨none, classes, notes⟩ =
      ⟨lastId marked, classes ++ markedClasses marked, notes⟩ := by
  induction marked using List.reverseRecOn with
  | nil => simp [lastId, markedClasses]
  | append_singleton marked m ih =>
    obtain ⟨c, part⟩ := m
    rw [List.foldl_append, ih, List.foldl_cons, List.foldl_nil, Parts.addMarked]
    by_cases hid : c = '#'
    · subst hid
      simp [Parts.add, lastId, markedClasses]
    · by_cases hclass : c = '.'
      · subst hclass
        by_cases hpart : part = [] <;> simp [Parts.add, lastId, markedClasses, hpart]
      · simp [Parts.add, lastId, markedClasses, hid, hclass]

private theorem slice_eq {before part rest : List Char} (h : cs = before ++ (part ++ rest)) :
    (cs.take (before.length + part.length)).drop before.length = part := by
  simp [h, List.drop_take]

/-- From a place inside an open part, the pass finds this part up to the next marker, and the parts that
are cut out of the rest. -/
private theorem found_foldl_step {text : String} {before part rest : List Char} {pass : Pass}
    (htext : text.toList = before ++ (part ++ rest)) (hstart : pass.start = before.length) :
    (((rest ++ ['.']).zipIdx (before.length + part.length)).foldl (Pass.step text) pass).found =
      (segments rest).2.foldl (Parts.addMarked text)
        (pass.found.add text pass.marker (part ++ (segments rest).1)) := by
  induction rest generalizing before part pass with
  | nil => simp [Pass.step, segments, isMarker, hstart, slice_eq htext]
  | cons c rest ih =>
    by_cases hc : isMarker c
    · have htext' : text.toList = (before ++ part ++ [c]) ++ ([] ++ rest) := by simp [htext]
      have hstart' : (pass.step text (c, before.length + part.length)).start =
          (before ++ part ++ [c]).length := by
        simp [Pass.step, hc, Nat.add_assoc]
      have h := ih htext' hstart'
      simpa [segments, hc, Pass.step, hstart, slice_eq htext, Parts.addMarked, Nat.add_assoc] using h
    · have htext' : text.toList = before ++ ((part ++ [c]) ++ rest) := by simp [htext]
      have h := ih htext' hstart
      simpa [segments, hc, Pass.step, Nat.add_assoc] using h

/-- The pass finds what is cut out of the text. -/
theorem partsOf_eq (text : String) :
    partsOf text =
      ⟨lastId (segments text.toList).2, markedClasses (segments text.toList).2,
        if (segments text.toList).1.isEmpty then []
        else [.unmarked text (String.ofList (segments text.toList).1)]⟩ := by
  have htext : text.toList = [] ++ ([] ++ text.toList) := by simp
  have hstart : (⟨none, 0, ⟨none, [], []⟩⟩ : Pass).start = ([] : List Char).length := by simp
  have h := found_foldl_step htext hstart
  simp only [List.length_nil, List.nil_append] at h
  rw [partsOf, h, Parts.add]
  split <;> simp [foldl_addMarked]

/-- A text stands for the identity of the parts it is cut into, also if it is empty. -/
theorem ofNotation_eq (text : String) :
    ofNotation text =
      make (lastId (segments text.toList).2) (markedClasses (segments text.toList).2) := by
  by_cases htext : text = ""
  · subst htext
    rfl
  · simp [ofNotation, htext, partsOf_eq]

/-- The last part marked as an id is the one with no such marker after it. -/
private theorem find?_reverse_eq_some_iff :
    (segments cs).2.reverse.find? (·.1 == '#') = some ('#', part) ↔
      ∃ before after, IsPart '#' part before after cs ∧ '#' ∉ after := by
  constructor
  · intro h
    obtain ⟨-, later, earlier, hmarked, hlater⟩ := List.find?_eq_some_iff_append.mp h
    have hmarked' : (segments cs).2 = earlier.reverse ++ ('#', part) :: later.reverse := by
      simpa using congrArg List.reverse hmarked
    obtain ⟨before, after, hpart, hafter⟩ := exists_isPart hmarked'
    refine ⟨before, after, hpart, fun hmem => ?_⟩
    obtain ⟨id, hid⟩ := (exists_mem_snd_segments rfl).mp hmem
    rw [hafter, List.mem_reverse] at hid
    simpa using hlater _ hid
  · intro ⟨before, after, hpart, hafter⟩
    have hnone : (segments after).2.reverse.find? (·.1 == '#') = none := by
      rw [List.find?_eq_none]
      intro (c, id) hid hc
      rw [beq_iff_eq] at hc
      subst hc
      exact hafter ((exists_mem_snd_segments rfl).mpr ⟨id, by simpa using hid⟩)
    simp [hpart.segments_eq, hnone]

theorem lastId_eq_some_iff {name : String} :
    lastId (segments cs).2 = some name ↔
      name ≠ "" ∧ ∃ before after, IsPart '#' name.toList before after cs ∧ '#' ∉ after := by
  rw [← find?_reverse_eq_some_iff, lastId, List.getLast?_filter]
  cases h : (segments cs).2.reverse.find? (·.1 == '#') with
  | none => simp
  | some m =>
    obtain ⟨c, id⟩ := m
    have hc : c = '#' := by simpa using List.find?_some h
    subst hc
    simp only [Option.some.injEq, Prod.mk.injEq, true_and]
    by_cases hid : id = []
    · simp [hid]
    · have hname : String.ofList id = name ↔ id = name.toList := String.ofList_eq
      simp only [List.isEmpty_iff, hid, if_false, Option.some.injEq, hname]
      constructor
      · intro h
        exact ⟨fun hempty => hid (by simp [h, hempty]), h⟩
      · exact And.right

theorem mem_markedClasses_iff {name : String} :
    name ∈ markedClasses (segments cs).2 ↔
      name ≠ "" ∧ ∃ before after, IsPart '.' name.toList before after cs := by
  rw [← mem_snd_segments]
  simp only [markedClasses, List.mem_map, List.mem_filter]
  constructor
  · intro ⟨(c, part), ⟨hmem, hpart⟩, hname⟩
    simp only [Bool.and_eq_true, beq_iff_eq] at hpart
    obtain ⟨rfl, hpart⟩ := hpart
    subst hname
    simpa [hmem] using hpart
  · intro ⟨hname, hmem⟩
    exact ⟨('.', name.toList), ⟨hmem, by simpa using hname⟩, by simp⟩

/-! ## Names in order -/

theorem mem_insertName {n name : String} {names : List String} :
    n ∈ insertName name names ↔ n = name ∨ n ∈ names := by
  induction names with
  | nil => simp [insertName]
  | cons first names ih =>
    simp only [insertName]
    split
    · simp
    · split
      · next heq =>
        have heq : name = first := by simpa using heq
        simp [heq]
      · simp only [List.mem_cons, ih]
        tauto

theorem mem_sortNames {n : String} {names : List String} : n ∈ sortNames names ↔ n ∈ names := by
  induction names with
  | nil => simp [sortNames]
  | cons name names ih =>
    rw [sortNames, List.foldr_cons, ← sortNames, mem_insertName, ih, List.mem_cons]

theorem pairwise_insertName {name : String} {names : List String} (h : names.Pairwise (· < ·)) :
    (insertName name names).Pairwise (· < ·) := by
  induction names with
  | nil => simp [insertName]
  | cons first names ih =>
    have ⟨hfirst, hnames⟩ := List.pairwise_cons.mp h
    simp only [insertName]
    split
    · next hlt =>
      have hbelow : ∀ n ∈ first :: names, name < n := fun n hn => by
        cases hn with
        | head => exact hlt
        | tail _ hn => exact hlt.trans (hfirst n hn)
      exact List.pairwise_cons.mpr ⟨hbelow, h⟩
    · next hge =>
      split
      · exact h
      · next hne =>
        have hlt : first < name := lt_of_le_of_ne (not_lt.mp hge) fun heq => hne (by simp [heq])
        have habove : ∀ n ∈ insertName name names, first < n := fun n hn => by
          cases mem_insertName.mp hn with
          | inl hn => exact hn ▸ hlt
          | inr hn => exact hfirst n hn
        exact List.pairwise_cons.mpr ⟨habove, ih hnames⟩

theorem pairwise_sortNames (names : List String) : (sortNames names).Pairwise (· < ·) := by
  induction names with
  | nil => simp [sortNames]
  | cons name names ih =>
    rw [sortNames, List.foldr_cons]
    exact pairwise_insertName ih

theorem sortNames_of_pairwise {names : List String} (h : names.Pairwise (· < ·)) :
    sortNames names = names := by
  induction names with
  | nil => simp [sortNames]
  | cons name names ih =>
    have ⟨hname, hnames⟩ := List.pairwise_cons.mp h
    rw [sortNames, List.foldr_cons, ← sortNames, ih hnames]
    cases names with
    | nil => simp [insertName]
    | cons first names => simp [insertName, hname first (by simp)]

/-! ## Printing -/

theorem make_eq_ok_iff {id : Option String} {names : List String} {i : Identity} :
    make id names = .ok i ↔
      (∀ name ∈ id, hasBlank name = false) ∧ (∀ name ∈ names, hasBlank name = false) ∧
        i = ⟨id, sortNames names⟩ := by
  have hid : id.filter hasBlank = none ↔ ∀ name ∈ id, hasBlank name = false := by
    cases id <;> simp [Option.filter]
  have hnames : names.any hasBlank = false ↔ ∀ name ∈ names, hasBlank name = false := by simp
  rw [make, ← hid, ← hnames]
  cases id.filter hasBlank with
  | some name => simp
  | none =>
    by_cases hblank : names.any hasBlank
    · simp [hblank]
    · simp [hblank, eq_comm]

/-- A name that can be written down in the notation. -/
structure IsPlainName (name : String) : Prop where
  ne_empty : name ≠ ""
  unmarked : ∀ c ∈ name.toList, isMarker c = false
  noBlank : hasBlank name = false

private theorem segments_name {name : String} (hm : isMarker m) (hname : IsPlainName name)
    (hends : ∀ c ∈ after.head?, isMarker c) :
    segments (m :: (name.toList ++ after)) = ([], (m, name.toList) :: (segments after).2) := by
  simp [segments, hm, segments_unmarked_append hname.unmarked hends]

private theorem segments_classes {names : List String} (hnames : ∀ name ∈ names, IsPlainName name) :
    segments (names.flatMap fun name => '.' :: name.toList) =
      ([], names.map fun name => ('.', name.toList)) := by
  induction names with
  | nil => simp [segments]
  | cons name names ih =>
    have hends : ∀ c ∈ (names.flatMap fun name => '.' :: name.toList).head?, isMarker c := by
      cases names <;> simp [isMarker]
    have hrest := ih fun name hname => hnames name (by simp [hname])
    simp [segments_name (m := '.') rfl (hnames name (by simp)) hends, hrest]

/-- What is printed is cut into the names of the identity again. -/
theorem segments_toText {i : Identity} (hid : ∀ name ∈ i.id, IsPlainName name)
    (hclasses : ∀ name ∈ i.classes, IsPlainName name) :
    segments i.toText.toList =
      ([], (i.id.toList.map fun name => ('#', name.toList)) ++
        i.classes.map fun name => ('.', name.toList)) := by
  have hrest := segments_classes hclasses
  have hends : ∀ c ∈ (i.classes.flatMap fun name => '.' :: name.toList).head?, isMarker c := by
    cases i.classes <;> simp [isMarker]
  cases h : i.id with
  | none => simpa [toText, h, List.flatMap_map] using hrest
  | some name =>
    have hname := hid name h
    have hne : name.isEmpty = false := by simpa using hname.ne_empty
    have htext : i.toText.toList =
        '#' :: (name.toList ++ i.classes.flatMap fun name => '.' :: name.toList) := by
      simp [toText, h, hne, List.flatMap_map]
    simp [htext, segments_name (m := '#') rfl hname hends, hrest]

private theorem markedClasses_names {id : Option String} {names : List String}
    (hnames : ∀ name ∈ names, IsPlainName name) :
    markedClasses ((id.toList.map fun name => ('#', name.toList)) ++
      names.map fun name => ('.', name.toList)) = names := by
  have hkept : ∀ m ∈ names.map fun name => ('.', name.toList), (m.1 == '.' && !m.2.isEmpty) := by
    intro m hm
    obtain ⟨name, hname, rfl⟩ := List.mem_map.mp hm
    simpa using (hnames name hname).ne_empty
  cases id <;> simp [markedClasses, List.filter_eq_self.mpr hkept, Function.comp_def]

private theorem lastId_names {id : Option String} {names : List String} (hid : id ≠ some "") :
    lastId ((id.toList.map fun name => ('#', name.toList)) ++
      names.map fun name => ('.', name.toList)) = id := by
  have hnone : (names.map fun name => ('.', name.toList)).filter (·.1 == '#') = [] := by
    simp [List.filter_eq_nil_iff]
  cases id with
  | none => simp [lastId, hnone]
  | some name =>
    have hne : name ≠ "" := fun h => hid (congrArg some h)
    simp [lastId, hnone, hne]

/-- An identity of names that can be written down is read back from what is printed of it. -/
theorem ofNotation_toText {i : Identity} (hid : ∀ name ∈ i.id, IsPlainName name)
    (hclasses : ∀ name ∈ i.classes, IsPlainName name) (horder : i.classes.Pairwise (· < ·)) :
    ofNotation i.toText = .ok i := by
  have hne : i.id ≠ some "" := fun h => (hid "" h).ne_empty rfl
  rw [ofNotation_eq, segments_toText hid hclasses, lastId_names hne, markedClasses_names hclasses,
    make_eq_ok_iff]
  exact ⟨fun name h => (hid name h).noBlank, fun name h => (hclasses name h).noBlank,
    by rw [sortNames_of_pairwise horder]⟩

/-- What a notation says about an identity. -/
structure IsNotedIn (i : Identity) (text : List Char) : Prop where
  /-- The id is the last part marked as one, and there is none if that part is empty. -/
  id_eq_some_iff : ∀ name, i.id = some name ↔
    name ≠ "" ∧ ∃ before after, IsPart '#' name.toList before after text ∧ '#' ∉ after
  mem_classes_iff : ∀ name, name ∈ i.classes ↔
    name ≠ "" ∧ ∃ before after, IsPart '.' name.toList before after text
  /-- As a set of names is kept. -/
  ordered : i.classes.Pairwise (· < ·)

private theorem isNotedIn_of_ofNotation {text : String} {i : Identity} (h : ofNotation text = .ok i) :
    i.IsNotedIn text.toList := by
  rw [ofNotation_eq, make_eq_ok_iff] at h
  obtain ⟨-, -, rfl⟩ := h
  exact ⟨fun _ => lastId_eq_some_iff, fun _ => mem_sortNames.trans mem_markedClasses_iff,
    pairwise_sortNames _⟩

/-- The names of an identity read from a notation can be written down again. -/
private theorem isPlainName_of_ofNotation {text : String} {i : Identity} (h : ofNotation text = .ok i) :
    (∀ name ∈ i.id, IsPlainName name) ∧ ∀ name ∈ i.classes, IsPlainName name := by
  have hnoted := isNotedIn_of_ofNotation h
  rw [ofNotation_eq, make_eq_ok_iff] at h
  obtain ⟨hid, hclasses, rfl⟩ := h
  constructor
  · intro name hname
    have ⟨hne, _, _, hpart, _⟩ := (hnoted.id_eq_some_iff name).mp hname
    exact ⟨hne, hpart.unmarked, hid name hname⟩
  · intro name hname
    have ⟨hne, _, _, hpart⟩ := (hnoted.mem_classes_iff name).mp hname
    exact ⟨hne, hpart.unmarked, hclasses name (mem_sortNames.mp hname)⟩

/-- What is read from a notation has the last id and all classes that are marked in it and is read again
from what is printed of it; so is every identity whose names are not empty and have neither markers nor
white-space in them. -/
theorem ofNotation_spec :
    (∀ text i, ofNotation text = .ok i → i.IsNotedIn text.toList ∧ ofNotation i.toText = .ok i) ∧
    ∀ id names, (∀ name ∈ id, IsPlainName name) → (∀ name ∈ names, IsPlainName name) →
      ∃ i, make id names = .ok i ∧ i.id = id ∧ (∀ name, name ∈ i.classes ↔ name ∈ names) ∧
        ofNotation i.toText = .ok i := by
  constructor
  · intro text i h
    have hnoted := isNotedIn_of_ofNotation h
    have ⟨hid, hclasses⟩ := isPlainName_of_ofNotation h
    exact ⟨hnoted, ofNotation_toText hid hclasses hnoted.ordered⟩
  · intro id names hid hnames
    have hclasses : ∀ name ∈ sortNames names, IsPlainName name := fun name h =>
      hnames name (mem_sortNames.mp h)
    have hmade : make id names = .ok ⟨id, sortNames names⟩ := make_eq_ok_iff.mpr
      ⟨fun name h => (hid name h).noBlank, fun name h => (hnames name h).noBlank, rfl⟩
    exact ⟨_, hmade, rfl, fun _ => mem_sortNames,
      ofNotation_toText hid hclasses (pairwise_sortNames names)⟩

theorem ofNotation_spec_menu :
    ofNotation "menu.dark#main..panel" = .ok ⟨some "main", ["dark", "panel"]⟩ ∧
    ofNotation (toText ⟨some "main", ["dark", "panel"]⟩) = .ok ⟨some "main", ["dark", "panel"]⟩ ∧
    ∃ i, make (some "main") ["panel", "dark"] = .ok i ∧ i.id = some "main" ∧
      (∀ name, name ∈ i.classes ↔ name ∈ ["panel", "dark"]) ∧ ofNotation i.toText = .ok i := by
  have hread : ofNotation "menu.dark#main..panel" = .ok ⟨some "main", ["dark", "panel"]⟩ := by
    decide +kernel
  have hplain : ∀ name ∈ ["main", "panel", "dark"], IsPlainName name := by
    intro name hname
    fin_cases hname <;> exact ⟨by decide, by simp [isMarker], by decide +kernel⟩
  exact ⟨hread, (ofNotation_spec.1 _ _ hread).2,
    ofNotation_spec.2 (some "main") ["panel", "dark"] (fun name h => hplain name (by simp_all))
      fun name h => hplain name (by simp_all)⟩

end Styling.Identity
