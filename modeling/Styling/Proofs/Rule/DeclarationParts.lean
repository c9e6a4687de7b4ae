import Styling.Proofs.Rule.Mark
import Styling.Proofs.Rule.Outline

/-!
# The parts of a declaration

What is read as a declaration is well-formed, and every well-formed declaration in front of what ends it is
read (`Declaration.take?_eq_some_iff`).
-/

namespace Styling

open Component

namespace Declaration

/-- What was read after the colon. -/
def afterColon (d : Declaration) : List Component :=
  d.beforeValue ++ d.value ++ d.beforeMark ++ d.mark ++ d.afterMark

/-- A declaration has a name, a colon and a value, which is not empty, neither begins nor ends with
white-space and holds nothing that ends a declaration; a `{}`-block in it stands alone. It is important if what
was read after the colon ends in a mark, and then nothing but the mark and the white-space around it is kept
apart from the value; otherwise nothing but the white-space at its ends is. -/
structure IsWellFormed (nested : Bool) (d : Declaration) : Prop where
  name : ∃ name, d.name.kind = .ident name
  afterName : ∀ c ∈ d.afterName, c.isWhite
  colon : d.colon.kind.isColon
  beforeValue : ∀ c ∈ d.beforeValue, c.isWhite
  value_ne_nil : d.value ≠ []
  head_value : ∀ c ∈ d.value.head?, c.isWhite = false
  getLast_value : ∀ c ∈ d.value.getLast?, c.isWhite = false
  ends_value : ∀ c ∈ d.value, endsDeclaration nested c = false
  block_value : ∀ c ∈ d.value, c.isBraceBlock → d.value = [c]
  beforeMark : ∀ c ∈ d.beforeMark, c.isWhite
  afterMark : ∀ c ∈ d.afterMark, c.isWhite
  isImportant_iff : d.isImportant ↔ EndsInMark d.afterColon
  mark : d.isImportant → IsMark d.mark
  unmarked : ¬d.isImportant → d.afterMark = []

end Declaration

/-! ## Declarations among component values -/

/-- A list without white-space at its ends that holds one thing besides white-space is this thing alone. -/
private theorem eq_singleton_of_solid {cs : List Component} (hhead : ∀ c ∈ cs.head?, c.isWhite = false)
    (hlast : ∀ c ∈ cs.getLast?, c.isWhite = false) (h : (solid cs).length = 1) : ∃ c, cs = [c] := by
  cases cs with
  | nil => cases h
  | cons c cs =>
    rcases List.eq_nil_or_concat cs with rfl | ⟨inner, d, rfl⟩
    · exact ⟨c, rfl⟩
    · rw [List.concat_eq_append] at hlast h
      have hc : c.isWhite = false := hhead c rfl
      have hd : d.isWhite = false := by
        rw [← List.cons_append, List.getLast?_concat] at hlast
        exact hlast d rfl
      rw [solid_cons_of_not_white _ hc, solid_append, solid_cons_of_not_white _ hd] at h
      simp at h

/-- A value without white-space at its ends can be one if it is not empty and holds a `{}`-block only alone. -/
theorem isDeclarationValue_iff {value : List Component} (hhead : ∀ c ∈ value.head?, c.isWhite = false)
    (hlast : ∀ c ∈ value.getLast?, c.isWhite = false) : isDeclarationValue value ↔
      value ≠ [] ∧ ∀ c ∈ value, c.isBraceBlock → value = [c] := by
  have hvalue : isDeclarationValue value ↔
      value ≠ [] ∧ ((∃ c ∈ value, c.isBraceBlock) → (solid value).length = 1) := by
    simp [isDeclarationValue, solid, imp_iff_not_or]
  rw [hvalue]
  refine and_congr_right fun _ => ⟨?_, ?_⟩
  · intro h c hc hblock
    obtain ⟨d, rfl⟩ := eq_singleton_of_solid hhead hlast (h ⟨c, hc, hblock⟩)
    rw [List.mem_singleton.1 hc]
  · rintro h ⟨c, hc, hblock⟩
    rw [h c hc hblock, solid_cons_of_not_white [] (isWhite_of_isBraceBlock hblock)]
    rfl

namespace Declaration

variable {nested : Bool} {d : Declaration}

/-- What was read after the colon but for the white-space in front. -/
def body (d : Declaration) : List Component := d.value ++ d.beforeMark ++ d.mark ++ d.afterMark

theorem endsInMark_afterColon_iff (h : ∀ c ∈ d.beforeValue, c.isWhite) :
    EndsInMark d.afterColon ↔ EndsInMark d.body := by
  have hsolid : solid d.afterColon = solid d.body := by
    simp only [afterColon, body, solid_append, solid_of_white h, List.nil_append]
  rw [EndsInMark, EndsInMark, hsolid]

theorem isImportant_iff_ne_nil : d.isImportant ↔ d.mark ≠ [] := by
  simp [isImportant]

/-- The body of a well-formed declaration is split into its parts. -/
theorem IsWellFormed.splitImportant_body (h : d.IsWellFormed nested) :
    splitImportant d.body = ⟨d.value, d.beforeMark, d.mark, d.afterMark⟩ := by
  refine splitImportant_eq_iff.2 ⟨rfl, h.getLast_value, h.beforeMark, h.afterMark, ?_⟩
  by_cases himportant : d.isImportant
  · exact .inl (h.mark himportant)
  · have hmark : d.mark = [] := by simpa [isImportant] using himportant
    rw [h.isImportant_iff, endsInMark_afterColon_iff h.beforeValue] at himportant
    exact .inr ⟨hmark, h.unmarked (by simp [isImportant, hmark]), himportant⟩

/-- White-space ends no declaration. -/
private theorem endsDeclaration_of_isWhite {c : Component} (h : c.isWhite) :
    endsDeclaration nested c = false := by
  rw [← Bool.not_eq_true]
  intro hends
  rw [isWhite_of_endsDeclaration hends] at h
  cases h

private theorem endsDeclaration_of_isMark {mark : List Component} (h : IsMark mark) :
    ∀ c ∈ mark, endsDeclaration nested c = false := by
  obtain ⟨bang, gap, word, rfl, hbang, hword, hgap⟩ := h
  have hbang' : endsDeclaration nested bang = false := by
    unfold isBang at hbang
    split at hbang
    · simp [endsDeclaration, isSemicolon, isStrayBrace, TokenKind.isSemicolon, TokenKind.isClosing]
    · contradiction
  have hword' : endsDeclaration nested word = false := by
    unfold isImportantIdent at hword
    split at hword
    · simp [endsDeclaration, isSemicolon, isStrayBrace, TokenKind.isSemicolon, TokenKind.isClosing]
    · contradiction
  simp only [List.mem_cons, List.mem_append, List.not_mem_nil, or_false]
  rintro c (rfl | hc | rfl)
  · exact hbang'
  · exact endsDeclaration_of_isWhite (hgap c hc)
  · exact hword'

theorem IsWellFormed.ends_body (h : d.IsWellFormed nested) :
    ∀ c ∈ d.body, endsDeclaration nested c = false := by
  intro c hc
  simp only [body, List.mem_append] at hc
  rcases hc with ((hvalue | hbefore) | hmark) | hafter
  · exact h.ends_value c hvalue
  · exact endsDeclaration_of_isWhite (h.beforeMark c hbefore)
  · have himportant := isImportant_iff_ne_nil.2 (List.ne_nil_of_mem hmark)
    exact endsDeclaration_of_isMark (h.mark himportant) c hmark
  · exact endsDeclaration_of_isWhite (h.afterMark c hafter)

private theorem isWhite_of_isColon {t : Token} (h : t.kind.isColon) : t.isWhite = false := by
  rw [Token.isWhite]
  cases hkind : t.kind with
  | whitespace | comment =>
    rw [hkind] at h
    cases h
  | _ => rfl

/-- A well-formed declaration in front of what ends it is read. -/
theorem IsWellFormed.take?_eq {rest : List Component} (h : d.IsWellFormed nested)
    (hends : ∀ c ∈ rest.head?, endsDeclaration nested c) :
    take? nested (d.components ++ rest) = some (d, rest) := by
  have hcolon := isWhite_of_isColon h.colon
  have hparts : d.components ++ rest = .token d.name :: (d.afterName ++ .token d.colon ::
      (d.beforeValue ++ (d.body ++ rest))) := by
    simp [components, body]
  have hname : splitRun Component.isWhite (d.afterName ++ .token d.colon ::
      (d.beforeValue ++ (d.body ++ rest))) = (d.afterName, .token d.colon ::
        (d.beforeValue ++ (d.body ++ rest))) := by
    refine splitRun_eq_iff.2 ⟨rfl, h.afterName, ?_⟩
    intro c hc
    cases hc
    exact hcolon
  have hvalue : splitRun Component.isWhite (d.beforeValue ++ (d.body ++ rest)) =
      (d.beforeValue, d.body ++ rest) := by
    refine splitRun_eq_iff.2 ⟨rfl, h.beforeValue, ?_⟩
    obtain ⟨c, cs, hvalue⟩ := List.exists_cons_of_ne_nil h.value_ne_nil
    have hhead : (d.body ++ rest).head? = d.value.head? := by
      rw [body, hvalue]
      rfl
    rw [hhead]
    exact h.head_value
  have hbody : splitRun (!endsDeclaration nested ·) (d.body ++ rest) = (d.body, rest) := by
    refine splitRun_eq_iff.2 ⟨rfl, ?_, ?_⟩
    · intro c hc
      simp [h.ends_body c hc]
    · intro c hc
      simp [hends c hc]
  have hdeclaration : isDeclarationValue d.value :=
    (isDeclarationValue_iff h.head_value h.getLast_value).2 ⟨h.value_ne_nil, h.block_value⟩
  obtain ⟨name, hname'⟩ := h.name
  simp only [hparts, take?, hname', hname, h.colon, hvalue, hbody, h.splitImportant_body, hdeclaration,
    if_true]

/-- A declaration whose body was split is important if there was a mark. -/
private theorem isImportant_of_split (hwhite : ∀ c ∈ d.beforeValue, c.isWhite)
    (h : splitImportant d.body = ⟨d.value, d.beforeMark, d.mark, d.afterMark⟩) :
    (d.isImportant ↔ EndsInMark d.afterColon) ∧ (d.isImportant → IsMark d.mark) ∧
      (¬d.isImportant → d.afterMark = []) := by
  obtain ⟨-, -, -, hafter, hmark | ⟨hnil, hafter, hnone⟩⟩ := splitImportant_eq_iff.1 h
  · have himportant : d.isImportant := isImportant_iff_ne_nil.2 hmark.ne_nil
    have hends : EndsInMark d.body := endsInMark_iff.2 ⟨_, isMarked_iff.2 ⟨_, _, hmark, rfl, hafter⟩⟩
    rw [← endsInMark_afterColon_iff hwhite] at hends
    exact ⟨iff_of_true himportant hends, fun _ => hmark, fun hnot => absurd himportant hnot⟩
  · have hnot : ¬d.isImportant := by simp [isImportant, hnil]
    rw [← endsInMark_afterColon_iff hwhite] at hnone
    exact ⟨iff_of_false hnot hnone, fun h => absurd h hnot, fun _ => hafter⟩

theorem isWellFormed_of_take? {cs rest : List Component} (h : take? nested cs = some (d, rest)) :
    d.IsWellFormed nested ∧ ∀ c ∈ rest.head?, endsDeclaration nested c := by
  obtain ⟨afterName, afterColon, written, _, rfl, hname, hcolon, hgap, hbefore, hwritten, hsplit, hvalue⟩ :=
    parts_of_take? h
  obtain ⟨-, hafterName, -⟩ := splitRun_eq_iff.1 hgap
  obtain ⟨-, hbeforeValue, hsolid⟩ := splitRun_eq_iff.1 hbefore
  obtain ⟨rfl, hinner, hends⟩ := splitRun_eq_iff.1 hwritten
  obtain ⟨rfl, hlast, hbeforeMark, hafterMark, -⟩ := splitImportant_eq_iff.1 hsplit
  obtain ⟨himportant, hmarked, hunmarked⟩ := isImportant_of_split hbeforeValue hsplit
  have hhead : ∀ c ∈ d.value.head?, c.isWhite = false := by
    intro c hc
    obtain ⟨cs, hcs⟩ := List.head?_eq_some_iff.1 hc
    refine hsolid c ?_
    rw [hcs]
    rfl
  obtain ⟨hnonempty, hblock⟩ := (isDeclarationValue_iff hhead hlast).1 hvalue
  refine ⟨?_, fun c hc => by simpa using hends c hc⟩
  exact {
    name := hname
    afterName := hafterName
    colon := hcolon
    beforeValue := hbeforeValue
    value_ne_nil := hnonempty
    head_value := hhead
    getLast_value := hlast
    ends_value := fun c hc => by simpa using hinner c (by simp [hc])
    block_value := hblock
    beforeMark := hbeforeMark
    afterMark := hafterMark
    isImportant_iff := himportant
    mark := hmarked
    unmarked := hunmarked }

/-- Whether component values begin with the parts of a well-formed declaration, in front of what ends it. -/
def Begins (nested : Bool) (d : Declaration) (cs : List Component) : Prop :=
  d.IsWellFormed nested ∧ ∃ rest, cs = d.components ++ rest ∧ ∀ c ∈ rest.head?, endsDeclaration nested c

/-- A declaration is read from component values exactly if they begin with it. -/
theorem take?_eq_some_iff {cs rest : List Component} :
    take? nested cs = some (d, rest) ↔ cs = d.components ++ rest ∧ d.IsWellFormed nested ∧
      ∀ c ∈ rest.head?, endsDeclaration nested c := by
  constructor
  · intro h
    exact ⟨(components_take? h).symm, isWellFormed_of_take? h⟩
  · rintro ⟨rfl, hd, hends⟩
    exact hd.take?_eq hends

theorem begins_iff {cs : List Component} : d.Begins nested cs ↔ ∃ rest, take? nested cs = some (d, rest) := by
  simp only [Begins, take?_eq_some_iff]
  constructor
  · rintro ⟨hd, rest, hcs, hends⟩
    exact ⟨rest, hcs, hd, hends⟩
  · rintro ⟨rest, hcs, hd, hends⟩
    exact ⟨hd, rest, hcs, hends⟩

end Declaration

end Styling
