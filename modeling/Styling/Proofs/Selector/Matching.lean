import Mathlib.Data.Prod.Lex
import Mathlib.Order.Bounds.Basic
import Styling.Proofs.Text.Ascii
import Styling.Selector.Basic

/-!
# What selectors match

A selector matches an identity if it asks for nothing but ids and classes that the identity has
(`Selector.isMatch_iff_describes`). A selector list matches where one of its selectors does, and its
specificity is then the greatest count of ids, classes and types among those that do
(`SelectorList.specificityFor?_isGreatest`).
-/

namespace Styling

namespace CaseSensitivity

/-- Two names that count as one. -/
def Identifies : CaseSensitivity → String → String → Prop
  | sensitive, a, b => a = b
  | asciiInsensitive, a, b => List.Forall₂ Text.IsSameLetter a.toList b.toList

theorem same_iff (mode : CaseSensitivity) (a b : String) : mode.same a b ↔ mode.Identifies a b := by
  cases mode with
  | sensitive => exact beq_iff_eq
  | asciiInsensitive => exact Text.eqIgnoringAsciiCase_iff a b

/-- Looking a name up and going through the names come to the same. -/
theorem contains_iff (mode : CaseSensitivity) (names : List String) (name : String) :
    mode.contains names name ↔ ∃ n ∈ names, mode.Identifies n name := by
  cases mode with
  | sensitive => simp [contains, Identifies]
  | asciiInsensitive => simp only [contains, List.any_eq_true, same_iff]

/-- Names that are equal are also equal up to case. -/
theorem identifies_asciiInsensitive {a b : String} (h : sensitive.Identifies a b) :
    asciiInsensitive.Identifies a b := by
  obtain rfl : a = b := h
  exact List.forall₂_same.2 fun c _ => .inl rfl

end CaseSensitivity

/-! ## Matching -/

/-- A selector that asks for ids and classes alone, all of which the identity has. -/
structure Selector.Describes (mode : CaseSensitivity) (i : Identity) (s : Selector) : Prop where
  plain : ∀ c ∈ s.components,
    c = .universal ∨ (∃ name, c = .idName name) ∨ ∃ name, c = .className name
  ids : ∀ name, .idName name ∈ s.components → ∃ id ∈ i.id, mode.Identifies id name
  classes : ∀ name, .className name ∈ s.components → ∃ n ∈ i.classes, mode.Identifies n name

variable {mode : CaseSensitivity} {i j : Identity}

theorem SimpleSelector.isMatch_idName (name : String) :
    (SimpleSelector.idName name).isMatch mode i ↔ ∃ id ∈ i.id, mode.Identifies id name := by
  simp [isMatch, Option.any_eq_true, CaseSensitivity.same_iff]

theorem SimpleSelector.isMatch_className (name : String) :
    (SimpleSelector.className name).isMatch mode i ↔ ∃ n ∈ i.classes, mode.Identifies n name :=
  mode.contains_iff i.classes name

namespace Selector

theorem isMatch_iff_describes (s : Selector) : s.isMatch mode i ↔ s.Describes mode i := by
  rw [isMatch, List.all_eq_true]
  constructor
  · intro h
    refine ⟨fun c hc => ?_, fun name hname => ?_, fun name hname => ?_⟩
    · cases c with
      | universal => exact .inl rfl
      | idName name => exact .inr (.inl ⟨name, rfl⟩)
      | className name => exact .inr (.inr ⟨name, rfl⟩)
      | _ => cases h _ hc
    · exact (SimpleSelector.isMatch_idName name).1 (h _ hname)
    · exact (SimpleSelector.isMatch_className name).1 (h _ hname)
  · intro h c hc
    rcases h.plain c hc with rfl | ⟨name, rfl⟩ | ⟨name, rfl⟩
    · rfl
    · exact (SimpleSelector.isMatch_idName name).2 (h.ids name hc)
    · exact (SimpleSelector.isMatch_className name).2 (h.classes name hc)

theorem Describes.asciiInsensitive {s : Selector} (h : s.Describes .sensitive i) :
    s.Describes .asciiInsensitive i where
  plain := h.plain
  ids name hname := by
    obtain ⟨id, hid, hsame⟩ := h.ids name hname
    exact ⟨id, hid, CaseSensitivity.identifies_asciiInsensitive hsame⟩
  classes name hname := by
    obtain ⟨n, hn, hsame⟩ := h.classes name hname
    exact ⟨n, hn, CaseSensitivity.identifies_asciiInsensitive hsame⟩

/-- An identity with more classes is described by all that describes it with fewer. -/
theorem Describes.mono {s : Selector} (h : s.Describes mode i) (hid : j.id = i.id)
    (hclasses : i.classes ⊆ j.classes) : s.Describes mode j where
  plain := h.plain
  ids := by rw [hid]; exact h.ids
  classes name hname := by
    obtain ⟨n, hn, hsame⟩ := h.classes name hname
    exact ⟨n, hclasses hn, hsame⟩

end Selector

/-! ## Specificity -/

namespace SimpleSelector

def isId : SimpleSelector → Bool
  | idName _ => true
  | _ => false

/-- Whether a simple selector counts among the classes, as those for attributes and states do. -/
def isClassLike : SimpleSelector → Bool
  | className _ | attributeName .. | pseudoClass .. => true
  | _ => false

def isType : SimpleSelector → Bool
  | typeName _ => true
  | _ => false

end SimpleSelector

/-- How many ids, classes and types there are in a selector, ids first. -/
def Selector.counts (s : Selector) : ℕ ×ₗ ℕ ×ₗ ℕ :=
  toLex (s.components.countP (·.isId),
    toLex (s.components.countP (·.isClassLike), s.components.countP (·.isType)))

namespace Specificity

/-- The triple that a specificity is. -/
def counts (x : Specificity) : ℕ ×ₗ ℕ ×ₗ ℕ := toLex (x.ids, toLex (x.classes, x.types))

theorem counts_inj {x y : Specificity} : x.counts = y.counts ↔ x = y := by
  rcases x with ⟨ids, classes, types⟩
  rcases y with ⟨ids', classes', types'⟩
  simp [counts]

theorem less_iff (x y : Specificity) : x.less y ↔ x.counts < y.counts := by
  simp [less, counts, Prod.Lex.toLex_lt_toLex]

/-- Taking the greater one step after another keeps the greatest of all. -/
theorem foldl_isGreatest (x : Specificity) (xs : List Specificity) :
    IsGreatest {t | ∃ y ∈ x :: xs, y.counts = t}
      (xs.foldl (fun best y => if best.less y then y else best) x).counts := by
  induction xs generalizing x with
  | nil => simp [IsGreatest, upperBounds]
  | cons y ys ih =>
    obtain ⟨⟨z, hz, hbest⟩, hbound⟩ := ih (if x.less y then y else x)
    have hstep : x.counts ≤ (if x.less y then y else x).counts ∧
        y.counts ≤ (if x.less y then y else x).counts := by
      by_cases hless : x.less y
      · rw [if_pos hless]
        exact ⟨le_of_lt ((less_iff x y).1 hless), le_rfl⟩
      · rw [if_neg hless]
        exact ⟨le_rfl, not_lt.1 fun hlt => hless ((less_iff x y).2 hlt)⟩
    have hhead := hbound ⟨_, List.mem_cons_self, rfl⟩
    rw [List.foldl_cons]
    constructor
    · refine ⟨z, ?_, hbest⟩
      rcases List.mem_cons.1 hz with rfl | hz
      · split <;> simp
      · exact List.mem_cons_of_mem _ (List.mem_cons_of_mem _ hz)
    · rintro t ⟨w, hw, rfl⟩
      rcases List.mem_cons.1 hw with rfl | hw
      · exact hstep.1.trans hhead
      · rcases List.mem_cons.1 hw with rfl | hw
        · exact hstep.2.trans hhead
        · exact hbound ⟨w, List.mem_cons_of_mem _ hw, rfl⟩

theorem greatest?_eq_some_iff (xs : List Specificity) (x : Specificity) :
    greatest? xs = some x ↔ IsGreatest {t | ∃ y ∈ xs, y.counts = t} x.counts := by
  cases xs with
  | nil => simp [greatest?, IsGreatest]
  | cons y ys =>
    have hgreatest := foldl_isGreatest y ys
    rw [greatest?, Option.some_inj, ← counts_inj]
    constructor
    · intro h
      rwa [← h]
    · exact fun h => hgreatest.unique h

theorem greatest?_eq_none_iff (xs : List Specificity) : greatest? xs = none ↔ xs = [] := by
  cases xs <;> simp [greatest?]

end Specificity

/-- Adding up what the components count for gives the counts. -/
theorem Selector.counts_specificity (s : Selector) : s.specificity.counts = s.counts := by
  have hsum : ∀ (cs : List SimpleSelector) (x : Specificity),
      (cs.map SimpleSelector.specificity).foldl .add x =
        ⟨x.ids + cs.countP (·.isId), x.classes + cs.countP (·.isClassLike),
          x.types + cs.countP (·.isType)⟩ := by
    intro cs
    induction cs with
    | nil => intro x; rfl
    | cons c cs ih =>
      intro x
      rw [List.map_cons, List.foldl_cons, ih]
      cases c <;>
        simp [Specificity.add, Specificity.zero, SimpleSelector.specificity, SimpleSelector.isId,
          SimpleSelector.isClassLike, SimpleSelector.isType] <;> omega
  rw [specificity, hsum, counts]
  simp [Specificity.counts, Specificity.zero]

namespace SelectorList

variable (l : SelectorList)

theorem isMatch_iff_describes : l.isMatch mode i ↔ ∃ s ∈ l.selectors, s.Describes mode i := by
  simp only [isMatch, List.any_eq_true, Selector.isMatch_iff_describes]

theorem specificityFor?_eq_some_iff (x : Specificity) : l.specificityFor? mode i = some x ↔
    IsGreatest {t | ∃ s ∈ l.selectors, s.Describes mode i ∧ s.counts = t} x.counts := by
  have hcounts : {t | ∃ y ∈ (l.selectors.filter (·.isMatch mode i)).map Selector.specificity,
      y.counts = t} = {t | ∃ s ∈ l.selectors, s.Describes mode i ∧ s.counts = t} := by
    ext t
    simp [Selector.isMatch_iff_describes, Selector.counts_specificity, and_assoc]
  rw [specificityFor?, Specificity.greatest?_eq_some_iff, hcounts]

theorem specificityFor?_eq_none_iff :
    l.specificityFor? mode i = none ↔ l.isMatch mode i = false := by
  rw [specificityFor?, Specificity.greatest?_eq_none_iff, List.map_eq_nil_iff,
    List.filter_eq_nil_iff, isMatch, List.any_eq_false]

/-- A selector list matches an identity if one of its selectors asks for ids and classes alone, all of
which the identity has. It has no specificity where it does not match, and else the greatest counts of the
selectors that do. What matches exactly matches up to case, and an identity that gets more classes is still
matched, with no lower specificity. -/
theorem specificityFor?_isGreatest (mode : CaseSensitivity) (i : Identity) :
    (l.isMatch mode i ↔ ∃ s ∈ l.selectors, s.Describes mode i) ∧
    (l.specificityFor? mode i = none ↔ l.isMatch mode i = false) ∧
    (∀ x, l.specificityFor? mode i = some x ↔
      IsGreatest {t | ∃ s ∈ l.selectors, s.Describes mode i ∧ s.counts = t} x.counts) ∧
    (l.isMatch .sensitive i → l.isMatch .asciiInsensitive i) ∧
    ∀ j : Identity, j.id = i.id → i.classes ⊆ j.classes →
      (l.isMatch mode i → l.isMatch mode j) ∧
      ∀ x ∈ l.specificityFor? mode i, ∃ y ∈ l.specificityFor? mode j, x.counts ≤ y.counts := by
  refine ⟨l.isMatch_iff_describes, l.specificityFor?_eq_none_iff, l.specificityFor?_eq_some_iff,
    fun h => ?_, fun j hid hclasses => ?_⟩
  · obtain ⟨s, hs, hdescribes⟩ := l.isMatch_iff_describes.1 h
    exact l.isMatch_iff_describes.2 ⟨s, hs, hdescribes.asciiInsensitive⟩
  · have hmatch : l.isMatch mode i → l.isMatch mode j := by
      intro h
      obtain ⟨s, hs, hdescribes⟩ := l.isMatch_iff_describes.1 h
      exact l.isMatch_iff_describes.2 ⟨s, hs, hdescribes.mono hid hclasses⟩
    refine ⟨hmatch, fun x hx => ?_⟩
    obtain ⟨⟨s, hs, hdescribes, hcounts⟩, -⟩ := (l.specificityFor?_eq_some_iff x).1 hx
    cases hy : l.specificityFor? mode j with
    | none =>
      have hnone := l.specificityFor?_eq_none_iff.1 hy
      rw [hmatch (l.isMatch_iff_describes.2 ⟨s, hs, hdescribes⟩)] at hnone
      cases hnone
    | some y =>
      obtain ⟨-, hbound⟩ := (l.specificityFor?_eq_some_iff y).1 hy
      exact ⟨y, rfl, hcounts ▸ hbound ⟨s, hs, hdescribes.mono hid hclasses, rfl⟩⟩

/-- Of three selectors, one for a type, the first and then the second describe the identity. -/
theorem specificityFor?_isGreatest_panel :
    let l : SelectorList := ⟨[⟨[.className "Panel"]⟩, ⟨[.className "panel", .className "dark"]⟩,
      ⟨[.typeName "box", .idName "menu"]⟩]⟩
    l.isMatch .sensitive ⟨none, ["Panel"]⟩ ∧ l.isMatch .asciiInsensitive ⟨none, ["Panel"]⟩ ∧
      (["Panel"] : List String) ⊆ ["Panel", "dark"] ∧
      l.specificityFor? .asciiInsensitive ⟨none, ["Panel"]⟩ = some ⟨0, 1, 0⟩ ∧
      ∃ y ∈ l.specificityFor? .asciiInsensitive ⟨none, ["Panel", "dark"]⟩,
        Specificity.counts ⟨0, 1, 0⟩ ≤ y.counts := by
  intro l
  have hmatch : l.isMatch .sensitive ⟨none, ["Panel"]⟩ := by decide
  have hclasses : (["Panel"] : List String) ⊆ ["Panel", "dark"] := by simp
  have hx : l.specificityFor? .asciiInsensitive ⟨none, ["Panel"]⟩ = some ⟨0, 1, 0⟩ := by decide
  obtain ⟨-, -, -, hcase, hmore⟩ :=
    l.specificityFor?_isGreatest .asciiInsensitive ⟨none, ["Panel"]⟩
  obtain ⟨-, hnotLess⟩ := hmore ⟨none, ["Panel", "dark"]⟩ rfl hclasses
  exact ⟨hmatch, hcase hmatch, hclasses, hx, hnotLess _ hx⟩

end SelectorList

end Styling
