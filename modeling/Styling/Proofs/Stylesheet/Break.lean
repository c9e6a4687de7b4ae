import Mathlib
import Styling.Proofs.Stylesheet.Outcome
import Styling.Proofs.Value.Recovery

/-!
# Where reading breaks off

Reading breaks off at a colour at whose text the resolver does, if it is read at all: as the value of a
declaration, which is an item of the list that is read or of the block of a rule with valid selectors.
-/

namespace Styling

variable {resolve : Color.Resolver}

/-- Whether the resolver breaks off at the text that a declaration sets a colour to. -/
def Declaration.Breaks (resolve : Color.Resolver) (d : Declaration) : Prop :=
  Property.ofName? d.property = some .color ∧
    ∃ value ∈ (d.value.dropWhile Component.isWhite).head?, ∃ f, resolve value.source = .error f

def Item.Breaks (resolve : Color.Resolver) (i : Item) : Prop :=
  ∃ d, i = .declaration d ∧ d.Breaks resolve

/-- Whether reading breaks off in the block of a rule. The block of a rule with invalid selectors is not
read. -/
def Rule.Breaks (resolve : Color.Resolver) (r : Rule) : Prop :=
  ∃ prelude block selectors, r = .qualified prelude block ∧
    SelectorList.ofComponents prelude = .ok selectors ∧ ∃ i ∈ block.items, i.Breaks resolve

theorem Declaration.fault_outcome_eq_some_iff (d : Declaration) (f : Fault) :
    (d.outcome resolve).fault = some f ↔ Property.ofName? d.property = some .color ∧
      ∃ value ∈ (d.value.dropWhile Component.isWhite).head?, resolve value.source = .error f := by
  refine Iff.trans ?_ (ValueReader.setting_fault_iff resolve d.property (some d.name.location) f
    (.ofList d.value none))
  rw [outcome]
  show _ ↔ ∃ c', (ValueReader.setting resolve _ _).run _ = _
  cases (ValueReader.setting resolve d.property (some d.name.location)).run
    (.ofList d.value none) with
  | ok setting c => simp [Outcome.result]
  | error e c =>
    cases e with
    | parse e =>
      dsimp only
      split <;> simp [Outcome.report]
    | fault fault => simp [Outcome.broken]

theorem Declaration.fault_outcome_eq_none_iff (d : Declaration) :
    (d.outcome resolve).fault = none ↔ ¬d.Breaks resolve := by
  rw [Option.eq_none_iff_forall_ne_some]
  simp only [ne_eq, fault_outcome_eq_some_iff, Breaks, ← not_exists]
  apply not_congr
  constructor
  · rintro ⟨f, hcolor, value, hvalue, hf⟩
    exact ⟨hcolor, value, hvalue, f, hf⟩
  · rintro ⟨hcolor, value, hvalue, f, hf⟩
    exact ⟨f, hcolor, value, hvalue, hf⟩

theorem Item.fault_outcome_eq_none_iff (i : Item) :
    (i.outcome resolve).fault = none ↔ ¬i.Breaks resolve := by
  cases i with
  | declaration d =>
    rw [outcome, Declaration.fault_outcome_eq_none_iff]
    simp [Breaks]
  | _ => simp [outcome, Breaks, Outcome.none, AtRule.report, Outcome.report]

theorem Item.fault_listOutcome_eq_none_iff (items : List Item) :
    (listOutcome resolve items).fault = none ↔ ∀ i ∈ items, ¬i.Breaks resolve := by
  rw [listOutcome, Outcome.fault_collect_eq_none_iff]
  simp only [fault_outcome_eq_none_iff]

theorem Item.fault_listOutcome_ne_none_iff (items : List Item) :
    (listOutcome resolve items).fault ≠ none ↔ ∃ i ∈ items, i.Breaks resolve := by
  rw [ne_eq, fault_listOutcome_eq_none_iff]
  simp only [not_forall, not_not, exists_prop]

theorem Rule.fault_outcome_eq_none_iff (r : Rule) :
    (r.outcome resolve).fault = none ↔ ¬r.Breaks resolve := by
  cases r with
  | qualified prelude block =>
    rw [outcome]
    cases hselectors : SelectorList.ofComponents prelude with
    | error e => simp [Breaks, hselectors, Outcome.report]
    | ok selectors =>
      simp [Breaks, hselectors, Outcome.fault_gather, Item.fault_listOutcome_eq_none_iff]
  | _ => simp [outcome, Breaks, Outcome.none, AtRule.report, Outcome.report]

theorem Rule.fault_listOutcome_eq_none_iff (rules : List Rule) :
    (listOutcome resolve rules).fault = none ↔ ∀ r ∈ rules, ¬r.Breaks resolve := by
  rw [listOutcome, Outcome.fault_collect_eq_none_iff]
  simp only [fault_outcome_eq_none_iff]

theorem Rule.fault_listOutcome_ne_none_iff (rules : List Rule) :
    (listOutcome resolve rules).fault ≠ none ↔ ∃ r ∈ rules, r.Breaks resolve := by
  rw [ne_eq, fault_listOutcome_eq_none_iff]
  simp only [not_forall, not_not, exists_prop]

/-! ## Lists in succession -/

theorem Item.listOutcome_append_of_not_breaks {items : List Item} (others : List Item)
    (h : ∀ i ∈ items, ¬i.Breaks resolve) : listOutcome resolve (items ++ others) =
      ⟨(listOutcome resolve items).results ++ (listOutcome resolve others).results,
        (listOutcome resolve items).reports ++ (listOutcome resolve others).reports,
        (listOutcome resolve others).fault⟩ :=
  (Outcome.collect_append (outcome resolve) items others).trans
    (Outcome.append_of_fault_eq_none _ ((fault_listOutcome_eq_none_iff items).2 h))

/-- What follows an item in which reading breaks off is lost. -/
theorem Item.listOutcome_append_of_breaks {items : List Item} (others : List Item)
    (h : ∃ i ∈ items, i.Breaks resolve) :
    listOutcome resolve (items ++ others) = listOutcome resolve items :=
  (Outcome.collect_append (outcome resolve) items others).trans
    (Outcome.append_of_fault_ne_none _ ((fault_listOutcome_ne_none_iff items).2 h))

theorem Rule.listOutcome_append_of_not_breaks {rules : List Rule} (others : List Rule)
    (h : ∀ r ∈ rules, ¬r.Breaks resolve) : listOutcome resolve (rules ++ others) =
      ⟨(listOutcome resolve rules).results ++ (listOutcome resolve others).results,
        (listOutcome resolve rules).reports ++ (listOutcome resolve others).reports,
        (listOutcome resolve others).fault⟩ :=
  (Outcome.collect_append (outcome resolve) rules others).trans
    (Outcome.append_of_fault_eq_none _ ((fault_listOutcome_eq_none_iff rules).2 h))

/-- What follows a rule in which reading breaks off is lost. -/
theorem Rule.listOutcome_append_of_breaks {rules : List Rule} (others : List Rule)
    (h : ∃ r ∈ rules, r.Breaks resolve) :
    listOutcome resolve (rules ++ others) = listOutcome resolve rules :=
  (Outcome.collect_append (outcome resolve) rules others).trans
    (Outcome.append_of_fault_ne_none _ ((fault_listOutcome_ne_none_iff rules).2 h))

/-! ## A colour out of range -/

/-- The component value `rgb(n,0,0)` for a number `n`. -/
def redOf (number : Token) : Component :=
  .group ⟨.function "rgb", "rgb(", ⟨1, 9⟩⟩
    [.token number, .token ⟨.comma, ",", ⟨1, 414⟩⟩,
      .token ⟨.number (.integer 0) none .integer, "0", ⟨1, 415⟩⟩, .token ⟨.comma, ",", ⟨1, 416⟩⟩,
      .token ⟨.number (.integer 0) none .integer, "0", ⟨1, 417⟩⟩]
    (some ⟨.closing .paren, ")", ⟨1, 418⟩⟩)

/-- The tokens of `color:rgb(n,0,0)`. -/
def coloring (number : Token) : List Token :=
  ⟨.ident "color", "color", ⟨1, 3⟩⟩ :: ⟨.colon, ":", ⟨1, 8⟩⟩ :: (redOf number).tokens

/-- An integer of 401 digits, which is out of the range of binary64. -/
def hugeNumber : Token :=
  ⟨.number (.integer (10 ^ 400)) none .integer, String.ofList ('1' :: List.replicate 400 '0'), ⟨1, 13⟩⟩

/-- A resolver that breaks off at a colour out of range and knows no other. -/
def overflowingResolver : Color.Resolver := fun text =>
  if text = (redOf hugeNumber).source then .error ⟨"overflow"⟩ else .ok .unknown

/-- The resolver breaks off at a declaration of this colour. -/
theorem breaks_overflowingResolver {d : Declaration} (hproperty : Property.ofName? d.property = some .color)
    (hvalue : d.value = [redOf hugeNumber]) : d.Breaks overflowingResolver := by
  refine ⟨hproperty, redOf hugeNumber, ?_, ⟨"overflow"⟩, if_pos rfl⟩
  rw [hvalue]
  rfl

end Styling
