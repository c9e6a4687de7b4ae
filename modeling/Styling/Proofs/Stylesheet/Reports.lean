import Mathlib
import Styling.Proofs.Rule.WellFormed
import Styling.Proofs.Selector.Accepted
import Styling.Proofs.Stylesheet.Recovery
import Styling.Proofs.Token.Order
import Styling.Proofs.Value.Location

/-!
# One report for each loss, and where it points

A rule comes to a style rule or to one report, and so does an item of a block to a setting or to one
report, unless the selectors before the block are invalid. A report names the place of a token of what it
is about, and reports come in the order of these places. The exception is a block with nothing before it,
whose report names no place (`Stylesheet.parse_reports`).
-/

namespace Styling

open Component

variable {resolve : Color.Resolver}

/-- The error names the place of one of the tokens. -/
def ParseError.IsWithin (e : ParseError) (ts : List Token) : Prop :=
  ∃ t ∈ ts, e.location = some t.location

/-- What an item of a declaration list comes to: a setting, or one report of what it fails by. -/
inductive Item.Settles (resolve : Color.Resolver) : Item → Outcome Setting → Prop
  | loose (t : Token) : Settles resolve (.loose t) .none
  | setting {d s c} : (ValueReader.setting resolve d.property (some d.name.location)).run
      (.ofList d.value none) = .ok s c → Settles resolve (.declaration d) (.result s)
  | failed {i report} : i.Fails resolve report.error →
      report.error.IsWithin (listTokens i.components) → Settles resolve i (.report report)

/-- What a rule comes to: a style rule, with what the items of its block come to, or one report of what
the rule itself fails by. -/
inductive Rule.Settles (resolve : Color.Resolver) : Rule → Outcome StyleRule → Prop
  | loose (t : Token) : Settles resolve (.loose t) .none
  | atRule {r report} : (Rule.atRule r).Fails resolve report.error →
      report.error.IsWithin (Rule.atRule r).tokens → Settles resolve (.atRule r) (.report report)
  | unfinished {prelude report} : (Rule.unfinished prelude).Fails resolve report.error →
      report.error.IsWithin (Rule.unfinished prelude).tokens →
      Settles resolve (.unfinished prelude) (.report report)
  | rejected {prelude block report} : SelectorList.ofComponents prelude = .error report.error →
      prelude ≠ [] → report.error.IsWithin (Rule.qualified prelude block).tokens →
      Settles resolve (.qualified prelude block) (.report report)
  | headless {block report} : SelectorList.ofComponents [] = .error report.error →
      report.location = none → Settles resolve (.qualified [] block) (.report report)
  | accepted {prelude block selectors os} : SelectorList.ofComponents prelude = .ok selectors →
      List.Forall₂ (Item.Settles resolve) block.items os →
      Settles resolve (.qualified prelude block)
        ⟨[⟨selectors, (Outcome.join os).results⟩], (Outcome.join os).reports, none⟩

/-! ## Where errors are -/

theorem ParseError.IsWithin.mono {e : ParseError} {ts us : List Token} (h : e.IsWithin ts)
    (hsub : ts ⊆ us) : e.IsWithin us := by
  rcases h with ⟨t, ht, hlocation⟩
  exact ⟨t, hsub ht, hlocation⟩

theorem head_mem_listTokens {c : Component} {cs : List Component} (h : c ∈ cs) :
    c.head ∈ listTokens cs := by
  induction cs with
  | nil => cases h
  | cons d ds ih =>
    rw [listTokens, List.mem_append]
    cases h with
    | head => cases c <;> simp [tokens, Component.head]
    | tail _ h => exact .inr (ih h)

theorem Declaration.isWithin_of_fails {d : Declaration} {e : ParseError} (h : d.Fails resolve e)
    (hvalue : d.value ≠ []) : e.IsWithin (listTokens d.components) := by
  have hmem : ∀ c ∈ d.value, c.head ∈ listTokens d.components := by
    intro c hc
    apply head_mem_listTokens
    simp [components, hc]
  rcases h with ⟨c, hrun⟩
  rcases ValueReader.location_of_setting_eq_error hrun with hname | hlast | ⟨v, hv, hplace⟩
  · exact ⟨d.name, head_mem_listTokens (c := .token d.name) List.mem_cons_self, hname⟩
  · have hend : e.location = d.value.getLast?.map Component.location := hlast
    rw [List.getLast?_eq_some_getLast hvalue] at hend
    exact ⟨_, hmem _ (List.getLast_mem hvalue), hend⟩
  · exact ⟨v.head, hmem v hv, hplace⟩

theorem Item.isWithin_of_fails {i : Item} {e : ParseError} (hi : i.IsWellFormed)
    (h : i.Fails resolve e) : e.IsWithin (listTokens i.components) := by
  cases h with
  | declaration hfails => exact Declaration.isWithin_of_fails hfails hi
  | malformed cs =>
    cases cs with
    | nil => exact absurd rfl hi
    | cons c cs => exact ⟨c.head, head_mem_listTokens List.mem_cons_self, rfl⟩
  | atRule r => exact ⟨r.keyword, head_mem_listTokens (c := .token r.keyword) List.mem_cons_self, rfl⟩

/-! ## What items and rules come to -/

theorem Declaration.settles_outcome {d : Declaration} (hvalue : d.value ≠ [])
    (hfault : (d.outcome resolve).fault = none) :
    (Item.declaration d).Settles resolve (d.outcome resolve) := by
  have hreported : ∀ report, d.outcome resolve = .report report →
      (Item.declaration d).Settles resolve (d.outcome resolve) := by
    intro report hreport
    have hfails : d.Fails resolve report.error := by
      rw [← Declaration.mem_errors_outcome, hreport]
      exact List.mem_singleton_self _
    rw [hreport]
    exact .failed (.declaration hfails) (isWithin_of_fails hfails hvalue)
  cases hrun : (ValueReader.setting resolve d.property (some d.name.location)).run
    (.ofList d.value none) with
  | ok s c =>
    have hresult : d.outcome resolve = .result s := by rw [outcome, hrun]
    rw [hresult]
    exact .setting hrun
  | error failure c =>
    cases failure with
    | parse e =>
      by_cases hcategory : e.category = .property
      · exact hreported _ (by rw [outcome, hrun]; exact if_pos hcategory)
      · exact hreported _ (by rw [outcome, hrun]; exact if_neg hcategory)
    | fault f =>
      rw [outcome, hrun] at hfault
      cases hfault

theorem Item.settles_outcome {i : Item} (hi : i.IsWellFormed)
    (hfault : (i.outcome resolve).fault = none) : i.Settles resolve (i.outcome resolve) := by
  cases i with
  | loose t => exact .loose t
  | declaration d => exact Declaration.settles_outcome hi hfault
  | malformed cs =>
    have hfails : (malformed cs).Fails resolve _ := .malformed cs
    exact .failed hfails (isWithin_of_fails hi hfails)
  | atRule r =>
    have hfails : (atRule r).Fails resolve _ := .atRule r
    exact .failed hfails (isWithin_of_fails hi hfails)

theorem Item.exists_settles_listOutcome {items : List Item} (hitems : ∀ i ∈ items, i.IsWellFormed)
    (hfault : (listOutcome resolve items).fault = none) :
    ∃ os, List.Forall₂ (Settles resolve) items os ∧ listOutcome resolve items = .join os := by
  refine ⟨_, List.forall₂_map_right_iff.2 (List.forall₂_same.2 ?_), Outcome.collect_eq_join hfault⟩
  exact fun i hi => settles_outcome (hitems i hi) (Outcome.fault_collect_eq_none_iff.1 hfault i hi)

theorem Rule.settles_outcome {r : Rule} (hr : r.IsWellFormed)
    (hfault : (r.outcome resolve).fault = none) : r.Settles resolve (r.outcome resolve) := by
  cases r with
  | loose t => exact .loose t
  | atRule r =>
    exact .atRule (.atRule r) ⟨r.keyword, head_mem_listTokens (c := .token r.keyword)
      List.mem_cons_self, rfl⟩
  | unfinished prelude =>
    cases prelude with
    | nil => exact absurd rfl hr
    | cons c cs =>
      refine .unfinished (.unfinished _) ⟨c.head, head_mem_listTokens List.mem_cons_self, ?_⟩
      show (listTokens (c :: cs)).head?.map Token.location = some c.head.location
      rw [head?_listTokens_cons]
      rfl
  | qualified prelude block =>
    obtain ⟨hprelude, hitems⟩ := hr
    rw [outcome] at hfault ⊢
    cases hselectors : SelectorList.ofComponents prelude with
    | error e =>
      cases prelude with
      | nil =>
        cases hselectors
        exact .headless rfl rfl
      | cons c cs =>
        have hsolid : ∃ t ∈ listTokens (c :: cs), t.isWhite = false :=
          ⟨c.head, head_mem_listTokens List.mem_cons_self, hprelude c rfl⟩
        have hwithin : e.IsWithin (listTokens (c :: cs)) :=
          SelectorList.exists_location_of_ofTokens_eq_error hselectors hsolid
        exact .rejected hselectors (List.cons_ne_nil c cs)
          (hwithin.mono (List.subset_append_left _ _))
    | ok selectors =>
      simp only [hselectors, Outcome.fault_gather] at hfault
      dsimp only
      obtain ⟨os, hos, hjoin⟩ := Item.exists_settles_listOutcome hitems hfault
      rw [Outcome.gather_of_fault_eq_none _ hfault, hjoin]
      exact .accepted hselectors hos

/-! ## The order of the places -/

/-- The places that the reports name. -/
def placesOf (reports : List Report) : List Source.Location := reports.filterMap Report.location

/-- Reports of a list name places of its elements in order if the reports of each element do, also where
reading breaks off. -/
theorem placesOf_collect_sublist {α β : Type} {f : α → Outcome β} {as : List α} {g : α → List Token}
    (h : ∀ a ∈ as, (placesOf (f a).reports).Sublist ((g a).map Token.location)) :
    (placesOf (Outcome.collect f as).reports).Sublist ((as.flatMap g).map Token.location) := by
  have hprefix : (placesOf (Outcome.collect f as).reports).Sublist
      (placesOf (as.flatMap fun a => (f a).reports)) :=
    (Outcome.reports_collect_isPrefix f as).sublist.filterMap _
  refine hprefix.trans ?_
  clear hprefix
  induction as with
  | nil => exact .slnil
  | cons a as ih =>
    obtain ⟨ha, has⟩ := List.forall_mem_cons.1 h
    rw [List.flatMap_cons, placesOf, List.filterMap_append, List.flatMap_cons, List.map_append]
    exact ha.append (ih has)

theorem placesOf_report_sublist {r : Report} {ts : List Token} (h : r.error.IsWithin ts) :
    (placesOf [r]).Sublist (ts.map Token.location) := by
  rcases h with ⟨t, ht, hlocation⟩
  have hplaces : placesOf [r] = [t.location] := by
    have hplace : r.location = some t.location := hlocation
    simp [placesOf, hplace]
  rw [hplaces, List.singleton_sublist]
  exact List.mem_map_of_mem ht

theorem Item.Settles.placesOf_sublist {i : Item} {o : Outcome Setting} (h : i.Settles resolve o) :
    (placesOf o.reports).Sublist ((listTokens i.components).map Token.location) := by
  cases h with
  | loose t => exact List.nil_sublist _
  | setting _ => exact List.nil_sublist _
  | failed _ hwithin => exact placesOf_report_sublist hwithin

/-- Nothing is reported of an item in which reading breaks off. -/
theorem Item.reports_outcome_of_fault_ne_none {i : Item}
    (h : (i.outcome resolve).fault ≠ none) : (i.outcome resolve).reports = [] := by
  obtain ⟨d, rfl, -⟩ : i.Breaks resolve := by simpa [fault_outcome_eq_none_iff] using h
  rw [outcome, Declaration.outcome] at h ⊢
  revert h
  cases (ValueReader.setting resolve d.property (some d.name.location)).run
    (.ofList d.value none) with
  | ok s c => simp [Outcome.result]
  | error failure c =>
    cases failure with
    | parse e =>
      dsimp only
      split <;> simp [Outcome.report]
    | fault f => simp [Outcome.broken]

theorem Item.placesOf_outcome_sublist {i : Item} (hi : i.IsWellFormed) :
    (placesOf (i.outcome resolve).reports).Sublist ((listTokens i.components).map Token.location) := by
  by_cases hfault : (i.outcome resolve).fault = none
  · exact (settles_outcome hi hfault).placesOf_sublist
  · rw [reports_outcome_of_fault_ne_none hfault]
    exact List.nil_sublist _

theorem listTokens_listComponents (items : List Item) : listTokens (Item.listComponents items) =
    items.flatMap fun i => listTokens i.components := by
  induction items with
  | nil => rfl
  | cons i items ih =>
    rw [Item.listComponents, List.flatMap_cons, listTokens_append, List.flatMap_cons, ← ih]
    rfl

theorem Rule.placesOf_outcome_sublist {r : Rule} (hr : r.IsWellFormed) :
    (placesOf (r.outcome resolve).reports).Sublist (r.tokens.map Token.location) := by
  by_cases haccepted : ∃ prelude block selectors, r = .qualified prelude block ∧
      SelectorList.ofComponents prelude = .ok selectors
  · obtain ⟨prelude, block, selectors, rfl, hselectors⟩ := haccepted
    have hitems : (placesOf (Item.listOutcome resolve block.items).reports).Sublist
        ((listTokens (Item.listComponents block.items)).map Token.location) := by
      rw [listTokens_listComponents]
      exact placesOf_collect_sublist fun i hi => Item.placesOf_outcome_sublist (hr.2 i hi)
    have hblock : (listTokens (Item.listComponents block.items)).Sublist
        (Rule.qualified prelude block).tokens := by
      simp only [tokens, Block.tokens]
      exact .trans (.trans (List.sublist_append_left _ _) (List.sublist_cons_self _ _))
        (List.sublist_append_right _ _)
    rw [outcome, hselectors]
    dsimp only
    rw [Outcome.reports_gather]
    exact hitems.trans (hblock.map Token.location)
  · have hfault : (r.outcome resolve).fault = none := by
      rw [fault_outcome_eq_none_iff]
      rintro ⟨prelude, block, selectors, hr, hselectors, -⟩
      exact haccepted ⟨prelude, block, selectors, hr, hselectors⟩
    have hsettles := settles_outcome hr hfault
    generalize r.outcome resolve = o at hsettles
    cases hsettles with
    | loose t => exact List.nil_sublist _
    | atRule _ hwithin => exact placesOf_report_sublist hwithin
    | unfinished _ hwithin => exact placesOf_report_sublist hwithin
    | rejected _ _ hwithin => exact placesOf_report_sublist hwithin
    | @headless _ report _ hplace =>
      have hplaces : placesOf [report] = [] := by simp [placesOf, hplace]
      show (placesOf [report]).Sublist _
      rw [hplaces]
      exact List.nil_sublist _
    | accepted hselectors _ => exact absurd ⟨_, _, _, rfl, hselectors⟩ haccepted

/-! ## Reports without a place -/

theorem ParseError.IsWithin.location_ne_none {e : ParseError} {ts : List Token} (h : e.IsWithin ts) :
    e.location ≠ none := by
  rcases h with ⟨t, -, hlocation⟩
  rw [hlocation]
  exact Option.some_ne_none _

theorem not_exists_location_eq_none {α : Type} {report : Report} {ts : List Token}
    (h : report.error.IsWithin ts) :
    ¬ ∃ r ∈ (Outcome.report report : Outcome α).reports, r.location = none := by
  intro hexists
  rcases hexists with ⟨r, hr, hnone⟩
  obtain rfl := List.mem_singleton.1 hr
  exact h.location_ne_none hnone

theorem Item.Settles.exists_location_eq_none_iff {i : Item} {o : Outcome Setting}
    (h : i.Settles resolve o) : (∃ report ∈ o.reports, report.location = none) ↔ False := by
  cases h with
  | loose t => simp [Outcome.none]
  | setting _ => simp [Outcome.result]
  | failed _ hwithin => exact iff_of_false (not_exists_location_eq_none hwithin) id

/-- The one rule that is reported without a place is a block with nothing before it. -/
theorem Rule.Settles.exists_location_eq_none_iff {r : Rule} {o : Outcome StyleRule}
    (h : r.Settles resolve o) :
    (∃ report ∈ o.reports, report.location = none) ↔ ∃ block, .qualified [] block = r := by
  cases h with
  | loose t => simp [Outcome.none]
  | atRule _ hwithin => exact iff_of_false (not_exists_location_eq_none hwithin) (by simp)
  | unfinished _ hwithin => exact iff_of_false (not_exists_location_eq_none hwithin) (by simp)
  | rejected _ hprelude hwithin =>
    exact iff_of_false (not_exists_location_eq_none hwithin) (by simp [hprelude])
  | @headless block report _ hplace =>
    exact iff_of_true ⟨report, List.mem_singleton_self _, hplace⟩ ⟨block, rfl⟩
  | @accepted prelude block selectors os hselectors hos =>
    have hitems := Outcome.exists_mem_reports_join_iff (p := fun r => r.location = none) hos
      fun _ _ hi => hi.exists_location_eq_none_iff
    rw [hitems]
    apply iff_of_false
    · simp
    · intro hheadless
      rcases hheadless with ⟨block', heq⟩
      obtain ⟨rfl, -⟩ := Rule.qualified.inj heq
      cases hselectors

/-! ## Whole texts -/

/-- What reading a stylesheet comes to, whatever resolves the colours. Every report is at a later place
than the one before, also where reading breaks off, apart from those that name no place. Where there is a
result, its rules hold the tokens of the text in order. Each comes to one style rule or one report, the
items of an accepted rule to one setting or one report, and nothing else is reported; style rules,
settings and reports come in this order. Every report is at a token of the rule or the item that it is
about, but for those of the blocks with nothing before them: these name no place, and no others do. -/
theorem Stylesheet.parse_reports (resolve : Color.Resolver) (text : String) :
    (placesOf (parse resolve text).2).Pairwise Source.Location.IsBefore ∧
    ∀ sheet, (parse resolve text).1 = .ok sheet → ∃ ts os,
      tokenize text = .ok ts ∧ (Rule.ofTokens ts).flatMap Rule.tokens = ts ∧
      List.Forall₂ (Rule.Settles resolve) (Rule.ofTokens ts) os ∧
      sheet.rules = os.flatMap Outcome.results ∧
      (parse resolve text).2 = os.flatMap Outcome.reports ∧
      ((∃ report ∈ (parse resolve text).2, report.location = none) ↔
        ∃ block, .qualified [] block ∈ Rule.ofTokens ts) := by
  constructor
  · show (placesOf (readText _ text).2).Pairwise _
    rw [readText]
    cases hts : tokenize text with
    | error e => exact .nil
    | ok ts =>
      have hrules : ∀ r ∈ Rule.ofTokens ts,
          (placesOf (r.outcome resolve).reports).Sublist (r.tokens.map Token.location) :=
        fun r hr => Rule.placesOf_outcome_sublist (Rule.isWellFormed_of_mem_ofTokens hr)
      have hplaces := placesOf_collect_sublist hrules
      rw [Rule.flatMap_tokens_ofTokens] at hplaces
      dsimp only
      rw [Outcome.reports_finish]
      exact (pairwise_isBefore_of_tokenize hts).sublist hplaces
  · intro sheet h
    obtain ⟨ts, hts, hfault, hrules, hreports⟩ := exists_outcome_of_parse h
    have hjoin := Outcome.collect_eq_join hfault
    have hos : List.Forall₂ (Rule.Settles resolve) (Rule.ofTokens ts)
        ((Rule.ofTokens ts).map (Rule.outcome resolve)) :=
      List.forall₂_map_right_iff.2 (List.forall₂_same.2 fun r hr => Rule.settles_outcome
        (Rule.isWellFormed_of_mem_ofTokens hr) (Outcome.fault_collect_eq_none_iff.1 hfault r hr))
    have hnone := Outcome.exists_mem_reports_join_iff hos
      fun _ _ hr => hr.exists_location_eq_none_iff
    rw [Rule.listOutcome, hjoin] at hrules hreports
    refine ⟨ts, _, hts, Rule.flatMap_tokens_ofTokens ts, hos, hrules, hreports, ?_⟩
    rw [hreports, hnone]
    constructor
    · rintro ⟨r, hr, block, rfl⟩
      exact ⟨block, hr⟩
    · rintro ⟨block, hr⟩
      exact ⟨_, hr, block, rfl⟩

/-- The tokens of `{}a{@m;b}`: a block with nothing before it, and a rule with an at-rule and no
declaration in its block. -/
def headlessBlock : List Token :=
  [⟨.opening .brace, "\x7b", ⟨1, 1⟩⟩, ⟨.closing .brace, "\x7d", ⟨1, 2⟩⟩, ⟨.ident "a", "a", ⟨1, 3⟩⟩,
    ⟨.opening .brace, "\x7b", ⟨1, 4⟩⟩, ⟨.atKeyword "m", "@m", ⟨1, 5⟩⟩, ⟨.semicolon, ";", ⟨1, 7⟩⟩,
    ⟨.ident "b", "b", ⟨1, 8⟩⟩, ⟨.closing .brace, "\x7d", ⟨1, 9⟩⟩]

theorem Stylesheet.parse_reports_headlessBlock : ∃ sheet reports,
    parse (fun _ => .ok .unknown) "\x7b\x7da\x7b@m;b\x7d" = (.ok sheet, reports) ∧
      placesOf reports = [⟨1, 5⟩, ⟨1, 8⟩] ∧
      (placesOf reports).Pairwise Source.Location.IsBefore ∧
      (∃ report ∈ reports, report.location = none) ∧
      ∃ block, .qualified [] block ∈ Rule.ofTokens headlessBlock := by
  have htokens : tokenize "\x7b\x7da\x7b@m;b\x7d" = .ok headlessBlock := by cbv
  have hrules : Rule.ofTokens headlessBlock =
      [.qualified [] ⟨headlessBlock[0], [], headlessBlock[1]⟩,
        .qualified [.token headlessBlock[2]] ⟨headlessBlock[3],
          [.atRule ⟨headlessBlock[4], [], some (.token headlessBlock[5])⟩,
            .malformed [.token headlessBlock[6]]], headlessBlock[7]⟩] := by cbv
  have hrun : ∃ sheet reports,
      parse (fun _ => .ok .unknown) "\x7b\x7da\x7b@m;b\x7d" = (.ok sheet, reports) ∧
        placesOf reports = [⟨1, 5⟩, ⟨1, 8⟩] ∧ ∃ report ∈ reports, report.location = none := by
    rw [parse, readText, htokens]
    dsimp only
    rw [hrules]
    exact ⟨_, _, rfl, rfl, _, List.mem_cons_self, rfl⟩
  obtain ⟨sheet, reports, hparse, hplaces, hnone⟩ := hrun
  obtain ⟨hpairwise, hresult⟩ :=
    parse_reports (fun _ => .ok .unknown) "\x7b\x7da\x7b@m;b\x7d"
  rw [hparse] at hpairwise hresult
  obtain ⟨ts, -, hts, -, -, -, -, hheadless⟩ := hresult sheet rfl
  obtain rfl := Except.ok.inj (htokens.symm.trans hts)
  exact ⟨sheet, reports, hparse, hplaces, hpairwise, hnone, hheadless.1 hnone⟩

end Styling
