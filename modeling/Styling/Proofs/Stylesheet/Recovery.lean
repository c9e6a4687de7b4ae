import Mathlib
import Styling.Proofs.Rule.StreamReader
import Styling.Proofs.Selector.Parse
import Styling.Proofs.Stylesheet.Break
import Styling.Proofs.Token.Failure
import Styling.Proofs.Token.Formation

/-!
# Reading style text goes on after errors

Whatever a rule or an item of a declaration list fails by is reported, and nothing else is. Reading
breaks off at a numeric literal without a value and at a colour at whose text the resolver does, and
nowhere else (`parse_recovers`).
-/

namespace Styling

variable {resolve : Color.Resolver}

/-! ## What is reported -/

/-- Reading the value of a declaration fails by a parse error. -/
def Declaration.Fails (resolve : Color.Resolver) (d : Declaration) (e : ParseError) : Prop :=
  ∃ c, (ValueReader.setting resolve d.property (some d.name.location)).run (.ofList d.value none) =
    .error (.parse e) c

/-- What an item of a declaration list fails by. -/
inductive Item.Fails (resolve : Color.Resolver) : Item → ParseError → Prop
  | declaration {d e} : d.Fails resolve e → Fails resolve (.declaration d) e
  | malformed (cs : List Component) : Fails resolve (.malformed cs) ⟨.general, .unexpectedToken,
      locationOfComponents? cs, some (Text.trim (sourceOfComponents cs))⟩
  | atRule (r : AtRule) : Fails resolve (.atRule r) ⟨.general, .unsupportedAtRule, some r.keyword.location,
      some r.name⟩

/-- What a rule fails by, or what an item of its block does if its selectors are valid. -/
inductive Rule.Fails (resolve : Color.Resolver) : Rule → ParseError → Prop
  | atRule (r : AtRule) : Fails resolve (.atRule r) ⟨.general, .unsupportedAtRule, some r.keyword.location,
      some r.name⟩
  | unfinished (prelude : List Component) : Fails resolve (.unfinished prelude)
      (.ofCategory .rule (unfinished prelude).location? (some "The block is missing"))
  | selectors {prelude e} (block : Block) : SelectorList.ofComponents prelude = .error e →
      Fails resolve (.qualified prelude block) e
  | item {prelude block selectors i e} : SelectorList.ofComponents prelude = .ok selectors →
      i ∈ block.items → i.Fails resolve e → Fails resolve (.qualified prelude block) e

theorem Declaration.mem_errors_outcome (d : Declaration) (e : ParseError) :
    e ∈ (d.outcome resolve).errors ↔ d.Fails resolve e := by
  rw [outcome, Fails]
  cases (ValueReader.setting resolve d.property (some d.name.location)).run
    (.ofList d.value none) with
  | ok setting c => simp
  | error failure c =>
    cases failure with
    | parse error =>
      dsimp only
      split <;> simp [eq_comm]
    | fault f => simp

private theorem mem_errors_report_iff {α : Type} {report : Report} {e : ParseError} {p : Prop}
    (hfails : p → e = report.error) (hreported : e = report.error → p) :
    e ∈ (Outcome.report report : Outcome α).errors ↔ p := by
  rw [Outcome.errors_report, List.mem_singleton]
  exact ⟨hreported, hfails⟩

theorem Item.mem_errors_outcome (i : Item) (e : ParseError) :
    e ∈ (i.outcome resolve).errors ↔ i.Fails resolve e := by
  cases i with
  | loose t =>
    apply iff_of_false List.not_mem_nil
    intro hfails
    cases hfails
  | declaration d =>
    rw [outcome, Declaration.mem_errors_outcome]
    refine ⟨.declaration, ?_⟩
    intro hfails
    rcases hfails with ⟨h⟩
    exact h
  | malformed cs =>
    apply mem_errors_report_iff
    · intro hfails
      cases hfails
      rfl
    · rintro rfl
      exact .malformed cs
  | atRule r =>
    apply mem_errors_report_iff
    · intro hfails
      cases hfails
      rfl
    · rintro rfl
      exact .atRule r

/-- Nothing is reported of the items of a list but what they fail by. -/
theorem Item.exists_fails_of_mem_errors {items : List Item} {e : ParseError}
    (h : e ∈ (listOutcome resolve items).errors) : ∃ i ∈ items, i.Fails resolve e :=
  Outcome.exists_fails_of_mem_errors_collect (fun i => (mem_errors_outcome i e).1) h

/-- All that the items of a list fail by is reported where reading does not break off. -/
theorem Item.mem_errors_listOutcome {items : List Item}
    (h : (listOutcome resolve items).fault = none) (e : ParseError) :
    e ∈ (listOutcome resolve items).errors ↔ ∃ i ∈ items, i.Fails resolve e :=
  Outcome.mem_errors_collect_iff h fun i _ => mem_errors_outcome i e

private theorem Rule.fails_qualified_of_ok {prelude : List Component} {selectors : SelectorList}
    (block : Block) (h : SelectorList.ofComponents prelude = .ok selectors) (e : ParseError) :
    (qualified prelude block).Fails resolve e ↔ ∃ i ∈ block.items, i.Fails resolve e := by
  constructor
  · intro hfails
    cases hfails with
    | selectors _ he => cases he.symm.trans h
    | item _ hi hfails => exact ⟨_, hi, hfails⟩
  · intro hitem
    rcases hitem with ⟨i, hi, hfails⟩
    exact .item h hi hfails

private theorem Rule.fails_qualified_of_error {prelude : List Component} {error : ParseError}
    (block : Block) (h : SelectorList.ofComponents prelude = .error error) (e : ParseError) :
    (qualified prelude block).Fails resolve e ↔ e = error := by
  constructor
  · intro hfails
    cases hfails with
    | selectors _ he => exact Except.error.inj (he.symm.trans h)
    | item hok => cases hok.symm.trans h
  · rintro rfl
    exact .selectors block h

theorem Rule.errors_outcome_qualified_of_ok {prelude : List Component} {selectors : SelectorList}
    (block : Block) (h : SelectorList.ofComponents prelude = .ok selectors) :
    ((qualified prelude block).outcome resolve).errors =
      (Item.listOutcome resolve block.items).errors := by
  simp only [outcome, h, Outcome.errors, Outcome.reports_gather]

theorem Rule.fault_outcome_qualified_of_ok {prelude : List Component} {selectors : SelectorList}
    (block : Block) (h : SelectorList.ofComponents prelude = .ok selectors) :
    ((qualified prelude block).outcome resolve).fault =
      (Item.listOutcome resolve block.items).fault := by
  simp only [outcome, h, Outcome.fault_gather]

/-- Nothing is reported of a rule but what it fails by, and all of it where reading does not break
off. -/
theorem Rule.mem_errors_outcome (r : Rule) (e : ParseError) :
    (e ∈ (r.outcome resolve).errors → r.Fails resolve e) ∧
      ((r.outcome resolve).fault = none →
        (e ∈ (r.outcome resolve).errors ↔ r.Fails resolve e)) := by
  have of_iff {p q fails : Prop} (h : p ↔ fails) : (p → fails) ∧ (q → (p ↔ fails)) :=
    ⟨h.1, fun _ => h⟩
  cases r with
  | loose t =>
    apply of_iff
    apply iff_of_false List.not_mem_nil
    intro hfails
    cases hfails
  | atRule r =>
    apply of_iff
    apply mem_errors_report_iff
    · intro hfails
      cases hfails
      rfl
    · rintro rfl
      exact .atRule r
  | unfinished prelude =>
    apply of_iff
    apply mem_errors_report_iff
    · intro hfails
      cases hfails
      rfl
    · rintro rfl
      exact .unfinished prelude
  | qualified prelude block =>
    cases hselectors : SelectorList.ofComponents prelude with
    | error error =>
      apply of_iff
      rw [fails_qualified_of_error block hselectors, outcome, hselectors, Outcome.errors_report,
        List.mem_singleton]
    | ok selectors =>
      rw [fails_qualified_of_ok block hselectors, errors_outcome_qualified_of_ok block hselectors,
        fault_outcome_qualified_of_ok block hselectors]
      exact ⟨Item.exists_fails_of_mem_errors, fun h => Item.mem_errors_listOutcome h e⟩

theorem Rule.exists_fails_of_mem_errors {rules : List Rule} {e : ParseError}
    (h : e ∈ (listOutcome resolve rules).errors) : ∃ r ∈ rules, r.Fails resolve e :=
  Outcome.exists_fails_of_mem_errors_collect (fun r => (mem_errors_outcome r e).1) h

theorem Rule.mem_errors_listOutcome {rules : List Rule}
    (h : (listOutcome resolve rules).fault = none) (e : ParseError) :
    e ∈ (listOutcome resolve rules).errors ↔ ∃ r ∈ rules, r.Fails resolve e :=
  Outcome.mem_errors_collect_iff h fun r hr =>
    (mem_errors_outcome r e).2 (Outcome.fault_collect_eq_none_iff.1 h r hr)

/-! ## Whole texts -/

theorem readText_of_ok {α : Type} (read : List Token → Outcome α) {text : String} {ts : List Token}
    (h : tokenize text = .ok ts) : readText read text = (read ts).finish := by
  rw [readText, h]

theorem Outcome.reports_finish {α : Type} (o : Outcome α) : o.finish.2 = o.reports := by
  rw [finish]
  cases o.fault <;> rfl

theorem Outcome.finish_eq_ok_iff {α : Type} (o : Outcome α) (as : List α) :
    o.finish.1 = .ok as ↔ o.fault = .none ∧ o.results = as := by
  rw [finish]
  cases o.fault <;> simp

/-- Reading a text breaks off where finding its tokens does, or where reading what they hold does. -/
theorem readText_eq_error_iff {α : Type} (read : List Token → Outcome α) (text : String) :
    (∃ e, (readText read text).1 = .error e) ↔
      (∃ l ∈ literals (Source.filter text), l.HasNoValue) ∨
        ∃ ts, tokenize text = .ok ts ∧ (read ts).fault ≠ none := by
  rw [← tokenize_eq_error_iff, readText]
  cases tokenize text with
  | error e => simp
  | ok ts =>
    cases hfault : (read ts).fault <;> simp [Outcome.finish, hfault]

theorem readText_eq_ok_iff {α : Type} (read : List Token → Outcome α) (text : String)
    (as : List α) : (readText read text).1 = .ok as ↔
      ∃ ts, tokenize text = .ok ts ∧ (read ts).fault = none ∧ (read ts).results = as := by
  rw [readText]
  cases tokenize text with
  | error e => simp
  | ok ts => simp [Outcome.finish_eq_ok_iff]

/-- Nothing is reported of a text whose tokens are not found. -/
theorem mem_reports_readText_iff {α : Type} (read : List Token → Outcome α) (text : String)
    (r : Report) :
    r ∈ (readText read text).2 ↔ ∃ ts, tokenize text = .ok ts ∧ r ∈ (read ts).reports := by
  rw [readText]
  cases tokenize text with
  | error e => simp
  | ok ts => simp [Outcome.reports_finish]

theorem Stylesheet.parse_eq_error_iff (resolve : Color.Resolver) (text : String) :
    (∃ e, (parse resolve text).1 = .error e) ↔
      (∃ l ∈ literals (Source.filter text), l.HasNoValue) ∨
        ∃ ts, tokenize text = .ok ts ∧ ∃ r ∈ Rule.ofTokens ts, r.Breaks resolve := by
  simp only [← Rule.fault_listOutcome_ne_none_iff]
  refine Iff.trans ?_ (readText_eq_error_iff _ text)
  show (∃ e, (readText _ text).1.map mk = .error e) ↔ _
  cases (readText _ text).1 <;> simp [Except.map]

theorem parseInline_eq_error_iff (resolve : Color.Resolver) (text : String) :
    (∃ e, (parseInline resolve text).1 = .error e) ↔
      (∃ l ∈ literals (Source.filter text), l.HasNoValue) ∨
        ∃ ts, tokenize text = .ok ts ∧ ∃ i ∈ Item.ofTokens ts, i.Breaks resolve := by
  simp only [← Item.fault_listOutcome_ne_none_iff]
  exact readText_eq_error_iff _ text

/-- A stylesheet and its reports are what the rules of its tokens come to. -/
theorem Stylesheet.exists_outcome_of_parse {text : String} {sheet : Stylesheet}
    (h : (parse resolve text).1 = .ok sheet) : ∃ ts, tokenize text = .ok ts ∧
      (Rule.listOutcome resolve (Rule.ofTokens ts)).fault = none ∧
      sheet.rules = (Rule.listOutcome resolve (Rule.ofTokens ts)).results ∧
      (parse resolve text).2 = (Rule.listOutcome resolve (Rule.ofTokens ts)).reports := by
  have hmap : (readText (fun ts => Rule.listOutcome resolve (Rule.ofTokens ts)) text).1.map mk =
      .ok sheet := h
  obtain ⟨rules, hrules, rfl⟩ : ∃ rules, (readText (fun ts =>
      Rule.listOutcome resolve (Rule.ofTokens ts)) text).1 = .ok rules ∧ ⟨rules⟩ = sheet := by
    revert hmap
    cases (readText (fun ts => Rule.listOutcome resolve (Rule.ofTokens ts)) text).1 <;>
      simp [Except.map]
  obtain ⟨ts, hts, hfault, rfl⟩ := (readText_eq_ok_iff _ text rules).1 hrules
  refine ⟨ts, hts, hfault, rfl, ?_⟩
  show (readText _ text).2 = _
  rw [readText_of_ok _ hts, Outcome.reports_finish]

theorem Stylesheet.exists_fails_of_mem_errors {text : String} {e : ParseError}
    (h : e ∈ (parse resolve text).2.map Report.error) :
    ∃ ts, tokenize text = .ok ts ∧ ∃ r ∈ Rule.ofTokens ts, r.Fails resolve e := by
  obtain ⟨report, hreport, rfl⟩ := List.mem_map.1 h
  obtain ⟨ts, hts, hmem⟩ := (mem_reports_readText_iff _ text report).1 hreport
  exact ⟨ts, hts, Rule.exists_fails_of_mem_errors (List.mem_map_of_mem hmem)⟩

theorem Stylesheet.mem_errors_parse {text : String} {sheet : Stylesheet}
    (h : (parse resolve text).1 = .ok sheet) (e : ParseError) :
    e ∈ (parse resolve text).2.map Report.error ↔
      ∃ ts, tokenize text = .ok ts ∧ ∃ r ∈ Rule.ofTokens ts, r.Fails resolve e := by
  obtain ⟨ts, hts, hfault, -, hreports⟩ := exists_outcome_of_parse h
  rw [hreports, hts]
  simp only [Except.ok.injEq, exists_eq_left']
  exact Rule.mem_errors_listOutcome hfault e

theorem exists_fails_of_mem_errors_parseInline {text : String} {e : ParseError}
    (h : e ∈ (parseInline resolve text).2.map Report.error) :
    ∃ ts, tokenize text = .ok ts ∧ ∃ i ∈ Item.ofTokens ts, i.Fails resolve e := by
  obtain ⟨report, hreport, rfl⟩ := List.mem_map.1 h
  obtain ⟨ts, hts, hmem⟩ := (mem_reports_readText_iff _ text report).1 hreport
  exact ⟨ts, hts, Item.exists_fails_of_mem_errors (List.mem_map_of_mem hmem)⟩

theorem mem_errors_parseInline {text : String} {settings : List Setting}
    (h : (parseInline resolve text).1 = .ok settings) (e : ParseError) :
    e ∈ (parseInline resolve text).2.map Report.error ↔
      ∃ ts, tokenize text = .ok ts ∧ ∃ i ∈ Item.ofTokens ts, i.Fails resolve e := by
  obtain ⟨ts, hts, hfault, -⟩ := (readText_eq_ok_iff _ text settings).1 h
  rw [parseInline, readText_of_ok _ hts, Outcome.reports_finish, hts]
  simp only [Except.ok.injEq, exists_eq_left']
  exact Item.mem_errors_listOutcome hfault e

/-- Whatever resolves the colours, reading a stylesheet or an inline style gives a result unless a
literal of the text has no value or the resolver breaks off at the text of a colour that is set. What is
taken for granted by the readers of tokens, of rules, of selectors and of values always holds. Nothing is
reported but what fails in them, and all that fails is where there is a result. -/
theorem parse_recovers (resolve : Color.Resolver) (text : String) :
    ((∃ e, (Stylesheet.parse resolve text).1 = .error e) ↔
      (∃ l ∈ literals (Source.filter text), l.HasNoValue) ∨
        ∃ ts, tokenize text = .ok ts ∧ ∃ r ∈ Rule.ofTokens ts, r.Breaks resolve) ∧
    ((∃ e, (parseInline resolve text).1 = .error e) ↔
      (∃ l ∈ literals (Source.filter text), l.HasNoValue) ∨
        ∃ ts, tokenize text = .ok ts ∧ ∃ i ∈ Item.ofTokens ts, i.Breaks resolve) ∧
    (formTokens text = match (Tokens.ofText text).failure with
      | none => some (.ok ((Tokens.ofText text).tokens, (Tokens.ofText text).notes))
      | some e => some (.error (.range e))) ∧
    (∀ ts, StreamReader.Exhausts StreamReader.rules ts (Rule.ofTokens ts) ∧
      StreamReader.Exhausts (StreamReader.items false) ts (Item.ofTokens ts)) ∧
    Reading.Gives (fun p => (SelectorList.ofProduct? p).isSome) Selector.Grammar.selectorList.read ∧
    (∀ name place, ValueReader.Recovers True (ValueReader.setting resolve name place)) ∧
    (∀ e ∈ (Stylesheet.parse resolve text).2.map Report.error,
      ∃ ts, tokenize text = .ok ts ∧ ∃ r ∈ Rule.ofTokens ts, r.Fails resolve e) ∧
    (∀ sheet, (Stylesheet.parse resolve text).1 = .ok sheet →
      ∀ e, e ∈ (Stylesheet.parse resolve text).2.map Report.error ↔
        ∃ ts, tokenize text = .ok ts ∧ ∃ r ∈ Rule.ofTokens ts, r.Fails resolve e) ∧
    (∀ e ∈ (parseInline resolve text).2.map Report.error,
      ∃ ts, tokenize text = .ok ts ∧ ∃ i ∈ Item.ofTokens ts, i.Fails resolve e) ∧
    ∀ settings, (parseInline resolve text).1 = .ok settings →
      ∀ e, e ∈ (parseInline resolve text).2.map Report.error ↔
        ∃ ts, tokenize text = .ok ts ∧ ∃ i ∈ Item.ofTokens ts, i.Fails resolve e := by
  refine ⟨Stylesheet.parse_eq_error_iff resolve text, parseInline_eq_error_iff resolve text,
    formTokens_eq text, ?_, SelectorList.gives_read, ValueReader.recovers_setting resolve, ?_, ?_, ?_,
    ?_⟩
  · exact fun ts => ⟨StreamReader.exhausts_rules ts, StreamReader.exhausts_items ts⟩
  · exact fun e => Stylesheet.exists_fails_of_mem_errors
  · exact fun sheet h e => Stylesheet.mem_errors_parse h e
  · exact fun e => exists_fails_of_mem_errors_parseInline
  · exact fun settings h e => mem_errors_parseInline h e

private theorem zeroBeyondRange_hasNoValue :
    ∃ l ∈ literals (Source.filter "0e1000000"), l.HasNoValue := by
  have hliterals : literals (Source.filter "0e1000000") =
      [⟨none, ['0'], [], none, "1000000".toList⟩] := by cbv
  rw [hliterals]
  refine ⟨_, List.mem_singleton_self _, .inl ⟨?_, by decide⟩⟩
  intro c hc
  exact List.mem_singleton.1 hc

/-- A zero out of range stops reading, and a colour does if the resolver breaks off at it. A rule without
a block is reported, and so is a declaration without a colon. -/
theorem parse_recovers_zeroBeyondRange :
    (∀ resolve, ∃ e, (Stylesheet.parse resolve "0e1000000").1 = .error e) ∧
    (∀ resolve, ∃ e, (parseInline resolve "0e1000000").1 = .error e) ∧
    (∀ (resolve : Color.Resolver) (f : Fault), resolve "b" = .error f →
      ∃ e, (parseInline resolve "color:b").1 = .error e) ∧
    (∀ resolve, ∃ sheet report, Stylesheet.parse resolve "a" = (.ok sheet, [report]) ∧
      ∃ ts, tokenize "a" = .ok ts ∧ ∃ r ∈ Rule.ofTokens ts, r.Fails resolve report.error) ∧
    ∀ resolve, ∃ report, parseInline resolve "a" = (.ok [], [report]) ∧
      ∃ ts, tokenize "a" = .ok ts ∧ ∃ i ∈ Item.ofTokens ts, i.Fails resolve report.error := by
  refine ⟨?_, ?_, ?_, ?_, ?_⟩
  · intro resolve
    exact (parse_recovers resolve "0e1000000").1.2 (.inl zeroBeyondRange_hasNoValue)
  · intro resolve
    exact (parse_recovers resolve "0e1000000").2.1.2 (.inl zeroBeyondRange_hasNoValue)
  · intro resolve f hresolve
    have htokens : tokenize "color:b" = .ok [⟨.ident "color", "color", ⟨1, 1⟩⟩, ⟨.colon, ":", ⟨1, 6⟩⟩,
        ⟨.ident "b", "b", ⟨1, 7⟩⟩] := by cbv
    have hitems : Item.ofTokens [⟨.ident "color", "color", ⟨1, 1⟩⟩, ⟨.colon, ":", ⟨1, 6⟩⟩,
        ⟨.ident "b", "b", ⟨1, 7⟩⟩] = [.declaration ⟨⟨.ident "color", "color", ⟨1, 1⟩⟩, [],
          ⟨.colon, ":", ⟨1, 6⟩⟩, [], [.token ⟨.ident "b", "b", ⟨1, 7⟩⟩], [], [], []⟩] := by cbv
    refine (parse_recovers resolve "color:b").2.1.2 (.inr ⟨_, htokens, ?_⟩)
    rw [hitems]
    exact ⟨_, List.mem_singleton_self _, _, rfl, by decide, _, rfl, f, hresolve⟩
  · intro resolve
    have hrun : Stylesheet.parse resolve "a" = (.ok ⟨[]⟩, [⟨.invalidSelector, "a",
        .ofCategory .rule (some ⟨1, 1⟩) (some "The block is missing")⟩]) := by cbv
    obtain ⟨-, -, -, -, -, -, hreported, -⟩ := parse_recovers resolve "a"
    exact ⟨_, _, hrun, hreported _ (by rw [hrun]; exact List.mem_singleton_self _)⟩
  · intro resolve
    have hrun : parseInline resolve "a" = (.ok [], [⟨.invalidValue, "a",
        ⟨.general, .unexpectedToken, some ⟨1, 1⟩, some "a"⟩⟩]) := by cbv
    obtain ⟨-, -, -, -, -, -, -, -, hreported, -⟩ := parse_recovers resolve "a"
    exact ⟨_, hrun, hreported _ (by rw [hrun]; exact List.mem_singleton_self _)⟩

end Styling
