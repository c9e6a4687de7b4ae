import Styling.Report
import Styling.Rule.Basic
import Styling.Selector.Parse
import Styling.Style.Apply
import Styling.Text.Utf8

/-!
# Stylesheets and inline styles

Style text is read into rules of settings. A rule with an invalid selector is dropped, and so is a
declaration of an unknown property or with an invalid value; a report is made of each, and reading
goes on. Rules apply in the order of the text, whatever the specificity of their selectors. Two things
stop reading: a number without a value, and a colour at which the resolver breaks off.
-/

namespace Styling

/-- A style rule: its settings apply to what any of its selectors matches. -/
structure StyleRule where
  selectors : SelectorList
  settings : List Setting

/-- Results and reports, each in the order of the text, and what reading broke off at, if it did. -/
structure Outcome (α : Type) where
  results : List α
  reports : List Report
  fault : Option Fault

/-- Why reading a text breaks off. -/
inductive Interruption where
  | range (e : Number.RangeError)
  | fault (f : Fault)
deriving DecidableEq, Repr

namespace Outcome

def result (a : α) : Outcome α := ⟨[a], [], .none⟩

def report (r : Report) : Outcome α := ⟨[], [r], .none⟩

def broken (f : Fault) : Outcome α := ⟨[], [], some f⟩

def none : Outcome α := ⟨[], [], .none⟩

/-- What is read after `a` is added, unless reading broke off in `a`. -/
def append (a b : Outcome α) : Outcome α :=
  match a.fault with
  | some _ => a
  | .none => ⟨a.results ++ b.results, a.reports ++ b.reports, b.fault⟩

/-- The outcomes of the elements of a list, joined in order as far as reading goes. -/
def collect (f : α → Outcome β) (as : List α) : Outcome β :=
  as.foldr (fun a rest => (f a).append rest) none

/-- One result made of all, or none if reading broke off. -/
def gather (make : List α → β) (o : Outcome α) : Outcome β :=
  match o.fault with
  | some f => ⟨[], o.reports, some f⟩
  | .none => ⟨[make o.results], o.reports, .none⟩

/-- All results, or what reading broke off at, with the reports made up to there. -/
def finish (o : Outcome α) : Except Interruption (List α) × List Report :=
  match o.fault with
  | some f => (.error (.fault f), o.reports)
  | .none => (.ok o.results, o.reports)

end Outcome

def AtRule.report (r : AtRule) : Report :=
  ⟨.unsupportedAtRule, r.name,
    ⟨.general, .unsupportedAtRule, some r.keyword.location, some r.name⟩⟩

/-- What is read from the tokens of a text. All of them are found before anything is read. -/
def readText (read : List Token → Outcome α) (text : String) :
    Except Interruption (List α) × List Report :=
  match tokenize text with
  | .ok ts => (read ts).finish
  | .error e => (.error (.range e), [])

section

variable (resolve : Color.Resolver)

/-- The setting a declaration makes, or the report of why it makes none. -/
def Declaration.outcome (d : Declaration) : Outcome Setting :=
  let source := Text.trim (sourceOfComponents d.components)
  match (ValueReader.setting resolve d.property (some d.name.location)).run (.ofList d.value none) with
  | .ok setting _ => .result setting
  | .error (.parse e) _ =>
    if e.category = .property then .report ⟨.unsupportedProperty, d.property, e⟩
    else .report ⟨.invalidValue, source, e⟩
  | .error (.fault f) _ => .broken f

/-- The setting or the report an item of a declaration list gives, if any. -/
def Item.outcome : Item → Outcome Setting
  | .loose _ => .none
  | .declaration d => d.outcome resolve
  | i@(.malformed _) =>
    let source := Text.trim i.source
    .report ⟨.invalidValue, source, ⟨.general, .unexpectedToken, i.location?, some source⟩⟩
  | .atRule r => .report r.report

def Item.listOutcome (items : List Item) : Outcome Setting := .collect (outcome resolve) items

/-- The style rule or the reports a rule gives. Nothing is reported from the block of a rule whose
selectors are invalid. -/
def Rule.outcome (r : Rule) : Outcome StyleRule :=
  match r with
  | .loose _ => .none
  | .atRule rule => .report rule.report
  | .unfinished prelude =>
    .report ⟨.invalidSelector, Text.trim (sourceOfComponents prelude),
      .ofCategory .rule r.location? (some "The block is missing")⟩
  | .qualified prelude block =>
    match SelectorList.ofComponents prelude with
    | .error e => .report ⟨.invalidSelector, Text.trim (sourceOfComponents prelude), e⟩
    | .ok selectors => (Item.listOutcome resolve block.items).gather (⟨selectors, ·⟩)

def Rule.listOutcome (rules : List Rule) : Outcome StyleRule := .collect (outcome resolve) rules

/-- Reads the settings of an inline style, with the reports of what was dropped. -/
def parseInline (text : String) : Except Interruption (List Setting) × List Report :=
  readText (fun ts => Item.listOutcome resolve (Item.ofTokens ts)) text

end

structure Stylesheet where
  rules : List StyleRule

namespace Stylesheet

/-- Reads a stylesheet, with the reports of what was dropped. -/
def parse (resolve : Color.Resolver) (text : String) :
    Except Interruption Stylesheet × List Report :=
  let (rules, reports) := readText (fun ts => Rule.listOutcome resolve (Rule.ofTokens ts)) text
  (rules.map Stylesheet.mk, reports)

/-- Why bytes are no stylesheet. -/
inductive LoadError where
  | encoding
  | interruption (i : Interruption)

def ofBytes (resolve : Color.Resolver) (bytes : List UInt8) :
    Except LoadError Stylesheet × List Report :=
  match Text.decodeUtf8? bytes with
  | none => (.error .encoding, [])
  | some text =>
    let (sheet, reports) := parse resolve (Text.unifyNewlines text)
    (sheet.mapError .interruption, reports)

def matchingRules (sheet : Stylesheet) (mode : CaseSensitivity) (i : Identity) : List StyleRule :=
  sheet.rules.filter (·.selectors.isMatch mode i)

def matchingIndexes (sheet : Stylesheet) (mode : CaseSensitivity) (i : Identity) : List Nat :=
  (sheet.rules.zipIdx.filter fun (rule, _) => rule.selectors.isMatch mode i).map (·.2)

def settingsFor (sheet : Stylesheet) (mode : CaseSensitivity) (i : Identity) : List Setting :=
  (sheet.matchingRules mode i).flatMap StyleRule.settings

def apply (sheet : Stylesheet) (mode : CaseSensitivity) (i : Identity) (context : Context)
    (target : Target) : Target :=
  target.applyAll context (sheet.settingsFor mode i)

end Stylesheet

end Styling
