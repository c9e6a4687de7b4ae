import Styling.Proofs.Rule.StreamReader
import Styling.Proofs.Stylesheet.Break

/-!
# Rules do not depend on what follows them

A rule that was not ended by the end of the input stays the same when more input follows. So where
every rule of some tokens is closed, more tokens add rules, settings and reports behind those there
are and change none of them.
-/

namespace Styling

open Component

/-- Whether an at-rule ends with its semicolon, or with a block that has its closing brace. -/
def AtRule.isClosed (r : AtRule) : Bool :=
  match r.ending with
  | some (.token t) => t.kind.isSemicolon
  | some c@(.group _ _ closing) => c.isBraceBlock && closing.isSome
  | none => false

/-- Whether a rule was ended by something else than the end of the input. -/
def Rule.isClosed : Rule → Bool
  | loose _ => true
  | atRule r => r.isClosed
  | qualified _ block => block.closing.isSome
  | unfinished _ => false

/-- Whether the last component value is a group without a closing bracket. -/
def EndsOpen (cs : List Component) : Prop :=
  ∃ head contents, cs.getLast? = some (group head contents none)

theorem AtRule.isClosed_eq_false_of_endsOpen {r : AtRule} (h : EndsOpen r.components) :
    r.isClosed = false := by
  rcases r with ⟨keyword, prelude, ending⟩
  rcases h with ⟨head, contents, hlast⟩
  cases ending with
  | none => rfl
  | some c =>
    have hcomponents : components ⟨keyword, prelude, some c⟩ = (token keyword :: prelude) ++ [c] :=
      by simp [components]
    rw [hcomponents, List.getLast?_concat] at hlast
    obtain rfl := Option.some.inj hlast
    simp [isClosed]

/-- The take of an at-rule that found its end does not change when more follows. -/
theorem AtRule.take_append {keyword : Token} {cs : List Component} (ds : List Component)
    (h : (take false keyword cs).1.isClosed) :
    take false keyword (cs ++ ds) = ((take false keyword cs).1, (take false keyword cs).2 ++ ds) := by
  have hsplit : _ → splitRun (!endsPrelude false ·) (cs ++ ds) = _ := splitRun_append_right ds
  simp only [take] at h ⊢
  cases hrest : (splitRun (!endsPrelude false ·) cs).2 with
  | nil =>
    rw [hrest] at h
    cases h
  | cons c rest =>
    rw [hsplit (by rw [hrest]; intro hnil; cases hnil), hrest]
    simp

namespace Rule

theorem takeQualified_append (cs ds : List Component)
    (h : (takeQualified cs).1.isClosed) :
    takeQualified (cs ++ ds) = ((takeQualified cs).1, (takeQualified cs).2 ++ ds) := by
  have hsplit : _ → splitRun (!·.isBraceBlock) (cs ++ ds) = _ := splitRun_append_right ds
  simp only [takeQualified] at h ⊢
  cases hrest : (splitRun (!·.isBraceBlock) cs).2 with
  | nil =>
    rw [hrest] at h
    cases h
  | cons c rest =>
    have hblock : c.isBraceBlock := by simpa using not_of_splitRun_eq_cons hrest
    rw [hsplit (by rw [hrest]; intro hnil; cases hnil), hrest]
    cases c with
    | token t => cases hblock
    | group => rfl

/-- A closed rule does not change when more follows. -/
theorem take_append {c : Component} {cs : List Component} (ds : List Component)
    (h : (take c cs).1.isClosed) :
    take c (cs ++ ds) = ((take c cs).1, (take c cs).2 ++ ds) := by
  cases c with
  | group head contents closing =>
    exact takeQualified_append (group head contents closing :: cs) ds h
  | token t =>
    simp only [take] at h ⊢
    by_cases hloose : isLoose t.kind
    · simp only [if_pos hloose]
    · simp only [if_neg hloose] at h ⊢
      cases hkind : t.kind with
      | atKeyword name =>
        rw [hkind] at h
        simp only [AtRule.take_append ds h]
      | _ =>
        rw [hkind] at h
        exact takeQualified_append (token t :: cs) ds h

theorem ofComponents_append {cs : List Component} (ds : List Component)
    (h : ∀ r ∈ ofComponents cs, r.isClosed) :
    ofComponents (cs ++ ds) = ofComponents cs ++ ofComponents ds := by
  fun_induction ofComponents cs with
  | case1 => rfl
  | case2 c cs first ih =>
    obtain ⟨hfirst, hothers⟩ := List.forall_mem_cons.1 h
    rw [List.cons_append, ofComponents]
    simp only [take_append ds hfirst]
    rw [ih hothers]
    rfl

private theorem isClosed_takeQualified_eq_false {cs : List Component} (hlast : EndsOpen cs)
    (hrest : (takeQualified cs).2 = []) : (takeQualified cs).1.isClosed = false := by
  have hcs := splitRun_append (!·.isBraceBlock) cs
  rcases hlast with ⟨head, contents, hlast⟩
  revert hrest
  rw [takeQualified]
  split
  · rename_i opening items closing rest heq
    intro hrest
    have hnil : rest = [] := hrest
    rw [heq, hnil] at hcs
    rw [← hcs, List.getLast?_concat] at hlast
    cases hlast
    rfl
  · exact fun _ => rfl

/-- A rule that takes an open group at the end is not closed. -/
theorem isClosed_take_eq_false {c : Component} {cs : List Component} (hlast : EndsOpen (c :: cs))
    (hrest : (take c cs).2 = []) : (take c cs).1.isClosed = false := by
  cases c with
  | group => exact isClosed_takeQualified_eq_false hlast hrest
  | token t =>
    simp only [take] at hrest ⊢
    by_cases hloose : isLoose t.kind
    · simp only [if_pos hloose] at hrest
      rcases hlast with ⟨head, contents, hlast⟩
      rw [hrest] at hlast
      cases hlast
    · simp only [if_neg hloose] at hrest ⊢
      cases hkind : t.kind with
      | atKeyword name =>
        rw [hkind] at hrest
        have hcomponents := AtRule.components_take false t cs
        rw [show (AtRule.take false t cs).2 = [] from hrest, List.append_nil] at hcomponents
        exact AtRule.isClosed_eq_false_of_endsOpen (hcomponents ▸ hlast)
      | _ =>
        rw [hkind] at hrest
        exact isClosed_takeQualified_eq_false hlast hrest

/-- Where an open group comes last, a rule is not closed. -/
theorem exists_not_isClosed {cs : List Component} (hlast : EndsOpen cs) :
    ∃ r ∈ ofComponents cs, r.isClosed = false := by
  fun_induction ofComponents cs with
  | case1 =>
    rcases hlast with ⟨head, contents, hlast⟩
    cases hlast
  | case2 c cs first ih =>
    by_cases hrest : first.2 = []
    · exact ⟨first.1, List.mem_cons_self, isClosed_take_eq_false hlast hrest⟩
    · obtain ⟨front, hfront⟩ := isSuffix_take c cs
      rcases hlast with ⟨head, contents, hlast⟩
      rw [← hfront, List.getLast?_append_of_ne_nil _ hrest] at hlast
      obtain ⟨r, hr, hclosed⟩ := ih ⟨head, contents, hlast⟩
      exact ⟨r, List.mem_cons_of_mem _ hr, hclosed⟩

/-- Tokens whose rules are all closed leave no group open. -/
theorem ofTokens_append_of_isClosed {ts : List Token} (us : List Token)
    (h : ∀ r ∈ ofTokens ts, r.isClosed) : ofTokens (ts ++ us) = ofTokens ts ++ ofTokens us := by
  have hopen : ¬EndsOpen (Component.ofTokens ts) := by
    intro hlast
    obtain ⟨r, hr, hclosed⟩ := exists_not_isClosed hlast
    rw [h r hr] at hclosed
    contradiction
  have happend : Component.ofTokens (ts ++ us) = Component.ofTokens ts ++ Component.ofTokens us :=
    Component.ofTokens_append us fun head contents hlast => hopen ⟨head, contents, hlast⟩
  rw [ofTokens, happend, ofComponents_append _ h]
  rfl

end Rule

/-- Errors stay where they are: when all rules of some tokens are closed, what follows adds its rules
behind them, read as if it stood alone, whichever way the rules are read. Its style rules and reports
come behind theirs too, unless reading breaks off in one of theirs: then all that follows is lost. -/
theorem rules_append_of_isClosed {ts us : List Token} (h : ∀ r ∈ Rule.ofTokens ts, r.isClosed) :
    Rule.ofTokens (ts ++ us) = Rule.ofTokens ts ++ Rule.ofTokens us ∧
      StreamReader.Exhausts StreamReader.rules (ts ++ us) (Rule.ofTokens ts ++ Rule.ofTokens us) ∧
      ∀ resolve : Color.Resolver,
        let whole := Rule.listOutcome resolve (Rule.ofTokens (ts ++ us))
        let first := Rule.listOutcome resolve (Rule.ofTokens ts)
        let second := Rule.listOutcome resolve (Rule.ofTokens us)
        ((∀ r ∈ Rule.ofTokens ts, ¬r.Breaks resolve) → whole =
          ⟨first.results ++ second.results, first.reports ++ second.reports, second.fault⟩) ∧
        ((∃ r ∈ Rule.ofTokens ts, r.Breaks resolve) → whole = first ∧ first.fault ≠ none) := by
  have hrules := Rule.ofTokens_append_of_isClosed us h
  refine ⟨hrules, ?_, ?_⟩
  · rw [← hrules]
    exact StreamReader.exhausts_rules (ts ++ us)
  · intro resolve whole first second
    have hwhole : whole = Rule.listOutcome resolve (Rule.ofTokens ts ++ Rule.ofTokens us) :=
      congrArg _ hrules
    rw [hwhole]
    exact ⟨Rule.listOutcome_append_of_not_breaks _, fun hbreaks =>
      ⟨Rule.listOutcome_append_of_breaks _ hbreaks, (Rule.fault_listOutcome_ne_none_iff _).2 hbreaks⟩⟩

/-- The tokens of `!{;}@a;`: a rule without a selector and a rule of an unknown kind. -/
def brokenRules : List Token :=
  [⟨.delim '!', "!", ⟨1, 1⟩⟩, ⟨.opening .brace, "\x7b", ⟨1, 2⟩⟩, ⟨.semicolon, ";", ⟨1, 3⟩⟩,
    ⟨.closing .brace, "\x7d", ⟨1, 4⟩⟩, ⟨.atKeyword "a", "@a", ⟨1, 5⟩⟩, ⟨.semicolon, ";", ⟨1, 7⟩⟩]

/-- The tokens of `a{color:rgb(n,0,0)}`. -/
def coloringRule (number : Token) : List Token :=
  ⟨.ident "a", "a", ⟨1, 1⟩⟩ :: ⟨.opening .brace, "\x7b", ⟨1, 2⟩⟩ ::
    (coloring number ++ [⟨.closing .brace, "\x7d", ⟨1, 419⟩⟩])

private theorem ofTokens_coloringRule (value : Number.Value) (digits : String)
    (place : Source.Location) :
    let number : Token := ⟨.number value none .integer, digits, place⟩
    Rule.ofTokens (coloringRule number) = [.qualified [.token ⟨.ident "a", "a", ⟨1, 1⟩⟩]
      ⟨⟨.opening .brace, "\x7b", ⟨1, 2⟩⟩,
        [.declaration ⟨⟨.ident "color", "color", ⟨1, 3⟩⟩, [], ⟨.colon, ":", ⟨1, 8⟩⟩, [],
          [redOf number], [], [], []⟩],
        some ⟨.closing .brace, "\x7d", ⟨1, 419⟩⟩⟩] := by cbv

/-- What follows the one is added behind it by any resolver; what follows the other is lost by one that
breaks off at a colour out of range. -/
theorem rules_append_brokenRules :
    (∀ r ∈ Rule.ofTokens brokenRules, r.isClosed) ∧
      (∀ r ∈ Rule.ofTokens (coloringRule hugeNumber), r.isClosed) ∧
      Rule.ofTokens (brokenRules ++ coloringRule hugeNumber) =
        Rule.ofTokens brokenRules ++ Rule.ofTokens (coloringRule hugeNumber) ∧
      (∀ resolve, (Rule.listOutcome resolve
          (Rule.ofTokens (brokenRules ++ coloringRule hugeNumber))).results =
        (Rule.listOutcome resolve (Rule.ofTokens (coloringRule hugeNumber))).results) ∧
      Rule.listOutcome overflowingResolver (Rule.ofTokens (coloringRule hugeNumber ++ brokenRules)) =
        Rule.listOutcome overflowingResolver (Rule.ofTokens (coloringRule hugeNumber)) ∧
      (Rule.listOutcome overflowingResolver (Rule.ofTokens brokenRules)).reports ≠ [] := by
  have hrules : Rule.ofTokens brokenRules =
      [.qualified [.token brokenRules[0]] ⟨brokenRules[1], [.loose brokenRules[2]], brokenRules[3]⟩,
        .atRule ⟨brokenRules[4], [], some (.token brokenRules[5])⟩] := by cbv
  have hrule := ofTokens_coloringRule (.integer (10 ^ 400)) hugeNumber.source hugeNumber.location
  change Rule.ofTokens (coloringRule hugeNumber) = _ at hrule
  have hbroken : ∀ r ∈ Rule.ofTokens brokenRules, r.isClosed := by
    rw [hrules]
    decide
  have hcoloring : ∀ r ∈ Rule.ofTokens (coloringRule hugeNumber), r.isClosed := by
    intro r hr
    rw [hrule] at hr
    obtain rfl := List.mem_singleton.1 hr
    rfl
  have hkept : ∀ resolve, ∀ r ∈ Rule.ofTokens brokenRules, ¬r.Breaks resolve := by
    intro resolve
    simp [hrules, Rule.Breaks, Item.Breaks]
  have hlost : ∃ r ∈ Rule.ofTokens (coloringRule hugeNumber), r.Breaks overflowingResolver := by
    rw [hrule]
    have hselectors : SelectorList.ofComponents [.token ⟨.ident "a", "a", ⟨1, 1⟩⟩] =
        .ok ⟨[⟨[.typeName "a"]⟩]⟩ := rfl
    exact ⟨_, List.mem_singleton_self _, _, _, _, rfl, hselectors, _, List.mem_singleton_self _, _, rfl,
      breaks_overflowingResolver (by decide) rfl⟩
  obtain ⟨happend, -, hbehind⟩ := @rules_append_of_isClosed brokenRules (coloringRule hugeNumber) hbroken
  obtain ⟨-, -, hdropped⟩ := @rules_append_of_isClosed (coloringRule hugeNumber) brokenRules hcoloring
  refine ⟨hbroken, hcoloring, happend, ?_, ((hdropped _).2 hlost).1, ?_⟩
  · intro resolve
    have hfirst : (Rule.listOutcome resolve (Rule.ofTokens brokenRules)).results = [] := by
      rw [hrules]
      rfl
    rw [(hbehind resolve).1 (hkept resolve), hfirst, List.nil_append]
  · rw [hrules]
    exact List.cons_ne_nil _ _

end Styling
