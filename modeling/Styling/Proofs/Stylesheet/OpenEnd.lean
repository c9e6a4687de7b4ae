import Mathlib
import Styling.Proofs.Component.WellFormed
import Styling.Proofs.Stylesheet.Outline

/-!
# The end of the input closes everything

Where the input ends inside of groups, rules and declarations come to the same as if the brackets that are
owed had been written, if they make no difference to the resolver of colours (`outcomes_append_owed`).
-/

namespace Styling

open Component Outcome ValueReader

variable {resolve : Color.Resolver}

/-- To the resolver, a group that the tokens `ts` leave open at their end denotes the same as with the
first of the brackets `us` behind it that close it. -/
def Color.Resolver.ClosesAtEnd (resolve : Color.Resolver) (ts us : List Token) : Prop :=
  ∀ vs ks head contents closed, vs <:+ ts → ks <+: us →
    Component.ofTokens vs = [group head contents none] →
    Component.ofTokens (vs ++ ks) = [closed] → closed.isClosed →
      resolve (sourceOf vs) = resolve (sourceOf (vs ++ ks))

/-! ## Component values -/

theorem Component.IsArranged.contents {head : Token} {contents : List Component} {closing : Option Token}
    (h : IsArranged [group head contents closing]) :
    IsArranged contents ∧ (closing.isSome → (group head contents closing).isClosed) := by
  obtain ⟨⟨-, -, -, hclosed, hcontents⟩, -⟩ := areWellFormed_iff_isArranged.2 h
  refine ⟨areWellFormed_iff_isArranged.1 hcontents, fun hsome => ?_⟩
  rw [isClosed, hsome, hclosed hsome]
  rfl

/-- Component values that are the same but for a group at the end, whose contents are the same to see. -/
inductive Finishes (resolve : Color.Resolver) : List Component → List Component → Prop
  | refl (cs : List Component) : Finishes resolve cs cs
  | last (front : List Component) (head : Token) {contents contents' : List Component}
      (closing closing' : Option Token) : sights resolve contents = sights resolve contents' →
      Finishes resolve (front ++ [group head contents closing]) (front ++ [group head contents' closing'])

section Closing

variable {ts us ks : List Token} {cs ds : List Component} (hresolve : resolve.ClosesAtEnd ts us)

include hresolve

/-- Component values are the same to see when brackets close what is left open. -/
theorem sights_of_closedBy (h : ClosedBy ks cs ds) (hcs : IsArranged cs) (hds : IsArranged ds)
    (hts : listTokens cs <:+ ts) (hus : ks <+: us) : sights resolve cs = sights resolve ds := by
  cases h with
  | nil => rfl
  | @last front ks k head contents contents' hinner =>
    have hopen : IsArranged [group head contents none] := hcs.of_isSuffix (List.suffix_append ..)
    have hclosed : IsArranged [group head contents' (some k)] :=
      hds.of_isSuffix (List.suffix_append ..)
    have hbare : (group head contents none).bare = (group head contents' (some k)).bare := by
      simp [bare, listBare_eq_map, hinner.map_bare]
    have htokens : (group head contents' (some k)).tokens =
        (group head contents none).tokens ++ (ks ++ [k]) := by
      simp [tokens, hinner.listTokens_eq]
    have hsource : resolve (group head contents none).source =
        resolve (group head contents' (some k)).source := by
      have hsuffix : (group head contents none).tokens <:+ ts := by
        rw [listTokens_append] at hts
        exact .trans ⟨listTokens front, by simp [listTokens]⟩ hts
      rw [source, source, htokens]
      refine hresolve _ _ head contents (group head contents' (some k)) hsuffix hus ?_ ?_
        (hclosed.contents.2 rfl)
      · simpa [IsArranged, listTokens] using hopen
      · rw [← htokens]
        simpa [IsArranged, listTokens] using hclosed
    have hsight : sights resolve [group head contents none] =
        sights resolve [group head contents' (some k)] := by
      rw [sights_cons_of_not_white _ rfl, sights_cons_of_not_white _ rfl, sight, sight, hbare, hsource]
    rw [sights_append, sights_append, hsight]

/-- So the rules that end with them have to be compared only for what the blocks hold. -/
theorem finishes_of_closedBy (h : ClosedBy ks cs ds) (hcs : IsArranged cs) (hds : IsArranged ds)
    (hts : listTokens cs <:+ ts) (hus : ks <+: us) : Finishes resolve cs ds := by
  cases h with
  | nil => exact .refl cs
  | @last front ks k head contents contents' hinner =>
    have hopen : IsArranged [group head contents none] := hcs.of_isSuffix (List.suffix_append ..)
    have hclosed : IsArranged [group head contents' (some k)] :=
      hds.of_isSuffix (List.suffix_append ..)
    have hsuffix : listTokens contents <:+ ts := by
      rw [listTokens_append] at hts
      exact .trans ⟨listTokens front ++ [head], by simp [listTokens, tokens]⟩ hts
    exact .last front head _ _ (sights_of_closedBy hresolve hinner hopen.contents.1
      hclosed.contents.1 hsuffix ((List.prefix_append ks [k]).trans hus))

end Closing

/-! ## Rules -/

section Finishing

variable {cs ds : List Component}

/-- A run that ends before the group at the end is the same, and so is what is left but for this group. -/
private theorem Finishes.splitRun {p : Component → Bool} (h : Finishes resolve cs ds)
    (hp : ∀ head contents contents' closing closing',
      p (group head contents closing) = p (group head contents' closing')) :
    ((splitRun p cs).2 = [] ∧ (splitRun p ds).2 = []) ∨
      ((splitRun p cs).1 = (splitRun p ds).1 ∧ (splitRun p cs).2 ≠ [] ∧
        Finishes resolve (splitRun p cs).2 (splitRun p ds).2) := by
  cases h with
  | refl =>
    by_cases hrest : (Styling.splitRun p cs).2 = []
    · exact .inl ⟨hrest, hrest⟩
    · exact .inr ⟨rfl, hrest, .refl _⟩
  | last front head closing closing' hcontents =>
    rename_i contents contents'
    have hgroup := hp head contents contents' closing closing'
    induction front with
    | nil =>
      by_cases hc : p (group head contents closing)
      · left
        simp [Styling.splitRun, hc, ← hgroup]
      · right
        simp only [Styling.splitRun, List.nil_append, List.takeWhile_cons_of_neg hc,
          List.dropWhile_cons_of_neg hc, List.takeWhile_cons_of_neg (hgroup ▸ hc),
          List.dropWhile_cons_of_neg (hgroup ▸ hc)]
        exact ⟨trivial, List.cons_ne_nil _ _, .last [] head closing closing' hcontents⟩
    | cons c front ih =>
      by_cases hc : p c
      · simp only [List.cons_append, Styling.splitRun, List.takeWhile_cons_of_pos hc,
          List.dropWhile_cons_of_pos hc, List.cons.injEq, true_and] at ih ⊢
        exact ih
      · right
        simp only [List.cons_append, Styling.splitRun, List.takeWhile_cons_of_neg hc,
          List.dropWhile_cons_of_neg hc]
        exact ⟨trivial, List.cons_ne_nil _ _, .last (c :: front) head closing closing' hcontents⟩

theorem Finishes.cons (c : Component) (h : Finishes resolve cs ds) :
    Finishes resolve (c :: cs) (c :: ds) := by
  cases h with
  | refl => exact .refl _
  | last front head closing closing' hcontents => exact .last (c :: front) head _ _ hcontents

theorem Finishes.length_eq (h : Finishes resolve cs ds) : cs.length = ds.length := by
  cases h <;> simp

/-- The first component value is the same, or it is the group at the end. -/
theorem Finishes.cons_cases {c : Component} (h : Finishes resolve (c :: cs) ds) :
    (∃ rest, ds = c :: rest ∧ Finishes resolve cs rest) ∨
      ∃ head contents contents' closing closing', c = group head contents closing ∧ cs = [] ∧
        ds = [group head contents' closing'] ∧ sights resolve contents = sights resolve contents' := by
  generalize hcs : c :: cs = all at h
  cases h with
  | refl =>
    subst hcs
    exact .inl ⟨cs, rfl, .refl cs⟩
  | last front head closing closing' hcontents =>
    cases front with
    | nil =>
      obtain ⟨rfl, rfl⟩ := List.cons.inj hcs
      exact .inr ⟨head, _, _, closing, closing', rfl, rfl, rfl, hcontents⟩
    | cons d front =>
      obtain ⟨rfl, rfl⟩ := List.cons.inj hcs
      exact .inl ⟨_, rfl, .last front head _ _ hcontents⟩

private theorem AtRule.keyword_take (nested : Bool) (keyword : Token) (cs : List Component) :
    (take nested keyword cs).1.keyword = keyword := by
  simp only [take]
  split
  · rfl
  · split <;> rfl

/-- What is reported of an at-rule is its keyword. -/
theorem AtRule.report_take (nested : Bool) (keyword : Token) (cs ds : List Component) :
    (take nested keyword cs).1.report = (take nested keyword ds).1.report := by
  simp only [report, name, keyword_take]

theorem AtRule.take_finishes (keyword : Token) (h : Finishes resolve cs ds) :
    Finishes resolve (take false keyword cs).2 (take false keyword ds).2 := by
  have hends : ∀ head contents contents' closing closing',
      (!endsPrelude false (group head contents closing)) =
        !endsPrelude false (group head contents' closing') := by
    intro head contents contents' closing closing'
    rw [endsPrelude, endsPrelude, isBraceBlock_group_of_kind contents contents' closing closing' rfl]
    rfl
  rcases h.splitRun (p := (!endsPrelude false ·)) hends with ⟨hcs, hds⟩ | ⟨-, hne, hrest⟩
  · simp only [take, hcs, hds]
    exact .refl _
  · obtain ⟨c, rest, hcs⟩ := List.exists_cons_of_ne_nil hne
    rw [hcs] at hrest
    rcases hrest.cons_cases with ⟨rest', hds, hfinishes⟩ | ⟨_, _, _, _, _, rfl, rfl, hds, -⟩
    · simpa [take, hcs, hds] using hfinishes
    · simpa [take, hcs, hds] using .refl []

/-- The settings in a block are the same if its contents are the same to see. -/
theorem Rule.summary_outcome_qualified (prelude : List Component) (opening : Token)
    {contents contents' : List Component} (closing closing' : Option Token)
    (h : sights resolve contents = sights resolve contents') :
    ((qualified prelude (Block.ofGroup opening contents closing)).outcome resolve).summary =
      ((qualified prelude (Block.ofGroup opening contents' closing')).outcome resolve).summary := by
  simp only [outcome]
  cases SelectorList.ofComponents prelude with
  | error e => rfl
  | ok selectors => exact summary_gather_congr _ (Item.summary_listOutcome_takeAll h)

theorem Rule.takeQualified_finishes (h : Finishes resolve cs ds) :
    ((takeQualified cs).1.outcome resolve).summary = ((takeQualified ds).1.outcome resolve).summary ∧
      Finishes resolve (takeQualified cs).2 (takeQualified ds).2 := by
  have hblock : ∀ head contents contents' closing closing',
      (!(group head contents closing).isBraceBlock) = !(group head contents' closing').isBraceBlock := by
    intro head contents contents' closing closing'
    rw [isBraceBlock_group_of_kind contents contents' closing closing' rfl]
  rcases h.splitRun (p := (!·.isBraceBlock)) hblock with ⟨hcs, hds⟩ | ⟨hprelude, hne, hrest⟩
  · simp only [takeQualified, hcs, hds]
    exact ⟨rfl, .refl _⟩
  · obtain ⟨c, rest, hcs⟩ := List.exists_cons_of_ne_nil hne
    have hbrace := not_of_splitRun_eq_cons hcs
    rw [hcs] at hrest
    rcases hrest.cons_cases with
      ⟨rest', hds, hfinishes⟩ | ⟨head, contents, contents', closing, closing', rfl, rfl, hds, hcontents⟩
    · cases c with
      | token t => cases hbrace
      | group head contents closing =>
        simp only [takeQualified, hcs, hds, hprelude]
        exact ⟨trivial, hfinishes⟩
    · simp only [takeQualified, hcs, hds, hprelude]
      exact ⟨summary_outcome_qualified _ head closing closing' hcontents, .refl _⟩

/-- One rule: it comes to the same, and leaves the same but for the group at the end. -/
theorem Rule.take_finishes {c d : Component} (h : Finishes resolve (c :: cs) (d :: ds)) :
    ((take c cs).1.outcome resolve).summary = ((take d ds).1.outcome resolve).summary ∧
      Finishes resolve (take c cs).2 (take d ds).2 := by
  rcases h.cons_cases with ⟨rest, heq, hrest⟩ | ⟨head, contents, contents', closing, closing', rfl, rfl, heq, -⟩
  · obtain ⟨rfl, rfl⟩ := List.cons.inj heq
    have hqualified := takeQualified_finishes h
    cases d with
    | group head contents closing => exact hqualified
    | token t =>
      simp only [take]
      by_cases hloose : isLoose t.kind
      · simp only [if_pos hloose]
        exact ⟨trivial, hrest⟩
      · simp only [if_neg hloose]
        cases t.kind with
        | atKeyword name =>
          have hreport := AtRule.report_take false t cs ds
          exact ⟨by simp [outcome, hreport], AtRule.take_finishes t hrest⟩
        | _ => exact hqualified
  · obtain ⟨rfl, rfl⟩ := List.cons.inj heq
    exact takeQualified_finishes h

theorem Rule.summary_listOutcome_finishes (h : Finishes resolve cs ds) :
    (listOutcome resolve (ofComponents cs)).summary = (listOutcome resolve (ofComponents ds)).summary := by
  fun_induction ofComponents cs generalizing ds with
  | case1 =>
    rw [List.eq_nil_of_length_eq_zero h.length_eq.symm, ofComponents]
  | case2 c cs first =>
    rename_i ih
    obtain ⟨d, ds, rfl⟩ := List.exists_cons_of_length_eq_add_one h.length_eq.symm
    obtain ⟨hfirst, hrest⟩ := take_finishes h
    rw [ofComponents.eq_def (d :: ds)]
    exact summary_append_congr hfirst (ih hrest)

end Finishing

/-! ## Tokens -/

/-- The end of the input closes everything: rules and declarations come to the same, and the same kinds of
things are reported, if the tokens are followed by the brackets that they leave owed, whichever way they
are read. It is assumed that these brackets make no difference to the resolver of colours. -/
theorem outcomes_append_owed {ts us : List Token} (h : us.map Token.kind = (owed ts).map .closing)
    (hresolve : resolve.ClosesAtEnd ts us) :
    (StreamReader.Exhausts StreamReader.rules ts (Rule.ofTokens ts) ∧
      StreamReader.Exhausts StreamReader.rules (ts ++ us) (Rule.ofTokens (ts ++ us)) ∧
      (Rule.listOutcome resolve (Rule.ofTokens (ts ++ us))).summary =
        (Rule.listOutcome resolve (Rule.ofTokens ts)).summary) ∧
    (StreamReader.Exhausts (StreamReader.items false) ts (Item.ofTokens ts) ∧
      StreamReader.Exhausts (StreamReader.items false) (ts ++ us) (Item.ofTokens (ts ++ us)) ∧
      (Item.listOutcome resolve (Item.ofTokens (ts ++ us))).summary =
        (Item.listOutcome resolve (Item.ofTokens ts)).summary) := by
  have hclosed := closedBy_ofTokens_append h
  have harranged := isArranged_ofTokens ts
  have harranged' := isArranged_ofTokens (ts ++ us)
  have hsuffix : listTokens (Component.ofTokens ts) <:+ ts := by
    rw [listTokens_ofTokens]
  refine ⟨⟨StreamReader.exhausts_rules ts, StreamReader.exhausts_rules (ts ++ us), ?_⟩,
    StreamReader.exhausts_items ts, StreamReader.exhausts_items (ts ++ us), ?_⟩
  · exact (Rule.summary_listOutcome_finishes
      (finishes_of_closedBy hresolve hclosed harranged harranged' hsuffix List.prefix_rfl)).symm
  · exact (Item.summary_listOutcome_takeAll
      (sights_of_closedBy hresolve hclosed harranged harranged' hsuffix List.prefix_rfl)).symm

/-- The tokens of `a{color:rgb(0,0,0`, which leave a block and a function open. -/
def openColor : List Token :=
  [⟨.ident "a", "a", ⟨1, 1⟩⟩, ⟨.opening .brace, "\x7b", ⟨1, 2⟩⟩, ⟨.ident "color", "color", ⟨1, 3⟩⟩,
    ⟨.colon, ":", ⟨1, 8⟩⟩, ⟨.function "rgb", "rgb(", ⟨1, 9⟩⟩,
    ⟨.number (.integer 0) none .integer, "0", ⟨1, 13⟩⟩, ⟨.comma, ",", ⟨1, 14⟩⟩,
    ⟨.number (.integer 0) none .integer, "0", ⟨1, 15⟩⟩, ⟨.comma, ",", ⟨1, 16⟩⟩,
    ⟨.number (.integer 0) none .integer, "0", ⟨1, 17⟩⟩]

/-- The brackets that close it. -/
def colorClosing : List Token :=
  [⟨.closing .paren, ")", ⟨1, 18⟩⟩, ⟨.closing .brace, "\x7d", ⟨1, 19⟩⟩]

/-- A resolver that knows black, with and without its closing bracket. -/
def blackResolver : Color.Resolver := fun text =>
  .ok (if ["rgb(0,0,0", "rgb(0,0,0)"].contains text then .color .black else .unknown)

private theorem blackResolver_closesAtEnd : blackResolver.ClosesAtEnd openColor colorClosing := by
  have hall : openColor.tails.all fun vs => colorClosing.inits.all fun ks =>
      ["rgb(0,0,0", "rgb(0,0,0)"].contains (sourceOf vs) ==
        ["rgb(0,0,0", "rgb(0,0,0)"].contains (sourceOf (vs ++ ks)) ||
      (Component.ofTokens (vs ++ ks)).length != 1 := by cbv
  intro vs ks head contents closed hvs hks _ hclosed _
  have hpair := List.all_eq_true.1 (List.all_eq_true.1 hall vs ((List.mem_tails vs _).2 hvs)) ks
    ((List.mem_inits ks _).2 hks)
  have hsame : ["rgb(0,0,0", "rgb(0,0,0)"].contains (sourceOf vs) =
      ["rgb(0,0,0", "rgb(0,0,0)"].contains (sourceOf (vs ++ ks)) := by
    simpa [hclosed] using hpair
  rw [blackResolver, blackResolver, hsame]

/-- The rule is read with its colour, as it is with the brackets. -/
theorem outcomes_append_openColor :
    colorClosing.map Token.kind = (owed openColor).map .closing ∧
      blackResolver.ClosesAtEnd openColor colorClosing ∧
      (Rule.listOutcome blackResolver (Rule.ofTokens openColor)).results =
        [⟨⟨[⟨[.typeName "a"]⟩]⟩, [⟨.color, Color.black⟩]⟩] ∧
      (Rule.listOutcome blackResolver (Rule.ofTokens (openColor ++ colorClosing))).summary =
        (Rule.listOutcome blackResolver (Rule.ofTokens openColor)).summary ∧
      (Item.listOutcome blackResolver (Item.ofTokens (openColor ++ colorClosing))).summary =
        (Item.listOutcome blackResolver (Item.ofTokens openColor)).summary := by
  have howed : colorClosing.map Token.kind = (owed openColor).map .closing := by rfl
  have ⟨⟨_, _, hrules⟩, _, _, hitems⟩ := outcomes_append_owed howed blackResolver_closesAtEnd
  have hrule : Rule.ofTokens openColor = [.qualified [.token openColor[0]] ⟨openColor[1],
      [.declaration ⟨openColor[2], [], openColor[3], [], [.group openColor[4]
        ((openColor.drop 5).map token) none], [], [], []⟩], none⟩] := by cbv
  have hresults : (Rule.listOutcome blackResolver (Rule.ofTokens openColor)).results =
      [⟨⟨[⟨[.typeName "a"]⟩]⟩, [⟨.color, Color.black⟩]⟩] := by
    rw [hrule]
    rfl
  exact ⟨howed, blackResolver_closesAtEnd, hresults, hrules, hitems⟩

end Styling
