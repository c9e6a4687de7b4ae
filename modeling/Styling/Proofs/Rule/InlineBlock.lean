import Styling.Proofs.Component.Closed
import Styling.Proofs.Rule.StreamReader
import Styling.Stylesheet

/-!
# A block is a declaration list between braces

Reading inside a block differs from reading a whole declaration list in that it stops at a `}` that
closes nothing. Where there is none, both find the same items (`Item.takeAll_nested`), so a block
between its braces has the items of the declaration list it would be without them.
-/

namespace Styling

open Component

/-- Component values none of which is a `}` that closes nothing. -/
def IsBraceFree (cs : List Component) : Prop := ∀ c ∈ cs, c.isStrayBrace = false

namespace IsBraceFree

variable {cs ds : List Component}

theorem of_isSuffix (h : IsBraceFree cs) (hs : ds <:+ cs) : IsBraceFree ds :=
  fun c hc => h c (hs.subset hc)

/-- Where no stray brace is met, the same component values end a declaration inside a block and
outside of one. -/
theorem splitRun_endsDeclaration (h : IsBraceFree cs) :
    splitRun (!endsDeclaration true ·) cs = splitRun (!endsDeclaration false ·) cs :=
  splitRun_congr fun c hc => by simp [endsDeclaration, h c hc]

theorem splitRun_endsPrelude (h : IsBraceFree cs) :
    splitRun (!AtRule.endsPrelude true ·) cs = splitRun (!AtRule.endsPrelude false ·) cs :=
  splitRun_congr fun c hc => by simp [AtRule.endsPrelude, h c hc]

end IsBraceFree

theorem AtRule.take_nested (keyword : Token) {cs : List Component} (h : IsBraceFree cs) :
    take true keyword cs = take false keyword cs := by
  have hrest := h.of_isSuffix (isSuffix_splitRun (!endsPrelude false ·) cs)
  simp only [take, h.splitRun_endsPrelude]
  cases hcs : (splitRun (!endsPrelude false ·) cs).2 with
  | nil => rfl
  | cons c rest =>
    rw [hcs] at hrest
    simp [hrest c List.mem_cons_self]

theorem Declaration.take?_nested {cs : List Component} (h : IsBraceFree cs) :
    take? true cs = take? false cs := by
  cases cs with
  | nil => rfl
  | cons c cs =>
    cases c with
    | group => rfl
    | token name =>
      have hrest := (h.of_isSuffix (List.suffix_cons _ cs)).of_isSuffix
        (isSuffix_splitRun Component.isWhite cs)
      simp only [take?]
      cases hcs : (splitRun Component.isWhite cs).2 with
      | nil => rfl
      | cons c rest =>
        rw [hcs] at hrest
        have hvalue := (hrest.of_isSuffix (List.suffix_cons c rest)).of_isSuffix
          (isSuffix_splitRun Component.isWhite rest)
        cases c with
        | group => rfl
        | token colon => simp only [hvalue.splitRun_endsDeclaration]

namespace Item

theorem takeMalformed_nested {cs : List Component} (h : IsBraceFree cs) :
    takeMalformed true cs = takeMalformed false cs := by
  simp only [takeMalformed, h.splitRun_endsDeclaration]

private theorem takeDeclaration_nested {c : Component} {cs : List Component}
    (h : IsBraceFree (c :: cs)) : takeDeclaration true c cs = takeDeclaration false c cs := by
  simp only [takeDeclaration, Declaration.take?_nested h,
    takeMalformed_nested (h.of_isSuffix (List.suffix_cons c cs))]

theorem take_nested {c : Component} {cs : List Component} (h : IsBraceFree (c :: cs)) :
    take true c cs = take false c cs := by
  have hrule := fun t => AtRule.take_nested t (h.of_isSuffix (List.suffix_cons c cs))
  simp only [take, hrule, takeDeclaration_nested h]

/-- Without a stray brace, a declaration list reads alike inside a block and outside of one. -/
theorem takeAll_nested {cs : List Component} (h : IsBraceFree cs) :
    takeAll true cs = takeAll false cs := by
  fun_induction takeAll true cs with
  | case1 => rw [takeAll]
  | case2 c cs hc =>
    rw [h c List.mem_cons_self] at hc
    contradiction
  | case3 c cs hc first others ih =>
    have hfirst : first = take false c cs := take_nested h
    have hrest : first.2 <:+ c :: cs := ⟨_, components_take true c cs⟩
    have hothers := ih (h.of_isSuffix hrest)
    rw [takeAll, Bool.false_and, if_neg Bool.false_ne_true]
    simp only [← hfirst, ← hothers]
    rfl

end Item

/-- A `{}`-block among tokens holds the items of its tokens read as a declaration list. -/
theorem Block.ofGroup_ofTokens (opening closing : Token) {ts : List Token}
    (h : IsBraceFree (Component.ofTokens ts)) :
    ofGroup opening (Component.ofTokens ts) (some closing) =
      ⟨opening, Item.ofTokens ts, some closing⟩ := by
  rw [ofGroup, Item.takeAll_nested h]
  rfl

theorem Rule.outcome_qualified_of_ok (resolve : Color.Resolver) {prelude : List Component}
    {selectors : SelectorList} (block : Block)
    (h : SelectorList.ofComponents prelude = .ok selectors) :
    (qualified prelude block).outcome resolve =
      (Item.listOutcome resolve block.items).gather (⟨selectors, ·⟩) := by
  simp only [outcome, h]

/-- Between braces, tokens that leave no group open and have no `}` of their own are read as a block
with the items of the tokens by themselves, up to the closing brace and no further. So a rule with
this block has the settings and reports of an inline style, whatever resolves the colours. -/
theorem block_eq_inline {opening closing : Token} {ts : List Token} (us : List Token)
    (hopening : opening.kind = .opening .brace) (hclosing : closing.kind = .closing .brace)
    (hclosed : areClosed (Component.ofTokens ts)) (hfree : IsBraceFree (Component.ofTokens ts)) :
    StreamReader.Reads StreamReader.block (opening :: (ts ++ closing :: us))
        ⟨opening, Item.ofTokens ts, some closing⟩ us ∧
      ∀ (resolve : Color.Resolver) (prelude : List Component) (selectors : SelectorList),
        SelectorList.ofComponents prelude = .ok selectors →
          (Rule.qualified prelude ⟨opening, Item.ofTokens ts, some closing⟩).outcome resolve =
            (Item.listOutcome resolve (Item.ofTokens ts)).gather (⟨selectors, ·⟩) := by
  refine ⟨?_, fun resolve _ _ h => Rule.outcome_qualified_of_ok resolve _ h⟩
  have hhead : opening.kind.closer? = some .brace := by rw [hopening]; rfl
  have hopen : ∀ c ∈ Component.ofTokens ts, ¬closes opening c := by
    intro c hc
    rw [closes_eq_isStrayBrace hhead, hfree c hc]
    exact Bool.false_ne_true
  have hend : closes opening (.token closing) := by
    rw [closes_eq_isStrayBrace hhead, Component.isStrayBrace, hclosing]
    rfl
  have hgroup := Component.ofTokens_group us (by rw [hhead]; rfl) hclosed hopen hend
  have harr := hgroup ▸ isArranged_ofTokens (opening :: (ts ++ closing :: us))
  have hblock : (group opening (Component.ofTokens ts) (some closing)).isBraceBlock := by
    rcases opening with ⟨kind, source, location⟩
    obtain rfl : kind = .opening .brace := hopening
    rfl
  have hreads := StreamReader.reads_block harr hblock
  rwa [← hgroup, Component.listTokens_ofTokens, Component.listTokens_ofTokens,
    Block.ofGroup_ofTokens opening closing hfree] at hreads

/-- The tokens of `a:b;)c`: a declaration of an unknown property, and what is none. -/
def looseDeclarations : List Token :=
  [⟨.ident "a", "a", ⟨1, 2⟩⟩, ⟨.colon, ":", ⟨1, 3⟩⟩, ⟨.ident "b", "b", ⟨1, 4⟩⟩,
    ⟨.semicolon, ";", ⟨1, 5⟩⟩, ⟨.closing .paren, ")", ⟨1, 6⟩⟩, ⟨.ident "c", "c", ⟨1, 7⟩⟩]

/-- The block of `{a:b;)c}`. -/
def looseBlock : Block :=
  ⟨⟨.opening .brace, "\x7b", ⟨1, 1⟩⟩, Item.ofTokens looseDeclarations,
    some ⟨.closing .brace, "\x7d", ⟨1, 8⟩⟩⟩

theorem block_eq_inline_looseBlock :
    areClosed (Component.ofTokens looseDeclarations) ∧
      IsBraceFree (Component.ofTokens looseDeclarations) ∧
      StreamReader.Reads StreamReader.block
        (looseBlock.opening :: (looseDeclarations ++ ⟨.closing .brace, "\x7d", ⟨1, 8⟩⟩ ::
          looseDeclarations)) looseBlock looseDeclarations ∧
      ∀ resolve, (Rule.qualified [.token ⟨.ident "d", "d", ⟨1, 0⟩⟩] looseBlock).outcome resolve =
        (Item.listOutcome resolve (Item.ofTokens looseDeclarations)).gather
          (⟨⟨[⟨[.typeName "d"]⟩]⟩, ·⟩) := by
  have hclosed : areClosed (Component.ofTokens looseDeclarations) := by cbv
  have hfree : IsBraceFree (Component.ofTokens looseDeclarations) := by
    have hall : (Component.ofTokens looseDeclarations).all (!·.isStrayBrace) := by cbv
    exact fun c hc => by simpa using List.all_eq_true.1 hall c hc
  have hopening : looseBlock.opening.kind = .opening .brace := rfl
  have hclosing : (⟨.closing .brace, "\x7d", ⟨1, 8⟩⟩ : Token).kind = .closing .brace := rfl
  have hselectors : SelectorList.ofComponents [.token ⟨.ident "d", "d", ⟨1, 0⟩⟩] =
      .ok ⟨[⟨[.typeName "d"]⟩]⟩ := rfl
  obtain ⟨hread, houtcome⟩ := block_eq_inline looseDeclarations hopening hclosing hclosed hfree
  exact ⟨hclosed, hfree, hread, fun resolve => houtcome resolve _ _ hselectors⟩

end Styling
