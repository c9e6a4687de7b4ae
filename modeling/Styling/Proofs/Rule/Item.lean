import Styling.Proofs.Component.Arrangement
import Styling.Rule.Item

/-!
# Declaration lists inside of a block

A declaration list inside a block ends in front of the `}` that closes it. What comes from there on
changes no item before it (`Item.takeAll_append_brace`).
-/

namespace Styling

/-- Nothing, or a `}` that closes nothing and what follows it. -/
def AtBrace (stop : List Component) : Prop := ∀ c ∈ stop.head?, c.isStrayBrace

theorem exists_of_isStrayBrace {c : Component} (h : c.isStrayBrace) :
    ∃ source location, c = .token ⟨.closing .brace, source, location⟩ := by
  cases c with
  | token t =>
    rcases t with ⟨kind, source, location⟩
    cases kind with
    | closing b =>
      obtain rfl : Bracket.brace = b := by
        simpa [Component.isStrayBrace, TokenKind.isClosing] using h
      exact ⟨source, location, rfl⟩
    | _ => cases h
  | group => cases h

theorem isWhite_eq_false_of_isStrayBrace {c : Component} (h : c.isStrayBrace) :
    c.isWhite = false := by
  obtain ⟨source, location, rfl⟩ := exists_of_isStrayBrace h
  rfl

theorem isSemicolon_eq_false_of_isStrayBrace {c : Component} (h : c.isStrayBrace) :
    c.isSemicolon = false := by
  obtain ⟨source, location, rfl⟩ := exists_of_isStrayBrace h
  rfl

theorem isColon_eq_false_of_isClosing {kind : TokenKind} {b : Bracket} (h : kind.isClosing b) :
    kind.isColon = false := by
  cases kind <;> simp_all [TokenKind.isClosing, TokenKind.isColon]

private theorem splitRun_append_brace {p : Component → Bool} (cs : List Component)
    {stop : List Component} (hstop : AtBrace stop) (hp : ∀ c : Component, c.isStrayBrace → p c = false) :
    splitRun p (cs ++ stop) = ((splitRun p cs).1, (splitRun p cs).2 ++ stop) :=
  splitRun_append_right stop fun _ c hc => hp c (hstop c hc)

theorem AtRule.take_append_brace (keyword : Token) (cs : List Component) {stop : List Component}
    (hstop : AtBrace stop) : take true keyword (cs ++ stop) =
      ((take true keyword cs).1, (take true keyword cs).2 ++ stop) := by
  have hsplit := splitRun_append_brace (p := (!endsPrelude true ·)) cs hstop
    (fun c hc => by simp [endsPrelude, hc])
  simp only [take, hsplit]
  cases (splitRun (!endsPrelude true ·) cs).2 with
  | nil =>
    cases stop with
    | nil => rfl
    | cons c stop => simp [hstop c rfl]
  | cons c rest => by_cases hc : c.isStrayBrace <;> simp [hc]

theorem Declaration.take?_append_brace (c : Component) (cs : List Component)
    {stop : List Component} (hstop : AtBrace stop) : take? true (c :: (cs ++ stop)) =
      (take? true (c :: cs)).map fun (d, rest) => (d, rest ++ stop) := by
  have hwhite := fun cs => splitRun_append_brace (p := Component.isWhite) cs hstop
    (fun c hc => isWhite_eq_false_of_isStrayBrace hc)
  have hbody := fun cs => splitRun_append_brace (p := (!endsDeclaration true ·)) cs hstop
    (fun c hc => by simp [endsDeclaration, hc])
  cases c with
  | group => rfl
  | token name =>
    simp only [take?, hwhite]
    cases name.kind with
    | ident _ =>
      cases (splitRun Component.isWhite cs).2 with
      | nil =>
        cases stop with
        | nil => rfl
        | cons b stop =>
          cases b with
          | group => rfl
          | token t =>
            have ht : t.kind.isColon = false := isColon_eq_false_of_isClosing (hstop _ rfl)
            simp [ht]
      | cons c rest =>
        cases c with
        | group => rfl
        | token colon =>
          by_cases hcolon : colon.kind.isColon
          · simp only [List.cons_append, hcolon, hwhite, hbody, if_true]
            split <;> rfl
          · simp [hcolon]
    | _ => rfl

namespace Item

theorem takeMalformed_append_brace (cs : List Component) {stop : List Component}
    (hstop : AtBrace stop) : takeMalformed true (cs ++ stop) =
      ((takeMalformed true cs).1, (takeMalformed true cs).2 ++ stop) := by
  have hsplit := splitRun_append_brace (p := (!endsDeclaration true ·)) cs hstop
    (fun c hc => by simp [endsDeclaration, hc])
  simp only [takeMalformed, hsplit]
  cases (splitRun (!endsDeclaration true ·) cs).2 with
  | nil =>
    cases stop with
    | nil => rfl
    | cons c stop => simp [isSemicolon_eq_false_of_isStrayBrace (hstop c rfl)]
  | cons c rest => by_cases hc : c.isSemicolon <;> simp [hc]

private theorem takeDeclaration_append_brace (c : Component) (cs : List Component)
    {stop : List Component} (hstop : AtBrace stop) : takeDeclaration true c (cs ++ stop) =
      ((takeDeclaration true c cs).1, (takeDeclaration true c cs).2 ++ stop) := by
  simp only [takeDeclaration, Declaration.take?_append_brace c cs hstop,
    takeMalformed_append_brace cs hstop]
  cases Declaration.take? true (c :: cs) <;> rfl

/-- Reading an item inside a block does not look past the `}` that ends the block. -/
theorem take_append_brace (c : Component) (cs : List Component) {stop : List Component}
    (hstop : AtBrace stop) :
    take true c (cs ++ stop) = ((take true c cs).1, (take true c cs).2 ++ stop) := by
  cases c with
  | group head contents closing =>
    exact takeDeclaration_append_brace (.group head contents closing) cs hstop
  | token t =>
    simp only [take, AtRule.take_append_brace t cs hstop, takeDeclaration_append_brace _ cs hstop]
    by_cases hloose : t.isWhite || t.kind.isSemicolon
    · simp only [if_pos hloose]
    · simp only [if_neg hloose]
      cases t.kind <;> rfl

/-- The items of a block are those of what stands before its `}`, and reading them ends there. -/
theorem takeAll_append_brace {cs stop : List Component} (hcs : ∀ c ∈ cs, c.isStrayBrace = false)
    (hstop : AtBrace stop) : takeAll true (cs ++ stop) = ((takeAll true cs).1, stop) := by
  fun_induction takeAll true cs with
  | case1 =>
    cases stop with
    | nil => simp [takeAll]
    | cons c stop => simp [takeAll, hstop c rfl]
  | case2 c cs hc =>
    rw [hcs c List.mem_cons_self] at hc
    contradiction
  | case3 c cs hc first others ih =>
    have hrest : ∀ d ∈ first.2, d.isStrayBrace = false := fun d hd =>
      hcs d (components_take true c cs ▸ List.mem_append_right _ hd)
    have htake := take_append_brace c cs hstop
    rw [List.cons_append, takeAll, if_neg hc]
    simp only [htake]
    rw [ih hrest]

/-- Outside of any block nothing ends a declaration list but the end. -/
theorem snd_takeAll_false (cs : List Component) : (takeAll false cs).2 = [] := by
  induction hn : cs.length using Nat.strongRecOn generalizing cs with
  | _ n ih =>
    cases cs with
    | nil => simp [takeAll]
    | cons c cs =>
      have hlen := length_take_le false c cs
      rw [takeAll, Bool.false_and, if_neg Bool.false_ne_true]
      exact ih _ (by rw [← hn, List.length_cons]; omega) _ rfl

/-- The items of tokens hold these tokens in order. -/
theorem listTokens_ofTokens (ts : List Token) :
    Component.listTokens (listComponents (ofTokens ts)) = ts := by
  have hall := listComponents_takeAll false (Component.ofTokens ts)
  rw [snd_takeAll_false, List.append_nil] at hall
  rw [ofTokens, ofComponents, hall, Component.listTokens_ofTokens]

end Item

end Styling
