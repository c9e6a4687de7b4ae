import Styling.Proofs.Component.Arrangement

/-!
# Tokens with balanced brackets

Arranged component values that are closed and hold nothing malformed are balanced tokens
(`Component.areBalanced_listTokens`). The parentheses in balanced tokens, those of functions included,
are closed as often as they are opened, and in no part from the front oftener
(`AreBalanced.areSettled`).
-/

namespace Styling

namespace TokenKind

/-- Whether a token that stands alone is neither a closing bracket nor malformed. -/
def isSound : TokenKind → Bool
  | badString | badUrl | closing _ => false
  | _ => true

end TokenKind

namespace Component

mutual

/-- Whether no token that stands alone in a component value, at any depth, is a closing bracket, a bad
string or a bad URL. -/
def isSound : Component → Bool
  | token t => t.kind.isSound
  | group _ contents _ => areSound contents

def areSound : List Component → Bool
  | [] => true
  | c :: cs => isSound c && areSound cs

end

end Component

/-- Tokens in which whatever is opened is closed by its own bracket, and no other token is a closing
bracket or malformed. -/
inductive AreBalanced : List Token → Prop
  | nil : AreBalanced []
  | plain {t : Token} {ts : List Token} : t.kind.closer? = none → t.kind.isSound → AreBalanced ts →
      AreBalanced (t :: ts)
  | group {head closing : Token} {b : Bracket} {ts us : List Token} : head.kind.closer? = some b →
      closing.kind = .closing b → AreBalanced ts → AreBalanced us →
      AreBalanced (head :: (ts ++ closing :: us))

namespace Component

theorem closes_token_iff {head t : Token} :
    closes head (token t) ↔ ∃ b, head.kind.closer? = some b ∧ t.kind = .closing b := by
  rcases t with ⟨kind, source, location⟩
  rw [closes, Option.any_eq_true]
  cases kind <;> simp [TokenKind.isClosing]

/-- In front of a token, arranged component values have all their closing brackets. -/
theorem areBalanced_listTokens {t : Token} {ds : List Component} : (cs : List Component) →
    IsArranged (cs ++ token t :: ds) → areSound cs → AreBalanced (listTokens cs)
  | [], _, _ => .nil
  | token u :: cs, harranged, hsound => by
    rw [areSound, Bool.and_eq_true] at hsound
    exact .plain harranged.closer?_eq_none hsound.1
      (areBalanced_listTokens cs harranged.tail hsound.2)
  | group head contents closing :: cs, harranged, hsound => by
    rw [areSound, isSound, Bool.and_eq_true] at hsound
    obtain ⟨-, hinner, -, hcloses, hend⟩ := harranged.group_cons
    cases closing with
    | none => cases (List.append_eq_nil_iff.1 (hend rfl)).2
    | some closing =>
      obtain ⟨b, hhead, hclosing⟩ := closes_token_iff.1 (hcloses closing rfl)
      have hcontents : IsArranged (contents ++ token closing :: (cs ++ token t :: ds)) := by
        simpa using hinner
      have hgroup := AreBalanced.group hhead hclosing
        (areBalanced_listTokens contents hcontents hsound.1)
        (areBalanced_listTokens cs harranged.tail hsound.2)
      simpa [listTokens, tokens] using hgroup

end Component

/-! ## Parentheses -/

/-- One for a token that opens a parenthesis, as functions do, and minus one for one that closes it. -/
def Token.parenDelta (t : Token) : Int :=
  match t.kind with
  | .function _ | .opening .paren => 1
  | .closing .paren => -1
  | _ => 0

/-- The parentheses opened in tokens, less those closed. -/
def parenNet : List Token → Int
  | [] => 0
  | t :: ts => t.parenDelta + parenNet ts

@[simp] theorem parenNet_nil : parenNet [] = 0 := rfl

@[simp] theorem parenNet_cons (t : Token) (ts : List Token) :
    parenNet (t :: ts) = t.parenDelta + parenNet ts := rfl

@[simp] theorem parenNet_append (ts us : List Token) :
    parenNet (ts ++ us) = parenNet ts + parenNet us := by
  induction ts with
  | nil => exact (Int.zero_add _).symm
  | cons t ts ih => rw [List.cons_append, parenNet_cons, ih, parenNet_cons, Int.add_assoc]

theorem parenNet_eq_zero {ts : List Token} (h : ∀ t ∈ ts, t.parenDelta = 0) : parenNet ts = 0 := by
  induction ts with
  | nil => rfl
  | cons t ts ih =>
    obtain ⟨ht, hts⟩ := List.forall_mem_cons.1 h
    rw [parenNet_cons, ht, ih hts, Int.zero_add]

/-- Every parenthesis opened is closed, and none before it is opened. -/
structure AreSettled (ts : List Token) : Prop where
  nonneg : ∀ us, us <+: ts → 0 ≤ parenNet us
  settled : parenNet ts = 0

theorem prefix_append_cases {ts us vs : List Token} (h : vs <+: ts ++ us) :
    vs <+: ts ∨ ∃ ws, ws <+: us ∧ vs = ts ++ ws := by
  rcases List.prefix_or_prefix_of_prefix h (List.prefix_append ts us) with hvs | ⟨ws, rfl⟩
  · exact .inl hvs
  · exact .inr ⟨ws, (List.prefix_append_right_inj ts).1 h, rfl⟩

namespace AreSettled

variable {ts us : List Token}

theorem nil : AreSettled [] where
  nonneg := by
    intro us hus
    rw [List.prefix_nil.1 hus]
    exact Int.le_refl 0
  settled := rfl

theorem single {t : Token} (h : t.parenDelta = 0) : AreSettled [t] where
  nonneg := by
    intro us hus
    rcases List.prefix_cons_iff.1 hus with rfl | ⟨vs, rfl, hvs⟩
    · exact Int.le_refl 0
    · simp [List.prefix_nil.1 hvs, h]
  settled := by simp [h]

theorem append (hts : AreSettled ts) (hus : AreSettled us) : AreSettled (ts ++ us) where
  nonneg := by
    intro vs hvs
    rcases prefix_append_cases hvs with h | ⟨ws, hws, rfl⟩
    · exact hts.nonneg vs h
    · rw [parenNet_append, hts.settled, Int.zero_add]
      exact hus.nonneg ws hws
  settled := by rw [parenNet_append, hts.settled, hus.settled, Int.add_zero]

/-- A token that closes what an earlier one opened, or nothing, settles what is between the two. -/
theorem enclose {head closing : Token} (hhead : 0 ≤ head.parenDelta)
    (hclosing : head.parenDelta + closing.parenDelta = 0) (hts : AreSettled ts) :
    AreSettled (head :: (ts ++ [closing])) where
  nonneg := by
    intro vs hvs
    rcases List.prefix_cons_iff.1 hvs with rfl | ⟨ws, rfl, hws⟩
    · exact Int.le_refl 0
    · rcases prefix_append_cases hws with h | ⟨xs, hxs, rfl⟩
      · rw [parenNet_cons]
        exact Int.add_nonneg hhead (hts.nonneg ws h)
      · rcases List.prefix_cons_iff.1 hxs with rfl | ⟨ys, rfl, hys⟩
        · simpa [hts.settled] using hhead
        · rw [List.prefix_nil.1 hys]
          simp [hts.settled, hclosing]
  settled := by simp [hts.settled, hclosing]

end AreSettled

theorem AreBalanced.areSettled {ts : List Token} (h : AreBalanced ts) : AreSettled ts := by
  induction h with
  | nil => exact .nil
  | @plain t ts hopen hsound _ ih =>
    have hdelta : t.parenDelta = 0 := by
      rcases t with ⟨kind, source, location⟩
      cases kind with
      | function | opening => cases hopen
      | closing => cases hsound
      | _ => rfl
    exact (AreSettled.single hdelta).append ih
  | @group head closing b ts us hhead hclosing _ _ ihts ihus =>
    have hheadDelta : head.parenDelta = if b = .paren then 1 else 0 := by
      rcases head with ⟨kind, source, location⟩
      cases kind with
      | function =>
        obtain rfl := Option.some.inj hhead
        rfl
      | opening c =>
        obtain rfl := Option.some.inj hhead
        cases c <;> rfl
      | _ => cases hhead
    have hclosingDelta : closing.parenDelta = if b = .paren then -1 else 0 := by
      cases b <;> simp [Token.parenDelta, hclosing]
    have hgroup : AreSettled (head :: (ts ++ [closing])) := by
      refine ihts.enclose ?_ ?_
      · rw [hheadDelta]
        split <;> decide
      · rw [hheadDelta, hclosingDelta]
        split <;> decide
    simpa using hgroup.append ihus

end Styling
