import Styling.Proofs.Component.Outline
import Styling.Proofs.Selector.Accepted

/-!
# Selectors in other places

What a production takes does not depend on the places of the tokens, nor does a selector list, or why it is
refused (`SelectorList.ofTokens_of_unplaced`).
-/

namespace Styling

namespace Product

mutual

/-- The product of the same tokens at the beginning of the input. -/
def unplaced : Product → Product
  | token t => token t.unplaced
  | group parts => group (listUnplaced parts)

def listUnplaced : List Product → List Product
  | [] => []
  | p :: ps => unplaced p :: listUnplaced ps

end

theorem listUnplaced_eq_map (ps : List Product) : listUnplaced ps = ps.map unplaced := by
  induction ps with
  | nil => rfl
  | cons p ps ih => rw [listUnplaced, ih, List.map_cons]

mutual

theorem tokens_unplaced : (p : Product) → p.unplaced.tokens = p.tokens.map Token.unplaced
  | token t => rfl
  | group parts => by rw [unplaced, tokens, tokens, listTokens_listUnplaced parts]

theorem listTokens_listUnplaced : (ps : List Product) →
    listTokens (listUnplaced ps) = (listTokens ps).map Token.unplaced
  | [] => rfl
  | p :: ps => by
    rw [listUnplaced, listTokens, listTokens, List.map_append, tokens_unplaced p,
      listTokens_listUnplaced ps]

end

end Product

namespace Taking

variable {α β : Type} {k : α → α} {m : β → β} {f : Taking α}

/-- What is taken does not depend on the places of the tokens, but for those of what is taken. -/
def IgnoresPlaces (k : α → α) (f : Taking α) : Prop :=
  ∀ ts, f (ts.map Token.unplaced) = (f ts).map (Prod.map k (List.map Token.unplaced))

theorem ignoresPlaces_accept (a : α) (h : k a = a) : IgnoresPlaces k (accept a) := by
  intro ts
  simp [accept, h]

theorem IgnoresPlaces.andThen_map {next next' : α → Taking β} (hf : IgnoresPlaces k f)
    (hnext : ∀ a ts, next' (k a) (ts.map Token.unplaced) =
      (next a ts).map (Prod.map m (List.map Token.unplaced))) (ts : List Token) :
    (f.andThen next') (ts.map Token.unplaced) =
      ((f.andThen next) ts).map (Prod.map m (List.map Token.unplaced)) := by
  rw [Taking.andThen, Taking.andThen, hf]
  cases f ts with
  | none => rfl
  | some found => exact hnext found.1 found.2

theorem IgnoresPlaces.andThen {next : α → Taking β} (hf : IgnoresPlaces k f)
    (hnext : ∀ a ts, next (k a) (ts.map Token.unplaced) =
      (next a ts).map (Prod.map m (List.map Token.unplaced))) : IgnoresPlaces m (f.andThen next) :=
  hf.andThen_map hnext

theorem IgnoresPlaces.orElse {g : Taking α} (hf : IgnoresPlaces k f) (hg : IgnoresPlaces k g) :
    IgnoresPlaces k (f.orElse g) := by
  intro ts
  rw [Taking.orElse, Taking.orElse, hf, hg]
  cases f ts <;> rfl

theorem ignoresPlaces_tokenIf {p : Token → Bool} (hp : ∀ t : Token, p t.unplaced = p t) :
    IgnoresPlaces Product.unplaced (tokenIf p) := by
  intro ts
  cases ts with
  | nil => rfl
  | cons t ts =>
    rw [List.map_cons, tokenIf, tokenIf, hp]
    split <;> rfl

theorem takeAnyValue_map_unplaced (counts : BracketCounts) (ts : List Token) :
    takeAnyValue counts (ts.map Token.unplaced) = (takeAnyValue counts ts).map Token.unplaced := by
  induction ts generalizing counts with
  | nil => rfl
  | cons t ts ih =>
    rw [List.map_cons, takeAnyValue, takeAnyValue]
    have hkind : t.unplaced.kind = t.kind := rfl
    rw [hkind]
    split <;> (try split) <;> simp [ih]

theorem ignoresPlaces_anyValue : IgnoresPlaces Product.unplaced Taking.anyValue := by
  intro ts
  simp only [Taking.anyValue, takeAnyValue_map_unplaced, List.isEmpty_map, List.length_map]
  split
  · rfl
  · simp [Product.unplaced, Product.listUnplaced_eq_map, List.map_drop]

section Repetition

variable {e : Taking Product} {s : Taking (List Product)}

theorem ignoresPlaces_single (he : IgnoresPlaces Product.unplaced e) :
    IgnoresPlaces Product.listUnplaced (e.andThen fun p => accept [p]) :=
  he.andThen fun _ _ => rfl

theorem ignoresPlaces_repetition (he : IgnoresPlaces Product.unplaced e)
    (hs : IgnoresPlaces Product.listUnplaced s) (first : Bool) :
    IgnoresPlaces Product.listUnplaced (repetition e s first) := by
  cases first with
  | true => exact ignoresPlaces_single he
  | false =>
    show IgnoresPlaces _ (s.andThen fun sep => e.andThen fun p => accept (sep ++ [p]))
    refine hs.andThen fun sep ts => he.andThen_map (fun p us => ?_) ts
    rw [accept, accept, Product.listUnplaced_eq_map, Option.map_some, Prod.map_apply,
      Product.listUnplaced_eq_map, List.map_append]
    rfl

theorem repeated_map_unplaced (he : IgnoresPlaces Product.unplaced e)
    (hs : IgnoresPlaces Product.listUnplaced s) (limit : Nat) (first : Bool) (ts : List Token) :
    repeated e s limit first (ts.map Token.unplaced) =
      ((Product.listUnplaced (repeated e s limit first ts).1.1, (repeated e s limit first ts).1.2),
        (repeated e s limit first ts).2.map Token.unplaced) := by
  induction limit generalizing first ts with
  | zero => rfl
  | succ limit ih =>
    rw [repeated, repeated, ignoresPlaces_repetition he hs]
    cases repetition e s first ts with
    | none => rfl
    | some found =>
      rcases found with ⟨ps, us⟩
      simp only [Option.map_some, Prod.map_apply, ih, Product.listUnplaced_eq_map, List.map_append]

theorem ignoresPlaces_ofRepetition (he : IgnoresPlaces Product.unplaced e)
    (hs : IgnoresPlaces Product.listUnplaced s) (least : Nat) (most : Option Nat) :
    IgnoresPlaces Product.unplaced (ofRepetition e s least most) := by
  intro ts
  simp only [ofRepetition, List.length_map, repeated_map_unplaced he hs]
  split <;> rfl

end Repetition

end Taking

namespace Production

open Taking

mutual

theorem ignoresPlaces_taking : (p : Production) → IgnoresPlaces Product.unplaced p.taking
  | token pattern => by
    simp only [taking]
    exact ignoresPlaces_tokenIf fun _ => rfl
  | alternatives elements => by
    simp only [taking]
    exact ignoresPlaces_takingFirst elements
  | juxtaposition elements => by
    simp only [taking]
    exact (ignoresPlaces_takingEach elements).andThen fun _ _ => rfl
  | nonEmpty element => by
    simp only [taking]
    refine (ignoresPlaces_taking element).andThen fun p ts => ?_
    rw [Product.tokens_unplaced, List.isEmpty_map]
    split <;> rfl
  | reference element => by
    simp only [taking]
    exact ignoresPlaces_taking element
  | repetition element least most => by
    simp only [taking]
    exact ignoresPlaces_ofRepetition (ignoresPlaces_taking element)
      (ignoresPlaces_accept [] rfl) least most
  | separated element separator least most => by
    simp only [taking]
    exact ignoresPlaces_ofRepetition (ignoresPlaces_taking element)
      (ignoresPlaces_single (ignoresPlaces_taking separator)) least most
  | anyValue => by
    simp only [taking]
    exact ignoresPlaces_anyValue
  | bare => by
    intro ts
    simp only [taking]
    rfl

theorem ignoresPlaces_takingFirst : (ps : List Production) →
    IgnoresPlaces Product.unplaced (takingFirst ps)
  | [] => by
    intro ts
    simp only [takingFirst]
    rfl
  | p :: ps => by
    simp only [takingFirst]
    exact (ignoresPlaces_taking p).orElse (ignoresPlaces_takingFirst ps)

theorem ignoresPlaces_takingEach : (ps : List Production) →
    IgnoresPlaces Product.listUnplaced (takingEach ps)
  | [] => by
    simp only [takingEach]
    exact ignoresPlaces_accept [] rfl
  | p :: ps => by
    simp only [takingEach]
    refine (ignoresPlaces_taking p).andThen fun first ts => ?_
    exact (ignoresPlaces_takingEach ps).andThen_map (fun _ _ => rfl) ts

end

end Production

namespace SimpleSelector

theorem ofTypeProduct?_unplaced (p : Product) : ofTypeProduct? p.unplaced = ofTypeProduct? p := by
  cases p with
  | group parts => rfl
  | token t =>
    rcases t with ⟨kind, source, location⟩
    cases kind with
    | delim c => by_cases hc : c = '*' <;> simp [Product.unplaced, Token.unplaced, ofTypeProduct?, hc]
    | _ => rfl

theorem ofSubclassProduct?_unplaced (p : Product) :
    ofSubclassProduct? p.unplaced = ofSubclassProduct? p := by
  have hsource : sourceOf p.unplaced.tokens = sourceOf p.tokens := by
    rw [Product.tokens_unplaced, sourceOf, List.map_map]
    rfl
  -- The kinds of the first three tokens tell the forms apart.
  rcases p with ⟨⟨kind, source, location⟩⟩ | ⟨parts⟩
  · cases kind <;> rfl
  rcases parts with _ | ⟨⟨⟨kind, source, location⟩⟩ | parts, ps⟩
  · rfl
  · cases kind with
    | delim c =>
      by_cases hc : c = '.'
      · subst hc
        rcases ps with _ | ⟨⟨⟨kind, source, location⟩⟩ | parts, _ | ⟨p, ps⟩⟩
        all_goals first | rfl | cases kind <;> rfl
      · simp [Product.unplaced, Product.listUnplaced, Token.unplaced, ofSubclassProduct?, hc]
    | opening b =>
      cases b with
      | square =>
        rcases ps with _ | ⟨q, _ | ⟨⟨⟨kind, source, location⟩⟩ | parts, ps⟩⟩
        all_goals try rfl
        cases kind with
        | ident name => exact congrArg (fun css => some (attributeName name css)) hsource
        | _ => rfl
      | paren | brace => rfl
    | colon =>
      rcases ps with _ | ⟨⟨⟨kind, source, location⟩⟩ | parts, ps⟩
      · rfl
      · cases kind with
        | ident name =>
          cases ps with
          | nil => exact congrArg (fun css => some (pseudoClass name css)) hsource
          | cons => rfl
        | function name => exact congrArg (fun css => some (pseudoClass name css)) hsource
        | _ => rfl
      · rfl
    | _ => rfl
  · rfl

end SimpleSelector

private theorem mapM_map_unplaced {α : Type} {f : Product → Option α}
    (hf : ∀ p, f p.unplaced = f p) (ps : List Product) : (ps.map Product.unplaced).mapM f = ps.mapM f := by
  rw [List.mapM_map, show f ∘ Product.unplaced = f from funext hf]

theorem Selector.ofProduct?_unplaced (p : Product) : ofProduct? p.unplaced = ofProduct? p := by
  rcases p with t | ⟨_ | ⟨_ | types, _ | ⟨_ | subclasses, _ | ⟨p, ps⟩⟩⟩⟩
  all_goals try rfl
  simp only [Product.unplaced, Product.listUnplaced, Product.listUnplaced_eq_map, ofProduct?,
    mapM_map_unplaced SimpleSelector.ofTypeProduct?_unplaced,
    mapM_map_unplaced SimpleSelector.ofSubclassProduct?_unplaced]

/-- The same error without the place. -/
def ParseError.unplaced (e : ParseError) : ParseError := { e with location := none }

namespace SelectorList

open Selector.Grammar

private theorem elementsOf_map (f : Product → Product) (ps : List Product) :
    elementsOf (ps.map f) = (elementsOf ps).map f := by
  fun_induction elementsOf ps with
  | case1 => rfl
  | case2 p => rfl
  | case3 p q ps ih => rw [List.map_cons, List.map_cons, elementsOf, ih, List.map_cons]

theorem ofProduct?_unplaced (p : Product) : ofProduct? p.unplaced = ofProduct? p := by
  cases p with
  | token t => rfl
  | group parts =>
    rw [Product.unplaced, Product.listUnplaced_eq_map, ofProduct?, ofProduct?, elementsOf_map,
      mapM_map_unplaced Selector.ofProduct?_unplaced]

private theorem sourceOf_map_unplaced (ts : List Token) : sourceOf (ts.map Token.unplaced) = sourceOf ts := by
  rw [sourceOf, List.map_map]
  rfl

theorem ofTrimmed_map_unplaced (ts : List Token) :
    (ofTrimmed (ts.map Token.unplaced)).mapError ParseError.unplaced =
      (ofTrimmed ts).mapError ParseError.unplaced := by
  cases ts with
  | nil => rfl
  | cons t ts =>
    have htaking := Production.ignoresPlaces_taking selectorList (t :: ts)
    cases hfound : selectorList.taking (t :: ts) with
    | none =>
      rw [hfound] at htaking
      rw [ofTrimmed_of_none hfound, List.map_cons, ofTrimmed_of_none htaking, ← List.map_cons,
        sourceOf_map_unplaced]
      rfl
    | some found =>
      rcases found with ⟨q, us⟩
      rw [hfound] at htaking
      cases us with
      | nil =>
        obtain ⟨compounds, -, hselectors⟩ := exists_isWritten_of_taking hfound
        rw [ofTrimmed_of_some hfound hselectors, List.map_cons,
          ofTrimmed_of_some htaking ((ofProduct?_unplaced q).trans hselectors)]
      | cons u us =>
        rw [ofTrimmed_of_left hfound, List.map_cons, ofTrimmed_of_left htaking]
        rfl

/-- Tokens in other places give the same selector list, or are refused with the same error, but for its
place. -/
theorem ofTokens_of_unplaced {ts us : List Token}
    (h : ts.map Token.unplaced = us.map Token.unplaced) :
    (ofTokens ts).mapError ParseError.unplaced = (ofTokens us).mapError ParseError.unplaced := by
  have hcore : ∀ ts : List Token, (ofTokens ts).mapError ParseError.unplaced =
      (ofTokens (ts.map Token.unplaced)).mapError ParseError.unplaced := by
    intro ts
    have hwhite : Token.isWhite ∘ Token.unplaced = Token.isWhite := rfl
    rw [ofTokens, ofTokens, dropTrailing, dropTrailing, List.dropWhile_map, ← List.map_reverse,
      List.dropWhile_map, ← List.map_reverse, ofTrimmed_map_unplaced, hwhite]
  rw [hcore ts, hcore us, h]

end SelectorList

end Styling
