import Styling.Grammar.Engine

/-!
# What a production takes

What a production takes depends on the tokens ahead and on nothing else. `Production.taking` says what
that is: the product and the tokens left over, or nothing. The tokens of the product are those taken
(`Production.tokens_append_of_taking`), and a repetition without an upper bound goes on for as long as
there is a further one (`Taking.ofRepetition_eq_some_iff`).
-/

namespace Styling

/-- What is taken from the front of tokens, if anything is, and what is left over. -/
abbrev Taking (α : Type) := List Token → Option (α × List Token)

namespace Taking

variable {α β : Type}

def accept (a : α) : Taking α := fun ts => some (a, ts)

def andThen (first : Taking α) (next : α → Taking β) : Taking β := fun ts =>
  (first ts).bind fun (a, us) => next a us

def orElse (first second : Taking α) : Taking α := fun ts => (first ts).or (second ts)

def tokenIf (p : Token → Bool) : Taking Product
  | [] => none
  | t :: ts => if p t then some (.token t, ts) else none

/-- One repetition: an element, after a separator unless it is the first. -/
def repetition (element : Taking Product) (separator : Taking (List Product)) (first : Bool) :
    Taking (List Product) :=
  if first then element.andThen fun p => accept [p]
  else separator.andThen fun s => element.andThen fun p => accept (s ++ [p])

/-- The products of repetitions, at most `limit` of them, their number, and what is left over. -/
def repeated (element : Taking Product) (separator : Taking (List Product)) :
    (limit : Nat) → (first : Bool) → List Token → (List Product × Nat) × List Token
  | 0, _, ts => (([], 0), ts)
  | limit + 1, first, ts =>
    match repetition element separator first ts with
    | some (ps, us) =>
      let rest := repeated element separator limit false us
      ((ps ++ rest.1.1, rest.1.2 + 1), rest.2)
    | none => (([], 0), ts)

def ofRepetition (element : Taking Product) (separator : Taking (List Product)) (least : Nat)
    (most : Option Nat) : Taking Product := fun ts =>
  let taken := repeated element separator (most.getD (ts.length + 2)) true ts
  if least ≤ taken.1.2 then some (.group taken.1.1, taken.2) else none

def anyValue : Taking Product := fun ts =>
  let taken := takeAnyValue .zero ts
  if taken.isEmpty then none else some (.group (taken.map .token), ts.drop taken.length)

end Taking

namespace Production

open Taking

mutual

/-- What a production takes. -/
def taking : Production → Taking Product
  | token pattern => tokenIf pattern.accepts
  | alternatives elements => takingFirst elements
  | juxtaposition elements => (takingEach elements).andThen fun ps => accept (.group ps)
  | nonEmpty element =>
    (taking element).andThen fun p => if p.tokens.isEmpty then fun _ => none else accept p
  | reference element => taking element
  | repetition element least most => ofRepetition (taking element) (accept []) least most
  | separated element separator least most =>
    ofRepetition (taking element) ((taking separator).andThen fun p => accept [p]) least most
  | anyValue => Taking.anyValue
  | bare => fun _ => none

def takingFirst : List Production → Taking Product
  | [] => fun _ => none
  | p :: ps => (taking p).orElse (takingFirst ps)

def takingEach : List Production → Taking (List Product)
  | [] => accept []
  | p :: ps => (taking p).andThen fun first => (takingEach ps).andThen fun others =>
      accept (first :: others)

end

end Production

/-! ## The tokens of what was taken -/

theorem takeAnyValue_isPrefix (counts : BracketCounts) (ts : List Token) :
    takeAnyValue counts ts <+: ts := by
  induction ts generalizing counts with
  | nil => exact List.prefix_rfl
  | cons t ts ih =>
    have hcons := fun counts => List.prefix_cons_inj t |>.2 (ih counts)
    rw [takeAnyValue]
    split
    · exact List.nil_prefix
    · exact List.nil_prefix
    · exact hcons _
    · split
      · exact List.nil_prefix
      · exact hcons _
    · exact hcons _

namespace Product

@[simp] theorem listTokens_append (ps qs : List Product) :
    listTokens (ps ++ qs) = listTokens ps ++ listTokens qs := by
  induction ps with
  | nil => rfl
  | cons p ps ih => simp [listTokens, ih]

@[simp] theorem listTokens_map_token (ts : List Token) : listTokens (ts.map token) = ts := by
  induction ts with
  | nil => rfl
  | cons t ts ih => simp [listTokens, tokens, ih]

end Product

namespace Taking

variable {α β : Type} {f : Taking α} {k : α → List Token} {m : β → List Token}

/-- The tokens of what is taken, and then those left over, are the tokens there were. -/
def Keeps (k : α → List Token) (f : Taking α) : Prop :=
  ∀ ts a us, f ts = some (a, us) → k a ++ us = ts

theorem Keeps.andThen {next : α → Taking β} (hf : Keeps k f)
    (hnext : ∀ a ts b us, next a ts = some (b, us) → m b ++ us = k a ++ ts) :
    Keeps m (f.andThen next) := by
  intro ts b us h
  obtain ⟨⟨a, vs⟩, ha, hb⟩ := Option.bind_eq_some_iff.1 h
  rw [hnext a vs b us hb, hf ts a vs ha]

theorem keeps_tokenIf (p : Token → Bool) : Keeps Product.tokens (tokenIf p) := by
  intro ts q us h
  cases ts with
  | nil => cases h
  | cons t ts =>
    rw [tokenIf] at h
    split at h
    · cases h
      rfl
    · cases h

theorem keeps_accept_nil : Keeps Product.listTokens (accept []) := by
  intro ts ps us h
  cases h
  rfl

theorem keeps_single {e : Taking Product} (he : Keeps Product.tokens e) :
    Keeps Product.listTokens (e.andThen fun p => accept [p]) := by
  refine Keeps.andThen he fun p ts ps us h => ?_
  cases h
  simp [Product.listTokens]

section Repetition

variable {e : Taking Product} {s : Taking (List Product)}

theorem keeps_repetition (he : Keeps Product.tokens e) (hs : Keeps Product.listTokens s)
    (first : Bool) : Keeps Product.listTokens (repetition e s first) := by
  cases first with
  | true => exact keeps_single he
  | false =>
    show Keeps Product.listTokens (s.andThen fun sep => e.andThen fun p => accept (sep ++ [p]))
    refine Keeps.andThen hs fun sep ts ps us h => ?_
    obtain ⟨⟨p, vs⟩, hp, hps⟩ := Option.bind_eq_some_iff.1 h
    cases hps
    simp [Product.listTokens, he ts p us hp]

theorem listTokens_append_repeated (he : Keeps Product.tokens e) (hs : Keeps Product.listTokens s)
    (limit : Nat) (first : Bool) (ts : List Token) :
    Product.listTokens (repeated e s limit first ts).1.1 ++ (repeated e s limit first ts).2 = ts := by
  induction limit generalizing first ts with
  | zero => rfl
  | succ limit ih =>
    rw [repeated]
    cases hstep : repetition e s first ts with
    | none => rfl
    | some found =>
      rcases found with ⟨ps, us⟩
      simp [ih false us, keeps_repetition he hs first ts ps us hstep]

theorem keeps_ofRepetition (he : Keeps Product.tokens e) (hs : Keeps Product.listTokens s)
    (least : Nat) (most : Option Nat) : Keeps Product.tokens (ofRepetition e s least most) := by
  intro ts q us h
  simp only [ofRepetition] at h
  split at h
  · cases h
    exact listTokens_append_repeated he hs _ true ts
  · cases h

end Repetition

theorem keeps_anyValue : Keeps Product.tokens anyValue := by
  intro ts q us h
  simp only [anyValue] at h
  split at h
  · cases h
  · cases h
    have hprefix := takeAnyValue_isPrefix .zero ts
    rw [Product.tokens, Product.listTokens_map_token]
    exact List.prefix_iff_eq_append.1 hprefix

end Taking

namespace Production

open Taking

mutual

/-- The tokens of the product and those left over are the tokens there were. -/
theorem keeps_taking : (p : Production) → Keeps Product.tokens p.taking
  | token pattern => by
    simp only [taking]
    exact keeps_tokenIf _
  | alternatives elements => by
    simp only [taking]
    exact keeps_takingFirst elements
  | juxtaposition elements => by
    simp only [taking]
    refine Keeps.andThen (keeps_takingEach elements) fun ps ts q us h => ?_
    cases h
    rfl
  | nonEmpty element => by
    simp only [taking]
    refine Keeps.andThen (keeps_taking element) fun p ts q us h => ?_
    split at h
    · cases h
    · cases h
      rfl
  | reference element => by
    simp only [taking]
    exact keeps_taking element
  | repetition element least most => by
    simp only [taking]
    exact keeps_ofRepetition (keeps_taking element) keeps_accept_nil least most
  | separated element separator least most => by
    simp only [taking]
    exact keeps_ofRepetition (keeps_taking element) (keeps_single (keeps_taking separator)) least most
  | anyValue => by
    simp only [taking]
    exact keeps_anyValue
  | bare => by
    intro ts q us h
    simp only [taking] at h
    cases h

theorem keeps_takingFirst : (ps : List Production) → Keeps Product.tokens (takingFirst ps)
  | [] => by
    intro ts q us h
    simp only [takingFirst] at h
    cases h
  | p :: ps => by
    intro ts q us h
    simp only [takingFirst, orElse, Option.or_eq_some_iff] at h
    rcases h with h | ⟨-, h⟩
    · exact keeps_taking p ts q us h
    · exact keeps_takingFirst ps ts q us h

theorem keeps_takingEach : (ps : List Production) → Keeps Product.listTokens (takingEach ps)
  | [] => by
    intro ts qs us h
    simp only [takingEach] at h
    cases h
    rfl
  | p :: ps => by
    simp only [takingEach]
    refine Keeps.andThen (keeps_taking p) fun first ts qs us h => ?_
    obtain ⟨⟨others, vs⟩, hothers, hqs⟩ := Option.bind_eq_some_iff.1 h
    cases hqs
    rw [Product.listTokens, List.append_assoc, keeps_takingEach ps ts others us hothers]

end

theorem tokens_append_of_taking {p : Production} {ts us : List Token} {q : Product}
    (h : p.taking ts = some (q, us)) : q.tokens ++ us = ts :=
  keeps_taking p ts q us h

end Production

/-! ## Repetition without a bound -/

namespace Taking

variable {e : Taking Product} {s : Taking (List Product)}

/-- The products of the repetitions from `ts` on, as long as there is a further one, their number, and
the tokens left over. -/
inductive Repeats (e : Taking Product) (s : Taking (List Product)) :
    (first : Bool) → (ts : List Token) → (ps : List Product) → (n : Nat) → (us : List Token) → Prop
  | stop {first ts} : repetition e s first ts = none → Repeats e s first ts [] 0 ts
  | next {first ts ps us qs n vs} : repetition e s first ts = some (ps, us) →
      Repeats e s false us qs n vs → Repeats e s first ts (ps ++ qs) (n + 1) vs

theorem Repeats.listTokens_append (he : Keeps Product.tokens e) (hs : Keeps Product.listTokens s)
    {first : Bool} {ts us : List Token} {ps : List Product} {n : Nat}
    (h : Repeats e s first ts ps n us) : Product.listTokens ps ++ us = ts := by
  induction h with
  | stop => rfl
  | next hstep _ ih =>
    rw [Product.listTokens_append, List.append_assoc, ih, keeps_repetition he hs _ _ _ _ hstep]

/-- Whether every repetition but the first takes a token. -/
def IsProgressive (e : Taking Product) (s : Taking (List Product)) : Prop :=
  ∀ first ts ps us, repetition e s first ts = some (ps, us) →
    us.length ≤ ts.length ∧ (first = false → us.length < ts.length)

theorem Keeps.length_le {α : Type} {k : α → List Token} {f : Taking α} (h : Keeps k f)
    {ts us : List Token} {a : α} (hf : f ts = some (a, us)) : us.length ≤ ts.length := by
  have hlength := congrArg List.length (h ts a us hf)
  rw [List.length_append] at hlength
  omega

/-- Repetition goes on for as long as there is a further one if the element or the separator takes a
token. -/
theorem isProgressive_of_length_lt (he : Keeps Product.tokens e) (hs : Keeps Product.listTokens s)
    (hfilled : (∀ ts q us, e ts = some (q, us) → us.length < ts.length) ∨
      ∀ ts ps us, s ts = some (ps, us) → us.length < ts.length) : IsProgressive e s := by
  intro first ts ps us h
  refine ⟨(keeps_repetition he hs first).length_le h, ?_⟩
  rintro rfl
  obtain ⟨⟨sep, vs⟩, hsep, h⟩ := Option.bind_eq_some_iff.1 h
  obtain ⟨⟨q, ws⟩, hq, h⟩ := Option.bind_eq_some_iff.1 h
  cases h
  have hsep' := hs.length_le hsep
  have hq' := he.length_le hq
  rcases hfilled with helement | hseparator
  · exact Nat.lt_of_lt_of_le (helement vs q us hq) hsep'
  · exact Nat.lt_of_le_of_lt hq' (hseparator ts sep vs hsep)

theorem isProgressive_of_tokens_ne_nil (he : Keeps Product.tokens e)
    (hs : Keeps Product.listTokens s) (hfilled : ∀ ts q us, e ts = some (q, us) → q.tokens ≠ []) :
    IsProgressive e s := by
  refine isProgressive_of_length_lt he hs (.inl fun ts q us hq => ?_)
  have hlength := congrArg List.length (he ts q us hq)
  have hpos := List.length_pos_iff.2 (hfilled ts q us hq)
  rw [List.length_append] at hlength
  omega

theorem length_lt_of_step (h : IsProgressive e s) {first : Bool} {ts us : List Token}
    {ps : List Product} {limit : Nat} (hlimit : ts.length + first.toNat < limit + 1)
    (hstep : repetition e s first ts = some (ps, us)) : us.length + false.toNat < limit := by
  obtain ⟨hle, hlt⟩ := h first ts ps us hstep
  cases first with
  | true =>
    rw [Bool.toNat_true] at hlimit
    rw [Bool.toNat_false]
    omega
  | false =>
    have hlt := hlt rfl
    rw [Bool.toNat_false] at hlimit ⊢
    omega

/-- A limit beyond the number of tokens is not what ends the repetitions. -/
theorem repeats_repeated (h : IsProgressive e s) {limit : Nat} {first : Bool} {ts : List Token}
    (hlimit : ts.length + first.toNat < limit) :
    Repeats e s first ts (repeated e s limit first ts).1.1 (repeated e s limit first ts).1.2
      (repeated e s limit first ts).2 := by
  induction limit generalizing first ts with
  | zero => omega
  | succ limit ih =>
    rw [repeated]
    cases hstep : repetition e s first ts with
    | none => exact .stop hstep
    | some found => exact .next hstep (ih (length_lt_of_step h hlimit hstep))

theorem repeated_of_repeats (h : IsProgressive e s) {limit : Nat} {first : Bool}
    {ts us : List Token} {ps : List Product} {n : Nat} (hlimit : ts.length + first.toNat < limit)
    (hrepeats : Repeats e s first ts ps n us) : repeated e s limit first ts = ((ps, n), us) := by
  induction hrepeats generalizing limit with
  | stop hstep =>
    cases limit with
    | zero => omega
    | succ limit => rw [repeated, hstep]
  | next hstep _ ih =>
    cases limit with
    | zero => omega
    | succ limit =>
      rw [repeated, hstep]
      simp only [ih (length_lt_of_step h hlimit hstep)]

/-- A repetition without an upper bound takes all there is, if that is enough. -/
theorem ofRepetition_eq_some_iff (h : IsProgressive e s) {least : Nat} {ts us : List Token}
    {q : Product} : ofRepetition e s least none ts = some (q, us) ↔
      ∃ ps n, q = .group ps ∧ Repeats e s true ts ps n us ∧ least ≤ n := by
  have hlimit : ts.length + true.toNat < ts.length + 2 := Nat.lt_succ_self _
  have hrepeats := repeats_repeated h hlimit
  simp only [ofRepetition, Option.getD_none]
  constructor
  · intro hq
    split at hq
    · rename_i hleast
      cases hq
      exact ⟨_, _, rfl, hrepeats, hleast⟩
    · cases hq
  · rintro ⟨ps, n, rfl, hps, hleast⟩
    rw [repeated_of_repeats h hlimit hps, if_pos hleast]

/-- An optional element is taken if it is there. -/
theorem ofRepetition_once (ts : List Token) : ofRepetition e (accept []) 0 (some 1) ts =
    some (match e ts with
      | some (q, us) => (.group [q], us)
      | none => (.group [], ts)) := by
  have hone : repeated e (accept []) 1 true ts = match e ts with
      | some (q, us) => (([q], 1), us)
      | none => (([], 0), ts) := by
    rw [repeated, repetition, if_pos rfl, andThen]
    cases e ts <;> rfl
  simp only [ofRepetition, Option.getD_some, hone, Nat.zero_le, if_true]
  cases e ts <;> rfl

end Taking

end Styling