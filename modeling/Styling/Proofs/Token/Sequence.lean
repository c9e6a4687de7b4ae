import Mathlib
import Styling.Proofs.Source.Filter
import Styling.Proofs.Token.Formation

/-!
# The tokens of a text make up the text

Scanning for a token goes on exactly where the one before ended (`Formed`). So no token is empty,
the sources of all tokens together are the text as it was written, and the place of a token is that
of the offset at which its source starts (`tokenize_partition`).
-/

namespace Styling

open Source Lexer

/-- Tokens formed of filtered characters: each is what scanning finds at the characters left, has as
its source what was written for those that it takes, and has the place of the first of them. -/
inductive Formed : List SourceChar → List Token → Prop where
  | nil : Formed [] []
  | cons {c : SourceChar} {taken rest : List SourceChar} {t : Token} {ts : List Token}
      {lexeme : Lexeme} {notes : List Note}
      (scan : scanLexeme c.value ((taken ++ rest).map SourceChar.value) =
        ⟨lexeme, rest.map SourceChar.value, notes⟩)
      (kind : lexeme.kind = .ok t.kind)
      (source : t.source = String.ofList (sourcesOf (c :: taken)))
      (location : t.location = c.location)
      (others : Formed rest ts) : Formed (c :: (taken ++ rest)) (t :: ts)

/-- The characters that a scan left are the last ones of those it was given. -/
private theorem map_drop_eq_of_isSuffix {cs : List SourceChar} {rest : List Char}
    (h : rest <:+ cs.map SourceChar.value) :
    (cs.drop (cs.length - rest.length)).map SourceChar.value = rest := by
  have hrest := List.suffix_iff_eq_drop.1 h
  rw [List.length_map] at hrest
  rw [List.map_drop]
  exact hrest.symm

/-- Forming tokens to the end goes on where each token ended. -/
theorem formed_ofChars {cs : List SourceChar} (h : (Tokens.ofChars cs).failure = none) :
    Formed cs (Tokens.ofChars cs).tokens := by
  induction hn : cs.length using Nat.strongRecOn generalizing cs with
  | _ n ih =>
    cases cs with
    | nil =>
      rw [Tokens.ofChars]
      exact .nil
    | cons c cs =>
      generalize hs : scanLexeme c.value (cs.map SourceChar.value) = s
      have hsuffix := isSuffix_scanLexeme c.value (cs.map SourceChar.value)
      rw [hs] at hsuffix
      have hdrop := map_drop_eq_of_isSuffix hsuffix
      have hcs := List.take_append_drop (cs.length - s.rest.length) cs
      have hlen : (cs.drop (cs.length - s.rest.length)).length < n := by
        rw [← hn, List.length_drop, List.length_cons]
        omega
      rw [Tokens.ofChars] at h ⊢
      simp only [hs] at h ⊢
      cases hkind : s.value.kind with
      | error e =>
        rw [hkind] at h
        cases h
      | ok kind =>
        rw [hkind] at h
        have hscan : scanLexeme c.value ((cs.take (cs.length - s.rest.length) ++
            cs.drop (cs.length - s.rest.length)).map SourceChar.value) =
            ⟨s.value, (cs.drop (cs.length - s.rest.length)).map SourceChar.value, s.notes⟩ := by
          rw [hcs, hdrop, hs]
        have hformed := Formed.cons (t := ⟨kind, String.ofList _, c.location⟩) hscan hkind rfl rfl
          (ih _ hlen h rfl)
        rwa [hcs] at hformed

namespace Formed

variable {cs : List SourceChar} {ts : List Token}

theorem sourceOf_eq (h : Formed cs ts) : (sourceOf ts).toList = sourcesOf cs := by
  induction h with
  | nil => rfl
  | cons scan kind source location others ih =>
    rw [sourceOf, List.map_cons, String.join_cons, String.toList_append, source, ← sourceOf, ih]
    simp

end Formed

theorem Located.append {text : List Char} {offset : Nat} {cs ds : List SourceChar}
    (h : Located text offset (cs ++ ds)) : Located text (offset + (sourcesOf cs).length) ds := by
  induction cs generalizing offset with
  | nil => exact h
  | cons c cs ih =>
    have hrest := ih h.2.2
    rw [sourcesOf_cons, List.length_append, ← Nat.add_assoc]
    exact hrest

namespace Formed

variable {cs : List SourceChar} {ts : List Token}

theorem source_ne_empty {text : List Char} {offset : Nat} (h : Formed cs ts)
    (hcs : Located text offset cs) : ∀ t ∈ ts, t.source ≠ "" := by
  induction h generalizing offset with
  | nil => simp
  | cons scan kind source location others ih =>
    rename_i c taken rest t ts _ _
    have hrest : Located text (offset + (sourcesOf (c :: taken)).length) rest := Located.append hcs
    refine List.forall_mem_cons.2 ⟨?_, ih hrest⟩
    intro hempty
    have hnil : (t.source).toList = [] := by rw [hempty]; rfl
    rw [source, String.toList_ofList, sourcesOf_cons, List.append_eq_nil_iff] at hnil
    exact hcs.2.1 hnil.1

theorem location_eq {text : List Char} {offset : Nat} (h : Formed cs ts)
    (hcs : Located text offset cs) (i : Nat) (hi : i < ts.length) :
    ts[i].location = locationAt text (offset + (sourceOf (ts.take i)).length) := by
  induction h generalizing offset i with
  | nil => cases hi
  | cons scan kind source location others ih =>
    rename_i c taken rest t ts _ _
    cases i with
    | zero => exact location.trans hcs.1
    | succ i =>
      have hrest : Located text (offset + (sourcesOf (c :: taken)).length) rest := Located.append hcs
      have hplace := ih hrest i (Nat.lt_of_succ_lt_succ hi)
      have hlen : (sourceOf ((t :: ts).take (i + 1))).length =
          (sourcesOf (c :: taken)).length + (sourceOf (ts.take i)).length := by
        rw [List.take_succ_cons, sourceOf, List.map_cons, String.join_cons, String.length_append,
          source, String.length_ofList]
        rfl
      rw [hlen, ← Nat.add_assoc]
      exact hplace

end Formed

theorem formed_of_tokenize {text : String} {ts : List Token} (h : tokenize text = .ok ts) :
    Formed (filter text) ts := by
  simp only [tokenize, Tokens.toExcept] at h
  split at h
  · cases h
  · rename_i hnone
    obtain rfl := Except.ok.inj h
    exact formed_ofChars hnone

/-- There are no more tokens than characters in their sources. -/
private theorem length_le_length_sourceOf {ts : List Token} (h : ∀ t ∈ ts, t.source ≠ "") :
    ts.length ≤ (sourceOf ts).length := by
  induction ts with
  | nil => exact Nat.zero_le _
  | cons t ts ih =>
    obtain ⟨ht, hts⟩ := List.forall_mem_cons.1 h
    have hpos : 0 < t.source.length := by
      rw [Nat.pos_iff_ne_zero]
      intro hzero
      exact ht (String.length_eq_zero_iff.1 hzero)
    have hrest := ih hts
    rw [sourceOf, List.map_cons, String.join_cons, String.length_append, List.length_cons]
    show ts.length + 1 ≤ t.source.length + (sourceOf ts).length
    omega

/-- The tokens of a text, if none of its numbers is without a value. The reader of characters comes
to an end with them, and scanning for each goes on where the one before ended; there are no more of
them than characters, none is empty, together they are the text as it was written, and each has the
place of the offset at which it starts. -/
theorem tokenize_partition {text : String} {ts : List Token} (h : tokenize text = .ok ts) :
    (∃ notes, formTokens text = some (.ok (ts, notes))) ∧
      Formed (filter text) ts ∧ ts.length ≤ text.length ∧ (∀ t ∈ ts, t.source ≠ "") ∧
      sourceOf ts = text ∧ ∀ (i : Nat) (hi : i < ts.length),
        ts[i].location = locationAt text.toList (sourceOf (ts.take i)).length := by
  have hfailure : (Tokens.ofText text).failure = none ∧ (Tokens.ofText text).tokens = ts := by
    simp only [tokenize, Tokens.toExcept] at h
    split at h
    · cases h
    · rename_i hnone
      exact ⟨hnone, Except.ok.inj h⟩
  rcases hfailure with ⟨hnone, rfl⟩
  have hformed : Formed (filter text) (Tokens.ofText text).tokens := formed_ofChars hnone
  have hlocated := located_filter text
  have hsource : sourceOf (Tokens.ofText text).tokens = text := by
    rw [← String.toList_inj]
    exact hformed.sourceOf_eq.trans (sourcesOf_filter text)
  have hne := hformed.source_ne_empty hlocated
  have hlen := length_le_length_sourceOf hne
  rw [hsource] at hlen
  have hread := formTokens_eq text
  simp only [hnone] at hread
  refine ⟨⟨_, hread⟩, hformed, hlen, hne, hsource, ?_⟩
  intro i hi
  have hplace := hformed.location_eq hlocated i hi
  rwa [Nat.zero_add] at hplace

/-- The tokens of a string with an escaped line break of two characters, a form feed and a NUL. -/
def brokenLines : List Token :=
  [⟨.string "", "\x22\\\r\n\x22", ⟨1, 1⟩⟩, ⟨.whitespace "\n", "\x0C", ⟨2, 2⟩⟩,
    ⟨.ident "\uFFFD", "\x00", ⟨3, 1⟩⟩]

theorem tokenize_brokenLines : tokenize "\x22\\\r\n\x22\x0C\x00" = .ok brokenLines ∧
    sourceOf brokenLines = "\x22\\\r\n\x22\x0C\x00" ∧
      brokenLines[2].location = locationAt ("\x22\\\r\n\x22\x0C\x00").toList 6 := by
  have htokens : tokenize "\x22\\\r\n\x22\x0C\x00" = .ok brokenLines := by cbv
  obtain ⟨-, -, -, -, hsource, hplace⟩ := tokenize_partition htokens
  exact ⟨htokens, hsource, hplace 2 (by decide)⟩

end Styling
