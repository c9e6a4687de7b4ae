import Styling.Proofs.Component.Outline
import Styling.Proofs.Source.Slice
import Styling.Proofs.Token.Boundary
import Styling.Proofs.Token.Lexeme
import Styling.Proofs.Token.Sequence

/-!
# Tokens read again

The source of tokens in the middle of a text gives the same tokens again, but for their places, where a
token that is a mark by itself follows them (`tokenize_sourceOf_middle`).
-/

namespace Styling

open Source Lexer

/-! ## Tokens of a single character -/

namespace Lexer

/-- A token is of the kind scanned, once its literal has a value. -/
theorem Lexeme.of_kind {x : Lexeme} {kind : TokenKind} (h : x.kind = .ok kind) :
    match x with
    | .plain k => kind = k
    | .number l => ∃ value, kind = .number value l.sign l.form
    | .percentage l => ∃ value, kind = .percentage value l.sign
    | .dimension l unit => ∃ value, kind = .dimension value unit l.sign l.form := by
  cases x with
  | plain k => exact (Except.ok.inj h).symm
  | number l | percentage l | dimension l unit =>
    cases hl : l.value with
    | error e => simp [Lexeme.kind, hl, bind, Except.bind] at h
    | ok v =>
      simp only [Lexeme.kind, hl, bind, Except.bind, pure, Except.pure] at h
      exact ⟨v, (Except.ok.inj h).symm⟩

/-- A kind that is no number is settled by scanning alone. -/
theorem Lexeme.eq_plain_of_kind {x : Lexeme} {kind : TokenKind} (h : x.kind = .ok kind)
    (hnumber : ∀ v sign form, kind ≠ .number v sign form) (hpercentage : ∀ v sign, kind ≠ .percentage v sign)
    (hdimension : ∀ v unit sign form, kind ≠ .dimension v unit sign form) : x = .plain kind := by
  cases x with
  | plain k => rw [Lexeme.of_kind h]
  | number l =>
    obtain ⟨v, hv⟩ := Lexeme.of_kind h
    exact absurd hv (hnumber v l.sign l.form)
  | percentage l =>
    obtain ⟨v, hv⟩ := Lexeme.of_kind h
    exact absurd hv (hpercentage v l.sign)
  | dimension l unit =>
    obtain ⟨v, hv⟩ := Lexeme.of_kind h
    exact absurd hv (hdimension v unit l.sign l.form)

theorem Lexeme.eq_plain_of_character? {x : Lexeme} {kind : TokenKind} {c : Char}
    (h : x.kind = .ok kind) (hkind : kind.character? = some c) : x = .plain kind := by
  apply Lexeme.eq_plain_of_kind h
  all_goals
    intros
    rintro rfl
    cases hkind

/-- Where a scan leaves all characters but the first, it has taken no other. -/
theorem eq_nil_of_map_value_eq {taken rest : List SourceChar}
    (h : rest.map SourceChar.value = (taken ++ rest).map SourceChar.value) : taken = [] := by
  have hlength := congrArg List.length h
  simp only [List.length_map, List.length_append] at hlength
  exact List.length_eq_zero_iff.1 (by omega)

/-- Each mark is a token, whatever comes after it. -/
theorem exists_kind_of_mem_marks {c : Char} (h : c ∈ marks) :
    ∃ kind, ∀ cs, scanLexeme c cs = ⟨.plain kind, cs, []⟩ := by
  fin_cases h <;> exact ⟨_, fun _ => rfl⟩

end Lexer

/-- Whether a token is a mark that no other token goes on with. -/
def TokenKind.IsMark (kind : TokenKind) : Prop := ∃ c ∈ kind.character?, c ∈ marks

namespace Formed

variable {cs ds : List SourceChar} {ts us : List Token}

/-- Formed tokens are those found by scanning. -/
theorem tokens_ofChars (h : Formed cs ts) :
    (Tokens.ofChars cs).tokens = ts ∧ (Tokens.ofChars cs).failure = none := by
  induction h with
  | nil =>
    rw [Tokens.ofChars]
    exact ⟨rfl, rfl⟩
  | @cons c taken rest t ts lexeme notes scan kind source location others ih =>
    have hlength : (taken ++ rest).length - (rest.map SourceChar.value).length = taken.length := by
      rw [List.length_append, List.length_map]
      omega
    have htoken : (⟨t.kind, String.ofList (sourcesOf (c :: taken)), c.location⟩ : Token) = t := by
      rw [← source, ← location]
    rw [Tokens.ofChars]
    simp only [scan, kind, hlength, List.take_left, List.drop_left]
    exact ⟨by rw [ih.1]; exact congrArg (· :: ts) htoken, ih.2⟩

/-- Forming goes on anew at the end of every token. -/
theorem exists_of_append (h : Formed cs (ts ++ us)) :
    ∃ front back, cs = front ++ back ∧ Formed back us := by
  induction ts generalizing cs with
  | nil => exact ⟨[], cs, rfl, h⟩
  | cons t ts ih =>
    cases h with
    | @cons c taken rest _ _ _ _ scan kind source location others =>
      obtain ⟨front, back, rfl, hback⟩ := ih others
      exact ⟨c :: (taken ++ front), back, by simp, hback⟩

/-- A mark as a token is one character, and the same in front of anything. -/
theorem exists_cons_of_mark {t : Token} (h : Formed cs (t :: ts)) (ht : t.kind.IsMark) :
    ∃ c rest, cs = c :: rest ∧ t.kind.character? = some c.value ∧ Formed rest ts ∧
      ∀ {ds us}, Formed ds us → Formed (c :: ds) (t :: us) := by
  obtain ⟨m, hm, hmark⟩ := ht
  cases h with
  | @cons c taken rest _ _ lexeme notes scan kind source location others =>
    have hplain := Lexeme.eq_plain_of_character? kind hm
    have hscan := (congrArg Scan.value scan).trans hplain
    obtain ⟨hvalue, hrest⟩ := eq_of_character? hscan hm
    rw [scan] at hrest
    obtain rfl := eq_nil_of_map_value_eq hrest
    rw [← hvalue] at hmark hm
    obtain ⟨kind', hkind'⟩ := exists_kind_of_mem_marks hmark
    rw [hkind'] at hscan
    obtain rfl := Lexeme.plain.inj hscan
    refine ⟨c, rest, rfl, hm, others, fun {ds us} hus => ?_⟩
    show Formed (c :: ([] ++ ds)) (t :: us)
    exact .cons (hkind' _) rfl source location hus

theorem startsMark {t : Token} (h : Formed cs (t :: ts)) (ht : t.kind.IsMark) :
    cs.map SourceChar.value ≠ [] ∧ EndsToken (cs.map SourceChar.value) := by
  obtain ⟨c, rest, rfl, hc, -, -⟩ := h.exists_cons_of_mark ht
  obtain ⟨m, hm, hmark⟩ := ht
  obtain rfl := Option.some.inj (hc.symm.trans hm)
  refine ⟨List.cons_ne_nil _ _, ?_⟩
  rintro _ ⟨⟩
  exact hmark

/-- Tokens in front of a mark are formed alike in front of anything else that begins with one, or of
nothing. -/
theorem exists_of_mark {t : Token} (h : Formed cs (ts ++ t :: us)) (ht : t.kind.IsMark) :
    ∃ front back, cs = front ++ back ∧ Formed back (t :: us) ∧
      ∀ {ds vs}, EndsToken (ds.map SourceChar.value) → Formed ds vs → Formed (front ++ ds) (ts ++ vs) := by
  induction ts generalizing cs with
  | nil => exact ⟨[], cs, rfl, h, fun _ hvs => hvs⟩
  | cons t' ts ih =>
    cases h with
    | @cons c taken rest _ _ lexeme notes scan kind source location others =>
      obtain ⟨front, back, rfl, hback, hfront⟩ := ih others
      obtain ⟨hne, hmark⟩ := hback.startsMark ht
      refine ⟨c :: (taken ++ front), back, by simp, hback, fun {ds vs} hds hvs => ?_⟩
      have hcarry := carries_scanLexeme hne hmark hds c.value ((taken ++ front).map SourceChar.value)
        (front.map SourceChar.value)
      rw [← List.map_append, ← List.map_append, List.append_assoc, scan] at hcarry
      have hscan : scanLexeme c.value ((taken ++ (front ++ ds)).map SourceChar.value) =
          ⟨lexeme, (front ++ ds).map SourceChar.value, notes⟩ := by
        have hcarry := hcarry rfl
        rwa [← List.map_append, ← List.map_append, List.append_assoc] at hcarry
      rw [List.cons_append, List.append_assoc]
      exact .cons hscan kind source location (hfront hds hvs)

private theorem map_value_of_unplaced {cs ds : List SourceChar}
    (h : cs.map SourceChar.unplaced = ds.map SourceChar.unplaced) :
    cs.map SourceChar.value = ds.map SourceChar.value := by
  have hvalues := congrArg (List.map SourceChar.value) h
  rwa [List.map_map, List.map_map] at hvalues

private theorem sourcesOf_of_unplaced {cs ds : List SourceChar}
    (h : cs.map SourceChar.unplaced = ds.map SourceChar.unplaced) : sourcesOf cs = sourcesOf ds := by
  have hsources := congrArg sourcesOf h
  rwa [sourcesOf, sourcesOf, List.flatMap_map, List.flatMap_map] at hsources

/-- Tokens are formed alike of characters in other places. -/
theorem exists_of_unplaced (h : Formed cs ts)
    (hcs : cs.map SourceChar.unplaced = ds.map SourceChar.unplaced) :
    ∃ us, Formed ds us ∧ us.map Token.unplaced = ts.map Token.unplaced := by
  induction h generalizing ds with
  | nil =>
    obtain rfl := List.map_eq_nil_iff.1 hcs.symm
    exact ⟨[], .nil, rfl⟩
  | @cons c taken rest t ts lexeme notes scan kind source location others ih =>
    rw [List.map_cons, List.map_append] at hcs
    obtain ⟨d, ds, rfl, hd, hds⟩ := List.map_eq_cons_iff.1 hcs.symm
    obtain ⟨taken', rest', rfl, htaken, hrest⟩ := List.map_eq_append_iff.1 hds
    obtain ⟨us, hus, hsame⟩ := ih hrest.symm
    have hvalue : d.unplaced.value = c.unplaced.value := congrArg SourceChar.value hd
    have hvalue : d.value = c.value := hvalue
    have hsource : sourcesOf (d :: taken') = sourcesOf (c :: taken) :=
      sourcesOf_of_unplaced (by rw [List.map_cons, List.map_cons, hd, htaken])
    have hscan : scanLexeme d.value ((taken' ++ rest').map SourceChar.value) =
        ⟨lexeme, rest'.map SourceChar.value, notes⟩ := by
      rw [hvalue, List.map_append, map_value_of_unplaced htaken, map_value_of_unplaced hrest,
        ← List.map_append]
      exact scan
    refine ⟨⟨t.kind, t.source, d.location⟩ :: us, .cons hscan kind (by rw [hsource]; exact source) rfl hus, ?_⟩
    rw [List.map_cons, List.map_cons, hsame]
    rfl

end Formed

/-- Tokens formed of all of a text are the tokens of it. -/
theorem tokenize_of_formed {text : String} {ts : List Token} (h : Formed (filter text) ts) :
    tokenize text = .ok ts := by
  obtain ⟨htokens, hfailure⟩ := h.tokens_ofChars
  rw [tokenize, Tokens.toExcept, Tokens.ofText, hfailure, htokens]

/-- The source of tokens in the middle of a text, with a mark after them, gives these tokens again, but
for their places. -/
theorem tokenize_sourceOf_middle {text : String} {front ts back : List Token} {t : Token}
    (h : tokenize text = .ok (front ++ (ts ++ t :: back))) (ht : t.kind.IsMark) :
    ∃ us, tokenize (sourceOf ts) = .ok us ∧ us.map Token.unplaced = ts.map Token.unplaced := by
  obtain ⟨before, rest, htext, hrest⟩ := (formed_of_tokenize h).exists_of_append
  obtain ⟨middle, after, rfl, -, hends⟩ := hrest.exists_of_mark ht
  have hmiddle : Formed middle ts := by
    have hmiddle := hends (fun _ h => by cases h) .nil
    rwa [List.append_nil, List.append_nil] at hmiddle
  have hsource : sourceOf ts = String.ofList (sourcesOf middle) := by
    rw [← String.toList_inj, String.toList_ofList, hmiddle.sourceOf_eq]
  have hfilter := map_unplaced_filter_sourcesOf htext
  obtain ⟨us, hus, hsame⟩ := hmiddle.exists_of_unplaced hfilter.symm
  exact ⟨us, by rw [hsource, tokenize_of_formed hus], hsame⟩

end Styling
