import Styling.Proofs.Text.Ascii
import Styling.Proofs.Token.Integer

/-!
# Escapes

A name and a quoted text can be written with escapes in place of any of their characters. An escape is read
as the character it was made of (`Lexer.scanEscape_of_escapeOf`), so a text written in this way is a single
token that stands for the characters (`formTokens_written`).
-/

namespace Styling

open Source

namespace Lexer

/-- What may stand behind the backslash of an escape for a character: the hexadecimal digits of its number in
capitals or small letters, filled up with zeros to six of them at most, and a space; or the character itself
if it is no such digit and does not end the line. -/
inductive EscapeOf (c : Char) : List Char → Prop
  | number {ds : List Char} (zeros : Nat) (hdigits : List.Forall₂ Text.IsSameLetter ds
      (List.replicate zeros '0' ++ Nat.toDigits 16 c.toNat)) (hlength : ds.length ≤ 6) :
    EscapeOf c (ds ++ [' '])
  | itself (hdigit : isHexDigit c = false) (hbreak : c ∉ ['\r', '\n', '\x0C']) : EscapeOf c [c]

/-- A character as it is written: as itself if it is allowed to be, or as an escape. -/
inductive Written (allowed : Char → Prop) (c : Char) : List Char → Prop
  | itself (h : allowed c) : Written allowed c [c]
  | escaped {e : List Char} (h : EscapeOf c e) : Written allowed c ('\\' :: e)

/-- A character that may stand for itself between two quotes. -/
def IsQuotable (quote c : Char) : Prop := c ≠ quote ∧ c ≠ '\\' ∧ c ∉ ['\r', '\n', '\x0C']

variable {c d : Char} {cs ds e rest : List Char}

/-! ## Hexadecimal digits -/

theorem toNat_digitChar {k : Nat} (h : k < 16) :
    k.digitChar.toNat = if k < 10 then 48 + k else 87 + k := by
  interval_cases k <;> rfl

theorem isHexDigit_iff : isHexDigit c ↔ (48 ≤ c.toNat ∧ c.toNat ≤ 57) ∨
    (65 ≤ c.toNat ∧ c.toNat ≤ 70) ∨ (97 ≤ c.toNat ∧ c.toNat ≤ 102) := by
  simp only [isHexDigit, CodePoint.isHexDigit, CodePoint.isDigit, Bool.or_eq_true, Bool.and_eq_true,
    decide_eq_true_eq, or_assoc]

/-- A digit has its value in capitals and in small letters. -/
theorem hexValue_of_isSameLetter {k : Nat} (hk : k < 16) (h : Text.IsSameLetter d k.digitChar) :
    isHexDigit d ∧ hexValue d = k := by
  have hdigit := toNat_digitChar hk
  have hnumber : d.toNat = k.digitChar.toNat ∨ (10 ≤ k ∧ d.toNat + 32 = k.digitChar.toNat) := by
    rcases h with rfl | ⟨hupper, heq⟩ | ⟨hupper, -⟩
    · exact .inl rfl
    · have hrange := (Text.isUpper_iff d).1 hupper
      refine .inr ⟨?_, heq.symm⟩
      split at hdigit <;> omega
    · have hrange := (Text.isUpper_iff _).1 hupper
      split at hdigit <;> omega
  rw [isHexDigit_iff, hexValue]
  split at hdigit
  · have hd : d.toNat = 48 + k := by omega
    rw [if_pos (by omega)]
    omega
  · rcases hnumber with hd | ⟨-, hd⟩
    · rw [if_neg (by omega), if_neg (by omega)]
      omega
    · rw [if_neg (by omega), if_pos (by omega)]
      omega

theorem digit_of_mem_toDigits {n : Nat} (h : d ∈ Nat.toDigits 16 n) : ∃ k < 16, d = k.digitChar := by
  induction n using Nat.strongRecOn with
  | _ n ih =>
    rw [Nat.toDigits_eq_if (by decide)] at h
    split at h
    · rename_i hsmall
      exact ⟨n, hsmall, List.mem_singleton.1 h⟩
    · rcases List.mem_append.1 h with h | h
      · exact ih (n / 16) (by omega) h
      · exact ⟨n % 16, by omega, List.mem_singleton.1 h⟩

theorem ofHexDigits_toDigits (n : Nat) : ofHexDigits (Nat.toDigits 16 n) = n := by
  induction n using Nat.strongRecOn with
  | _ n ih =>
    rw [Nat.toDigits_eq_if (by decide)]
    split
    · rename_i hsmall
      have hvalue := (hexValue_of_isSameLetter hsmall (.inl rfl)).2
      rw [ofHexDigits, List.foldl_cons, List.foldl_nil, hvalue]
      omega
    · have hvalue := (hexValue_of_isSameLetter (Nat.mod_lt n (by decide : 0 < 16)) (.inl rfl)).2
      rw [ofHexDigits, List.foldl_append, ← ofHexDigits, ih (n / 16) (by omega), List.foldl_cons,
        List.foldl_nil, hvalue]
      omega

theorem ofHexDigits_zeros_append (zeros : Nat) (ds : List Char) :
    ofHexDigits (List.replicate zeros '0' ++ ds) = ofHexDigits ds := by
  induction zeros with
  | zero => rfl
  | succ zeros ih =>
    rw [← ih]
    rfl

/-- Digits that are those of a number up to case stand for the number. -/
theorem hexDigits_of_isSameLetter {es : List Char} (h : List.Forall₂ Text.IsSameLetter ds es)
    (hes : ∀ d ∈ es, ∃ k < 16, d = k.digitChar) :
    (∀ d ∈ ds, isHexDigit d) ∧ ofHexDigits ds = ofHexDigits es := by
  have hstep : (∀ d ∈ ds, isHexDigit d) ∧ ∀ n, ds.foldl (fun n d => 16 * n + hexValue d) n =
      es.foldl (fun n d => 16 * n + hexValue d) n := by
    induction h with
    | nil => simp
    | cons hd _ ih =>
      obtain ⟨⟨k, hk, rfl⟩, hothers⟩ := List.forall_mem_cons.1 hes
      obtain ⟨hhex, hvalue⟩ := hexValue_of_isSameLetter hk hd
      have hvalue' := (hexValue_of_isSameLetter hk (.inl rfl)).2
      obtain ⟨hall, hfold⟩ := ih hothers
      refine ⟨List.forall_mem_cons.2 ⟨hhex, hall⟩, fun n => ?_⟩
      rw [List.foldl_cons, List.foldl_cons, hvalue, hvalue', hfold]
  exact ⟨hstep.1, hstep.2 0⟩

/-! ## Escapes -/

theorem spanHex_append_space {limit : Nat} (hds : ∀ d ∈ ds, isHexDigit d) (hlength : ds.length ≤ limit)
    (rest : List Char) : spanHex limit (ds ++ ' ' :: rest) = (ds, ' ' :: rest) := by
  induction ds generalizing limit with
  | nil => cases limit <;> rfl
  | cons d ds ih =>
    obtain ⟨hd, hds⟩ := List.forall_mem_cons.1 hds
    cases limit with
    | zero => cases hlength
    | succ limit =>
      rw [List.cons_append, spanHex, if_pos hd, ih hds (Nat.le_of_succ_le_succ hlength)]

theorem charOfCodePoint_toNat (h : c ≠ '\x00') : charOfCodePoint c.toNat = c := by
  have hzero : c.toNat ≠ 0 := fun hzero => h (Char.toNat_inj.1 hzero)
  have hvalid : c.toNat < 0xD800 ∨ (0xDFFF < c.toNat ∧ c.toNat < 0x110000) := c.valid
  have hother : ¬(c.toNat == 0 || CodePoint.isSurrogate c.toNat || decide (c.toNat > 0x10FFFF)) := by
    simp only [CodePoint.isSurrogate, Bool.or_eq_true, beq_iff_eq, Bool.and_eq_true, decide_eq_true_eq]
    omega
  rw [charOfCodePoint, if_neg hother, Char.ofNat_toNat]

/-- The digits of an escape, of which there is one at least. -/
theorem EscapeOf.exists_digits {zeros : Nat} (h : List.Forall₂ Text.IsSameLetter ds
    (List.replicate zeros '0' ++ Nat.toDigits 16 c.toNat)) :
    ∃ d es, ds = d :: es ∧ (∀ x ∈ d :: es, isHexDigit x) ∧ ofHexDigits (d :: es) = c.toNat := by
  have hdigit : ∀ d ∈ List.replicate zeros '0' ++ Nat.toDigits 16 c.toNat, ∃ k < 16, d = k.digitChar := by
    intro d hd
    rcases List.mem_append.1 hd with hd | hd
    · exact ⟨0, by decide, (List.mem_replicate.1 hd).2⟩
    · exact digit_of_mem_toDigits hd
  obtain ⟨hhex, hvalue⟩ := hexDigits_of_isSameLetter h hdigit
  rw [ofHexDigits_zeros_append, ofHexDigits_toDigits] at hvalue
  have hne : ds ≠ [] := by
    rintro rfl
    have hlength := h.length_eq
    have hpos := Nat.length_toDigits_pos (b := 16) (n := c.toNat)
    rw [List.length_append, List.length_nil] at hlength
    omega
  obtain ⟨d, es, rfl⟩ := List.exists_cons_of_ne_nil hne
  exact ⟨d, es, rfl, hhex, hvalue⟩

/-- An escape is read as the character it was made of, and takes no more than was written. -/
theorem scanEscape_of_escapeOf (h : EscapeOf c e) (hc : c ≠ '\x00') (rest : List Char) :
    scanEscape (e ++ rest) = ⟨c, rest, []⟩ := by
  cases h with
  | itself hdigit _ =>
    rw [List.singleton_append, scanEscape, if_neg (by rw [hdigit]; exact Bool.false_ne_true)]
  | number zeros hdigits hlength =>
    obtain ⟨d, ds, rfl, hhex, hvalue⟩ := EscapeOf.exists_digits hdigits
    obtain ⟨hd, hds⟩ := List.forall_mem_cons.1 hhex
    have hspan := spanHex_append_space hds (Nat.le_of_succ_le_succ hlength) rest
    rw [List.append_assoc, List.singleton_append, List.cons_append, scanEscape, if_pos hd, hspan]
    simp only [hvalue, charOfCodePoint_toNat hc]
    rfl

/-- An escape never begins with a line break, so it is one behind a backslash. -/
theorem EscapeOf.exists_cons (h : EscapeOf c e) : ∃ d ds, e = d :: ds ∧ d ≠ '\n' := by
  cases h with
  | itself _ hbreak => exact ⟨c, [], rfl, fun hc => hbreak (by simp [hc])⟩
  | number zeros hdigits _ =>
    obtain ⟨d, ds, rfl, hhex, -⟩ := EscapeOf.exists_digits hdigits
    refine ⟨d, ds ++ [' '], rfl, ?_⟩
    rintro rfl
    cases hhex '\n' List.mem_cons_self

theorem EscapeOf.escapes (h : EscapeOf c e) (rest : List Char) : Lexer.escapes (e ++ rest) := by
  obtain ⟨d, ds, rfl, hd⟩ := h.exists_cons
  simp [Lexer.escapes, hd]

theorem filterChar_of_ne (hnul : c ≠ '\x00') (hbreak : c ∉ ['\r', '\n', '\x0C']) : filterChar c = c := by
  simp only [List.mem_cons, List.not_mem_nil, or_false, not_or] at hbreak
  simp [filterChar, hbreak, hnul]

theorem EscapeOf.filterChar_eq (h : EscapeOf c e) (hc : c ≠ '\x00') : ∀ d ∈ e, filterChar d = d := by
  cases h with
  | itself _ hbreak =>
    intro d hd
    rw [List.mem_singleton.1 hd]
    exact filterChar_of_ne hc hbreak
  | number zeros hdigits _ =>
    obtain ⟨d, ds, rfl, hhex, -⟩ := EscapeOf.exists_digits hdigits
    intro x hx
    rcases List.mem_append.1 hx with hx | hx
    · exact filterChar_of_isIdent (isIdent_of_isHexDigit (hhex x hx))
    · rw [List.mem_singleton.1 hx]
      rfl

/-! ## Written characters -/

section Written

variable {allowed : Char → Prop} {w : List Char} {parts : List (List Char)}

theorem Written.filterChar_eq (h : Written allowed c w) (hc : c ≠ '\x00')
    (hallowed : allowed c → filterChar c = c) : ∀ d ∈ w, filterChar d = d := by
  cases h with
  | itself h =>
    intro d hd
    rw [List.mem_singleton.1 hd]
    exact hallowed h
  | escaped h => exact List.forall_mem_cons.2 ⟨rfl, h.filterChar_eq hc⟩

/-- A text of written characters is the same when it is filtered. -/
theorem filterChar_of_written (h : List.Forall₂ (Written allowed) cs parts) (hcs : ∀ c ∈ cs, c ≠ '\x00')
    (hallowed : ∀ c ∈ cs, allowed c → filterChar c = c) : ∀ d ∈ parts.flatten, filterChar d = d := by
  induction h with
  | nil => simp
  | cons hw _ ih =>
    obtain ⟨hc, hcs⟩ := List.forall_mem_cons.1 hcs
    obtain ⟨hallowed, hothers⟩ := List.forall_mem_cons.1 hallowed
    rw [List.flatten_cons, List.forall_mem_append]
    exact ⟨hw.filterChar_eq hc hallowed, ih hcs hothers⟩

/-- A written character is the first of a name, and the name goes on behind it. -/
theorem scanName_of_written (h : Written (isIdent ·) c w) (hc : c ≠ '\x00') (rest : List Char) :
    scanName (w ++ rest) =
      ⟨c :: (scanName rest).value, (scanName rest).rest, (scanName rest).notes⟩ := by
  cases h with
  | itself h => rw [List.singleton_append, scanName, if_pos h]
  | escaped h =>
    have hslash : ¬isIdent '\\' := by decide
    rw [List.cons_append, scanName, if_neg hslash, if_pos (by simpa using h.escapes rest),
      scanEscape_of_escapeOf h hc]
    rfl

theorem scanName_flatten (h : List.Forall₂ (Written (isIdent ·)) cs parts)
    (hcs : ∀ c ∈ cs, c ≠ '\x00') : scanName parts.flatten = ⟨cs, [], []⟩ := by
  induction h with
  | nil => rw [List.flatten_nil, scanName]
  | cons hw _ ih =>
    obtain ⟨hc, hcs⟩ := List.forall_mem_cons.1 hcs
    rw [List.flatten_cons, scanName_of_written hw hc, ih hcs]

/-- A written character is the first of a quoted text, which goes on behind it. -/
theorem scanString_of_written {quote : Char} (hquote : quote ≠ '\\') (h : Written (IsQuotable quote) c w)
    (hc : c ≠ '\x00') (rest : List Char) : scanString quote (w ++ rest) =
      ⟨(scanString quote rest).value.map (c :: ·), (scanString quote rest).rest,
        (scanString quote rest).notes⟩ := by
  cases h with
  | itself h =>
    obtain ⟨hend, hslash, hbreak⟩ := h
    have hline : c ≠ '\n' := fun hline => hbreak (by simp [hline])
    rw [List.singleton_append, scanString_of_char (by simpa using hend) (by simpa using hline)
      (by simpa using hslash)]
  | escaped h =>
    have hread := scanEscape_of_escapeOf h hc rest
    obtain ⟨d, ds, rfl, hd⟩ := h.exists_cons
    rw [List.cons_append, List.cons_append, scanString_of_slash (by simpa using hquote.symm) (by decide)
      (by decide) hd, ← List.cons_append, hread]
    rfl

theorem scanString_flatten {quote : Char} (hquote : quote ≠ '\\')
    (h : List.Forall₂ (Written (IsQuotable quote)) cs parts) (hcs : ∀ c ∈ cs, c ≠ '\x00') :
    scanString quote (parts.flatten ++ [quote]) = ⟨some cs, [], []⟩ := by
  induction h with
  | nil => exact scanString_of_eq (beq_self_eq_true quote)
  | cons hw _ ih =>
    obtain ⟨hc, hcs⟩ := List.forall_mem_cons.1 hcs
    rw [List.flatten_cons, List.append_assoc, scanString_of_written hquote hw hc, ih hcs]
    rfl

theorem scanLexeme_of_scanString {quote : Char} (hquote : quote ∈ ['\x22', '\x27'])
    (h : scanString quote ds = ⟨some cs, rest, []⟩) :
    scanLexeme quote ds = ⟨.plain (.string (String.ofList cs)), rest, []⟩ := by
  fin_cases hquote
  all_goals
    unfold scanLexeme
    rw [if_neg (by decide), h]
    rfl

theorem Written.startsIdent (h : Written (isIdentStart ·) c w) (rest : List Char) :
    Lexer.startsIdent (w ++ rest) := by
  cases h with
  | itself h =>
    have hminus : c ≠ '-' := by
      rintro rfl
      cases h
    have hslash : c ≠ '\\' := by
      rintro rfl
      cases h
    rw [List.singleton_append, startsIdent_of_ne rest hminus hslash]
    exact h
  | escaped h => exact h.escapes rest

theorem Written.mono {allowed' : Char → Prop} (h : Written allowed c w) (himp : allowed c → allowed' c) :
    Written allowed' c w := by
  cases h with
  | itself h => exact .itself (himp h)
  | escaped h => exact .escaped h

end Written

end Lexer

open Lexer

/-! ## Texts that are one token -/

/-- Characters that are formed into one token of the given kind, with nothing noted. -/
def FormsOne (text : List Char) (kind : TokenKind) : Prop :=
  formTokens (String.ofList text) = some (.ok ([⟨kind, String.ofList text, .start⟩], []))

theorem formsOne_of_scanLexeme {c : Char} {cs : List Char} {kind : TokenKind}
    (hplain : ∀ d ∈ c :: cs, filterChar d = d) (hscan : scanLexeme c cs = ⟨.plain kind, [], []⟩) :
    FormsOne (c :: cs) kind := by
  rw [FormsOne, formTokens_eq, Tokens.ofText_of_scanLexeme hplain hscan]
  rfl

/-- However the characters of a name are written, as themselves where they may be or as escapes, the text is
formed into the one token that is this name. Likewise a text between two quotes is formed into the one token
that is a string of its characters. Nothing is noted. -/
theorem formTokens_written :
    (∀ (c : Char) (cs first : List Char) (others : List (List Char)), (∀ d ∈ c :: cs, d ≠ '\x00') →
      Written (isIdentStart ·) c first → List.Forall₂ (Written (isIdent ·)) cs others →
        FormsOne (first ++ others.flatten) (.ident (String.ofList (c :: cs)))) ∧
    ∀ quote ∈ ['\x22', '\x27'], ∀ (cs : List Char) (parts : List (List Char)),
      (∀ d ∈ cs, d ≠ '\x00') → List.Forall₂ (Written (IsQuotable quote)) cs parts →
        FormsOne (quote :: (parts.flatten ++ [quote])) (.string (String.ofList cs)) := by
  constructor
  · intro c cs first others hnul hfirst hothers
    have hname : List.Forall₂ (Written (isIdent ·)) (c :: cs) (first :: others) :=
      .cons (hfirst.mono CodePoint.isIdent_of_isIdentStart) hothers
    have hplain := filterChar_of_written hname hnul fun d _ => filterChar_of_isIdent
    have hstart := hfirst.startsIdent others.flatten
    have hscan := scanName_flatten hname hnul
    rw [List.flatten_cons] at hplain hscan
    obtain ⟨d, ds, htext⟩ : ∃ d ds, first ++ others.flatten = d :: ds := by
      cases hfirst <;> exact ⟨_, _, rfl⟩
    rw [htext] at hplain hstart hscan ⊢
    have hend : FollowsName [] := by simp [FollowsName]
    exact formsOne_of_scanLexeme hplain (scanLexeme_of_scanName hstart (by simpa using hscan) hend)
  · intro quote hquote cs parts hnul hparts
    have hslash : quote ≠ '\\' := by fin_cases hquote <;> decide
    have hfilter : filterChar quote = quote := by fin_cases hquote <;> rfl
    have hplain := filterChar_of_written hparts hnul fun d hd h => filterChar_of_ne (hnul d hd) h.2.2
    apply formsOne_of_scanLexeme
    · have hend : ∀ d ∈ [quote], filterChar d = d := List.forall_mem_singleton.2 hfilter
      exact List.forall_mem_cons.2 ⟨hfilter, List.forall_mem_append.2 ⟨hplain, hend⟩⟩
    · exact scanLexeme_of_scanString hquote (scanString_flatten hslash hparts hnul)

/-- A name with a letter behind an escape that could be one more digit of it, and a line break and a quote
between quotes. -/
theorem formTokens_written_texts :
    formTokens "\\31 B" = some (.ok ([⟨.ident "1B", "\\31 B", .start⟩], [])) ∧
    formTokens "\x22\\00000A \\\x22\x22" =
      some (.ok ([⟨.string "\n\x22", "\x22\\00000A \\\x22\x22", .start⟩], [])) := by
  obtain ⟨hident, hstring⟩ := formTokens_written
  constructor
  · have hone : Written (isIdentStart ·) '1' ('\\' :: (['3', '1'] ++ [' '])) :=
      .escaped (.number 0 (.cons (.inl rfl) (.cons (.inl rfl) .nil)) (by decide))
    have hread := hident '1' ['B'] _ [['B']] (by simp) hone (.cons (.itself rfl) .nil)
    have htext : String.ofList ('\\' :: (['3', '1'] ++ [' ']) ++ [['B']].flatten) = "\\31 B" := rfl
    have hname : String.ofList ['1', 'B'] = "1B" := rfl
    rw [FormsOne, htext, hname] at hread
    exact hread
  · have hzero : Text.IsSameLetter '0' '0' := .inl rfl
    have hbreak : Written (IsQuotable '\x22') '\n' ('\\' :: (['0', '0', '0', '0', '0', 'A'] ++ [' '])) :=
      .escaped (.number 5 (.cons hzero (.cons hzero (.cons hzero (.cons hzero (.cons hzero
        (.cons (.inr (.inl ⟨rfl, rfl⟩)) .nil)))))) (by decide))
    have hquote : Written (IsQuotable '\x22') '\x22' ['\\', '\x22'] := .escaped (.itself rfl (by decide))
    have hread := hstring '\x22' (by decide) _ _ (by simp) (.cons hbreak (.cons hquote .nil))
    have htext : String.ofList ('\x22' :: (['\\' :: (['0', '0', '0', '0', '0', 'A'] ++ [' ']),
      ['\\', '\x22']].flatten ++ ['\x22'])) = "\x22\\00000A \\\x22\x22" := rfl
    have hvalue : String.ofList ['\n', '\x22'] = "\n\x22" := rfl
    rw [FormsOne, htext, hvalue] at hread
    exact hread

end Styling
