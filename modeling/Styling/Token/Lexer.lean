import Styling.Text.Ascii
import Styling.Token.Basic

/-!
# Forming tokens

The next token is found by scanning filtered characters. Every scanner takes the characters ahead
and gives what it read, the characters left, and a note for each recoverable fault; none of them
ever fails, but a numeric literal may turn out to have no value. The main statement is
`isSuffix_scanLexeme`: a token takes its first character at least, and scanning goes on where it
ended.
-/

namespace Styling.Lexer

open Source

/-- A recoverable fault in source text. -/
inductive Note where
  | unterminatedComment
  | unterminatedString
  | unterminatedUrl
  | newlineInString
  | invalidEscape
  | invalidEscapeInUrl
  | invalidCodePointInUrl
  | escapeAtEnd
deriving DecidableEq, Repr

namespace Note

def message : Note → String
  | unterminatedComment => "Unterminated comment"
  | unterminatedString => "Unterminated string"
  | unterminatedUrl => "Unterminated URL"
  | newlineInString => "Newline in string"
  | invalidEscape => "Invalid escape"
  | invalidEscapeInUrl => "Invalid escape in URL"
  | invalidCodePointInUrl => "Invalid code point in URL"
  | escapeAtEnd => "Escape at end of input"

end Note

/-- What a scanner read, the characters left and the faults noted. -/
structure Scan (α : Type) where
  value : α
  rest : List Char
  notes : List Note

def isWhitespace (c : Char) : Bool := CodePoint.isWhitespace c.toNat

def isDigit (c : Char) : Bool := CodePoint.isDigit c.toNat

def isIdent (c : Char) : Bool := CodePoint.isIdent c.toNat

def isIdentStart (c : Char) : Bool := CodePoint.isIdentStart c.toNat

def isHexDigit (c : Char) : Bool := CodePoint.isHexDigit c.toNat

/-- Whether a backslash followed by these characters is an escape. -/
def escapes : List Char → Bool
  | '\n' :: _ => false
  | _ => true

/-- Whether an escape, backslash included, comes next. -/
def startsEscape : List Char → Bool
  | '\\' :: cs => escapes cs
  | _ => false

def startsIdent : List Char → Bool
  | '-' :: '-' :: _ => true
  | '-' :: c :: cs => isIdentStart c || startsEscape (c :: cs)
  | '\\' :: cs => escapes cs
  | c :: _ => isIdentStart c
  | [] => false

theorem startsIdent_minus (d : Char) (ds : List Char) :
    startsIdent ('-' :: d :: ds) = (isIdentStart d || d == '-' || startsEscape (d :: ds)) := by
  by_cases hd : d = '-'
  · subst hd
    rfl
  · rw [beq_eq_false_iff_ne.2 hd, Bool.or_false]
    simp [startsIdent]

theorem startsIdent_of_ne {c : Char} (cs : List Char) (hminus : c ≠ '-') (hbackslash : c ≠ '\\') :
    startsIdent (c :: cs) = isIdentStart c := by
  simp [startsIdent, hminus]

/-- Whether a character of an identifier, possibly escaped, comes next. -/
def startsName : List Char → Bool
  | c :: cs => isIdent c || startsEscape (c :: cs)
  | [] => false

def startsNumber : List Char → Bool
  | [] => false
  | c :: cs =>
    if c == '+' || c == '-' then
      match cs with
      | '.' :: d :: _ => isDigit d
      | d :: _ => isDigit d
      | [] => false
    else if c == '.' then
      match cs with
      | d :: _ => isDigit d
      | [] => false
    else isDigit c

def hexValue (c : Char) : Nat :=
  let n := c.toNat
  if n ≤ 0x39 then n - 0x30 else if n ≤ 0x46 then n - 0x37 else n - 0x57

def ofHexDigits (ds : List Char) : Nat := ds.foldl (fun n d => 16 * n + hexValue d) 0

/-- The character of a number, with the replacement character in place of those that have none. -/
def charOfCodePoint (n : Nat) : Char :=
  if n == 0 || CodePoint.isSurrogate n || n > 0x10FFFF then '\uFFFD' else Char.ofNat n

/-- The longest run of at most `limit` hex digits. -/
def spanHex : Nat → List Char → List Char × List Char
  | limit + 1, c :: cs =>
    if isHexDigit c then
      let (ds, rest) := spanHex limit cs
      (c :: ds, rest)
    else ([], c :: cs)
  | _, cs => ([], cs)

def dropOneWhitespace : List Char → List Char
  | c :: cs => if isWhitespace c then cs else c :: cs
  | [] => []

/-- Reads what stands after the backslash of an escape: up to six hex digits, which may be ended by
one white-space, or any single character. -/
def scanEscape : List Char → Scan Char
  | [] => ⟨'\uFFFD', [], [.escapeAtEnd]⟩
  | c :: cs =>
    if isHexDigit c then
      let (ds, rest) := spanHex 5 cs
      ⟨charOfCodePoint (ofHexDigits (c :: ds)), dropOneWhitespace rest, []⟩
    else ⟨c, cs, []⟩

theorem isSuffix_spanHex (limit : Nat) (cs : List Char) : (spanHex limit cs).2 <:+ cs := by
  induction cs generalizing limit with
  | nil => cases limit <;> exact List.suffix_rfl
  | cons c cs ih =>
    cases limit with
    | zero => exact List.suffix_rfl
    | succ limit =>
      simp only [spanHex]
      split
      · exact (ih limit).trans (List.suffix_cons c cs)
      · exact List.suffix_rfl

theorem isSuffix_dropOneWhitespace (cs : List Char) : dropOneWhitespace cs <:+ cs := by
  cases cs with
  | nil => exact List.suffix_rfl
  | cons c cs =>
    simp only [dropOneWhitespace]
    split
    · exact List.suffix_cons c cs
    · exact List.suffix_rfl

theorem isSuffix_scanEscape (cs : List Char) : (scanEscape cs).rest <:+ cs := by
  cases cs with
  | nil => exact List.suffix_rfl
  | cons c cs =>
    simp only [scanEscape]
    split
    · have hspan := (isSuffix_dropOneWhitespace _).trans (isSuffix_spanHex 5 cs)
      exact hspan.trans (List.suffix_cons c cs)
    · exact List.suffix_cons c cs

/-- Reads the longest run of identifier characters and escapes. -/
def scanName : List Char → Scan (List Char)
  | [] => ⟨[], [], []⟩
  | c :: cs =>
    if isIdent c then
      let s := scanName cs
      ⟨c :: s.value, s.rest, s.notes⟩
    else if c == '\\' && escapes cs then
      let e := scanEscape cs
      let s := scanName e.rest
      ⟨e.value :: s.value, s.rest, e.notes ++ s.notes⟩
    else ⟨[], c :: cs, []⟩
termination_by cs => cs.length
decreasing_by
  · simp
  · have := (isSuffix_scanEscape cs).length_le
    simp; omega

theorem isSuffix_scanName (cs : List Char) : (scanName cs).rest <:+ cs := by
  fun_induction scanName cs with
  | case1 => exact List.suffix_rfl
  | case2 c cs _ s ih => exact ih.trans (List.suffix_cons c cs)
  | case3 c cs _ _ e s ih =>
    exact ih.trans ((isSuffix_scanEscape cs).trans (List.suffix_cons c cs))
  | case4 => exact List.suffix_rfl

/-- Reads the text of a comment, up to and including its end mark. -/
def scanComment : List Char → Scan (List Char)
  | [] => ⟨[], [], [.unterminatedComment]⟩
  | '*' :: '/' :: cs => ⟨[], cs, []⟩
  | c :: cs =>
    let s := scanComment cs
    ⟨c :: s.value, s.rest, s.notes⟩

/-- The text of a string, or none if a line break cuts it off. -/
def scanString (ending : Char) : List Char → Scan (Option (List Char))
  | [] => ⟨some [], [], [.unterminatedString]⟩
  | c :: cs =>
    if c == ending then ⟨some [], cs, []⟩
    else if c == '\n' then ⟨none, c :: cs, [.newlineInString]⟩
    else if c == '\\' then
      match cs with
      | [] => ⟨some [], [], [.unterminatedString]⟩
      | '\n' :: cs => scanString ending cs
      | d :: ds =>
        let e := scanEscape (d :: ds)
        let s := scanString ending e.rest
        ⟨s.value.map (e.value :: ·), s.rest, e.notes ++ s.notes⟩
    else
      let s := scanString ending cs
      ⟨s.value.map (c :: ·), s.rest, s.notes⟩
termination_by cs => cs.length
decreasing_by
  · simp only [List.length_cons]; omega
  · have := (isSuffix_scanEscape (d :: ds)).length_le
    simp at *; omega
  · simp

/-- Passes over what is left of a malformed URL, up to and including its closing parenthesis. -/
def scanBadUrl : List Char → Scan Unit
  | [] => ⟨(), [], []⟩
  | c :: cs =>
    if c == ')' then ⟨(), cs, []⟩
    else if c == '\\' && escapes cs then
      let e := scanEscape cs
      let s := scanBadUrl e.rest
      ⟨(), s.rest, e.notes ++ s.notes⟩
    else scanBadUrl cs
termination_by cs => cs.length
decreasing_by
  · have := (isSuffix_scanEscape cs).length_le
    simp; omega
  · simp

/-- The text of an unquoted URL after the white-space at its start, or none if it is malformed. -/
def scanUrlBody : List Char → Scan (Option (List Char))
  | [] => ⟨some [], [], [.unterminatedUrl]⟩
  | c :: cs =>
    if c == ')' then ⟨some [], cs, []⟩
    else if isWhitespace c then
      match cs.dropWhile isWhitespace with
      | [] => ⟨some [], [], [.unterminatedUrl]⟩
      | ')' :: rest => ⟨some [], rest, []⟩
      | rest =>
        let s := scanBadUrl rest
        ⟨none, s.rest, s.notes⟩
    else if c == '\x22' || c == '\x27' || c == '(' || CodePoint.isNonPrintable c.toNat then
      let s := scanBadUrl cs
      ⟨none, s.rest, .invalidCodePointInUrl :: s.notes⟩
    else if c == '\\' then
      if escapes cs then
        let e := scanEscape cs
        let s := scanUrlBody e.rest
        ⟨s.value.map (e.value :: ·), s.rest, e.notes ++ s.notes⟩
      else
        let s := scanBadUrl cs
        ⟨none, s.rest, .invalidEscapeInUrl :: s.notes⟩
    else
      let s := scanUrlBody cs
      ⟨s.value.map (c :: ·), s.rest, s.notes⟩
termination_by cs => cs.length
decreasing_by
  · have := (isSuffix_scanEscape cs).length_le
    simp; omega
  · simp

/-- Drops white-space while the character after it is white-space too, or there is none. -/
def dropLeadingWhitespace : List Char → List Char
  | c :: d :: cs =>
    if isWhitespace c && isWhitespace d then dropLeadingWhitespace (d :: cs) else c :: d :: cs
  | [c] => if isWhitespace c then [] else [c]
  | [] => []

private def isQuote (c : Char) : Bool := c == '\x22' || c == '\x27'

/-- Whether a quoted string comes next, after one white-space at most. -/
def startsQuoted : List Char → Bool
  | c :: cs => isQuote c || (isWhitespace c && match cs with | d :: _ => isQuote d | [] => false)
  | [] => false

/-- What kind a token is of; its value is not yet computed if it is numeric. -/
inductive Lexeme where
  | plain (kind : TokenKind)
  | number (literal : Number.Literal)
  | percentage (literal : Number.Literal)
  | dimension (literal : Number.Literal) (unit : String)

/-- Reads what follows a name and a parenthesis: nothing of a function but the white-space before a
quoted URL, or all of an unquoted URL. -/
def scanFunctionOrUrl (name : String) (cs : List Char) : Scan TokenKind :=
  if Text.asciiLower name == "url" then
    let rest := dropLeadingWhitespace cs
    if startsQuoted rest then ⟨.function name, rest, []⟩
    else
      let u := scanUrlBody (rest.dropWhile isWhitespace)
      let kind := match u.value with
        | some value => .url (String.ofList value)
        | none => .badUrl
      ⟨kind, u.rest, u.notes⟩
  else ⟨.function name, cs, []⟩

def scanIdentLike (cs : List Char) : Scan TokenKind :=
  let n := scanName cs
  let name := String.ofList n.value
  match n.rest with
  | '(' :: rest =>
    let s := scanFunctionOrUrl name rest
    ⟨s.value, s.rest, n.notes ++ s.notes⟩
  | rest => ⟨.ident name, rest, n.notes⟩

def scanNumeric (cs : List Char) : Scan Lexeme :=
  let (literal, rest) := Number.scanLiteral cs
  if startsIdent rest then
    let n := scanName rest
    ⟨.dimension literal (String.ofList n.value), n.rest, n.notes⟩
  else match rest with
    | '%' :: rest => ⟨.percentage literal, rest, []⟩
    | rest => ⟨.number literal, rest, []⟩

private def plain (s : Scan TokenKind) : Scan Lexeme := ⟨.plain s.value, s.rest, s.notes⟩

private def single (kind : TokenKind) (rest : List Char) : Scan Lexeme := ⟨.plain kind, rest, []⟩

/-- Reads the token that starts with `c` and goes on with the characters `cs`. -/
def scanLexeme (c : Char) (cs : List Char) : Scan Lexeme :=
  if isWhitespace c then
    single (.whitespace (String.ofList (c :: cs.takeWhile isWhitespace))) (cs.dropWhile isWhitespace)
  else match c with
  | '\x22' | '\x27' =>
    let s := scanString c cs
    let kind := match s.value with
      | some value => .string (String.ofList value)
      | none => .badString
    ⟨.plain kind, s.rest, s.notes⟩
  | '#' =>
    if startsName cs then
      let form := if startsIdent cs then .id else .unrestricted
      let n := scanName cs
      ⟨.plain (.hash (String.ofList n.value) form), n.rest, n.notes⟩
    else single (.delim c) cs
  | '(' => single (.opening .paren) cs
  | ')' => single (.closing .paren) cs
  | '+' | '.' => if startsNumber (c :: cs) then scanNumeric (c :: cs) else single (.delim c) cs
  | ',' => single .comma cs
  | '-' =>
    if startsNumber (c :: cs) then scanNumeric (c :: cs)
    else match cs with
      | '-' :: '>' :: rest => single .cdc rest
      | _ => if startsIdent (c :: cs) then plain (scanIdentLike (c :: cs)) else single (.delim c) cs
  | ':' => single .colon cs
  | ';' => single .semicolon cs
  | '<' =>
    match cs with
    | '!' :: '-' :: '-' :: rest => single .cdo rest
    | _ => single (.delim c) cs
  | '@' =>
    if startsIdent cs then
      let n := scanName cs
      ⟨.plain (.atKeyword (String.ofList n.value)), n.rest, n.notes⟩
    else single (.delim c) cs
  | '[' => single (.opening .square) cs
  | '\\' =>
    if escapes cs then plain (scanIdentLike (c :: cs))
    else ⟨.plain (.delim c), cs, [.invalidEscape]⟩
  | ']' => single (.closing .square) cs
  | '{' => single (.opening .brace) cs
  | '}' => single (.closing .brace) cs
  | '/' =>
    match cs with
    | '*' :: rest =>
      let s := scanComment rest
      ⟨.plain (.comment (String.ofList s.value)), s.rest, s.notes⟩
    | _ => single (.delim c) cs
  | _ =>
    if isDigit c then scanNumeric (c :: cs)
    else if isIdentStart c then plain (scanIdentLike (c :: cs))
    else single (.delim c) cs

/-! ## Progress -/

theorem isSuffix_scanComment (cs : List Char) : (scanComment cs).rest <:+ cs := by
  fun_induction scanComment cs with
  | case1 => exact List.suffix_rfl
  | case2 cs => exact (List.suffix_cons '/' cs).trans (List.suffix_cons '*' _)
  | case3 c cs _ s ih => exact ih.trans (List.suffix_cons c cs)

theorem isSuffix_scanString (ending : Char) (cs : List Char) :
    (scanString ending cs).rest <:+ cs := by
  fun_induction scanString ending cs with
  | case1 => exact List.suffix_rfl
  | case2 c cs => exact List.suffix_cons c cs
  | case3 => exact List.suffix_rfl
  | case4 => exact List.nil_suffix
  | case5 =>
    rename_i ih
    exact ih.trans ((List.suffix_cons _ _).trans (List.suffix_cons _ _))
  | case6 c _ _ _ d ds _ e s ih =>
    exact ih.trans ((isSuffix_scanEscape (d :: ds)).trans (List.suffix_cons c _))
  | case7 c cs _ _ _ s ih => exact ih.trans (List.suffix_cons c cs)

theorem isSuffix_scanBadUrl (cs : List Char) : (scanBadUrl cs).rest <:+ cs := by
  fun_induction scanBadUrl cs with
  | case1 => exact List.suffix_rfl
  | case2 c cs => exact List.suffix_cons c cs
  | case3 c cs _ _ e s ih =>
    exact ih.trans ((isSuffix_scanEscape cs).trans (List.suffix_cons c cs))
  | case4 c cs _ _ ih => exact ih.trans (List.suffix_cons c cs)

theorem isSuffix_scanUrlBody (cs : List Char) : (scanUrlBody cs).rest <:+ cs := by
  fun_induction scanUrlBody cs with
  | case1 => exact List.suffix_rfl
  | case2 c cs => exact List.suffix_cons c cs
  | case3 => exact List.nil_suffix
  | case4 c cs _ _ rest h =>
    have hdrop := List.dropWhile_suffix (l := cs) isWhitespace
    rw [h] at hdrop
    exact (List.suffix_cons _ rest).trans (hdrop.trans (List.suffix_cons c cs))
  | case5 c cs =>
    have hbad := isSuffix_scanBadUrl (cs.dropWhile isWhitespace)
    exact hbad.trans ((List.dropWhile_suffix isWhitespace).trans (List.suffix_cons c cs))
  | case6 c cs => exact (isSuffix_scanBadUrl cs).trans (List.suffix_cons c cs)
  | case7 c cs _ _ _ _ _ e s ih =>
    exact ih.trans ((isSuffix_scanEscape cs).trans (List.suffix_cons c cs))
  | case8 c cs => exact (isSuffix_scanBadUrl cs).trans (List.suffix_cons c cs)
  | case9 c cs _ _ _ _ s ih => exact ih.trans (List.suffix_cons c cs)

private theorem isSuffix_dropLeadingWhitespace (cs : List Char) :
    dropLeadingWhitespace cs <:+ cs := by
  fun_induction dropLeadingWhitespace cs with
  | case1 c d cs _ ih => exact ih.trans (List.suffix_cons c _)
  | case2 => exact List.suffix_rfl
  | case3 => exact List.nil_suffix
  | case4 => exact List.suffix_rfl
  | case5 => exact List.suffix_rfl

/-- A name that begins with an identifier character or an escape takes a character at least. -/
theorem isSuffix_scanName_cons (c : Char) (cs : List Char)
    (h : isIdent c ∨ (c = '\\' ∧ escapes cs)) : (scanName (c :: cs)).rest <:+ cs := by
  rw [scanName]
  split
  · exact isSuffix_scanName cs
  · rename_i hc
    obtain ⟨rfl, he⟩ := h.resolve_left hc
    simp only [he, beq_self_eq_true, Bool.and_self, if_true]
    exact (isSuffix_scanName _).trans (isSuffix_scanEscape cs)

theorem isSuffix_scanFunctionOrUrl (name : String) (cs : List Char) :
    (scanFunctionOrUrl name cs).rest <:+ cs := by
  have hdrop := isSuffix_dropLeadingWhitespace cs
  simp only [scanFunctionOrUrl]
  split
  · split
    · exact hdrop
    · have hbody := isSuffix_scanUrlBody ((dropLeadingWhitespace cs).dropWhile isWhitespace)
      exact hbody.trans ((List.dropWhile_suffix isWhitespace).trans hdrop)
  · exact List.suffix_rfl

theorem isSuffix_scanIdentLike (cs : List Char) :
    (scanIdentLike cs).rest <:+ (scanName cs).rest := by
  simp only [scanIdentLike]
  split
  · rename_i rest h
    rw [h]
    exact (isSuffix_scanFunctionOrUrl _ rest).trans (List.suffix_cons '(' rest)
  · exact List.suffix_rfl

theorem isSuffix_scanNumeric (cs : List Char) :
    (scanNumeric cs).rest <:+ (Number.scanLiteral cs).2 := by
  simp only [scanNumeric]
  split
  · exact isSuffix_scanName _
  · split
    · rename_i rest h
      rw [h]
      exact List.suffix_cons '%' rest
    · exact List.suffix_rfl

private theorem startsNumber_cases (c : Char) (cs : List Char) (h : startsNumber (c :: cs)) :
    (Number.Sign.ofChar? c).isSome ∨ CodePoint.isDigit c.toNat ∨
      (c = '.' ∧ ∃ d ds, cs = d :: ds ∧ CodePoint.isDigit d.toNat) := by
  simp only [startsNumber] at h
  split at h
  · rename_i hc
    left
    rcases Bool.or_eq_true_iff.1 hc with hc | hc <;>
      simp [Number.Sign.ofChar?, beq_iff_eq.1 hc]
  · split at h
    · rename_i hc
      right; right
      refine ⟨beq_iff_eq.1 hc, ?_⟩
      split at h
      · exact ⟨_, _, rfl, h⟩
      · contradiction
    · exact .inr (.inl h)

private theorem isSuffix_scanNumeric_cons (c : Char) (cs : List Char)
    (h : (Number.Sign.ofChar? c).isSome ∨ CodePoint.isDigit c.toNat ∨
      (c = '.' ∧ ∃ d ds, cs = d :: ds ∧ CodePoint.isDigit d.toNat)) :
    (scanNumeric (c :: cs)).rest <:+ cs :=
  (isSuffix_scanNumeric _).trans (Number.isSuffix_scanLiteral c cs h)

private theorem isSuffix_scanIdentLike_cons (c : Char) (cs : List Char)
    (h : isIdent c ∨ (c = '\\' ∧ escapes cs)) : (scanIdentLike (c :: cs)).rest <:+ cs :=
  (isSuffix_scanIdentLike _).trans (isSuffix_scanName_cons c cs h)

/-- Forming a token takes its first character and leaves what comes after its last. -/
theorem isSuffix_scanLexeme (c : Char) (cs : List Char) : (scanLexeme c cs).rest <:+ cs := by
  unfold scanLexeme
  split
  · exact List.dropWhile_suffix isWhitespace
  · split
    · exact isSuffix_scanString _ cs
    · exact isSuffix_scanString _ cs
    all_goals try exact List.suffix_rfl
    · split
      · exact isSuffix_scanName cs
      · exact List.suffix_rfl
    · split
      · rename_i h; exact isSuffix_scanNumeric_cons _ _ (startsNumber_cases _ _ h)
      · exact List.suffix_rfl
    · split
      · rename_i h; exact isSuffix_scanNumeric_cons _ _ (startsNumber_cases _ _ h)
      · exact List.suffix_rfl
    · split
      · rename_i h; exact isSuffix_scanNumeric_cons _ _ (startsNumber_cases _ _ h)
      · split
        · exact (List.suffix_cons '>' _).trans (List.suffix_cons '-' _)
        · split
          · exact isSuffix_scanIdentLike_cons '-' cs (.inl (by decide))
          · exact List.suffix_rfl
    · split
      · rename_i rest
        exact (List.suffix_cons '-' rest).trans ((List.suffix_cons '-' _).trans (List.suffix_cons '!' _))
      · exact List.suffix_rfl
    · split
      · exact isSuffix_scanName cs
      · exact List.suffix_rfl
    · split
      · rename_i h; exact isSuffix_scanIdentLike_cons '\\' cs (.inr ⟨rfl, h⟩)
      · exact List.suffix_rfl
    · split
      · rename_i rest; exact (isSuffix_scanComment rest).trans (List.suffix_cons '*' rest)
      · exact List.suffix_rfl
    · split
      · rename_i h; exact isSuffix_scanNumeric_cons c cs (.inr (.inl h))
      · split
        · rename_i h
          exact isSuffix_scanIdentLike_cons c cs (.inl (CodePoint.isIdent_of_isIdentStart h))
        · exact List.suffix_rfl

end Styling.Lexer
