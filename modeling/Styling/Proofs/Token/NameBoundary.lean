import Mathlib
import Styling.Runs
import Styling.Token.Lexer

/-!
# Where names end

A name ends in front of a character that cannot go on with it. What stands there, or whether anything does,
makes no difference to the name (`Lexer.scanName_carries`).
-/

namespace Styling.Lexer

/-- No name goes on with these characters, nor does an escape at its end. -/
def EndsName (u : List Char) : Prop :=
  ∀ c ∈ u.head?, isIdent c = false ∧ isWhitespace c = false ∧ c ≠ '\\'

/-- The marks that are tokens by themselves, and never the second character of another one that is not
quoted or escaped. -/
def marks : List Char := [')', '[', ']', '{', '}', ':', ';', ',']

/-- No token goes on with these characters unless it is quoted. -/
def EndsToken (u : List Char) : Prop := ∀ c ∈ u.head?, c ∈ marks

theorem endsName_nil : EndsName [] := fun c hc => by cases hc

theorem EndsToken.endsName {u : List Char} (h : EndsToken u) : EndsName u := by
  intro c hc
  have hmark := h c hc
  fin_cases hmark <;> exact ⟨rfl, rfl, by decide⟩

theorem EndsToken.isWhitespace_eq_false {u : List Char} (h : EndsToken u) :
    ∀ c ∈ u.head?, isWhitespace c = false :=
  fun c hc => (h.endsName c hc).2.1

/-- Where all of `u` is left by a scanner, it reads the same in front of `v`. -/
def Carries {α : Type} (u v : List Char) (f : List Char → Scan α) : Prop :=
  ∀ cs w, (f (cs ++ u)).rest = w ++ u →
    f (cs ++ v) = ⟨(f (cs ++ u)).value, w ++ v, (f (cs ++ u)).notes⟩

variable {u v : List Char}

theorem exists_append_of_isSuffix {w cs : List Char} (h : w ++ u <:+ cs) :
    ∃ w', cs = w' ++ u := by
  obtain ⟨front, rfl⟩ := h
  exact ⟨front ++ w, by rw [List.append_assoc]⟩

/-- What leaves all of `u` after a character was not at the end of what stands before `u`. -/
theorem exists_cons_of_isSuffix {c : Char} {cs x w : List Char} (hx : cs ++ u = c :: x)
    (h : w ++ u <:+ x) : ∃ cs', cs = c :: cs' ∧ x = cs' ++ u := by
  cases cs with
  | nil =>
    have hlength := h.length_le
    rw [List.nil_append] at hx
    rw [hx, List.length_append, List.length_cons] at hlength
    omega
  | cons d cs =>
    rw [List.cons_append] at hx
    obtain ⟨rfl, rfl⟩ := List.cons.inj hx
    exact ⟨cs, rfl, rfl⟩

private theorem not_isSuffix_tail {c : Char} {w : List Char} : ¬ w ++ c :: u <:+ u := by
  intro h
  have hlength := h.length_le
  rw [List.length_append, List.length_cons] at hlength
  omega

theorem takeWhile_append {p : Char → Bool} (hp : ∀ c ∈ u.head?, p c = false)
    (cs : List Char) : (cs ++ u).takeWhile p = cs.takeWhile p :=
  (Prod.mk.inj (splitRun_append_right u fun _ => hp)).1

theorem dropWhile_append {p : Char → Bool} (hp : ∀ c ∈ u.head?, p c = false)
    (cs : List Char) : (cs ++ u).dropWhile p = cs.dropWhile p ++ u :=
  (Prod.mk.inj (splitRun_append_right u fun _ => hp)).2

section Combinators

variable {α β : Type} {f g : List Char → Scan α}

theorem carries_keep (a : α) (notes : List Note) : Carries u v fun cs => ⟨a, cs, notes⟩ := by
  intro cs w h
  rw [List.append_cancel_right h]

theorem Carries.map (hf : Carries u v f) (k : α → β) :
    Carries u v fun cs => ⟨k (f cs).value, (f cs).rest, (f cs).notes⟩ := by
  intro cs w h
  dsimp only at h ⊢
  rw [hf cs w h]

theorem Carries.cons (hf : Carries u v f) (c : Char) : Carries u v fun cs => f (c :: cs) :=
  fun cs w h => hf (c :: cs) w h

theorem Carries.ite {p : List Char → Bool} (hp : ∀ cs, p (cs ++ v) = p (cs ++ u))
    (hf : Carries u v f) (hg : Carries u v g) : Carries u v fun cs => if p cs then f cs else g cs := by
  intro cs w h
  dsimp only at h ⊢
  rw [hp]
  split
  · rename_i hyes
    rw [if_pos hyes] at h
    exact hf cs w h
  · rename_i hno
    rw [if_neg hno] at h
    exact hg cs w h

/-- One scanner after another, which goes on where the first one ended. -/
theorem Carries.andThen {k : α → List Note → List Char → Scan β} (hf : Carries u v f)
    (hk : ∀ a notes, Carries u v (k a notes)) (hsuffix : ∀ a notes cs, (k a notes cs).rest <:+ cs) :
    Carries u v fun cs => k (f cs).value (f cs).notes (f cs).rest := by
  intro cs w h
  obtain ⟨w', hw'⟩ := exists_append_of_isSuffix (h ▸ hsuffix (f (cs ++ u)).value _ _)
  dsimp only at h ⊢
  rw [hf cs w' hw']
  rw [hw'] at h ⊢
  exact hk _ _ w' w h

/-- A mark of characters with which tokens may go on is all in front of `u`, or not there. -/
theorem EndsToken.exists_append_of_mark (hu : EndsToken u) {mark cs rest : List Char}
    (hmark : ∀ c ∈ mark, c ∉ marks) (h : cs ++ u = mark ++ rest) :
    ∃ rest', cs = mark ++ rest' ∧ rest = rest' ++ u := by
  induction mark generalizing cs with
  | nil => exact ⟨cs, rfl, h.symm⟩
  | cons m mark ih =>
    cases cs with
    | nil =>
      rw [List.nil_append] at h
      exact absurd (hu m (by rw [h]; rfl)) (hmark m List.mem_cons_self)
    | cons c cs =>
      obtain ⟨rfl, htail⟩ := List.cons.inj h
      obtain ⟨rest', rfl, hrest⟩ := ih (List.forall_mem_cons.1 hmark).2 htail
      exact ⟨rest', rfl, hrest⟩

/-- Scanning that depends on whether such a mark comes next. -/
theorem EndsToken.carries_mark (hu : EndsToken u) (hv : EndsToken v) {f yes no : List Char → Scan α}
    (mark : List Char) (hmark : ∀ c ∈ mark, c ∉ marks) (hyes : Carries u v yes) (hno : Carries u v no)
    (hf : ∀ rest, f (mark ++ rest) = yes rest) (hf' : ∀ cs, (∀ rest, cs ≠ mark ++ rest) → f cs = no cs) :
    Carries u v f := by
  intro cs w h
  by_cases hcs : ∃ rest, cs = mark ++ rest
  · obtain ⟨rest, rfl⟩ := hcs
    rw [List.append_assoc, hf] at h ⊢
    rw [List.append_assoc, hf]
    exact hyes rest w h
  · have hnot : ∀ {z : List Char}, EndsToken z → ∀ rest, cs ++ z ≠ mark ++ rest := by
      intro z hz rest hrest
      obtain ⟨rest', hcs', -⟩ := hz.exists_append_of_mark hmark hrest
      exact hcs ⟨rest', hcs'⟩
    rw [hf' _ (hnot hu)] at h ⊢
    rw [hf' _ (hnot hv)]
    exact hno cs w h

end Combinators

/-! ## Names -/

theorem isIdent_of_isHexDigit {c : Char} (h : isHexDigit c) : isIdent c := by
  simp only [isHexDigit, Source.CodePoint.isHexDigit, Bool.or_eq_true] at h
  simp only [isIdent, Source.CodePoint.isIdent, Source.CodePoint.isIdentStart,
    Source.CodePoint.isLetter, Bool.or_eq_true]
  rcases h with (h | h) | h
  · exact .inl (.inr h)
  · simp only [Bool.and_eq_true, decide_eq_true_eq] at h ⊢
    omega
  · simp only [Bool.and_eq_true, decide_eq_true_eq] at h ⊢
    omega

private theorem escapes_cons (c : Char) (cs ds : List Char) : escapes (c :: cs) = escapes (c :: ds) := by
  by_cases hc : c = '\n' <;> simp [escapes, hc]

namespace EndsName

theorem escapes_append (hu : EndsName u) (cs : List Char) : escapes (cs ++ u) = escapes cs := by
  cases cs with
  | cons c cs => exact escapes_cons c _ _
  | nil =>
    cases u with
    | nil => rfl
    | cons c u =>
      obtain ⟨-, hspace, -⟩ := hu c rfl
      have hbreak : c ≠ '\n' := by
        rintro rfl
        cases hspace
      simp [escapes, hbreak]

theorem escapes_of_append (hv : EndsName v) {cs : List Char} (h : escapes (cs ++ u)) :
    escapes (cs ++ v) := by
  rw [hv.escapes_append]
  cases cs with
  | nil => rfl
  | cons c cs => rwa [List.cons_append, escapes_cons c _ cs] at h

theorem spanHex_eq (hu : EndsName u) (limit : Nat) : spanHex limit u = ([], u) := by
  cases limit with
  | zero => cases u <;> rfl
  | succ limit =>
    cases u with
    | nil => rfl
    | cons c u =>
      have hhex : ¬ isHexDigit c := by
        intro hhex
        have hident := isIdent_of_isHexDigit hhex
        rw [(hu c rfl).1] at hident
        cases hident
      rw [spanHex, if_neg hhex]

theorem dropOneWhitespace_eq (hu : EndsName u) : dropOneWhitespace u = u := by
  cases u with
  | nil => rfl
  | cons c u => simp [dropOneWhitespace, (hu c rfl).2.1]

theorem scanName_eq (hu : EndsName u) : scanName u = ⟨[], u, []⟩ := by
  cases u with
  | nil => rw [scanName]
  | cons c u =>
    obtain ⟨hident, -, hslash⟩ := hu c rfl
    rw [scanName, if_neg (by simp [hident]), if_neg (by simp [hslash])]

end EndsName

private theorem dropOneWhitespace_carries {cs w : List Char} (hv : EndsName v)
    (h : dropOneWhitespace (cs ++ u) = w ++ u) : dropOneWhitespace (cs ++ v) = w ++ v := by
  cases cs with
  | nil =>
    have hlength := (isSuffix_dropOneWhitespace u).length_le
    rw [List.nil_append] at h
    rw [h, List.length_append] at hlength
    obtain rfl : w = [] := List.length_eq_zero_iff.1 (by omega)
    exact hv.dropOneWhitespace_eq
  | cons c cs =>
    simp only [List.cons_append, dropOneWhitespace] at h ⊢
    split
    · rename_i hspace
      rw [if_pos hspace] at h
      rw [List.append_cancel_right h]
    · rename_i hspace
      rw [if_neg hspace, ← List.cons_append] at h
      rw [← List.append_cancel_right h, List.cons_append]

private theorem spanHex_carries {limit : Nat} {cs w : List Char} (hv : EndsName v)
    (h : dropOneWhitespace (spanHex limit (cs ++ u)).2 = w ++ u) :
    (spanHex limit (cs ++ v)).1 = (spanHex limit (cs ++ u)).1 ∧
      dropOneWhitespace (spanHex limit (cs ++ v)).2 = w ++ v := by
  induction limit generalizing cs with
  | zero => exact ⟨by simp [spanHex], dropOneWhitespace_carries hv h⟩
  | succ limit ih =>
    cases cs with
    | nil =>
      rw [List.nil_append] at h
      have hnone : spanHex (limit + 1) u = ([], u) := by
        cases u with
        | nil => rfl
        | cons c u =>
          rw [spanHex] at h ⊢
          split
          · rename_i hhex
            rw [if_pos hhex] at h
            refine absurd ?_ (not_isSuffix_tail (u := u) (c := c) (w := w))
            rw [← h]
            exact (isSuffix_dropOneWhitespace _).trans (isSuffix_spanHex limit u)
          · rfl
      rw [hnone] at h
      rw [List.nil_append, List.nil_append, hv.spanHex_eq, hnone]
      have h : dropOneWhitespace ([] ++ u) = w ++ u := h
      exact ⟨rfl, dropOneWhitespace_carries hv h⟩
    | cons c cs =>
      rw [List.cons_append, spanHex] at h
      rw [List.cons_append, List.cons_append, spanHex, spanHex]
      split
      · rename_i hhex
        rw [if_pos hhex] at h
        obtain ⟨hdigits, hrest⟩ := ih h
        exact ⟨congrArg (c :: ·) hdigits, hrest⟩
      · rename_i hhex
        rw [if_neg hhex] at h
        have h : dropOneWhitespace (c :: cs ++ u) = w ++ u := h
        exact ⟨rfl, dropOneWhitespace_carries hv h⟩

/-- An escape takes a character at least, unless there is none. -/
theorem isSuffix_scanEscape_cons (c : Char) (cs : List Char) :
    (scanEscape (c :: cs)).rest <:+ cs := by
  rw [scanEscape]
  split
  · exact (isSuffix_dropOneWhitespace _).trans (isSuffix_spanHex 5 cs)
  · exact List.suffix_rfl

theorem carries_scanEscape (hv : EndsName v) (hend : u = [] → v = []) : Carries u v scanEscape := by
  intro cs w h
  cases cs with
  | nil =>
    cases u with
    | nil =>
      obtain rfl := hend rfl
      rw [← h]
    | cons c u =>
      refine absurd ?_ (not_isSuffix_tail (u := u) (c := c) (w := w))
      rw [← h]
      exact isSuffix_scanEscape_cons c u
  | cons c cs =>
    rw [List.cons_append, scanEscape] at h ⊢
    rw [List.cons_append, scanEscape]
    split
    · rename_i hhex
      rw [if_pos hhex] at h
      obtain ⟨hdigits, hrest⟩ := spanHex_carries hv h
      simp only [hdigits, hrest]
    · rename_i hhex
      rw [if_neg hhex] at h
      rw [List.append_cancel_right h]

/-- A name that ends in front of `u` ends in front of `v`. If something else stands between, it must not
be a backslash that only `u` keeps from being an escape. -/
theorem scanName_carries (hv : EndsName v) (hend : u = [] → v = []) {cs w : List Char}
    (hw : w = [] ∨ EndsName u) (h : (scanName (cs ++ u)).rest = w ++ u) :
    scanName (cs ++ v) = ⟨(scanName (cs ++ u)).value, w ++ v, (scanName (cs ++ u)).notes⟩ := by
  generalize hx : cs ++ u = x at h ⊢
  fun_induction scanName x generalizing cs w with
  | case1 =>
    obtain ⟨rfl, rfl⟩ := List.append_eq_nil_iff.1 hx
    obtain rfl := hend rfl
    rw [List.nil_append, hv.scanName_eq, ← h]
  | case2 c x hident =>
    rename_i ih
    obtain ⟨cs, rfl, rfl⟩ := exists_cons_of_isSuffix hx (h ▸ isSuffix_scanName x)
    rw [List.cons_append, scanName, if_pos hident]
    simp only [ih hw rfl h]
    rfl
  | case3 c x hident hescape e =>
    rename_i ih
    obtain ⟨hslash, hescapes⟩ := Bool.and_eq_true_iff.1 hescape
    have hsuffix : w ++ u <:+ e.rest := h ▸ isSuffix_scanName e.rest
    obtain ⟨w', hw'⟩ := exists_append_of_isSuffix hsuffix
    obtain ⟨cs, rfl, rfl⟩ := exists_cons_of_isSuffix hx (hsuffix.trans (isSuffix_scanEscape x))
    have hcarry := carries_scanEscape hv hend cs w' hw'
    have hescapes := hv.escapes_of_append hescapes
    rw [List.cons_append, scanName, if_neg hident, if_pos (by rw [hslash, hescapes]; rfl)]
    simp only [hcarry, ih hw hw'.symm h]
    rfl
  | case4 c x hident hescape =>
    obtain rfl : cs = w := List.append_cancel_right (hx.trans h)
    cases cs with
    | nil => exact hv.scanName_eq
    | cons d cs =>
      rw [List.cons_append] at hx
      obtain ⟨rfl, rfl⟩ := List.cons.inj hx
      have hu := hw.resolve_left (List.cons_ne_nil _ _)
      rw [hu.escapes_append, ← hv.escapes_append] at hescape
      rw [List.cons_append, scanName, if_neg hident, if_neg hescape]

end Styling.Lexer
