import Styling.Proofs.Token.Name
import Styling.Proofs.Token.Reread

/-!
# What the source of a token says of it

A token's source is no shorter than the name it stands for. If it is the name, and a number sign in front of
one that is an id, then the name is plain (`isFaithful_of_tokenize`).
-/

namespace Styling

open Source Lexer

namespace Source

/-- A filtered character that is neither a line feed nor the replacement character is written as it is. -/
theorem source_eq_of_mem_filterFrom {here : Location} {cs : List Char} {x : SourceChar}
    (h : x ∈ filterFrom here cs) (hbreak : x.value ≠ '\n') (hreplaced : x.value ≠ '\uFFFD') :
    x.source = [x.value] := by
  rcases mem_filterFrom h with ⟨c, hvalue, hsource⟩ | ⟨hvalue, -⟩
  · rw [hvalue, filterChar] at hbreak hreplaced
    rw [hsource, hvalue, filterChar]
    split
    · rename_i hc
      exact absurd (if_pos hc) hbreak
    · rename_i hc
      rw [if_neg hc] at hreplaced
      split
      · rename_i hnul
        exact absurd (if_pos hnul) hreplaced
      · rfl
  · exact absurd hvalue hbreak

theorem source_ne_nil_of_mem_filterFrom {here : Location} {cs : List Char} {x : SourceChar}
    (h : x ∈ filterFrom here cs) : x.source ≠ [] := by
  rcases mem_filterFrom h with ⟨c, -, hsource⟩ | ⟨-, hsource⟩
  all_goals
    rw [hsource]
    exact List.cons_ne_nil _ _

theorem length_le_length_sourcesOf {cs : List SourceChar} (h : ∀ c ∈ cs, c.source ≠ []) :
    cs.length ≤ (sourcesOf cs).length := by
  induction cs with
  | nil => exact Nat.le_refl 0
  | cons c cs ih =>
    obtain ⟨hc, hcs⟩ := List.forall_mem_cons.1 h
    have hpos := List.length_pos_iff.2 hc
    have hlength := ih hcs
    rw [sourcesOf_cons, List.length_append, List.length_cons]
    omega

end Source

/-- What the source of a token says of its kind. -/
structure Token.IsFaithful (t : Token) : Prop where
  nonempty : t.source ≠ ""
  length_ident : ∀ name, t.kind = .ident name → name.length ≤ t.source.length
  ident : t.kind = .ident t.source → isPlainName t.source
  length_id : ∀ name, t.kind = .hash name .id → name.length + 1 ≤ t.source.length
  id : ∀ name, t.kind = .hash name .id → t.source = "#" ++ name → isPlainName name
  comma : t.kind = .comma → t.source = ","
  solid : t.isWhite = false → t.source.toList.head? ≠ some ' '

namespace Formed

variable {cs : List SourceChar} {ts : List Token} {t : Token}

/-- Every token is scanned somewhere in the characters that tokens are formed of. -/
theorem exists_scan (h : Formed cs ts) (ht : t ∈ ts) : ∃ front c taken rest lexeme notes,
    cs = front ++ c :: (taken ++ rest) ∧ scanLexeme c.value ((taken ++ rest).map SourceChar.value) =
      ⟨lexeme, rest.map SourceChar.value, notes⟩ ∧ lexeme.kind = .ok t.kind ∧
        t.source = String.ofList (sourcesOf (c :: taken)) := by
  induction h with
  | nil => cases ht
  | @cons c taken rest _ _ lexeme notes scan kind source location others ih =>
    rcases List.mem_cons.1 ht with rfl | ht
    · exact ⟨[], c, taken, rest, lexeme, notes, rfl, scan, kind, source⟩
    · obtain ⟨front, d, taken', rest', lexeme', notes', rfl, hscan⟩ := ih ht
      exact ⟨c :: (taken ++ front), d, taken', rest', lexeme', notes', by simp, hscan⟩

end Formed

/-- A name that is as long as what is written for it is plain. -/
private theorem name_of_scanName {here : Location} {text : List Char} {taken rest : List SourceChar}
    {name : String} {notes : List Note} (hmem : ∀ c ∈ taken, c ∈ filterFrom here text)
    (hscan : scanName ((taken ++ rest).map SourceChar.value) =
      ⟨name.toList, rest.map SourceChar.value, notes⟩) :
    name.length ≤ (sourcesOf taken).length ∧ (startsIdent ((taken ++ rest).map SourceChar.value) →
      sourcesOf taken = name.toList → isPlainName name) := by
  have hlength := length_le_length_sourcesOf fun c hc => source_ne_nil_of_mem_filterFrom (hmem c hc)
  obtain ⟨read, hread, hle, hsame⟩ := scanName_cases ((taken ++ rest).map SourceChar.value)
  rw [hscan, List.map_append] at hread
  obtain rfl := List.append_cancel_right hread
  rw [hscan, List.length_map] at hle hsame
  refine ⟨hle.trans hlength, fun hstart hsource => ?_⟩
  have heq : name.toList.length = taken.length := by
    rw [hsource] at hlength
    exact Nat.le_antisymm hle hlength
  rcases hsame heq with ⟨hvalue, hall⟩ | ⟨front, hfront, hvalue⟩
  · have hvalue : name.toList = taken.map SourceChar.value := hvalue
    have hstop := startsName_rest_scanName ((taken ++ rest).map SourceChar.value)
    rw [hscan] at hstop
    rw [List.map_append] at hstart
    rw [isPlainName, hvalue, startsIdent_of_append hstop hstart, List.all_eq_true.2 hall]
    rfl
  · -- The backslash at the end is written as one, but the name ends otherwise.
    have hvalue : name.toList = front ++ ['\uFFFD'] := hvalue
    obtain ⟨init, last, rfl, -, hlast⟩ := List.map_eq_append_iff.1 hfront
    obtain ⟨x, _, rfl, hx, hnil⟩ := List.map_eq_cons_iff.1 hlast
    obtain rfl := List.map_eq_nil_iff.1 hnil
    have hmem := hmem x (List.mem_append_right _ (List.mem_singleton_self x))
    have hwritten := source_eq_of_mem_filterFrom hmem (by rw [hx]; decide) (by rw [hx]; decide)
    rw [sourcesOf_append, sourcesOf_cons, hwritten, hx, hvalue] at hsource
    have hends := congrArg List.getLast? hsource
    simp [sourcesOf] at hends

section Scanned

variable {text : List Char} {c : SourceChar} {taken rest : List SourceChar} {lexeme : Lexeme}
  {notes : List Note} {t : Token} (hmem : ∀ d ∈ c :: taken, d ∈ filterFrom .start text)
  (hscan : scanLexeme c.value ((taken ++ rest).map SourceChar.value) =
    ⟨lexeme, rest.map SourceChar.value, notes⟩) (hkind : lexeme.kind = .ok t.kind)
  (hsource : t.source = String.ofList (sourcesOf (c :: taken)))

include hmem hscan hkind hsource

private theorem ident_of_scan {name : String} (h : t.kind = .ident name) :
    name.length ≤ t.source.length ∧ (t.source = name → isPlainName name) := by
  rw [h] at hkind
  obtain rfl := Lexeme.eq_plain_of_kind hkind nofun nofun nofun
  obtain ⟨hstart, -, hname, -⟩ := scanLexeme_eq_ident_iff.1 hscan
  obtain ⟨hlength, hplain⟩ := name_of_scanName hmem hname
  refine ⟨by rwa [hsource, String.length_ofList], fun hsame => hplain hstart ?_⟩
  rw [← hsame, hsource, String.toList_ofList]

private theorem id_of_scan {name : String} (h : t.kind = .hash name .id) :
    name.length + 1 ≤ t.source.length ∧ (t.source = "#" ++ name → isPlainName name) := by
  rw [h] at hkind
  obtain rfl := Lexeme.eq_plain_of_kind hkind nofun nofun nofun
  obtain ⟨hmark, hstart, hname⟩ := scanLexeme_eq_id_iff.1 hscan
  obtain ⟨hc, htaken⟩ := List.forall_mem_cons.1 hmem
  obtain ⟨hlength, hplain⟩ := name_of_scanName htaken hname
  have hwritten := source_eq_of_mem_filterFrom hc (by rw [hmark]; decide) (by rw [hmark]; decide)
  have hchars : t.source.toList = '#' :: sourcesOf taken := by
    rw [hsource, String.toList_ofList, sourcesOf_cons, hwritten, hmark]
    rfl
  refine ⟨?_, fun hsame => hplain hstart ?_⟩
  · rw [← t.source.length_toList, hchars]
    exact Nat.succ_le_succ hlength
  · rw [hsame, String.toList_append] at hchars
    exact (List.cons.inj hchars).2.symm

private theorem comma_of_scan (h : t.kind = .comma) : t.source = "," := by
  rw [h] at hkind
  have hplain := Lexeme.eq_plain_of_character? hkind rfl
  obtain ⟨hvalue, hrest⟩ := eq_of_character? ((congrArg Scan.value hscan).trans hplain) rfl
  rw [hscan] at hrest
  obtain rfl := eq_nil_of_map_value_eq hrest
  have hwritten := source_eq_of_mem_filterFrom (hmem c List.mem_cons_self) (by rw [hvalue]; decide)
    (by rw [hvalue]; decide)
  rw [hsource, sourcesOf_cons, hwritten, hvalue]
  rfl

private theorem solid_of_scan (h : t.isWhite = false) : t.source.toList.head? ≠ some ' ' := by
  intro hhead
  rw [hsource, String.toList_ofList, sourcesOf_cons] at hhead
  have hvalue : c.value = ' ' := by
    rcases mem_filterFrom (hmem c List.mem_cons_self) with ⟨d, hvalue, hwritten⟩ | ⟨-, hwritten⟩
    · rw [hwritten] at hhead
      obtain rfl := Option.some.inj hhead
      exact hvalue
    · rw [hwritten] at hhead
      cases hhead
  rw [hvalue] at hscan
  obtain ⟨rfl, -⟩ := Scan.mk.inj hscan
  rw [Token.isWhite, ← Except.ok.inj hkind] at h
  cases h

end Scanned

/-- The tokens of a text are no shorter than their names. -/
theorem isFaithful_of_tokenize {text : String} {ts : List Token} (h : tokenize text = .ok ts) :
    ∀ t ∈ ts, t.IsFaithful := by
  intro t ht
  have hformed := formed_of_tokenize h
  obtain ⟨front, c, taken, rest, lexeme, notes, htext, hscan, hkind, hsource⟩ := hformed.exists_scan ht
  have hmem : ∀ d ∈ c :: taken, d ∈ filterFrom .start text.toList := by
    intro d hd
    show d ∈ filter text
    rw [htext, ← List.cons_append, ← List.append_assoc]
    exact List.mem_append_left _ (List.mem_append_right _ hd)
  exact {
    nonempty := hformed.source_ne_empty (located_filter text) t ht
    length_ident := fun _ h => (ident_of_scan hmem hscan hkind hsource h).1
    ident := fun h => (ident_of_scan hmem hscan hkind hsource h).2 rfl
    length_id := fun _ h => (id_of_scan hmem hscan hkind hsource h).1
    id := fun _ h => (id_of_scan hmem hscan hkind hsource h).2
    comma := comma_of_scan hmem hscan hkind hsource
    solid := solid_of_scan hmem hscan hkind hsource }

end Styling
