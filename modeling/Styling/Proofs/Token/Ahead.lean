import Styling.Proofs.Token.Name
import Styling.Proofs.Token.Reread

/-!
# Tokens in front of others

Tokens are cut out of a text, or written anew from the names they stand for, and put in front of others. They
are formed there as before where what follows goes on with no name (`FormsAhead`).
-/

namespace Styling

open Source Lexer

/-- Whether characters give tokens in front of any others that may follow a name, or only in front of none if
they are at the end of a text. -/
def FormsAhead (atEnd : Prop) (cs : List SourceChar) (ts : List Token) : Prop :=
  ∀ ⦃ds us⦄, FollowsName (ds.map SourceChar.value) → (atEnd → ds = []) → Formed ds us →
    Formed (cs ++ ds) (ts ++ us)

namespace FormsAhead

variable {atEnd atEnd' : Prop} {cs ds : List SourceChar} {ts us : List Token}

theorem nil : FormsAhead atEnd [] [] := fun _ _ _ _ h => h

theorem formed (h : FormsAhead atEnd cs ts) : Formed cs ts := by
  have hformed := h (fun _ h => by cases h) (fun _ => rfl) .nil
  rwa [List.append_nil, List.append_nil] at hformed

theorem mono (h : FormsAhead atEnd cs ts) (himp : atEnd → atEnd') : FormsAhead atEnd' cs ts :=
  fun _ _ hds hnil hus => h hds (fun hatEnd => hnil (himp hatEnd)) hus

theorem append (h : FormsAhead atEnd cs ts) (h' : FormsAhead atEnd' ds us)
    (hds : FollowsName (ds.map SourceChar.value)) (hend : atEnd → ds = [] ∧ atEnd') :
    FormsAhead atEnd' (cs ++ ds) (ts ++ us) := by
  intro es vs hes hnil hvs
  rw [List.append_assoc, List.append_assoc]
  refine h ?_ (fun hatEnd => ?_) (h' hes hnil hvs)
  · cases ds with
    | nil => exact hes
    | cons d ds => exact hds
  · obtain ⟨rfl, hatEnd'⟩ := hend hatEnd
    exact hnil hatEnd'

end FormsAhead

/-! ## Tokens of a text -/

namespace Formed

variable {cs : List SourceChar} {ts us : List Token} {t : Token}

/-- Tokens that end with a mark are formed of the same characters in front of anything. -/
theorem exists_formsAhead_of_mark (h : Formed cs (ts ++ t :: us)) (ht : t.kind.IsMark) :
    ∃ front back, cs = front ++ back ∧ Formed back us ∧ ∀ {ds vs}, Formed ds vs →
      Formed (front ++ ds) (ts ++ [t] ++ vs) := by
  obtain ⟨front, back, rfl, hback, hfront⟩ := h.exists_of_mark ht
  obtain ⟨c, rest, rfl, hc, hrest, hmark⟩ := hback.exists_cons_of_mark ht
  refine ⟨front ++ [c], rest, by rw [List.append_assoc]; rfl, hrest, fun {ds vs} hvs => ?_⟩
  have hends : EndsToken ((c :: ds).map SourceChar.value) := ((hmark hvs).startsMark ht).2
  rw [List.append_assoc, List.append_assoc]
  exact hfront hends (hmark hvs)

/-- A name is formed of the same characters in front of what may follow a name. -/
theorem exists_formsAhead_of_ident {name : String} (h : Formed cs (t :: us)) (ht : t.kind = .ident name) :
    ∃ front back, cs = front ++ back ∧ Formed back us ∧ FormsAhead (us = []) front [t] := by
  cases h with
  | @cons c taken rest _ _ lexeme notes scan kind source location others =>
    refine ⟨c :: taken, rest, rfl, others, fun ds vs hds hnil hvs => ?_⟩
    rw [ht] at kind
    obtain rfl := Lexeme.eq_plain_of_kind kind nofun nofun nofun
    have hend : rest.map SourceChar.value = [] → ds.map SourceChar.value = [] := by
      intro hrest
      obtain rfl := List.map_eq_nil_iff.1 hrest
      cases others
      rw [hnil rfl]
      rfl
    rw [List.map_append] at scan
    have hscan := scanLexeme_ident_append scan hds hend
    rw [← List.map_append] at hscan
    exact .cons hscan (by rw [kind, ht]) source location hvs

/-- Characters of a text that give tokens by themselves are spelled by the source of these. -/
theorem spells {text : String} {front back : List SourceChar} (h : Formed cs ts)
    (htext : filter text = front ++ (cs ++ back)) : Spells (sourceOf ts).toList cs := by
  rw [h.sourceOf_eq]
  exact spells_sourcesOf htext

end Formed

/-! ## Tokens written anew -/

/-- A token that is scanned at characters that nothing else stands for. -/
theorem Formed.cons_filterFrom {c : Char} {cs : List Char} {ds : List SourceChar} {us : List Token}
    {kind : TokenKind} {notes : List Note} (hcs : ∀ d ∈ c :: cs, filterChar d = d)
    (hscan : scanLexeme c (cs ++ ds.map SourceChar.value) = ⟨.plain kind, ds.map SourceChar.value, notes⟩)
    (h : Formed ds us) : Formed (filterFrom .start (c :: cs) ++ ds)
      (⟨kind, String.ofList (c :: cs), .start⟩ :: us) := by
  obtain ⟨hc, hcs⟩ := List.forall_mem_cons.1 hcs
  rw [filterFrom_cons_of_filterChar hc, List.cons_append]
  have hscan : scanLexeme c ((filterFrom (Location.after .start c) cs ++ ds).map SourceChar.value) =
      ⟨.plain kind, ds.map SourceChar.value, notes⟩ := by
    rwa [List.map_append, map_value_filterFrom hcs]
  refine .cons hscan rfl ?_ rfl h
  rw [sourcesOf_cons, sourcesOf_filterFrom]
  rfl

section Names

variable {name : String} (hname : isPlainName name)

include hname

private theorem filterChar_of_mem_plainName : ∀ c ∈ name.toList, filterChar c = c := by
  obtain ⟨-, hall⟩ := Bool.and_eq_true_iff.1 hname
  exact fun c hc => filterChar_of_isIdent (List.all_eq_true.1 hall c hc)

/-- A plain name does not begin with white-space. -/
theorem isWhitespace_head_plainName :
    ∀ c ∈ (filterFrom .start name.toList).head?, isWhitespace c.value = false := by
  intro c hc
  have hmem := List.mem_map_of_mem (f := SourceChar.value) (List.mem_of_mem_head? hc)
  rw [map_value_filterFrom (filterChar_of_mem_plainName hname)] at hmem
  obtain ⟨-, hall⟩ := Bool.and_eq_true_iff.1 hname
  exact isWhitespace_of_isIdent (List.all_eq_true.1 hall _ hmem)

/-- A plain name is a token as it is. -/
theorem formsAhead_ident :
    FormsAhead False (filterFrom .start name.toList) [⟨.ident name, name, .start⟩] := by
  intro ds us hds _ hus
  obtain ⟨hstart, hscan⟩ := scanName_of_isPlainName hname hds
  have hchars := filterChar_of_mem_plainName hname
  have hsource := String.ofList_toList (s := name)
  cases hcs : name.toList with
  | nil =>
    rw [isPlainName, hcs] at hname
    cases hname
  | cons c cs =>
    rw [hcs] at hstart hscan hchars hsource
    have hscan : scanName (c :: (cs ++ ds.map SourceChar.value)) =
        ⟨name.toList, ds.map SourceChar.value, []⟩ := by rw [hcs]; exact hscan
    have htoken := Formed.cons_filterFrom hchars (scanLexeme_of_scanName hstart hscan hds) hus
    rwa [hsource] at htoken

/-- A plain name with a number sign is an id. -/
theorem formsAhead_id : FormsAhead False (filterFrom .start ("#" ++ name).toList)
    [⟨.hash name .id, "#" ++ name, .start⟩] := by
  intro ds us hds _ hus
  obtain ⟨hstart, hscan⟩ := scanName_of_isPlainName hname hds
  have hchars : ∀ c ∈ '#' :: name.toList, filterChar c = c :=
    List.forall_mem_cons.2 ⟨rfl, filterChar_of_mem_plainName hname⟩
  have hsource : String.ofList ('#' :: name.toList) = "#" ++ name := by
    rw [← String.toList_inj, String.toList_ofList, String.toList_append]
    rfl
  have htoken := Formed.cons_filterFrom hchars (scanLexeme_eq_id_iff.2 ⟨rfl, hstart, hscan⟩) hus
  rwa [hsource, ← String.toList_ofList (l := '#' :: name.toList), hsource] at htoken

/-- A plain name with a point in front is a class. -/
theorem formsAhead_class : FormsAhead False (filterFrom .start ['.'] ++ filterFrom .start name.toList)
    [⟨.delim '.', ".", .start⟩, ⟨.ident name, name, .start⟩] := by
  intro ds us hds hnil hus
  have hname' := formsAhead_ident hname hds hnil hus
  obtain ⟨hstart, -⟩ := scanName_of_isPlainName hname hds
  have hvalues : (filterFrom .start name.toList ++ ds).map SourceChar.value =
      name.toList ++ ds.map SourceChar.value := by
    rw [List.map_append, map_value_filterFrom (filterChar_of_mem_plainName hname)]
  rw [← hvalues] at hstart
  rw [List.append_assoc]
  exact Formed.cons_filterFrom (List.forall_mem_singleton.2 rfl) (scanLexeme_point_of_startsIdent hstart) hname'

end Names

end Styling
