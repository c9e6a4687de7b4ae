import Styling.Token.Stream

/-!
# Streams over a list of tokens

A stream is over a list if what it has pulled are entries of the list and what is left is the rest of it,
also where its source fails behind the tokens, or where it was read beyond its end (`TokenStream.IsOver`).
Readers are described by the place in the list at which a stream is (`TokenStream.IsAt`), and by the tokens
that stand before it there (`TokenStream.Behind`). A stream that does not fail is given by the list, the number
of entries pulled, the index and the marks (`TokenStream.Stands`).
-/

namespace Styling.TokenStream

/-- The stream over `ts` that has pulled `pulled` entries. -/
def ofEntries (ts : List Token) (pulled index : Nat) (marks : List Nat) : TokenStream :=
  ⟨index, (List.range pulled).map (ts[·]?), marks, ts.drop pulled, none⟩

/-- The stream is one over `ts` with the given marks, and `rest` is what it has not consumed. -/
def Stands (s : TokenStream) (ts : List Token) (marks : List Nat) (rest : List Token) : Prop :=
  ∃ pulled index, s = ofEntries ts pulled index marks ∧ index ≤ pulled ∧
    index + rest.length = ts.length ∧ ts.drop index = rest

theorem stands_ofList (ts : List Token) : (ofList ts).Stands ts [] ts :=
  ⟨0, 0, rfl, Nat.le_refl 0, Nat.zero_add _, rfl⟩

/-- A stream that stands before no token has consumed them all. -/
theorem Stands.nil {s : TokenStream} {ts : List Token} {marks : List Nat}
    (h : s.Stands ts marks []) : s.index = ts.length ∧ s.source = [] ∧ s.marks = marks := by
  rcases h with ⟨pulled, index, rfl, hle, hlen, hdrop⟩
  rw [List.length_nil, Nat.add_zero] at hlen
  exact ⟨hlen, List.drop_eq_nil_iff.2 (by omega), rfl⟩

/-- The stream is one over `ts`: what it has pulled are entries of `ts`, and then none for every place beyond
the end, what is left is the rest of `ts`, and only behind this it may fail. -/
structure IsOver (s : TokenStream) (ts : List Token) : Prop where
  index_le : s.index ≤ s.buffer.length
  buffer_eq : s.buffer = (List.range s.buffer.length).map (ts[·]?)
  source_eq : s.source = ts.drop s.buffer.length
  length_le : s.failure ≠ none → s.buffer.length ≤ ts.length

theorem isOver_ofEntries (ts : List Token) {pulled index : Nat} (marks : List Nat)
    (h : index ≤ pulled) : (ofEntries ts pulled index marks).IsOver ts := by
  refine ⟨by simpa [ofEntries] using h, by simp [ofEntries], by simp [ofEntries], ?_⟩
  intro hfailure
  exact absurd rfl hfailure

theorem isOver_ofList (ts : List Token) : (ofList ts).IsOver ts :=
  isOver_ofEntries ts [] (Nat.le_refl 0)

/-- The stream is over `ts`, and its index, its marks and its failure are those given. -/
structure IsAt (s : TokenStream) (ts : List Token) (failure : Option Number.RangeError) (index : Nat)
    (marks : List Nat) : Prop where
  isOver : s.IsOver ts
  index_eq : s.index = index
  marks_eq : s.marks = marks
  failure_eq : s.failure = failure

variable {s : TokenStream} {ts : List Token} {failure : Option Number.RangeError} {index m : Nat}
  {marks : List Nat}

theorem IsOver.isAt (h : s.IsOver ts) : s.IsAt ts s.failure s.index s.marks := ⟨h, rfl, rfl, rfl⟩

/-- One more entry is pulled, if the source does not fail. -/
private theorem IsOver.next (h : s.IsOver ts) :
    (∃ s', s.next = (.ok ts[s.index]?, s') ∧ s'.IsAt ts s.failure s.index s.marks ∧
      s.index < s'.buffer.length) ∨ ∃ e s', s.failure = some e ∧ s.next = (.error e, s') := by
  rcases s with ⟨index, buffer, marks, source, failure⟩
  rcases h with ⟨hindex, hbuffer, hsource, hfailure⟩
  dsimp only at hindex hbuffer hsource hfailure
  by_cases hlt : index < buffer.length
  · refine .inl ⟨⟨index, buffer, marks, source, failure⟩, ?_,
      ⟨⟨hindex, hbuffer, hsource, hfailure⟩, rfl, rfl, rfl⟩, hlt⟩
    have hentry : buffer[index]?.join = ts[index]? := by
      rw [hbuffer]
      simp [hlt]
    simp only [TokenStream.next, if_pos hlt, hentry]
  · obtain rfl : index = buffer.length := Nat.le_antisymm hindex (Nat.le_of_not_lt hlt)
    -- the buffer with the entry that is pulled
    have hpulled : buffer ++ [ts[buffer.length]?] =
        (List.range (buffer ++ [ts[buffer.length]?]).length).map (ts[·]?) := by
      conv => lhs; rw [hbuffer]
      simp [List.range_succ]
    cases hd : ts.drop buffer.length with
    | cons t us =>
      have hget : ts[buffer.length]? = some t := by rw [← List.head?_drop, hd, List.head?_cons]
      have hrest : us = ts.drop (buffer.length + 1) := by rw [← List.tail_drop, hd, List.tail_cons]
      have hlength : buffer.length < ts.length := (List.getElem?_eq_some_iff.1 hget).1
      rw [hget] at hpulled
      refine .inl ⟨⟨buffer.length, buffer ++ [some t], marks, us, failure⟩, ?_,
        ⟨⟨by simp, hpulled, by simpa using hrest, ?_⟩, rfl, rfl, rfl⟩, by simp⟩
      · simp [TokenStream.next, hsource, hd, hget]
      · intro _
        simpa using Nat.succ_le_of_lt hlength
    | nil =>
      have hlength : ts.length ≤ buffer.length := List.drop_eq_nil_iff.1 hd
      cases failure with
      | some e =>
        refine .inr ⟨e, ⟨buffer.length, buffer, marks, source, none⟩, rfl, ?_⟩
        simp [TokenStream.next, hsource, hd]
      | none =>
        have hget : ts[buffer.length]? = none := List.getElem?_eq_none hlength
        have hrest : ts.drop (buffer.length + 1) = [] := List.drop_eq_nil_iff.2 (by omega)
        rw [hget] at hpulled
        refine .inl ⟨⟨buffer.length, buffer ++ [none], marks, [], none⟩, ?_,
          ⟨⟨by simp, hpulled, by simpa using hrest, by simp⟩, rfl, rfl, rfl⟩, by simp⟩
        simp [TokenStream.next, hsource, hd, hget]

theorem IsAt.next (h : s.IsAt ts failure index marks) :
    (∃ s', s.next = (.ok ts[index]?, s') ∧ s'.IsAt ts failure index marks) ∨
      ∃ e s', failure = some e ∧ s.next = (.error e, s') := by
  rcases h with ⟨hover, rfl, rfl, rfl⟩
  rcases hover.next with ⟨s', hnext, hs', -⟩ | hfails
  · exact .inl ⟨s', hnext, hs'⟩
  · exact .inr hfails

/-- If nothing fails, the entry asked for is in the buffer afterwards. -/
theorem IsAt.next_buffered (h : s.IsAt ts none index marks) :
    ∃ s', s.next = (.ok ts[index]?, s') ∧ s'.IsAt ts none index marks ∧
      s'.buffer[index]? = some ts[index]? := by
  rcases h with ⟨hover, rfl, rfl, hfailure⟩
  rcases hover.next with ⟨s', hnext, hs', hlt⟩ | ⟨e, -, he, -⟩
  · rw [hfailure] at hs'
    refine ⟨s', hnext, hs', ?_⟩
    rw [hs'.isOver.buffer_eq]
    simp [hlt]
  · rw [hfailure] at he
    cases he

theorem IsAt.consume (h : s.IsAt ts failure index marks) :
    (∃ s', s.consume = (.ok ts[index]?, s') ∧ s'.IsAt ts failure (index + 1) marks) ∨
      ∃ e s', failure = some e ∧ s.consume = (.error e, s') := by
  rcases h with ⟨hover, rfl, rfl, rfl⟩
  rcases hover.next with ⟨s', hnext, hs', hlt⟩ | ⟨e, s', hfailure, hnext⟩
  · refine .inl ⟨{ s' with index := s'.index + 1 }, ?_, ⟨?_, ?_, hs'.marks_eq, hs'.failure_eq⟩⟩
    · rw [TokenStream.consume, hnext]
    · rw [← hs'.index_eq] at hlt
      exact ⟨hlt, hs'.isOver.buffer_eq, hs'.isOver.source_eq, hs'.isOver.length_le⟩
    · rw [← hs'.index_eq]
  · exact .inr ⟨e, s', hfailure, by rw [TokenStream.consume, hnext]⟩

theorem IsAt.mark (h : s.IsAt ts failure index marks) :
    s.mark.IsAt ts failure index (index :: marks) := by
  rcases h with ⟨hover, rfl, rfl, rfl⟩
  exact ⟨⟨hover.index_le, hover.buffer_eq, hover.source_eq, hover.length_le⟩, rfl, rfl, rfl⟩

theorem IsAt.discardMark? (h : s.IsAt ts failure index (m :: marks)) :
    ∃ s', s.discardMark? = some s' ∧ s'.IsAt ts failure index marks := by
  rcases h with ⟨hover, rfl, hmarks, rfl⟩
  refine ⟨{ s with marks := marks }, by rw [TokenStream.discardMark?, hmarks], ?_⟩
  exact ⟨⟨hover.index_le, hover.buffer_eq, hover.source_eq, hover.length_le⟩, rfl, rfl, rfl⟩

/-- A mark that was set further back was pulled already. -/
theorem IsAt.restoreMark? (h : s.IsAt ts failure index (m :: marks)) (hle : m ≤ index) :
    ∃ s', s.restoreMark? = some s' ∧ s'.IsAt ts failure m marks := by
  rcases h with ⟨hover, rfl, hmarks, rfl⟩
  refine ⟨{ s with index := m, marks := marks }, by rw [TokenStream.restoreMark?, hmarks], ?_⟩
  exact ⟨⟨Nat.le_trans hle hover.index_le, hover.buffer_eq, hover.source_eq, hover.length_le⟩, rfl, rfl, rfl⟩

/-! ## What stands before a stream -/

/-- The stream has moved from a place on, and `us` are the tokens left over of those ahead there. -/
def Behind (ts : List Token) (failure : Option Number.RangeError) (index : Nat) (marks : List Nat)
    (us : List Token) (s : TokenStream) : Prop :=
  ∃ n, n + us.length = (ts.drop index).length ∧ ts.drop (index + n) = us ∧
    s.IsAt ts failure (index + n) marks

theorem behind_self (h : s.IsAt ts failure index marks) :
    Behind ts failure index marks (ts.drop index) s :=
  ⟨0, Nat.zero_add _, rfl, h⟩

/-- What is taken behind what was taken. -/
theorem Behind.trans {us vs : List Token} {n : Nat} (hn : n + us.length = (ts.drop index).length)
    (hdrop : ts.drop (index + n) = us) (h : Behind ts failure (index + n) marks vs s) :
    Behind ts failure index marks vs s := by
  rcases h with ⟨n', hn', hdrop', hs⟩
  rw [hdrop] at hn'
  refine ⟨n + n', by omega, ?_, ?_⟩
  · rw [← Nat.add_assoc, hdrop']
  · rw [← Nat.add_assoc]
    exact hs

/-- A stream that stands before tokens is at their place, and one behind that place with tokens left over
stands before these. -/
theorem Stands.isAt {rest : List Token} (h : s.Stands ts marks rest) :
    ∃ index, s.IsAt ts none index marks ∧ ts.drop index = rest ∧
      ∀ us s', Behind ts none index marks us s' → s'.Stands ts marks us := by
  rcases h with ⟨pulled, index, rfl, hle, hlen, rfl⟩
  refine ⟨index, ⟨isOver_ofEntries ts marks hle, rfl, rfl, rfl⟩, rfl, ?_⟩
  rintro us ⟨index', buffer, marks', source, failure⟩ ⟨n, hn, hdrop, hover, rfl, rfl, rfl⟩
  refine ⟨buffer.length, index + n, ?_, hover.index_le, by omega, hdrop⟩
  rw [ofEntries, TokenStream.mk.injEq]
  exact ⟨rfl, hover.buffer_eq, rfl, hover.source_eq, rfl⟩

end Styling.TokenStream
