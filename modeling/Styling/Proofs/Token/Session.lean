import Styling.Cursor
import Styling.Proofs.Token.Stream

/-!
# Sessions with a token stream

A stream pulls tokens from its source as they are asked for, and at the end an entry for none every time. It
answers any sequence of requests as a cursor over the whole list of tokens would, and its buffer is what was
pulled of this list (`TokenStream.replays_cursor`).
-/

namespace Styling

/-- What may be asked of a stream of tokens, or of a cursor over them. -/
inductive StreamRequest where
  | next
  | consume
  | isEmpty
  | mark
  | restoreMark
  | discardMark

/-- The answer to a request: a token, or none at the end; whether none is left; that it is done, or that it is
refused since no mark is set. -/
inductive StreamAnswer where
  | token (t : Option Token)
  | isEmpty (b : Bool)
  | done
  | refused

/-- A session is its first request and then the others. -/
private theorem run_mapM_cons {σ α β : Type} {f : α → StateM σ β} {a : α} {as : List α} {b : β}
    {bs : List β} {s s₁ s₂ : σ} (hfirst : (f a).run s = (b, s₁))
    (hothers : (as.mapM f).run s₁ = (bs, s₂)) : ((a :: as).mapM f).run s = (b :: bs, s₂) := by
  rw [List.mapM_cons, StateT.run_bind, hfirst]
  show (as.mapM f >>= fun bs => pure (b :: bs)).run s₁ = _
  rw [StateT.run_bind, hothers]
  rfl

/-! ## Cursors -/

namespace Cursor

/-- The answer of a cursor, which stays as it is where a request is refused. -/
def answer (q : StreamRequest) : StateM (Cursor Token) StreamAnswer := fun c =>
  match q with
  | .next => (.token c.next?, c)
  | .consume => (.token c.consume.1, c.consume.2)
  | .isEmpty => (.isEmpty c.next?.isNone, c)
  | .mark => (.done, c.mark)
  | .restoreMark => c.restoreMark?.elim (.refused, c) (.done, ·)
  | .discardMark => c.discardMark?.elim (.refused, c) (.done, ·)

/-- The tokens from the index on, and then none as often as asked for. -/
theorem mapM_answer_consume (c : Cursor Token) (n : Nat) :
    ((List.replicate n .consume).mapM answer).run c =
      ((List.range n).map fun i => .token c.items[c.index + i]?, c.advance n) := by
  induction n generalizing c with
  | zero => rfl
  | succ n ih =>
    have hfirst : (answer .consume).run c = (.token c.items[c.index]?, c.advance 1) := rfl
    have hplaces : ∀ i, (c.advance 1).index + i = c.index + (i + 1) := by
      intro i
      rw [Nat.add_comm i 1, ← Nat.add_assoc]
      rfl
    rw [List.replicate_succ, run_mapM_cons hfirst (ih (c.advance 1)), List.range_succ_eq_map]
    simp only [List.map_cons, List.map_map, Function.comp_def, hplaces, Nat.add_zero]
    simp [advance, Nat.add_comm, Nat.add_left_comm]

/-- No mark is beyond one that was set after it, nor beyond the index. -/
def IsOrdered (c : Cursor Token) : Prop := (c.index :: c.marks).Pairwise (· ≥ ·)

theorem isOrdered_ofList (ts : List Token) : (ofList ts).IsOrdered := List.pairwise_singleton _ _

theorem IsOrdered.advance {c : Cursor Token} (h : c.IsOrdered) (n : Nat) : (c.advance n).IsOrdered := by
  obtain ⟨hindex, hmarks⟩ := List.pairwise_cons.1 h
  refine List.pairwise_cons.2 ⟨fun m hm => ?_, hmarks⟩
  exact Nat.le_trans (hindex m hm) (Nat.le_add_right c.index n)

theorem IsOrdered.mark {c : Cursor Token} (h : c.IsOrdered) : c.mark.IsOrdered := by
  refine List.pairwise_cons.2 ⟨fun m hm => ?_, h⟩
  rcases List.mem_cons.1 hm with rfl | hm
  · exact Nat.le_refl _
  · exact (List.pairwise_cons.1 h).1 m hm

end Cursor

/-! ## Streams -/

namespace TokenStream

/-- The answer of a stream, which stays as it is where a request is refused. -/
def answer (q : StreamRequest) : StateM TokenStream (Except Number.RangeError StreamAnswer) := fun s =>
  match q with
  | .next => s.next.map (Except.map .token) id
  | .consume => s.consume.map (Except.map .token) id
  | .isEmpty => s.isEmpty.map (Except.map .isEmpty) id
  | .mark => (.ok .done, s.mark)
  | .restoreMark => s.restoreMark?.elim (.ok .refused, s) (.ok .done, ·)
  | .discardMark => s.discardMark?.elim (.ok .refused, s) (.ok .done, ·)

/-- The stream is over the tokens of the cursor, with the same index and the same marks. -/
structure Follows (s : TokenStream) (c : Cursor Token) : Prop where
  isAt : s.IsAt c.items none c.index c.marks
  isOrdered : c.IsOrdered

theorem follows_ofList (ts : List Token) : (ofList ts).Follows (Cursor.ofList ts) :=
  ⟨(isOver_ofList ts).isAt, Cursor.isOrdered_ofList ts⟩

/-- A stream that follows a cursor answers as this does, and follows it from there on. -/
theorem Follows.answer {s : TokenStream} {c : Cursor Token} (h : s.Follows c) (q : StreamRequest) :
    ∃ a s' c', (answer q).run s = (.ok a, s') ∧ (Cursor.answer q).run c = (a, c') ∧
      c'.items = c.items ∧ s'.Follows c' := by
  obtain ⟨hisAt, hordered⟩ := h
  cases q with
  | next =>
    obtain ⟨s', hnext, hs', -⟩ := hisAt.next_buffered
    refine ⟨.token c.next?, s', c, ?_, rfl, rfl, hs', hordered⟩
    show s.next.map _ _ = _
    rw [hnext]
    rfl
  | consume =>
    rcases hisAt.consume with ⟨s', hconsume, hs'⟩ | ⟨e, -, he, -⟩
    · refine ⟨.token c.next?, s', c.advance 1, ?_, rfl, rfl, hs', hordered.advance 1⟩
      show s.consume.map _ _ = _
      rw [hconsume]
      rfl
    · cases he
  | isEmpty =>
    obtain ⟨s', hnext, hs', -⟩ := hisAt.next_buffered
    refine ⟨.isEmpty c.next?.isNone, s', c, ?_, rfl, rfl, hs', hordered⟩
    show s.isEmpty.map _ _ = _
    rw [TokenStream.isEmpty, hnext]
    rfl
  | mark => exact ⟨.done, s.mark, c.mark, rfl, rfl, rfl, hisAt.mark, hordered.mark⟩
  | restoreMark =>
    rcases c with ⟨items, index, _ | ⟨m, marks⟩⟩
    · refine ⟨.refused, s, ⟨items, index, []⟩, ?_, rfl, rfl, hisAt, hordered⟩
      show s.restoreMark?.elim _ _ = _
      rw [TokenStream.restoreMark?, hisAt.marks_eq]
      rfl
    · obtain ⟨hindex, hmarks⟩ := List.pairwise_cons.1 hordered
      obtain ⟨s', hrestore, hs'⟩ := hisAt.restoreMark? (hindex m List.mem_cons_self)
      refine ⟨.done, s', ⟨items, m, marks⟩, ?_, rfl, rfl, hs', hmarks⟩
      show s.restoreMark?.elim _ _ = _
      rw [hrestore]
      rfl
  | discardMark =>
    rcases c with ⟨items, index, _ | ⟨m, marks⟩⟩
    · refine ⟨.refused, s, ⟨items, index, []⟩, ?_, rfl, rfl, hisAt, hordered⟩
      show s.discardMark?.elim _ _ = _
      rw [TokenStream.discardMark?, hisAt.marks_eq]
      rfl
    · obtain ⟨s', hdiscard, hs'⟩ := hisAt.discardMark?
      refine ⟨.done, s', ⟨items, index, marks⟩, ?_, rfl, rfl, hs', ?_⟩
      · show s.discardMark?.elim _ _ = _
        rw [hdiscard]
        rfl
      · exact hordered.sublist ((List.sublist_cons_self m marks).cons_cons index)

/-- So it is with any sequence of requests. -/
theorem Follows.mapM_answer {s : TokenStream} {c : Cursor Token} (h : s.Follows c)
    (qs : List StreamRequest) :
    ∃ as s' c', (qs.mapM TokenStream.answer).run s = (as.map .ok, s') ∧
      (qs.mapM Cursor.answer).run c = (as, c') ∧ c'.items = c.items ∧ s'.Follows c' := by
  induction qs generalizing s c with
  | nil => exact ⟨[], s, c, rfl, rfl, rfl, h⟩
  | cons q qs ih =>
    obtain ⟨a, s₁, c₁, hs₁, hc₁, hitems₁, h₁⟩ := h.answer q
    obtain ⟨as, s₂, c₂, hs₂, hc₂, hitems₂, h₂⟩ := ih h₁
    exact ⟨a :: as, s₂, c₂, run_mapM_cons hs₁ hs₂, run_mapM_cons hc₁ hc₂, hitems₂.trans hitems₁, h₂⟩

/-- What is pulled of a list is its beginning, and none for every place beyond its end. -/
private theorem map_getElem?_range {α : Type} (xs : List α) (n : Nat) :
    (List.range n).map (xs[·]?) = (xs.take n).map some ++ List.replicate (n - xs.length) none := by
  refine List.ext_getElem? fun i => ?_
  simp only [List.getElem?_map, List.getElem?_append, List.length_map, List.length_take,
    List.getElem?_take, List.getElem?_replicate]
  grind

/-- A stream over a list of tokens answers any sequence of requests as a cursor over the whole list does. A mark
that was not set is refused and changes nothing. Wherever the requests lead, what is consumed from there on are the
tokens of the list in order and then none, however often; the index is within the buffer or at its end, the buffer
holds the beginning of the list and then only none, with the rest of the list not yet pulled, and the entry looked
up for the next token is there. -/
theorem replays_cursor (ts : List Token) (qs : List StreamRequest) :
    ∃ answers s c, (qs.mapM answer).run (ofList ts) = (answers.map .ok, s) ∧
      (qs.mapM Cursor.answer).run (Cursor.ofList ts) = (answers, c) ∧
      (c.items = ts ∧ s.index = c.index ∧ s.marks = c.marks) ∧
      (∀ n, (((List.replicate n .consume).mapM answer).run s).1 =
        (List.range n).map fun i => .ok (.token ts[s.index + i]?)) ∧
      s.index ≤ s.buffer.length ∧
      s.buffer = (ts.take s.buffer.length).map some ++ List.replicate (s.buffer.length - ts.length) none ∧
      s.source = ts.drop s.buffer.length ∧
      s.next.1 = .ok ts[s.index]? ∧ s.next.2.buffer[s.index]? = some ts[s.index]? := by
  obtain ⟨answers, s, c, hs, hc, rfl, hfollows⟩ := (follows_ofList ts).mapM_answer qs
  have hover := hfollows.isAt.isOver
  obtain ⟨s', hnext, -, hentry⟩ := hfollows.isAt.next_buffered
  refine ⟨answers, s, c, hs, hc, ⟨rfl, hfollows.isAt.index_eq, hfollows.isAt.marks_eq⟩, ?_,
    hover.index_le, ?_, hover.source_eq, ?_, ?_⟩
  · intro n
    obtain ⟨as, s', c', hs', hc', -, -⟩ := hfollows.mapM_answer (List.replicate n .consume)
    rw [c.mapM_answer_consume n, Prod.mk.injEq] at hc'
    rw [hs', ← hc'.1, hfollows.isAt.index_eq, List.map_map]
    rfl
  · rw [← map_getElem?_range]
    exact hover.buffer_eq
  · rw [hnext, hfollows.isAt.index_eq]
  · rw [hnext, hfollows.isAt.index_eq]
    exact hentry

/-- A mark that is set beyond the end, and gone back to. -/
example (t : Token) :
    (([.consume, .consume, .mark, .consume, .restoreMark, .isEmpty].mapM answer).run (ofList [t])).1 =
      [.token t, .token none, .done, .token none, .done, .isEmpty true].map .ok := by
  cbv

end TokenStream

end Styling
