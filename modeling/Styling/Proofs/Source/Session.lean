import Styling.Proofs.Source.Reader

/-!
# Sessions with a reader

The source of a reader vends its items one at a time, and no more of them than asked for
(`Reader.pull_eq_read`). A reader that buffers such a source answers any sequence of requests as the plain
list of the items still to be vended would (`BufferedReader.session_ofList`).
-/

namespace Styling.Source

variable {α β σ : Type}

/-- What may be asked of a reader with look-ahead. -/
inductive Request (α : Type) where
  | peek (n : Nat)
  | read (n : Nat)
  | unread (items : List α)

/-- The answers to requests that are made one after the other, and the state after the last of them. -/
def session (answer : σ → Request α → β × σ) : σ → List (Request α) → List β × σ
  | s, [] => ([], s)
  | s, q :: qs =>
    let (a, s) := answer s q
    let (others, s) := session answer s qs
    (a :: others, s)

/-- The answer of a plain list, if one is due, and what the list is afterwards. -/
def answerFromList (xs : List α) : Request α → Option (List α) × List α
  | .peek n => (some (xs.take n), xs)
  | .read n => (some (xs.take n), xs.drop n)
  | .unread items => (none, items ++ xs)

/-- Sessions agree where one state stands for the other and every step keeps it so. -/
theorem map_session {τ : Type} {answer : σ → Request α → β × σ} {answer' : τ → Request α → β × τ}
    {view : σ → τ} (hstep : ∀ s q, (answer s q).map id view = answer' (view s) q) (s : σ)
    (qs : List (Request α)) : (session answer s qs).map id view = session answer' (view s) qs := by
  induction qs generalizing s with
  | nil => simp [session]
  | cons q qs ih =>
    have hfirst : (answer s q).1 = (answer' (view s) q).1 := congrArg Prod.fst (hstep s q)
    have hstate : view (answer s q).2 = (answer' (view s) q).2 := congrArg Prod.snd (hstep s q)
    have hothers := ih (answer s q).2
    rw [hstate] at hothers
    simp [session, ← hothers, hfirst]

/-! ## The source -/

namespace Reader

/-- Takes the next of the pending items until there are as many as the bound, if one is given, or there is
none left. -/
def pull (bound : Option Nat) (items : List α) : (pending : List α) → List α × Reader α
  | [] => (items, ⟨[]⟩)
  | x :: pending =>
    if bound = some items.length then (items, ⟨x :: pending⟩) else pull bound (items ++ [x]) pending

private theorem pull_none (items pending : List α) : pull none items pending = (items ++ pending, ⟨[]⟩) := by
  induction pending generalizing items with
  | nil => simp [pull]
  | cons x pending ih => simp [pull, ih]

private theorem pull_some {n : Nat} {items : List α} (h : items.length ≤ n) (pending : List α) :
    pull (some n) items pending =
      (items ++ pending.take (n - items.length), ⟨pending.drop (n - items.length)⟩) := by
  induction pending generalizing items with
  | nil => simp [pull]
  | cons x pending ih =>
    by_cases hfull : n = items.length
    · simp [pull, hfull]
    · have hroom : (items ++ [x]).length ≤ n := by
        simp only [List.length_append, List.length_singleton]
        omega
      have hmissing : n - items.length = n - (items ++ [x]).length + 1 := by
        simp only [List.length_append, List.length_singleton]
        omega
      simp [pull, hfull, ih hroom, hmissing]

/-- A batch is what is vended one item after the other. -/
theorem pull_eq_read (r : Reader α) (bound : Option Nat) : pull bound [] r.pending = r.read bound := by
  cases bound with
  | none => simp [pull_none, read]
  | some n => simp [pull_some, read]

end Reader

/-! ## The buffer -/

namespace BufferedReader

/-- The answer of a reader, if one is due, and the reader afterwards. -/
def answer (r : BufferedReader α) : Request α → Option (List α) × BufferedReader α
  | .peek n =>
    let (items, r) := r.peek n
    (some items, r)
  | .read n =>
    let (items, r) := r.read n
    (some items, r)
  | .unread items => (none, r.unread items)

/-- One request is answered from what is still to be vended, and leaves what it would leave of a list. -/
theorem map_toList_answer (r : BufferedReader α) (q : Request α) :
    (r.answer q).map id toList = answerFromList r.toList q := by
  cases q with
  | peek n => simp [answer, answerFromList, fst_peek, toList_snd_peek]
  | read n => simp [answer, answerFromList, fst_read, toList_snd_read]
  | unread items => simp [answer, answerFromList, toList_unread]

/-- A reader with look-ahead is the list of the items of its source, of which each batch is pulled one item
at a time: every sequence of requests, also of more than there is or with more put back than there was, has
the answers this list gives, and the items to be vended after it are those left of the list. -/
theorem session_ofList (xs : List α) (qs : List (Request α)) :
    (∀ (r : Reader α) (bound : Option Nat), Reader.pull bound [] r.pending = r.read bound) ∧
      (session answer (ofList xs) qs).map id toList = session answerFromList xs qs := by
  refine ⟨Reader.pull_eq_read, ?_⟩
  have hsession := map_session map_toList_answer (ofList xs) qs
  rwa [toList_ofList] at hsession

/-- Looking and putting back beyond the end. -/
example : (session answer (ofList [1, 2]) [.peek 3, .read 5, .unread [6, 7, 8], .peek 1, .read 4]).1 =
    [some [1, 2], some [1, 2], none, some [6], some [6, 7, 8]] := rfl

end BufferedReader

end Styling.Source
