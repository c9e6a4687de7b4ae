import Styling.Source.Reader

/-!
# What a reader still has to vend

Looking ahead changes nothing of what a buffered reader still has to vend, reading takes from its
front, and what is put back stands in front of it.
-/

namespace Styling.Source.BufferedReader

variable {α : Type}

theorem toList_ofList (xs : List α) : (ofList xs).toList = xs := rfl

theorem toList_fill (r : BufferedReader α) (n : Nat) : (r.fill n).toList = r.toList := by
  unfold fill
  split
  · show (r.buffer ++ r.source.pending.take _) ++ r.source.pending.drop _ = _
    rw [List.append_assoc, List.take_append_drop, toList]
  · rfl

theorem take_buffer_fill (r : BufferedReader α) (n : Nat) :
    (r.fill n).buffer.take n = r.toList.take n := by
  unfold fill
  split
  · rename_i h
    show (r.buffer ++ r.source.pending.take _).take n = _
    rw [toList, List.take_append, List.take_append, List.take_take, Nat.min_self]
  · rename_i h
    rw [toList, List.take_append_of_le_length (Nat.le_of_not_lt h)]

theorem fst_peek (r : BufferedReader α) (n : Nat) : (r.peek n).1 = r.toList.take n :=
  take_buffer_fill r n

theorem toList_snd_peek (r : BufferedReader α) (n : Nat) : (r.peek n).2.toList = r.toList :=
  toList_fill r n

theorem fst_read (r : BufferedReader α) (n : Nat) : (r.read n).1 = r.toList.take n :=
  take_buffer_fill r n

/-- The buffer is filled, unless the source has nothing more to vend. -/
private theorem fill_cases (r : BufferedReader α) (n : Nat) :
    n ≤ (r.fill n).buffer.length ∨ (r.fill n).source.pending = [] := by
  unfold fill
  split
  · show n ≤ (r.buffer ++ r.source.pending.take _).length ∨ r.source.pending.drop _ = []
    rw [List.length_append, List.length_take, List.drop_eq_nil_iff]
    omega
  · rename_i h
    exact .inl (Nat.le_of_not_lt h)

theorem toList_snd_read (r : BufferedReader α) (n : Nat) :
    (r.read n).2.toList = r.toList.drop n := by
  show (r.fill n).buffer.drop n ++ (r.fill n).source.pending = _
  rw [← toList_fill r n, toList, List.drop_append]
  rcases fill_cases r n with hfull | hnone
  · rw [Nat.sub_eq_zero_of_le hfull, List.drop_zero]
  · rw [hnone, List.drop_nil]

theorem toList_unread (r : BufferedReader α) (items : List α) :
    (r.unread items).toList = items ++ r.toList :=
  List.append_assoc items r.buffer r.source.pending

end Styling.Source.BufferedReader
