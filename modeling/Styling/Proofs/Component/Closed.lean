import Styling.Proofs.Component.Arrangement

/-!
# Tokens that leave nothing open

Where every group that tokens open is closed, what comes after the tokens is arranged on its own
(`Component.ofTokens_append_of_areClosed`).
-/

namespace Styling.Component

mutual

/-- Whether a component value has its closing bracket if it is a group, and so have all groups in it. -/
def isClosed : Component → Bool
  | token _ => true
  | group _ contents closing => closing.isSome && areClosed contents

def areClosed : List Component → Bool
  | [] => true
  | c :: cs => isClosed c && areClosed cs

end

theorem areClosed_iff {cs : List Component} : areClosed cs ↔ ∀ c ∈ cs, c.isClosed := by
  induction cs with
  | nil => simp [areClosed]
  | cons c cs ih => simp [areClosed, ih]

theorem ofTokens_append_of_areClosed {ts : List Token} (us : List Token)
    (h : areClosed (ofTokens ts)) : ofTokens (ts ++ us) = ofTokens ts ++ ofTokens us := by
  refine ofTokens_append us fun head contents hlast => ?_
  have hclosed := areClosed_iff.1 h _ (List.mem_of_getLast? hlast)
  simp [isClosed] at hclosed

/-- A token that opens nothing stands alone in front of what follows it. -/
theorem ofTokens_cons_of_closer?_eq_none {t : Token} (ts : List Token) (h : t.kind.closer? = none) :
    ofTokens (t :: ts) = token t :: ofTokens ts := by
  rw [ofTokens_cons, prepend, h]
  rfl

/-- A group takes up the component values before the bracket that closes it. -/
theorem ofTokens_group {head closing : Token} {ts : List Token} (us : List Token)
    (hhead : head.kind.closer?.isSome) (hts : areClosed (ofTokens ts))
    (hopen : ∀ c ∈ ofTokens ts, ¬closes head c) (hclosing : closes head (token closing)) :
    ofTokens (head :: (ts ++ closing :: us)) =
      group head (ofTokens ts) (some closing) :: ofTokens us := by
  have hrun : ∀ c ∈ ofTokens ts, !closes head c := by simpa using hopen
  rw [ofTokens_cons_of_closer? _ hhead, ofTokens_append_of_areClosed _ hts,
    ofTokens_cons_of_closer?_eq_none us (closer?_eq_none_of_closes hclosing), enclose, splitRun,
    List.takeWhile_append_of_pos hrun, List.dropWhile_append_of_pos hrun]
  simp [hclosing]

end Styling.Component
