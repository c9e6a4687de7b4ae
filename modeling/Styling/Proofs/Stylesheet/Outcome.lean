import Mathlib.Data.List.Forall2
import Styling.Stylesheet

/-!
# Outcomes of lists

The outcomes of the elements of a list, one after another: of lists in succession, where reading breaks
off, and which reports there are up to there. Where no element breaks off, they are joined in order.
-/

namespace Styling.Outcome

variable {α β : Type} {a : Outcome α} {f : α → Outcome β} {as : List α}

theorem append_of_fault_ne_none (b : Outcome α) (h : a.fault ≠ .none) : a.append b = a := by
  obtain ⟨e, he⟩ := Option.ne_none_iff_exists'.1 h
  simp [append, he]

theorem append_of_fault_eq_none (b : Outcome α) (h : a.fault = .none) :
    a.append b = ⟨a.results ++ b.results, a.reports ++ b.reports, b.fault⟩ := by
  simp [append, h]

@[simp] theorem none_append (a : Outcome α) : none.append a = a := rfl

@[simp] theorem append_none (a : Outcome α) : a.append none = a := by
  rcases a with ⟨results, reports, fault⟩
  cases fault <;> simp [append, none]

theorem append_assoc (a b c : Outcome α) : (a.append b).append c = a.append (b.append c) := by
  cases ha : a.fault with
  | some e => simp [append, ha]
  | none => cases hb : b.fault <;> simp [append, ha, hb]

theorem fault_append (a b : Outcome α) : (a.append b).fault = a.fault.or b.fault := by
  cases ha : a.fault <;> simp [append, ha]

theorem collect_cons (f : α → Outcome β) (a : α) (as : List α) :
    collect f (a :: as) = (f a).append (collect f as) := rfl

/-- The outcomes of two lists in succession are those of the one and then those of the other. -/
theorem collect_append (f : α → Outcome β) (as bs : List α) :
    collect f (as ++ bs) = (collect f as).append (collect f bs) := by
  induction as with
  | nil => rfl
  | cons a as ih => rw [List.cons_append, collect_cons, ih, collect_cons, append_assoc]

theorem collect_singleton (f : α → Outcome β) (a : α) : collect f [a] = f a := append_none (f a)

/-! ## Where reading breaks off -/

/-- A list breaks off where the first of its elements does. -/
theorem fault_collect (f : α → Outcome β) (as : List α) :
    (collect f as).fault = as.findSome? fun a => (f a).fault := by
  induction as with
  | nil => rfl
  | cons a as ih =>
    rw [collect_cons, fault_append, ih, List.findSome?_cons]
    cases (f a).fault <;> rfl

theorem fault_collect_eq_none_iff :
    (collect f as).fault = .none ↔ ∀ a ∈ as, (f a).fault = .none := by
  rw [fault_collect, List.findSome?_eq_none_iff]

theorem fault_gather (make : List α → β) (o : Outcome α) : (o.gather make).fault = o.fault := by
  rw [gather]
  cases o.fault <;> rfl

theorem reports_gather (make : List α → β) (o : Outcome α) :
    (o.gather make).reports = o.reports := by
  rw [gather]
  cases o.fault <;> rfl

theorem gather_of_fault_eq_none {o : Outcome α} (make : List α → β) (h : o.fault = .none) :
    o.gather make = ⟨[make o.results], o.reports, .none⟩ := by
  rw [gather, h]

/-! ## What is reported -/

/-- Nothing is reported that no element reports, and the order is theirs. -/
theorem reports_collect_isPrefix (f : α → Outcome β) (as : List α) :
    (collect f as).reports <+: as.flatMap fun a => (f a).reports := by
  induction as with
  | nil => exact List.prefix_rfl
  | cons a as ih =>
    rw [collect_cons, List.flatMap_cons]
    cases ha : (f a).fault with
    | some e =>
      rw [append_of_fault_ne_none _ (by simp [ha])]
      exact List.prefix_append _ _
    | none =>
      rw [append_of_fault_eq_none _ ha]
      exact (List.prefix_append_right_inj _).2 ih

/-- Outcomes that did not break off, joined in order. -/
def join (os : List (Outcome α)) : Outcome α := ⟨os.flatMap results, os.flatMap reports, .none⟩

theorem collect_eq_join (h : (collect f as).fault = .none) : collect f as = join (as.map f) := by
  rw [fault_collect_eq_none_iff] at h
  induction as with
  | nil => rfl
  | cons a as ih =>
    obtain ⟨ha, has⟩ := List.forall_mem_cons.1 h
    rw [collect_cons, append_of_fault_eq_none _ ha, ih has]
    rfl

/-- Where each element tells whether it has a report of some kind, so do all of them together. -/
theorem exists_mem_reports_join_iff {as : List α} {os : List (Outcome β)}
    {settles : α → Outcome β → Prop} (h : List.Forall₂ settles as os) {p : Report → Prop}
    {q : α → Prop} (hq : ∀ a o, settles a o → ((∃ r ∈ o.reports, p r) ↔ q a)) :
    (∃ r ∈ (join os).reports, p r) ↔ ∃ a ∈ as, q a := by
  induction h with
  | nil => simp [join]
  | @cons a o as os ha _ ih =>
    have hjoin : (join (o :: os)).reports = o.reports ++ (join os).reports := rfl
    simp only [hjoin, List.mem_append, or_and_right, exists_or, List.mem_cons, exists_eq_left,
      hq a o ha, ih]

/-- The errors that were reported. -/
def errors (o : Outcome α) : List ParseError := o.reports.map Report.error

@[simp] theorem errors_none : (none : Outcome α).errors = [] := rfl

@[simp] theorem errors_result (a : α) : (result a).errors = [] := rfl

@[simp] theorem errors_report (r : Report) : (report r : Outcome α).errors = [r.error] := rfl

@[simp] theorem errors_broken (e : Fault) : (broken e : Outcome α).errors = [] := rfl

/-- Where elements report nothing but failures, so do all of them together. -/
theorem exists_fails_of_mem_errors_collect {fails : α → ParseError → Prop} {e : ParseError}
    (hf : ∀ a, e ∈ (f a).errors → fails a e) (h : e ∈ (collect f as).errors) :
    ∃ a ∈ as, fails a e := by
  obtain ⟨r, hr, rfl⟩ := List.mem_map.1 h
  obtain ⟨a, ha, hra⟩ := List.mem_flatMap.1 ((reports_collect_isPrefix f as).subset hr)
  exact ⟨a, ha, hf a (List.mem_map_of_mem hra)⟩

/-- Where elements report their failures and reading does not break off, all failures are reported. -/
theorem mem_errors_collect_iff {fails : α → ParseError → Prop} {e : ParseError}
    (h : (collect f as).fault = .none) (hf : ∀ a ∈ as, e ∈ (f a).errors ↔ fails a e) :
    e ∈ (collect f as).errors ↔ ∃ a ∈ as, fails a e := by
  rw [collect_eq_join h, errors, join, List.map_flatMap, List.flatMap_map, List.mem_flatMap]
  exact exists_congr fun a => and_congr_right (hf a)

end Styling.Outcome
