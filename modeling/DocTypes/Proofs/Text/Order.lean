import DocTypes.Text.Utf8

set_option autoImplicit false

/-!
# Texts in order

Sorting puts texts in the order of their code points. Texts none of which occurs twice come out in
strictly ascending order.
-/

namespace DocTypes.Text

theorem atMost_iff {a b : Text} : atMost a b = true ↔ ¬ b < a := decide_eq_true_iff

theorem atMost_trans {a b c : Text} (h : atMost a b = true) (k : atMost b c = true) :
    atMost a c = true := by
  rw [atMost_iff, List.not_lt] at h k ⊢
  exact List.le_trans h k

theorem atMost_of_not_atMost {a b : Text} (h : ¬ atMost a b = true) : atMost b a = true := by
  rw [atMost_iff, List.not_lt] at h ⊢
  exact (List.le_total b a).resolve_right h

theorem lt_of_atMost {a b : Text} (h : atMost a b = true) (hn : a ≠ b) : a < b := by
  rw [atMost_iff, List.not_lt] at h
  exact (List.le_iff_lt_or_eq.1 h).resolve_right hn

theorem pairwise_insertSorted {names : List Text} (h : names.Pairwise fun a b => atMost a b = true)
    (name : Text) : (insertSorted name names).Pairwise fun a b => atMost a b = true := by
  induction names with
  | nil => exact List.pairwise_singleton ..
  | cons other more ih =>
    obtain ⟨ho, hm⟩ := List.pairwise_cons.1 h
    rw [insertSorted]
    split
    case isTrue ha =>
      exact .cons (List.forall_mem_cons.2 ⟨ha, fun later hp => atMost_trans ha (ho later hp)⟩) h
    case isFalse ha =>
      refine .cons (fun later hp => ?_) (ih hm)
      rcases List.mem_cons.1 ((insertSorted_perm name more).mem_iff.1 hp) with rfl | hp
      · exact atMost_of_not_atMost ha
      · exact ho later hp

theorem pairwise_sorted (names : List Text) :
    (sorted names).Pairwise fun a b => atMost a b = true := by
  induction names with
  | nil => exact .nil
  | cons name more ih => exact pairwise_insertSorted ih name

theorem pairwise_lt_sorted {names : List Text} (h : names.Nodup) :
    (sorted names).Pairwise (· < ·) := by
  have hn : (sorted names).Nodup := (sorted_perm names).nodup_iff.2 h
  exact ((pairwise_sorted names).and hn).imp fun hp => lt_of_atMost hp.1 hp.2

theorem mem_sorted {name : Text} {names : List Text} : name ∈ sorted names ↔ name ∈ names :=
  (sorted_perm names).mem_iff

end DocTypes.Text
