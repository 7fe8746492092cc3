import Mathlib.Data.List.Basic
import Mathlib.Data.List.Induction

set_option autoImplicit false

/-!
# Lists without repeats

Leaving out what is equal to something before it keeps an item exactly when it is the first of its
kind, so that an item that comes last is kept unless it was there before.
-/

namespace DocTypes

section Distinct

variable {α : Type} [BEq α] [EquivBEq α]

theorem any_filter_ne {a b : α} (h : (b == a) = false) (items : List α) :
    (items.filter fun item => !item == a).any (· == b) = items.any (· == b) := by
  rw [List.any_filter]
  refine congrArg _ (funext fun item => ?_)
  cases hb : item == b with
  | false => rw [Bool.and_false]
  | true =>
    have ha : (item == a) = false := by rw [BEq.congr_left hb, h]
    rw [ha]
    rfl

/-- A last item counts unless an equal one stands before it. -/
theorem eraseDups_concat (items : List α) (b : α) :
    (items ++ [b]).eraseDups =
      if items.any (· == b) then items.eraseDups else items.eraseDups ++ [b] := by
  match items with
  | [] => simp [List.eraseDups_cons]
  | a :: more =>
    have hl := List.length_filter_le (fun item => !item == a) more
    have ih := eraseDups_concat (more.filter fun item => !item == a) b
    rw [List.cons_append, List.eraseDups_cons, List.filter_append, List.eraseDups_cons,
      List.any_cons]
    cases hb : b == a with
    | true =>
      have ha : (a == b) = true := BEq.symm hb
      simp [hb, ha]
    | false =>
      have ha : (a == b) = false := by rw [BEq.comm, hb]
      rw [ha, Bool.false_or, ← any_filter_ne hb]
      have hs : [b].filter (fun item => !item == a) = [b] := by simp [hb]
      rw [hs, ih]
      split <;> rfl
termination_by items.length

omit [EquivBEq α] in
theorem eraseDups_eq_nil_iff {items : List α} : items.eraseDups = [] ↔ items = [] := by
  cases items with
  | nil => exact iff_of_true rfl rfl
  | cons a more => simp [List.eraseDups_cons]

end Distinct

section Firsts

variable {α : Type} [BEq α]

/-- The items to which no item before them is equal, in order. -/
def firsts (items : List α) : List α :=
  (List.range items.length).filterMap fun place =>
    items[place]?.filter fun item => !(items.take place).any (· == item)

theorem firsts_concat (items : List α) (b : α) :
    firsts (items ++ [b]) =
      if items.any (· == b) then firsts items else firsts items ++ [b] := by
  have hp : (List.range items.length).filterMap (fun place =>
      (items ++ [b])[place]?.filter fun item => !((items ++ [b]).take place).any (· == item)) =
      firsts items := by
    refine List.filterMap_congr fun place hm => ?_
    have hl := List.mem_range.1 hm
    rw [List.getElem?_append_left hl, List.take_append_of_le_length (Nat.le_of_lt hl)]
  have hl : [items.length].filterMap (fun place =>
      (items ++ [b])[place]?.filter fun item => !((items ++ [b]).take place).any (· == item)) =
      if items.any (· == b) then [] else [b] := by
    rw [List.filterMap_cons, List.getElem?_concat_length, List.take_left, Option.filter_some]
    cases items.any (· == b) <;> rfl
  rw [firsts, List.length_append, List.length_singleton, List.range_succ, List.filterMap_append,
    hp, hl]
  split
  · exact List.append_nil _
  · rfl

theorem firsts_sublist (items : List α) : (firsts items).Sublist items := by
  induction items using List.reverseRecOn with
  | nil => exact List.Sublist.refl _
  | append_singleton items b ih =>
    rw [firsts_concat]
    split
    case isTrue => exact ih.trans (List.sublist_append_left ..)
    case isFalse => exact ih.append (List.Sublist.refl _)

/-- None of them is equal to one that comes after it. -/
theorem pairwise_firsts (items : List α) : (firsts items).Pairwise fun a b => (a == b) = false := by
  induction items using List.reverseRecOn with
  | nil => exact .nil
  | append_singleton items b ih =>
    rw [firsts_concat]
    split
    case isTrue => exact ih
    case isFalse h =>
      refine List.pairwise_append.2 ⟨ih, List.pairwise_singleton .., fun a ha c hc => ?_⟩
      rw [List.mem_singleton.1 hc]
      exact Bool.eq_false_iff.2 fun he =>
        h (List.any_eq_true.2 ⟨a, (firsts_sublist items).mem ha, he⟩)

theorem firsts_of_pairwise {items : List α} (h : items.Pairwise fun a b => (a == b) = false) :
    firsts items = items := by
  induction items using List.reverseRecOn with
  | nil => rfl
  | append_singleton items b ih =>
    obtain ⟨he, -, hl⟩ := List.pairwise_append.1 h
    have hb : items.any (· == b) = false := by
      refine List.any_eq_false.2 fun a ha => ?_
      rw [hl a ha b (List.mem_singleton_self b)]
      exact Bool.false_ne_true
    rw [firsts_concat, hb, ih he]
    rfl

variable [PartialEquivBEq α]

/-- Equal items have one first among them. -/
theorem countP_firsts (items : List α) (a : α) :
    (firsts items).countP (· == a) = if items.any (· == a) then 1 else 0 := by
  induction items using List.reverseRecOn with
  | nil => rfl
  | append_singleton items b ih =>
    rw [firsts_concat, List.any_append]
    cases hb : b == a with
    | false => split <;> simp [hb, ih]
    | true =>
      have he : (fun item : α => item == b) = (· == a) := funext fun _ => BEq.congr_right hb
      rw [he]
      cases hi : items.any (· == a) <;> simp [hb, hi, ih]

theorem any_firsts (items : List α) (a : α) :
    (firsts items).any (· == a) = items.any (· == a) := by
  have hc := countP_firsts items a
  rw [Bool.eq_iff_iff, List.any_eq_true, ← List.countP_pos_iff, hc]
  cases items.any (· == a) <;> decide

/-- What does not equal itself equals nothing, so that no occurrence of it is left out. -/
theorem filter_unequal_firsts (items : List α) :
    (firsts items).filter (fun item => !item == item) = items.filter fun item => !item == item := by
  induction items using List.reverseRecOn with
  | nil => rfl
  | append_singleton items b ih =>
    rw [firsts_concat, List.filter_append]
    split
    case isTrue h =>
      obtain ⟨a, -, hab⟩ := List.any_eq_true.1 h
      have hb : (b == b) = true := BEq.trans (BEq.symm hab) hab
      simp [hb, ih]
    case isFalse => rw [List.filter_append, ih]

end Firsts

end DocTypes
