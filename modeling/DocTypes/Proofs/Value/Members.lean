import DocTypes.Value.Container

set_option autoImplicit false

/-!
# Members of a set

Every member of a set is one of the items that were put in, and every item is a member or equal to
one.
-/

namespace DocTypes.Value

variable {items members : List Value} {item member : Value}

theorem mem_addMember (h : member ∈ addMember members item) :
    member ∈ members ∨ member = item := by
  unfold addMember at h
  split at h
  · exact .inl h
  · exact (List.mem_append.1 h).imp_right List.mem_singleton.1

theorem subset_addMember (h : member ∈ members) : member ∈ addMember members item := by
  unfold addMember
  split
  · exact h
  · exact List.mem_append_left _ h

theorem addMember_covers (members : List Value) (item : Value) :
    item ∈ addMember members item ∨ ∃ member ∈ addMember members item, (member == item) = true := by
  unfold addMember
  split
  case isTrue h => exact .inr (List.any_eq_true.1 h)
  case isFalse => exact .inl (List.mem_append_right _ (List.mem_singleton_self item))

theorem mem_of_mem_foldl (h : member ∈ items.foldl addMember members) :
    member ∈ members ∨ member ∈ items := by
  induction items generalizing members with
  | nil => exact .inl h
  | cons item more ih =>
    rcases ih h with hm | hm
    · refine (mem_addMember hm).imp_right ?_
      rintro rfl
      exact List.mem_cons_self ..
    · exact .inr (List.mem_cons_of_mem _ hm)

theorem subset_foldl (h : member ∈ members) : member ∈ items.foldl addMember members := by
  induction items generalizing members with
  | nil => exact h
  | cons item more ih => exact ih (subset_addMember h)

theorem foldl_covers (h : item ∈ items) (members : List Value) :
    item ∈ items.foldl addMember members ∨
      ∃ member ∈ items.foldl addMember members, (member == item) = true := by
  induction items generalizing members with
  | nil => cases h
  | cons first more ih =>
    rw [List.foldl_cons]
    rcases List.mem_cons.1 h with rfl | h
    · rcases addMember_covers members item with hm | ⟨member, hm, he⟩
      · exact .inl (subset_foldl hm)
      · exact .inr ⟨member, subset_foldl hm, he⟩
    · exact ih h _

end DocTypes.Value
