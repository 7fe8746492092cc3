import DocTypes.Value

set_option autoImplicit false

/-!
# What is in a value

The parts of a value are the value itself and, at whatever depth, the items, members, keys and
values that its containers hold.
-/

namespace DocTypes.Value

mutual

def parts : Value → List Value
  | list items => list items :: partsEach items
  | tuple items => tuple items :: partsEach items
  | set members => set members :: partsEach members
  | dict entries => dict entries :: partsEntries entries
  | value => [value]
termination_by structural value => value

def partsEach : List Value → List Value
  | [] => []
  | value :: more => value.parts ++ partsEach more
termination_by structural values => values

def partsEntries : List (Value × Value) → List Value
  | [] => []
  | (key, value) :: more => (key.parts ++ value.parts) ++ partsEntries more
termination_by structural entries => entries

end

theorem partsEach_eq_flatMap (values : List Value) : partsEach values = values.flatMap parts := by
  induction values with
  | nil => rfl
  | cons value more ih => simp [partsEach, ih]

theorem partsEntries_eq_flatMap (entries : List (Value × Value)) :
    partsEntries entries = entries.flatMap fun entry => entry.1.parts ++ entry.2.parts := by
  induction entries with
  | nil => rfl
  | cons entry more ih => simp [partsEntries, ih]

theorem mem_parts_self (value : Value) : value ∈ value.parts := by
  cases value <;> simp [parts]

theorem mem_partsEach {part : Value} {values : List Value} :
    part ∈ partsEach values ↔ ∃ value ∈ values, part ∈ value.parts := by
  rw [partsEach_eq_flatMap, List.mem_flatMap]

theorem mem_partsEntries {part : Value} {entries : List (Value × Value)} :
    part ∈ partsEntries entries ↔
      ∃ entry ∈ entries, part ∈ entry.1.parts ∨ part ∈ entry.2.parts := by
  simp only [partsEntries_eq_flatMap, List.mem_flatMap, List.mem_append]

theorem parts_subset_of_mem {container item : Value} {items : List Value}
    (hc : container.parts = container :: partsEach items) (h : item ∈ items) :
    ∀ part ∈ item.parts, part ∈ container.parts := by
  intro part hp
  rw [hc]
  exact List.mem_cons_of_mem _ (mem_partsEach.2 ⟨item, h, hp⟩)

theorem parts_subset_of_mem_entries {entry : Value × Value} {entries : List (Value × Value)}
    (h : entry ∈ entries) : ∀ part, part ∈ entry.1.parts ∨ part ∈ entry.2.parts →
      part ∈ (dict entries).parts :=
  fun _ hp => List.mem_cons_of_mem _ (mem_partsEntries.2 ⟨entry, h, hp⟩)

end DocTypes.Value
