import DocTypes.Proofs.Session.Contracts
import Mathlib.Data.List.Nodup

set_option autoImplicit false

/-!
# Arguments passed by keyword

A call may pass any of its last arguments by keyword. If no two parameters have the same name, the
order of the keywords does not matter, nor do further keywords that name no parameter or one that
has its argument already: each parameter gets the value that it would get by position.
-/

namespace DocTypes

/-- The value of a keyword is found if no other is given for the name. -/
theorem Keywords.find?_eq_of_forall {keywords : Keywords} {name : Text} {value? : Option Value}
    (h : ∀ value, (name, value) ∈ keywords ↔ value? = some value) :
    keywords.find? name = value? := by
  have hf : ∀ value, keywords.find? name = some value → value? = some value := by
    intro value hv
    obtain ⟨⟨found, _⟩, hk, rfl⟩ := Option.map_eq_some_iff.1 hv
    obtain rfl : found = name := by simpa using List.find?_some hk
    exact (h _).1 (List.mem_of_find?_eq_some hk)
  cases hv : keywords.find? name with
  | some value => exact (hf value hv).symm
  | none =>
    have hn : List.find? (fun keyword => decide (keyword.1 = name)) keywords = none :=
      Option.map_eq_none_iff.1 hv
    refine (Option.eq_none_iff_forall_ne_some.2 fun value he => ?_).symm
    have hm := List.find?_eq_none.1 hn _ ((h value).2 he)
    simp at hm

namespace Contract

def names (contract : Contract) : List Text := contract.slots.map Slot.name

/-- The keywords pass the values from the `count`-th on to their parameters. They come in any order,
among keywords that name no parameter or one of the first `count`. -/
def PassedByKeyword (contract : Contract) (values : List Value) (count : Nat)
    (keywords : Keywords) : Prop :=
  ∃ extra : Keywords, keywords.Perm ((contract.names.zip values).drop count ++ extra) ∧
    ∀ keyword ∈ extra, keyword.1 ∉ contract.names ∨ keyword.1 ∈ contract.names.take count

variable {contract : Contract} {values : List Value} {count index : Nat} {keywords : Keywords}
  {name : Text}

/-- A name that comes after the first ones is not among them. -/
theorem not_mem_take_of_getElem? {names : List Text} (hn : names.Nodup)
    (h : names[index]? = some name) (hi : count ≤ index) : name ∉ names.take count := by
  intro hm
  obtain ⟨place, hp⟩ := List.mem_iff_getElem?.1 hm
  rw [List.getElem?_take] at hp
  split at hp
  case isFalse => cases hp
  case isTrue hlt =>
    have hl := (List.getElem?_eq_some_iff.1 hp).choose
    have he := (List.getElem?_inj hl hn).1 (hp.trans h.symm)
    omega

/-- The keywords give a parameter its value, and no other value. -/
theorem PassedByKeyword.mem_iff (h : contract.PassedByKeyword values count keywords)
    (hn : contract.names.Nodup) (hs : contract.names[index]? = some name) (hi : count ≤ index)
    (value : Value) : (name, value) ∈ keywords ↔ values[index]? = some value := by
  obtain ⟨extra, hp, he⟩ := h
  rw [hp.mem_iff, List.mem_append]
  constructor
  · rintro (hm | hm)
    · obtain ⟨place, hz⟩ := List.mem_iff_getElem?.1 hm
      rw [List.getElem?_drop, List.getElem?_zip_eq_some] at hz
      have hl := (List.getElem?_eq_some_iff.1 hz.1).choose
      rw [← (List.getElem?_inj hl hn).1 (hz.1.trans hs.symm)]
      exact hz.2
    · rcases he _ hm with ho | ho
      · exact absurd (List.mem_of_getElem? hs) ho
      · exact absurd ho (not_mem_take_of_getElem? hn hs hi)
  · intro hv
    refine .inl (List.mem_iff_getElem?.2 ⟨index - count, ?_⟩)
    rw [List.getElem?_drop, Nat.add_sub_cancel' hi, List.getElem?_zip_eq_some]
    exact ⟨hs, hv⟩

/-- Each parameter is given the same value by either call. -/
theorem PassedByKeyword.supplied_eq (h : contract.PassedByKeyword values count keywords)
    (hn : contract.names.Nodup) (hc : count ≤ values.length)
    (hs : contract.names[index]? = some name) :
    ((values.take count)[index]? <|> keywords.find? name) =
      (values[index]? <|> Keywords.find? [] name) := by
  have hr : (values[index]? <|> Keywords.find? [] name) = values[index]? := by
    cases values[index]? <;> rfl
  rw [hr, List.getElem?_take]
  split
  case isTrue hlt =>
    rw [List.getElem?_eq_getElem (Nat.lt_of_lt_of_le hlt hc)]
    rfl
  case isFalse hge => exact Keywords.find?_eq_of_forall (h.mem_iff hn hs (Nat.le_of_not_lt hge))

/-- The same is told, in the same order, whether the last arguments are passed by keyword or by
position, and the check answers alike in every session in which it is made. -/
theorem callNotices_passedByKeyword (hn : contract.names.Nodup) (hc : count ≤ values.length)
    (h : contract.PassedByKeyword values count keywords) :
    contract.callNotices (values.take count) keywords = contract.callNotices values [] ∧
    ∀ (session : Session) (actor handle : Nat), session.contracts[handle]? = some contract →
      session.step actor (.checkCall handle (values.take count) keywords) =
        session.step actor (.checkCall handle values []) := by
  have he : contract.callNotices (values.take count) keywords =
      contract.callNotices values [] := by
    rw [callNotices_eq, callNotices_eq]
    refine List.filterMap_congr fun entry hm => ?_
    have hs : contract.names[entry.2]? = some entry.1.name := by
      rw [names, List.getElem?_map, List.mem_zipIdx_iff_getElem?.1 hm]
      rfl
    simp only [rejection?, h.supplied_eq hn hc hs]
  refine ⟨he, fun session actor handle hh => ?_⟩
  have hk : ({ session with journal := [] } : Session).contracts[handle]? = some contract := hh
  simp only [Session.step]
  split
  · simp only [Session.act, hk, he, ← length_callNotices]
  · rfl

/-- Of three arguments the last two are passed by keyword, the third one first. A keyword for the
first parameter is given in vain, and so is one that names no parameter. -/
theorem callNotices_passedByKeyword_of_shuffled :
    let str : Declared := ⟨"str".toList, .named "str".toList (.single (.kind .str))⟩
    let contract : Contract := ⟨{}, "f".toList,
      [⟨"a".toList, some str⟩, ⟨"b".toList, some str⟩, ⟨"c".toList, some str⟩], none⟩
    let values := [Value.str "x".toList, .int 1, .bool true]
    let keywords := [("c".toList, Value.bool true), ("a".toList, .null), ("b".toList, .int 1),
      ("z".toList, .null)]
    contract.names.Nodup ∧ 1 ≤ values.length ∧ contract.PassedByKeyword values 1 keywords ∧
      (contract.callNotices values []).length = 2 ∧
      contract.callNotices (values.take 1) keywords = contract.callNotices values [] := by
  intro str contract values keywords
  have hn : contract.names.Nodup := by decide
  have hc : 1 ≤ values.length := by decide
  have hk : contract.PassedByKeyword values 1 keywords := by
    refine ⟨[("a".toList, .null), ("z".toList, .null)], ?_, List.forall_mem_cons.2
      ⟨.inr (by decide), List.forall_mem_singleton.2 (.inl (by decide))⟩⟩
    change ([("c".toList, Value.bool true), ("a".toList, .null)] ++
      ("b".toList, Value.int 1) :: [("z".toList, Value.null)]).Perm _
    exact List.perm_middle
  exact ⟨hn, hc, hk, rfl, (callNotices_passedByKeyword hn hc hk).1⟩

end Contract

end DocTypes
