import DocTypes.Proofs.Distinct
import DocTypes.Proofs.Value.Equivalence
import DocTypes.Value.Container

set_option autoImplicit false

/-!
# The first one wins

A set that is made from items keeps those to which no item before them is equal. Since equality is a
partial equivalence, one member is kept for all the items that are equal to it, and an item with a
NaN in it, which equals nothing, is kept each time.
-/

namespace DocTypes.Value

theorem foldl_addMember (items : List Value) : items.foldl addMember [] = firsts items := by
  induction items using List.reverseRecOn with
  | nil => rfl
  | append_singleton items item ih =>
    rw [List.foldl_append, ih, firsts_concat, ← any_firsts]
    rfl

theorem ofMembers_eq (items : List Value) : ofMembers items = set (firsts items) :=
  congrArg set (foldl_addMember items)

theorem filter_hasNaN_firsts (items : List Value) :
    (firsts items).filter hasNaN = items.filter hasNaN := by
  have hn : hasNaN = fun item : Value => !item == item := by
    funext item
    rw [beq_self, Bool.not_not]
  rw [hn, filter_unequal_firsts]

theorem countP_firsts_eq_one {items : List Value} {item : Value} (h : item ∈ items)
    (hn : item.hasNaN = false) : (firsts items).countP (· == item) = 1 := by
  have hs : (item == item) = true := by rw [beq_self, hn, Bool.not_false]
  have ha : items.any (· == item) = true := List.any_eq_true.2 ⟨item, h, hs⟩
  rw [countP_firsts, if_pos ha]

/-- What a set holds that is made from items. -/
structure HoldsFirsts (items members : List Value) : Prop where
  members_eq : members = firsts items
  sublist : members.Sublist items
  apart : members.Pairwise fun member later => (member == later) = false
  once (item : Value) (h : item ∈ items) (hn : item.hasNaN = false) :
    members.countP (· == item) = 1
  withNaN : members.filter hasNaN = items.filter hasNaN
  again : ofMembers members = set members

theorem holdsFirsts_firsts (items : List Value) : HoldsFirsts items (firsts items) where
  members_eq := rfl
  sublist := firsts_sublist items
  apart := pairwise_firsts items
  once _ h hn := countP_firsts_eq_one h hn
  withNaN := filter_hasNaN_firsts items
  again := by rw [ofMembers_eq, firsts_of_pairwise (pairwise_firsts items)]

/-- Equality is symmetric and transitive, and the values that equal themselves are those without a
NaN in them. A set therefore holds the first one of equal items, and every item with a NaN. -/
theorem holdsFirsts_ofMembers :
    (∀ v w : Value, (v == w) = (w == v)) ∧
    (∀ v w u : Value, (v == w) = true → (w == u) = true → (v == u) = true) ∧
    (∀ v : Value, (v == v) = true ↔ v.hasNaN = false) ∧
    ∀ items : List Value, ∃ members, ofMembers items = set members ∧ HoldsFirsts items members := by
  refine ⟨Value.beq_comm, transits, fun v => ?_, fun items => ?_⟩
  · rw [beq_self, Bool.not_eq_true']
  · exact ⟨firsts items, ofMembers_eq items, holdsFirsts_firsts items⟩

/-- Dicts with a zero for their key are equal whatever its sign. One with a NaN for its key is kept
twice. -/
theorem holdsFirsts_ofMembers_of_keys :
    let keyed (bits : UInt64) := dict [(tuple [float ⟨bits⟩], list [null])]
    let zero := keyed 0
    let minus := keyed 0x8000000000000000
    let nan := keyed 0x7FF8000000000000
    let items := [minus, nan, zero, nan, minus]
    (minus == zero) = true ∧ (zero == minus) = true ∧ (minus == minus) = true ∧
      nan.hasNaN = true ∧ ¬ (nan == nan) = true ∧ zero.hasNaN = false ∧
      ∃ members, ofMembers items = set members ∧ members.countP (· == zero) = 1 ∧
        members.filter hasNaN = [nan, nan] ∧ members = [minus, nan, nan] := by
  intro keyed zero minus nan items
  obtain ⟨hs, ht, hn, hm⟩ := holdsFirsts_ofMembers
  have he : (minus == zero) = true := by decide +kernel
  have hk : nan.hasNaN = true := by decide +kernel
  have hz : zero.hasNaN = false := by decide +kernel
  have he' : (zero == minus) = true := (hs zero minus).trans he
  obtain ⟨members, ho, hf⟩ := hm items
  refine ⟨he, he', ht minus zero minus he he', hk, ?_, hz, members, ho, ?_, ?_, ?_⟩
  · rw [hn nan, hk]
    exact Bool.noConfusion
  · exact hf.once zero (by simp [items]) hz
  · rw [hf.withNaN]
    rfl
  · rw [hf.members_eq]
    rfl

end DocTypes.Value
