import DocTypes.Proofs.Pattern.Likeness
import DocTypes.Proofs.Value.Entries
import DocTypes.Proofs.Value.Parts
import DocTypes.Verdict
import Mathlib.Data.List.Find
import Mathlib.Data.List.Pairwise

set_option autoImplicit false

/-!
# The order in which sets and dicts are stored

Reordering the members of sets and the entries of dicts, at whatever depth, makes a value that is in
general not equal, but no pattern tells the two apart. For a record this needs that no dict has two
entries for one string, which the making of a dict sees to.
-/

namespace DocTypes

namespace Value

mutual

/-- The same value but for the order of members of sets and of entries of dicts. -/
inductive Reordered : Value → Value → Prop where
  | refl (value : Value) : Reordered value value
  | list {items others : List Value} (h : List.Forall₂ Reordered items others) :
    Reordered (list items) (list others)
  | tuple {items others : List Value} (h : List.Forall₂ Reordered items others) :
    Reordered (tuple items) (tuple others)
  | set {members between others : List Value} (hp : members.Perm between)
    (h : List.Forall₂ Reordered between others) : Reordered (set members) (set others)
  | dict {entries between others : List (Value × Value)} (hp : entries.Perm between)
    (h : List.Forall₂ ReorderedEntry between others) : Reordered (dict entries) (dict others)

inductive ReorderedEntry : Value × Value → Value × Value → Prop where
  | entry {k l v w : Value} (hk : Reordered k l) (hv : Reordered v w) :
    ReorderedEntry (k, v) (l, w)

end

def string? : Value → Option Text
  | str s => some s
  | _ => none

/-- The strings that are keys of a dict. -/
def fieldNames : Value → List Text
  | dict entries => entries.filterMap (·.1.string?)
  | _ => []

/-- No dict in the value, at whatever depth, has two entries for one string. -/
def FieldsApart (value : Value) : Prop := ∀ part ∈ value.parts, part.fieldNames.Nodup

instance (value : Value) : Decidable value.FieldsApart :=
  inferInstanceAs (Decidable (∀ part ∈ value.parts, _))

variable {v w : Value} {items others members : List Value} {entries : List (Value × Value)}

theorem FieldsApart.of_parts (h : v.FieldsApart) (hs : ∀ part ∈ w.parts, part ∈ v.parts) :
    w.FieldsApart := fun part hp => h part (hs part hp)

theorem FieldsApart.of_mem {container : Value} (h : container.FieldsApart)
    (hc : container.parts = container :: partsEach items) : ∀ item ∈ items, item.FieldsApart :=
  fun _ hm => h.of_parts (parts_subset_of_mem hc hm)

theorem FieldsApart.of_mem_entries (h : (dict entries).FieldsApart) :
    ∀ entry ∈ entries, entry.1.FieldsApart ∧ entry.2.FieldsApart :=
  fun _ hm => ⟨h.of_parts fun part hp => parts_subset_of_mem_entries hm part (.inl hp),
    h.of_parts fun part hp => parts_subset_of_mem_entries hm part (.inr hp)⟩

theorem string?_eq_some_iff {name : Text} : v.string? = some name ↔ v = str name := by
  cases v <;> simp [string?]

theorem isStr_iff {name : Text} : v.isStr name = true ↔ v.string? = some name := by
  cases v <;> simp [isStr, string?]

/-- With one entry for a string at most, it does not matter where the entry stands. -/
theorem fieldAt?_eq_of_perm {others : List (Value × Value)} (hp : entries.Perm others)
    (hn : (dict entries).fieldNames.Nodup) (name : Text) :
    fieldAt? entries name = fieldAt? others name := by
  have hs : Std.Symm fun entry other : Value × Value => ∀ a, entry.1.string? = some a →
      ∀ b, other.1.string? = some b → a ≠ b := ⟨fun _ _ h a ha b hb => (h b hb a ha).symm⟩
  have ha := List.pairwise_filterMap.1 hn
  refine congrArg (Option.map Prod.snd) (List.find?_eq_find?_of_perm hp ?_)
  -- Two entries that both have the string for a key are one.
  rintro entry ⟨hm, he⟩ other ⟨hm', ho⟩
  by_contra hne
  exact ha.forall hm hm' hne name (isStr_iff.1 he) name (isStr_iff.1 ho) rfl

/-- The strings of a dict that is made from entries are all different. -/
theorem nodup_fieldNames_ofEntries (entries : List (Value × Value)) :
    (ofEntries entries).fieldNames.Nodup := by
  refine (keysApart_keptEntries entries).filterMap _ fun entry later h a ha b hb => ?_
  rintro rfl
  rw [string?_eq_some_iff.1 ha, string?_eq_some_iff.1 hb, beq_self] at h
  cases h

theorem Reordered.isStr_eq (h : v.Reordered w) (name : Text) : v.isStr name = w.isStr name := by
  cases h <;> rfl

theorem Reordered.of_list (h : Reordered (.list items) (.list others)) :
    List.Forall₂ Reordered items others := by
  cases h with
  | refl => exact List.forall₂_same.2 fun item _ => .refl item
  | list h => exact h

theorem Reordered.of_tuple (h : Reordered (.tuple items) (.tuple others)) :
    List.Forall₂ Reordered items others := by
  cases h with
  | refl => exact List.forall₂_same.2 fun item _ => .refl item
  | tuple h => exact h

theorem Reordered.of_set (h : Reordered (.set members) (.set others)) :
    ∃ between, members.Perm between ∧ List.Forall₂ Reordered between others := by
  cases h with
  | refl => exact ⟨_, .refl _, List.forall₂_same.2 fun member _ => .refl member⟩
  | set hp h => exact ⟨_, hp, h⟩

theorem Reordered.of_dict {others : List (Value × Value)}
    (h : Reordered (.dict entries) (.dict others)) :
    ∃ between, entries.Perm between ∧ List.Forall₂ ReorderedEntry between others := by
  cases h with
  | refl =>
    exact ⟨_, .refl _, List.forall₂_same.2 fun _ _ => .entry (.refl _) (.refl _)⟩
  | dict hp h => exact ⟨_, hp, h⟩

/-- Such values, with no string twice in a dict of the first. -/
def Shuffled (v w : Value) : Prop := v.FieldsApart ∧ v.Reordered w

theorem forall₂_shuffled (ha : ∀ item ∈ items, item.FieldsApart)
    (h : List.Forall₂ Reordered items others) : List.Forall₂ Shuffled items others :=
  (List.forall₂_and_left _ _).2 ⟨ha, h⟩

theorem forall₂_shuffled_entries {others : List (Value × Value)}
    (ha : ∀ entry ∈ entries, entry.1.FieldsApart ∧ entry.2.FieldsApart)
    (h : List.Forall₂ ReorderedEntry entries others) :
    List.Forall₂ (fun entry other => entry.1.Shuffled other.1 ∧ entry.2.Shuffled other.2)
      entries others := by
  refine ((List.forall₂_and_left _ _).2 ⟨ha, h⟩).imp ?_
  rintro _ _ ⟨⟨hk, hv⟩, ⟨rk, rv⟩⟩
  exact ⟨⟨hk, rk⟩, hv, rv⟩

theorem Shuffled.forall₂_entries {others : List (Value × Value)}
    (h : (dict entries).Shuffled (dict others)) :
    ∃ between, entries.Perm between ∧ List.Forall₂ (fun entry other =>
      entry.1.Shuffled other.1 ∧ entry.2.Shuffled other.2) between others := by
  obtain ⟨between, hp, hr⟩ := h.2.of_dict
  refine ⟨between, hp, forall₂_shuffled_entries (fun entry hm => ?_) hr⟩
  exact h.1.of_mem_entries entry (hp.mem_iff.2 hm)

theorem likeness_shuffled : Likeness Shuffled where
  kind h := by cases h.2 <;> rfl
  derives h c := by cases h.2 <;> rfl
  list h := paired_of_forall₂ (forall₂_shuffled (h.1.of_mem rfl) h.2.of_list)
  tuple h := forall₂_shuffled (h.1.of_mem rfl) h.2.of_tuple
  set h := by
    obtain ⟨between, hp, hr⟩ := h.2.of_set
    refine (paired_of_forall₂ (forall₂_shuffled (fun member hm => ?_) hr)).of_perm hp
    exact h.1.of_mem rfl member (hp.mem_iff.2 hm)
  entries h := by
    obtain ⟨between, hp, hr⟩ := h.forall₂_entries
    exact (paired_of_forall₂ hr).of_perm hp
  field h name := by
    obtain ⟨between, hp, hr⟩ := h.forall₂_entries
    rw [fieldAt?_eq_of_perm hp (h.1 _ (mem_parts_self _)) name]
    exact rel_fieldAt? (fun _ _ hs => hs.2.isStr_eq name) hr

end Value

open Value in
/-- No pattern tells apart values that differ in the order of set members and dict entries, though
they need not be equal, if no dict has two entries for one string. A dict that is made from entries
never has. -/
theorem Policy.accepts_reordered (policy : Policy) :
    (∀ v w : Value, v.Reordered w → v.FieldsApart →
      ∀ pattern : Pattern, policy.accepts pattern v = policy.accepts pattern w) ∧
    (∃ v w : Value, v.Reordered w ∧ v.FieldsApart ∧ (v == w) = false) ∧
    ∀ entries : List (Value × Value), (ofEntries entries).fieldNames.Nodup := by
  refine ⟨fun v w hr ha pattern => ?_, ?_, nodup_fieldNames_ofEntries⟩
  · exact likeness_shuffled.accepts_eq policy.nulls pattern v w ⟨ha, hr⟩
  · refine ⟨set [null, bool true], set [bool true, null], ?_, by decide, rfl⟩
    exact .set (.swap ..) (.cons (.refl _) (.cons (.refl _) .nil))

open Value in
/-- A set under a string, and a set in a key beside dicts in a list, all of them reordered. -/
theorem Policy.accepts_reordered_of_nested :
    let a := str "a".toList
    let b := str "b".toList
    let v := dict [(a, set [null, a]), (tuple [set [a, b]], list [dict [(a, null), (b, a)]])]
    let w := dict [(tuple [set [b, a]], list [dict [(b, a), (a, null)]]), (a, set [a, null])]
    let pattern := Pattern.record [("a".toList, .set (.named "str".toList (.single (.kind .str))))]
    v.Reordered w ∧ v.FieldsApart ∧
      Policy.accepts { nulls := true } pattern v = Policy.accepts { nulls := true } pattern w := by
  intro a b v w pattern
  have hs : Reordered (set [null, a]) (set [a, null]) :=
    .set (.swap ..) (.cons (.refl _) (.cons (.refl _) .nil))
  have hk : Reordered (tuple [set [a, b]]) (tuple [set [b, a]]) :=
    .tuple (.cons (.set (.swap ..) (.cons (.refl _) (.cons (.refl _) .nil))) .nil)
  have hd : Reordered (list [dict [(a, null), (b, a)]]) (list [dict [(b, a), (a, null)]]) :=
    .list (.cons (.dict (.swap ..)
      (.cons (.entry (.refl _) (.refl _)) (.cons (.entry (.refl _) (.refl _)) .nil))) .nil)
  have hr : v.Reordered w :=
    .dict (.swap ..) (.cons (.entry hk hd) (.cons (.entry (.refl _) hs) .nil))
  have ha : v.FieldsApart := by decide
  exact ⟨hr, ha, (Policy.accepts_reordered { nulls := true }).1 v w hr ha pattern⟩

end DocTypes
