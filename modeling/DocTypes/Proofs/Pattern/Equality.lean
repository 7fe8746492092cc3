import DocTypes.Proofs.Pattern.Likeness
import DocTypes.Proofs.Value.Equality
import DocTypes.Proofs.Value.Members
import DocTypes.Verdict

set_option autoImplicit false

/-!
# Equal values are judged alike

Equal values may have objects of equal classes with different bases, and a pattern that asks for one
of the bases tells them apart. If equal classes have equal bases, no pattern tells equal values
apart, and so a set may keep one of several equal items.
-/

namespace DocTypes

namespace Value

/-- Equal values in which equal classes have equal bases. -/
structure Alike (v w : Value) : Prop where
  equal : (v == w) = true
  consistent : Class.Consistent (v.classes ++ w.classes)

variable {v w : Value}

/-- Parts of values that are alike are alike if they are equal. -/
theorem Alike.part (h : v.Alike w) {part other : Value} (he : (part == other) = true)
    (hv : ∀ c ∈ part.objectClasses, c ∈ v.objectClasses)
    (hw : ∀ c ∈ other.objectClasses, c ∈ w.objectClasses) : part.Alike other := by
  refine ⟨he, h.consistent.mono fun c hc => ?_⟩
  exact List.mem_append.2 ((List.mem_append.1 hc).imp (classes_subset hv c) (classes_subset hw c))

/-- The members of two lists, of equal length, are alike in pairs. -/
theorem Alike.forall₂ (h : v.Alike w) {items others : List Value}
    (he : equalsEach items others = true) (hv : v.objectClasses = objectClassesEach items)
    (hw : w.objectClasses = objectClassesEach others) : List.Forall₂ Alike items others := by
  obtain ⟨hl, hz⟩ := List.forall₂_iff_zip.1 (equalsEach_iff_forall₂.1 he)
  refine List.forall₂_iff_zip.2 ⟨hl, fun hm => ?_⟩
  obtain ⟨ha, hb⟩ := List.of_mem_zip hm
  exact h.part (hz hm) (hv ▸ objectClassesEach_subset ha) (hw ▸ objectClassesEach_subset hb)

theorem Alike.forall₂_entries {entries others : List (Value × Value)}
    (h : (dict entries).Alike (dict others)) :
    List.Forall₂ (fun entry other => entry.1.Alike other.1 ∧ entry.2.Alike other.2)
      entries others := by
  obtain ⟨hl, hz⟩ := List.forall₂_iff_zip.1 (equalsEntries_iff_forall₂.1 h.equal)
  refine List.forall₂_iff_zip.2 ⟨hl, fun hm => ?_⟩
  obtain ⟨ha, hb⟩ := List.of_mem_zip hm
  have hv := objectClassesEntries_subset ha
  have hw := objectClassesEntries_subset hb
  exact ⟨h.part (hz hm).1 (fun c hc => hv c (.inl hc)) fun c hc => hw c (.inl hc),
    h.part (hz hm).2 (fun c hc => hv c (.inr hc)) fun c hc => hw c (.inr hc)⟩

/-- The objects of two values that are alike are of the very same classes. -/
theorem Alike.derives (h : v.Alike w) (c : Class) :
    v.class?.any (·.derivesFrom c) = w.class?.any (·.derivesFrom c) := by
  have hk := kind?_eq_of_beq h.equal
  cases v with
  | object type =>
    cases w with
    | object other =>
      have ht : type ∈ (object type).classes ++ (object other).classes :=
        List.mem_append_left _ (List.mem_append_left _ type.mem_ancestry_self)
      have ho : other ∈ (object type).classes ++ (object other).classes :=
        List.mem_append_right _ (List.mem_append_left _ other.mem_ancestry_self)
      have hc := (closed_classes (object type)).append (closed_classes (object other))
      rw [h.consistent.eq_of_beq hc ht ho h.equal]
    | _ => cases hk
  | _ =>
    cases w with
    | object other => cases hk
    | _ => rfl

theorem likeness_alike : Likeness Alike where
  kind h := kind?_eq_of_beq h.equal
  derives h := h.derives
  list h := paired_of_forall₂ (h.forall₂ h.equal rfl rfl)
  tuple h := h.forall₂ h.equal rfl rfl
  set h := paired_of_forall₂ (h.forall₂ h.equal rfl rfl)
  entries h := paired_of_forall₂ h.forall₂_entries
  field h name := rel_fieldAt? (fun _ _ ha => isStr_eq_of_beq ha.equal name) h.forall₂_entries

end Value

open Value in
/-- Equal values are accepted by the same patterns if equal classes in them have equal bases. So a
set of such items accepts them all as it is made: none that is left out was the only one to offend.
-/
theorem Policy.accepts_equal (policy : Policy) :
    (∀ v w : Value, (v == w) = true → Class.Consistent (v.classes ++ w.classes) →
      ∀ pattern : Pattern, policy.accepts pattern v = policy.accepts pattern w) ∧
    ∀ items : List Value,
      (∀ v ∈ items, ∀ w ∈ items, (v == w) = true → Class.Consistent (v.classes ++ w.classes)) →
        ∀ element : Pattern, policy.accepts (.set element) (ofMembers items) = true ↔
          ∀ item ∈ items, policy.accepts element item = true := by
  have ha : ∀ v w : Value, (v == w) = true → Class.Consistent (v.classes ++ w.classes) →
      ∀ pattern : Pattern, policy.accepts pattern v = policy.accepts pattern w :=
    fun v w he hc pattern => likeness_alike.accepts_eq policy.nulls pattern v w ⟨he, hc⟩
  refine ⟨ha, fun items hc element => ?_⟩
  have hs : policy.accepts (.set element) (ofMembers items) =
      (items.foldl addMember []).all (policy.accepts element) := rfl
  have hf : ∀ {member}, member ∈ items.foldl addMember [] → member ∈ items :=
    fun hm => (mem_of_mem_foldl hm).resolve_left List.not_mem_nil
  rw [hs, List.all_eq_true]
  constructor
  · intro h item hm
    rcases foldl_covers hm [] with hk | ⟨member, hk, he⟩
    · exact h item hk
    · rw [← ha member item he (hc member (hf hk) item hm he) element]
      exact h member hk
  · intro h member hm
    exact h member (hf hm)

open Value in
/-- Two tuples that differ in the sign of a zero, with objects of one class. -/
theorem Policy.accepts_equal_of_zeros :
    let base : Class := ⟨"B".toList, []⟩
    let tuple (zero : UInt64) := Value.tuple [.float ⟨zero⟩, .object ⟨"C".toList, [base]⟩]
    let v := tuple 0
    let w := tuple 0x8000000000000000
    let pattern := Pattern.tuple [.any, .named "B".toList (.single (.ofClass base))]
    (v == w) = true ∧ Class.Consistent (v.classes ++ w.classes) ∧
      Policy.accepts {} pattern v = Policy.accepts {} pattern w ∧
      (Policy.accepts {} (.set pattern) (ofMembers [v, w]) = true ↔
        ∀ item ∈ [v, w], Policy.accepts {} pattern item = true) := by
  intro base tuple v w pattern
  have he : (v == w) = true := by decide +kernel
  have hc : Class.Consistent (v.classes ++ w.classes) := by decide +kernel
  have hi : ∀ a ∈ [v, w], ∀ b ∈ [v, w], (a == b) = true →
      Class.Consistent (a.classes ++ b.classes) := by decide +kernel
  have h := Policy.accepts_equal {}
  exact ⟨he, hc, h.1 v w he hc pattern, h.2 [v, w] hi pattern⟩

/-- Objects of equal classes with different bases are equal, and a pattern tells them apart. -/
example :
    let base : Class := ⟨"B".toList, []⟩
    let v := Value.object ⟨"C".toList, [base]⟩
    let w := Value.object ⟨"C".toList, []⟩
    let pattern := Pattern.named "B".toList (.single (.ofClass base))
    (v == w) = true ∧ Policy.accepts {} pattern v ≠ Policy.accepts {} pattern w := by
  decide +kernel

end DocTypes
