import DocTypes.Proofs.Value.Parts
import DocTypes.Value.Equality

set_option autoImplicit false

/-!
# Equality is a partial equivalence

Equality of values is symmetric and transitive, and the values that are not equal to themselves are
those with a NaN in them.
-/

namespace DocTypes

theorem Binary64.equals_trans {x y z : Binary64} (h : x.equals y = true) (k : y.equals z = true) :
    x.equals z = true := by
  simp only [equals, Bool.and_eq_true, Bool.or_eq_true, beq_iff_eq] at h k ⊢
  refine ⟨⟨h.1.1, k.1.2⟩, ?_⟩
  rcases h.2 with rfl | hxy
  · exact k.2
  · rcases k.2 with rfl | hyz
    · exact .inr hxy
    · exact .inr ⟨hxy.1, hyz.2⟩

namespace Value

theorem equalsEach_comm {as : List Value} (h : ∀ a ∈ as, ∀ b, (a == b) = (b == a))
    (bs : List Value) : equalsEach as bs = equalsEach bs as := by
  induction as generalizing bs with
  | nil => cases bs <;> rfl
  | cons a as ih =>
    obtain ⟨ha, hm⟩ := List.forall_mem_cons.1 h
    cases bs with
    | nil => rfl
    | cons b bs => simp only [equalsEach, ← beq_eq, ha b, ih hm bs]

theorem equalsEntries_comm {as : List (Value × Value)}
    (h : ∀ a ∈ as, (∀ b, (a.1 == b) = (b == a.1)) ∧ ∀ b, (a.2 == b) = (b == a.2))
    (bs : List (Value × Value)) : equalsEntries as bs = equalsEntries bs as := by
  induction as generalizing bs with
  | nil => cases bs <;> rfl
  | cons a as ih =>
    obtain ⟨ha, hm⟩ := List.forall_mem_cons.1 h
    cases bs with
    | nil => rfl
    | cons b bs => simp only [equalsEntries, ← beq_eq, ha.1 b.1, ha.2 b.2, ih hm bs]

protected theorem beq_comm (v w : Value) : (v == w) = (w == v) := by
  induction v generalizing w with
  | null => cases w <;> rfl
  | bool _ | int _ | str _ | bytes _ | function _ | method _ | object _ =>
    cases w <;> simp only [beq_eq, equals, BEq.comm]
  | float x =>
    cases w <;> simp only [beq_eq, equals]
    exact x.equals_symm _
  | list items ih | tuple items ih | set items ih =>
    cases w <;> simp only [beq_eq, equals]
    exact equalsEach_comm ih _
  | dict entries ih =>
    cases w <;> simp only [beq_eq, equals]
    exact equalsEntries_comm ih _

/-- Whatever equals something that `v` equals is equal to `v`. -/
def Transits (v : Value) : Prop :=
  ∀ w u : Value, (v == w) = true → (w == u) = true → (v == u) = true

theorem equalsEach_trans {as bs cs : List Value} (h : ∀ a ∈ as, a.Transits)
    (hab : equalsEach as bs = true) (hbc : equalsEach bs cs = true) :
    equalsEach as cs = true := by
  induction as generalizing bs cs with
  | nil =>
    cases bs with
    | nil => exact hbc
    | cons b bs => cases hab
  | cons a as ih =>
    obtain ⟨ha, hm⟩ := List.forall_mem_cons.1 h
    cases bs with
    | nil => cases hab
    | cons b bs =>
      cases cs with
      | nil => cases hbc
      | cons c cs =>
        rw [equalsEach, Bool.and_eq_true] at hab hbc ⊢
        exact ⟨ha b c hab.1 hbc.1, ih hm hab.2 hbc.2⟩

theorem equalsEntries_trans {as bs cs : List (Value × Value)}
    (h : ∀ a ∈ as, a.1.Transits ∧ a.2.Transits) (hab : equalsEntries as bs = true)
    (hbc : equalsEntries bs cs = true) : equalsEntries as cs = true := by
  induction as generalizing bs cs with
  | nil =>
    cases bs with
    | nil => exact hbc
    | cons b bs => cases hab
  | cons a as ih =>
    obtain ⟨ha, hm⟩ := List.forall_mem_cons.1 h
    cases bs with
    | nil => cases hab
    | cons b bs =>
      cases cs with
      | nil => cases hbc
      | cons c cs =>
        rw [equalsEntries, Bool.and_eq_true, Bool.and_eq_true] at hab hbc ⊢
        exact ⟨⟨ha.1 b.1 c.1 hab.1.1 hbc.1.1, ha.2 b.2 c.2 hab.1.2 hbc.1.2⟩, ih hm hab.2 hbc.2⟩

theorem transits (v : Value) : v.Transits := by
  -- Only values of one kind are equal, so each equation leaves one case of the other value.
  induction v with
  | null =>
    intro w u h k
    cases w <;> simp only [beq_eq, equals, Bool.false_eq_true] at h
    exact k
  | bool _ | int _ | str _ | bytes _ | function _ | method _ =>
    intro w u h k
    cases w <;> simp only [beq_eq, equals, beq_iff_eq, Bool.false_eq_true] at h
    rwa [h]
  | float x =>
    intro w u h k
    cases w <;> simp only [beq_eq, equals, Bool.false_eq_true] at h
    cases u <;> simp only [beq_eq, equals, Bool.false_eq_true] at k
    exact Binary64.equals_trans h k
  | object type =>
    intro w u h k
    cases w <;> simp only [beq_eq, equals, Bool.false_eq_true] at h
    cases u <;> simp only [beq_eq, equals, Bool.false_eq_true] at k
    exact BEq.trans (α := Class) h k
  | list items ih | tuple items ih | set items ih =>
    intro w u h k
    cases w <;> simp only [beq_eq, equals, Bool.false_eq_true] at h
    cases u <;> simp only [beq_eq, equals, Bool.false_eq_true] at k
    exact equalsEach_trans ih h k
  | dict entries ih =>
    intro w u h k
    cases w <;> simp only [beq_eq, equals, Bool.false_eq_true] at h
    cases u <;> simp only [beq_eq, equals, Bool.false_eq_true] at k
    exact equalsEntries_trans ih h k

instance : PartialEquivBEq Value where
  symm {v w} h := by rw [Value.beq_comm, h]
  trans {v w u} h k := v.transits w u h k

def isNaN : Value → Bool
  | float x => x.isNaN
  | _ => false

/-- There is a NaN in the value, at whatever depth. -/
def hasNaN (value : Value) : Bool := value.parts.any isNaN

theorem equalsEach_self {values : List Value}
    (h : ∀ value ∈ values, (value == value) = !value.hasNaN) :
    equalsEach values values = !(partsEach values).any isNaN := by
  induction values with
  | nil => rfl
  | cons value more ih =>
    obtain ⟨hv, hm⟩ := List.forall_mem_cons.1 h
    rw [equalsEach, ← beq_eq, hv, ih hm, partsEach, List.any_append, Bool.not_or, hasNaN]

theorem equalsEntries_self {entries : List (Value × Value)}
    (h : ∀ entry ∈ entries, (entry.1 == entry.1) = (!entry.1.hasNaN) ∧
      (entry.2 == entry.2) = !entry.2.hasNaN) :
    equalsEntries entries entries = !(partsEntries entries).any isNaN := by
  induction entries with
  | nil => rfl
  | cons entry more ih =>
    obtain ⟨he, hm⟩ := List.forall_mem_cons.1 h
    rw [equalsEntries, ← beq_eq, ← beq_eq, he.1, he.2, ih hm, partsEntries, List.any_append,
      List.any_append, Bool.not_or, Bool.not_or, hasNaN, hasNaN]

/-- A value equals itself unless there is a NaN in it. -/
theorem beq_self (v : Value) : (v == v) = !v.hasNaN := by
  induction v with
  | null => rfl
  | bool _ | int _ | str _ | bytes _ | function _ | method _ | object _ =>
    simp [beq_eq, equals, hasNaN, parts, isNaN]
  | float x =>
    change x.equals x = !(x.isNaN || false)
    rw [Bool.or_false, x.equals_self]
  | list items ih | tuple items ih | set items ih => exact equalsEach_self ih
  | dict entries ih => exact equalsEntries_self ih

/-- What equals anything has no NaN in it. -/
theorem hasNaN_eq_false_of_beq {v w : Value} (h : (v == w) = true) : v.hasNaN = false := by
  have hv : (v == v) = true := BEq.trans h (BEq.symm h)
  rwa [beq_self, Bool.not_eq_true'] at hv

end Value

end DocTypes
