import DocTypes.Proofs.Class
import DocTypes.Proofs.Value.Equivalence
import DocTypes.Value.Container
import Mathlib.Data.List.Forall2

set_option autoImplicit false

/-!
# Equal values

Equal values are of one kind, and their parts are equal in the order in which they are stored. What
equality does not tell is the sign of a zero, and which bases a class has.
-/

namespace DocTypes.Value

mutual

/-- The classes of the objects in a value. -/
def objectClasses : Value → List Class
  | object type => [type]
  | list items => objectClassesEach items
  | tuple items => objectClassesEach items
  | set members => objectClassesEach members
  | dict entries => objectClassesEntries entries
  | _ => []
termination_by structural value => value

def objectClassesEach : List Value → List Class
  | [] => []
  | value :: more => value.objectClasses ++ objectClassesEach more
termination_by structural values => values

def objectClassesEntries : List (Value × Value) → List Class
  | [] => []
  | (key, value) :: more => key.objectClasses ++ (value.objectClasses ++ objectClassesEntries more)
termination_by structural entries => entries

end

/-- The classes of the objects in a value, with all that they derive from. -/
def classes (value : Value) : List Class := value.objectClasses.flatMap Class.ancestry

theorem closed_classes (value : Value) : Class.Closed value.classes := by
  intro c hc base hb
  obtain ⟨type, ht, hm⟩ := List.mem_flatMap.1 hc
  exact List.mem_flatMap.2 ⟨type, ht, type.closed_ancestry c hm base hb⟩

theorem objectClassesEach_subset {value : Value} {values : List Value} (h : value ∈ values) :
    ∀ c ∈ value.objectClasses, c ∈ objectClassesEach values := by
  intro c hc
  induction values with
  | nil => cases h
  | cons first more ih =>
    rcases List.mem_cons.1 h with rfl | h
    · exact List.mem_append_left _ hc
    · exact List.mem_append_right _ (ih h)

theorem objectClassesEntries_subset {entry : Value × Value} {entries : List (Value × Value)}
    (h : entry ∈ entries) : ∀ c, c ∈ entry.1.objectClasses ∨ c ∈ entry.2.objectClasses →
      c ∈ objectClassesEntries entries := by
  intro c hc
  induction entries with
  | nil => cases h
  | cons first more ih =>
    rcases List.mem_cons.1 h with rfl | h
    · rcases hc with hc | hc
      · exact List.mem_append_left _ hc
      · exact List.mem_append_right _ (List.mem_append_left _ hc)
    · exact List.mem_append_right _ (List.mem_append_right _ (ih h))

/-- A part of a value has no objects of other classes. -/
theorem classes_subset {part value : Value}
    (h : ∀ c ∈ part.objectClasses, c ∈ value.objectClasses) :
    ∀ c ∈ part.classes, c ∈ value.classes := by
  intro c hc
  obtain ⟨type, ht, hm⟩ := List.mem_flatMap.1 hc
  exact List.mem_flatMap.2 ⟨type, h type ht, hm⟩

theorem kind?_eq_of_beq {v w : Value} (h : (v == w) = true) : v.kind? = w.kind? := by
  cases v <;> cases w <;> first | rfl | cases h

theorem isStr_eq_of_beq {v w : Value} (h : (v == w) = true) (name : Text) :
    v.isStr name = w.isStr name := by
  rw [isStr_eq, isStr_eq, BEq.congr_left h]

theorem equalsEach_iff_forall₂ {as bs : List Value} :
    equalsEach as bs = true ↔ List.Forall₂ (fun a b => (a == b) = true) as bs := by
  induction as generalizing bs with
  | nil => cases bs <;> simp [equalsEach]
  | cons a as ih =>
    cases bs with
    | nil => simp [equalsEach]
    | cons b bs => rw [equalsEach, Bool.and_eq_true, ih, List.forall₂_cons, beq_eq]

theorem equalsEntries_iff_forall₂ {as bs : List (Value × Value)} :
    equalsEntries as bs = true ↔
      List.Forall₂ (fun a b => (a.1 == b.1) = true ∧ (a.2 == b.2) = true) as bs := by
  induction as generalizing bs with
  | nil => cases bs <;> simp [equalsEntries]
  | cons a as ih =>
    cases bs with
    | nil => simp [equalsEntries]
    | cons b bs =>
      rw [equalsEntries, Bool.and_eq_true, Bool.and_eq_true, ih, List.forall₂_cons, beq_eq, beq_eq]

end DocTypes.Value
