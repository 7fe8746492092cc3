import DocTypes.Proofs.Pattern.Agreement
import DocTypes.Verdict

set_option autoImplicit false

/-!
# Parts in place of parts

Replacing parts of a pattern, at whatever depth, by others that accept the same values does not
change what the pattern accepts. Nothing said about a value, a name that denotes nothing and a name
for the type of all objects are such parts: they differ in how they are judged, not in what they
accept.
-/

namespace DocTypes

namespace Pattern

mutual

/-- The same pattern but for parts in whose place there are others that `R` relates to them. -/
inductive Replaced (R : Pattern → Pattern → Prop) : Pattern → Pattern → Prop where
  | refl (p : Pattern) : Replaced R p p
  | here {p q : Pattern} (h : R p q) : Replaced R p q
  | union {ps qs : List Pattern} (h : List.Forall₂ (Replaced R) ps qs) :
    Replaced R (.union ps) (.union qs)
  | list {p q : Pattern} (h : Replaced R p q) : Replaced R (.list p) (.list q)
  | tuple {ps qs : List Pattern} (h : List.Forall₂ (Replaced R) ps qs) :
    Replaced R (.tuple ps) (.tuple qs)
  | set {p q : Pattern} (h : Replaced R p q) : Replaced R (.set p) (.set q)
  | map {k l v w : Pattern} (hk : Replaced R k l) (hv : Replaced R v w) :
    Replaced R (.map k v) (.map l w)
  | record {fields others : List (Text × Pattern)}
    (h : List.Forall₂ (ReplacedField R) fields others) :
    Replaced R (.record fields) (.record others)

inductive ReplacedField (R : Pattern → Pattern → Prop) :
    Text × Pattern → Text × Pattern → Prop where
  | field (name : Text) {p q : Pattern} (h : Replaced R p q) :
    ReplacedField R (name, p) (name, q)

end

variable {R S : Pattern → Pattern → Prop}

theorem forall₂_of_replaced {ps qs : List Pattern}
    (hp : ∀ p ∈ ps, ∀ q, Replaced R p q → S p q) (h : List.Forall₂ (Replaced R) ps qs) :
    List.Forall₂ S ps qs :=
  ((List.forall₂_and_left ps qs).2 ⟨hp, h⟩).imp fun _ q hpq => hpq.1 q hpq.2

theorem forall₂_of_replacedField {fields others : List (Text × Pattern)}
    (hp : ∀ field ∈ fields, ∀ q, Replaced R field.2 q → S field.2 q)
    (h : List.Forall₂ (ReplacedField R) fields others) :
    List.Forall₂ (fun field other => field.1 = other.1 ∧ S field.2 other.2) fields others := by
  refine ((List.forall₂_and_left fields others).2 ⟨hp, h⟩).imp ?_
  rintro _ _ ⟨hf, ⟨name, hr⟩⟩
  exact ⟨rfl, hf _ hr⟩

/-- What holds between the parts holds between the patterns, if every construct inherits it. -/
theorem Inherited.of_replaced (hS : Inherited S) (hs : ∀ p, S p p) (hR : ∀ p q, R p q → S p q)
    (p : Pattern) : ∀ q, Replaced R p q → S p q := by
  -- The relation is nested in lists, so the induction is on the first pattern.
  induction p with
  | any | unresolved _ | named _ _ =>
    intro q h
    cases h with
    | refl => exact hs _
    | here h => exact hR _ _ h
  | union alternatives ih =>
    intro q h
    cases h with
    | refl => exact hs _
    | here h => exact hR _ _ h
    | union h => exact hS.union (forall₂_of_replaced ih h)
  | list element ih =>
    intro q h
    cases h with
    | refl => exact hs _
    | here h => exact hR _ _ h
    | list h => exact hS.list (ih _ h)
  | tuple items ih =>
    intro q h
    cases h with
    | refl => exact hs _
    | here h => exact hR _ _ h
    | tuple h => exact hS.tuple (forall₂_of_replaced ih h)
  | set element ih =>
    intro q h
    cases h with
    | refl => exact hs _
    | here h => exact hR _ _ h
    | set h => exact hS.set (ih _ h)
  | map key value ihk ihv =>
    intro q h
    cases h with
    | refl => exact hs _
    | here h => exact hR _ _ h
    | map hk hv => exact hS.map (ihk _ hk) (ihv _ hv)
  | record fields ih =>
    intro q h
    cases h with
    | refl => exact hs _
    | here h => exact hR _ _ h
    | record h => exact hS.record (forall₂_of_replacedField ih h)

theorem agrees_of_replaced (hR : ∀ p q, R p q → p.Agrees q) {p q : Pattern}
    (h : Replaced R p q) : p.Agrees q :=
  inherited_agrees.of_replaced Agrees.refl hR p q h

/-- A pattern that accepts all values but null, about which it leaves the policy to decide. -/
inductive Unspecific : Pattern → Prop where
  | any : Unspecific .any
  | unresolved (name : Text) : Unspecific (.unresolved name)
  | object (name : Text) : Unspecific (.named name (.single (.kind .object)))

theorem Unspecific.accepts_eq {p : Pattern} (h : p.Unspecific) (nulls : Bool) (value : Value) :
    p.accepts nulls value = (!value.isNull || nulls) := by
  cases h with
  | any | unresolved name => rfl
  | object name =>
    rw [accepts_named]
    cases value <;> rfl

/-- Either may stand in place of the other. -/
def Interchangeable (p q : Pattern) : Prop := p.Unspecific ∧ q.Unspecific

theorem Interchangeable.agrees {p q : Pattern} (h : p.Interchangeable q) : p.Agrees q := by
  intro nulls value
  rw [h.1.accepts_eq, h.2.accepts_eq]

end Pattern

open Pattern in
/-- A pattern accepts the same values with any of its unspecific parts in place of any other. -/
theorem Policy.accepts_interchanged (policy : Policy) {p q : Pattern}
    (h : Replaced Interchangeable p q) (value : Value) :
    policy.accepts p value = policy.accepts q value :=
  agrees_of_replaced (fun _ _ => Interchangeable.agrees) h policy.nulls value

open Pattern in
/-- All three, in a key, in a field of a record and among alternatives. -/
theorem Policy.accepts_interchanged_of_nested :
    let object := Pattern.named "object".toList (.single (.kind .object))
    let int := Pattern.named "int".toList (.single (.kind .int))
    let p := Pattern.map (.tuple [.any, int]) (.record [("x".toList, .union [.unresolved ['?'], int])])
    let q := Pattern.map (.tuple [object, int]) (.record [("x".toList, .union [.any, int])])
    let value := Value.dict [(.tuple [.null, .int 1], .dict [(.str "x".toList, .null)])]
    Replaced Interchangeable p q ∧ Policy.accepts {} p value = Policy.accepts {} q value := by
  intro object int p q value
  have hk : Replaced Interchangeable (.tuple [.any, int]) (.tuple [object, int]) :=
    .tuple (.cons (.here ⟨.any, .object _⟩) (.cons (.refl _) .nil))
  have hu : Replaced Interchangeable (.union [.unresolved ['?'], int]) (.union [.any, int]) :=
    .union (.cons (.here ⟨.unresolved _, .any⟩) (.cons (.refl _) .nil))
  have h : Replaced Interchangeable p q := .map hk (.record (.cons (.field _ hu) .nil))
  exact ⟨h, Policy.accepts_interchanged {} h value⟩

end DocTypes
