import DocTypes.Proofs.Pattern.Agreement
import DocTypes.Verdict

set_option autoImplicit false

/-!
# Null as an alternative

That null is always accepted means that each part of a pattern has null as an alternative, at
whatever depth it stands. A union needs none of its own, since it leaves null to its alternatives.
-/

namespace DocTypes

namespace Pattern

/-- The pattern, or else a name that denotes the null type alone. -/
def orNull (name : Text) (pattern : Pattern) : Pattern :=
  union [pattern, named name (.single (.kind .null))]

mutual

/-- The pattern with null as an alternative to each of its parts and to the whole. -/
def optional (name : Text) : Pattern → Pattern
  | any => orNull name any
  | unresolved n => orNull name (unresolved n)
  | union alternatives => union (optionalEach name alternatives)
  | list element => orNull name (list (element.optional name))
  | tuple items => orNull name (tuple (optionalEach name items))
  | set element => orNull name (set (element.optional name))
  | map key value => orNull name (map (key.optional name) (value.optional name))
  | record fields => orNull name (record (optionalFields name fields))
  | named n types => orNull name (named n types)
termination_by structural pattern => pattern

def optionalEach (name : Text) : List Pattern → List Pattern
  | [] => []
  | pattern :: more => pattern.optional name :: optionalEach name more
termination_by structural patterns => patterns

def optionalFields (name : Text) : List (Text × Pattern) → List (Text × Pattern)
  | [] => []
  | (label, pattern) :: more => (label, pattern.optional name) :: optionalFields name more
termination_by structural fields => fields

end

theorem isNull_of_ne {value : Value} (h : value ≠ .null) : value.isNull = false := by
  cases value with
  | null => exact absurd rfl h
  | _ => rfl

theorem accepts_null (nulls : Bool) (name : Text) (value : Value) :
    (named name (.single (.kind .null))).accepts nulls value = value.isNull := by
  rw [accepts_named]
  cases value <;> rfl

theorem accepts_orNull (nulls : Bool) (name : Text) (pattern : Pattern) (value : Value) :
    (orNull name pattern).accepts nulls value = (pattern.accepts nulls value || value.isNull) := by
  rw [orNull, accepts, anyAccepts, anyAccepts, anyAccepts, accepts_null, Bool.or_false]

/-- With null as an alternative the pattern accepts what it accepts when null always is. -/
def Absorbs (name : Text) (pattern : Pattern) : Prop :=
  ∀ value, (pattern.optional name).accepts false value = pattern.accepts true value

variable {name : Text}

theorem anyAccepts_optionalEach {patterns : List Pattern}
    (h : ∀ pattern ∈ patterns, pattern.Absorbs name) (value : Value) :
    anyAccepts false (optionalEach name patterns) value = anyAccepts true patterns value := by
  induction patterns with
  | nil => rfl
  | cons pattern more ih =>
    have hp := h pattern (List.mem_cons_self ..) value
    have hm := ih fun p hp => h p (List.mem_cons_of_mem _ hp)
    rw [optionalEach, anyAccepts, anyAccepts, hp, hm]

theorem eachAccepts_optionalEach {patterns : List Pattern}
    (h : ∀ pattern ∈ patterns, pattern.Absorbs name) (values : List Value) :
    eachAccepts false (optionalEach name patterns) values = eachAccepts true patterns values := by
  induction patterns generalizing values with
  | nil => cases values <;> rfl
  | cons pattern more ih =>
    cases values with
    | nil => rfl
    | cons value values =>
      have hp := h pattern (List.mem_cons_self ..) value
      have hm := ih (fun p hp => h p (List.mem_cons_of_mem _ hp)) values
      rw [optionalEach, eachAccepts, eachAccepts, hp, hm]

theorem fieldsAccept_optionalFields {fields : List (Text × Pattern)}
    (h : ∀ field ∈ fields, field.2.Absorbs name) (entries : List (Value × Value)) :
    fieldsAccept false (optionalFields name fields) entries = fieldsAccept true fields entries := by
  induction fields with
  | nil => rfl
  | cons field more ih =>
    have hf := h field (List.mem_cons_self ..)
    have hm := ih fun f hf => h f (List.mem_cons_of_mem _ hf)
    rw [optionalFields, fieldsAccept, fieldsAccept, hm]
    cases Value.fieldAt? entries field.1 with
    | none => rfl
    | some value => exact congrArg (· && _) (hf value)

/-- Null apart, it is enough that the pattern made of optional parts accepts what the pattern
accepts. -/
theorem absorbs_of_parts {pattern parts : Pattern}
    (ho : pattern.optional name = orNull name parts) (hn : pattern.accepts true .null = true)
    (hp : ∀ value, value ≠ .null → parts.accepts false value = pattern.accepts true value) :
    pattern.Absorbs name := by
  intro value
  rw [ho, accepts_orNull]
  by_cases hv : value = .null
  · rw [hv, hn]
    exact Bool.or_true _
  · rw [hp value hv, isNull_of_ne hv, Bool.or_false]

end Pattern

/-- Always to accept null is to have null as an alternative everywhere. -/
theorem Policy.accepts_optional (policy : Policy) (name : Text) (pattern : Pattern)
    (value : Value) :
    { policy with nulls := true }.accepts pattern value =
      { policy with nulls := false }.accepts (pattern.optional name) value := by
  suffices h : pattern.Absorbs name from (h value).symm
  clear value
  induction pattern with
  | any =>
    refine Pattern.absorbs_of_parts rfl rfl fun value hv => ?_
    rw [Pattern.accepts, Pattern.accepts, Pattern.isNull_of_ne hv]
    rfl
  | unresolved n =>
    refine Pattern.absorbs_of_parts rfl rfl fun value hv => ?_
    rw [Pattern.accepts, Pattern.accepts, Pattern.isNull_of_ne hv]
    rfl
  | union alternatives ih => exact fun value => Pattern.anyAccepts_optionalEach ih value
  | list element ih =>
    refine Pattern.absorbs_of_parts rfl rfl fun value hv => ?_
    cases value with
    | null => exact absurd rfl hv
    | list items => exact congrArg items.all (funext ih)
    | _ => rfl
  | tuple items ih =>
    refine Pattern.absorbs_of_parts rfl rfl fun value hv => ?_
    cases value with
    | null => exact absurd rfl hv
    | tuple values => exact Pattern.eachAccepts_optionalEach ih values
    | _ => rfl
  | set element ih =>
    refine Pattern.absorbs_of_parts rfl rfl fun value hv => ?_
    cases value with
    | null => exact absurd rfl hv
    | set members => exact congrArg members.all (funext ih)
    | _ => rfl
  | map key content ihk ihc =>
    refine Pattern.absorbs_of_parts rfl rfl fun value hv => ?_
    cases value with
    | null => exact absurd rfl hv
    | dict entries =>
      refine congrArg entries.all (funext fun entry => ?_)
      rw [ihk entry.1, ihc entry.2]
    | _ => rfl
  | record fields ih =>
    refine Pattern.absorbs_of_parts rfl rfl fun value hv => ?_
    cases value with
    | null => exact absurd rfl hv
    | dict entries => exact Pattern.fieldsAccept_optionalFields ih entries
    | _ => rfl
  | named n types =>
    refine Pattern.absorbs_of_parts rfl ?_ fun value hv => ?_
    · rw [Pattern.accepts_named]
      exact Bool.or_true _
    · rw [Pattern.accepts_named, Pattern.accepts_named, Pattern.isNull_of_ne hv]
      rfl

end DocTypes
