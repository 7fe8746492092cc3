import DocTypes.Pattern
import DocTypes.Value.Container

set_option autoImplicit false

/-!
# Which values a pattern accepts

Null is left to the alternatives of a union and to the types of a name that may denote the null
type. Every other pattern takes it exactly when `nulls` is set.
-/

namespace DocTypes.Pattern

mutual

def accepts (nulls : Bool) : Pattern → Value → Bool
  | any, value => !value.isNull || nulls
  | unresolved _, value => !value.isNull || nulls
  | union alternatives, value => anyAccepts nulls alternatives value
  | list element, value =>
    match value with
    | .null => nulls
    | .list items => items.all fun item => element.accepts nulls item
    | _ => false
  | tuple items, value =>
    match value with
    | .null => nulls
    | .tuple values => eachAccepts nulls items values
    | _ => false
  | set element, value =>
    match value with
    | .null => nulls
    | .set members => members.all fun member => element.accepts nulls member
    | _ => false
  | map key content, value =>
    match value with
    | .null => nulls
    | .dict entries => entries.all fun entry =>
        key.accepts nulls entry.1 && content.accepts nulls entry.2
    | _ => false
  | record fields, value =>
    match value with
    | .null => nulls
    | .dict entries => fieldsAccept nulls fields entries
    | _ => false
  | named _ types, value =>
    if value.isNull && !types.admitsNull then nulls else types.hasInstance value
termination_by structural pattern => pattern

def anyAccepts (nulls : Bool) : List Pattern → Value → Bool
  | [], _ => false
  | pattern :: more, value => pattern.accepts nulls value || anyAccepts nulls more value
termination_by structural patterns => patterns

def eachAccepts (nulls : Bool) : List Pattern → List Value → Bool
  | [], [] => true
  | pattern :: more, value :: values =>
    pattern.accepts nulls value && eachAccepts nulls more values
  | _, _ => false
termination_by structural patterns => patterns

/-- A record asks for its fields and leaves other entries alone. -/
def fieldsAccept (nulls : Bool) : List (Text × Pattern) → List (Value × Value) → Bool
  | [], _ => true
  | (name, pattern) :: more, entries =>
    (match Value.fieldAt? entries name with
      | some value => pattern.accepts nulls value
      | none => false) && fieldsAccept nulls more entries
termination_by structural fields => fields

end

theorem anyAccepts_eq_any (nulls : Bool) (patterns : List Pattern) (value : Value) :
    anyAccepts nulls patterns value = patterns.any (·.accepts nulls value) := by
  induction patterns with
  | nil => rfl
  | cons pattern more ih => simp [anyAccepts, ih]

theorem fieldsAccept_eq_all (nulls : Bool) (fields : List (Text × Pattern))
    (entries : List (Value × Value)) :
    fieldsAccept nulls fields entries =
      fields.all fun field =>
        (Value.fieldAt? entries field.1).any (field.2.accepts nulls) := by
  induction fields with
  | nil => rfl
  | cons field more ih =>
    rw [fieldsAccept, ih, List.all_cons]
    cases Value.fieldAt? entries field.1 <;> rfl

end DocTypes.Pattern
