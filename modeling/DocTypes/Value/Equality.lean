import DocTypes.Value

set_option autoImplicit false

/-!
# Equality of values

Values of different kinds differ. Floats compare as numbers, objects by the path of their class,
and containers member by member in stored order, so a value with a NaN in it equals nothing.
-/

namespace DocTypes.Value

mutual

def equals : Value → Value → Bool
  | null, null => true
  | bool a, bool b => a == b
  | int a, int b => a == b
  | float a, float b => a.equals b
  | str a, str b => a == b
  | bytes a, bytes b => a == b
  | list a, list b => equalsEach a b
  | tuple a, tuple b => equalsEach a b
  | set a, set b => equalsEach a b
  | dict a, dict b => equalsEntries a b
  | function a, function b => a == b
  | method a, method b => a == b
  | object a, object b => a == b
  | _, _ => false
termination_by structural value => value

def equalsEach : List Value → List Value → Bool
  | [], [] => true
  | a :: as, b :: bs => a.equals b && equalsEach as bs
  | _, _ => false
termination_by structural values => values

def equalsEntries : List (Value × Value) → List (Value × Value) → Bool
  | [], [] => true
  | (k, a) :: as, (l, b) :: bs => k.equals l && a.equals b && equalsEntries as bs
  | _, _ => false
termination_by structural entries => entries

end

instance : BEq Value := ⟨equals⟩

theorem beq_eq (a b : Value) : (a == b) = a.equals b := rfl

end DocTypes.Value
