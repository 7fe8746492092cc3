import DocTypes.Binary64
import DocTypes.Class
import DocTypes.Kind

set_option autoImplicit false

/-!
# Values

The values that are checked. Sets and dicts keep their members in a list, in the order in which
they were put in; `DocTypes.Value.Container` builds them without repeats.
-/

namespace DocTypes

inductive Value where
  | null
  | bool (b : Bool)
  | int (n : Int64)
  | float (x : Binary64)
  | str (s : Text)
  | bytes (b : List UInt8)
  | list (items : List Value)
  | tuple (items : List Value)
  | set (members : List Value)
  | dict (entries : List (Value × Value))
  | function (name : Text)
  | method (name : Text)
  | object (type : Class)

namespace Value

/-- A value is made from its parts. -/
@[elab_as_elim, induction_eliminator]
theorem induct {motive : Value → Prop} (null : motive .null) (bool : ∀ b, motive (.bool b))
    (int : ∀ n, motive (.int n)) (float : ∀ x, motive (.float x)) (str : ∀ s, motive (.str s))
    (bytes : ∀ b, motive (.bytes b))
    (list : ∀ items, (∀ item ∈ items, motive item) → motive (.list items))
    (tuple : ∀ items, (∀ item ∈ items, motive item) → motive (.tuple items))
    (set : ∀ members, (∀ member ∈ members, motive member) → motive (.set members))
    (dict : ∀ entries, (∀ entry ∈ entries, motive entry.1 ∧ motive entry.2) →
      motive (.dict entries))
    (function : ∀ name, motive (.function name)) (method : ∀ name, motive (.method name))
    (object : ∀ type, motive (.object type)) (value : Value) : motive value :=
  @Value.rec motive (fun values => ∀ value ∈ values, motive value)
    (fun entries => ∀ entry ∈ entries, motive entry.1 ∧ motive entry.2)
    (fun entry => motive entry.1 ∧ motive entry.2)
    null bool int float str bytes list tuple set dict function method object
    (List.forall_mem_nil _) (fun _ _ hv hm => List.forall_mem_cons.2 ⟨hv, hm⟩)
    (List.forall_mem_nil _) (fun _ _ he hm => List.forall_mem_cons.2 ⟨he, hm⟩)
    (fun _ _ hk hv => ⟨hk, hv⟩) value

def isNull : Value → Bool
  | null => true
  | _ => false

/-- An object has a class in place of a kind. -/
def kind? : Value → Option Kind
  | null => some .null
  | bool _ => some .bool
  | int _ => some .int
  | float _ => some .float
  | str _ => some .str
  | bytes _ => some .bytes
  | list _ => some .list
  | tuple _ => some .tuple
  | set _ => some .set
  | dict _ => some .dict
  | function _ => some .function
  | method _ => some .method
  | object _ => none

def class? : Value → Option Class
  | object type => some type
  | _ => none

def typeName : Value → Text
  | object type => type.bareName
  | value => (value.kind?.getD .object).name

end Value

end DocTypes
