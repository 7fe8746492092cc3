import DocTypes.Text.Blank

set_option autoImplicit false

/-!
# Builtin kinds

The kinds that values have by themselves, and their names.
-/

namespace DocTypes

inductive Kind where
  | null | bool | int | float | str | bytes | list | tuple | set | dict | function | method | object
  deriving DecidableEq

namespace Kind

def all : List Kind :=
  [null, bool, int, float, str, bytes, list, tuple, set, dict, function, method, object]

def name : Kind → Text
  | null => "NoneType".toList
  | bool => "bool".toList
  | int => "int".toList
  | float => "float".toList
  | str => "str".toList
  | bytes => "bytes".toList
  | list => "list".toList
  | tuple => "tuple".toList
  | set => "set".toList
  | dict => "dict".toList
  | function => "function".toList
  | method => "method".toList
  | object => "object".toList

def ofName? (text : Text) : Option Kind := all.find? fun kind => kind.name == text

theorem ofName?_name (kind : Kind) : ofName? kind.name = some kind := by cases kind <;> decide

theorem name_of_ofName? {text : Text} {kind : Kind} (h : ofName? text = some kind) :
    kind.name = text := by
  simpa using List.find?_some h

theorem ofName?_eq_some_iff {text : Text} {kind : Kind} :
    ofName? text = some kind ↔ kind.name = text :=
  ⟨name_of_ofName?, by rintro rfl; exact ofName?_name kind⟩

end Kind

end DocTypes
