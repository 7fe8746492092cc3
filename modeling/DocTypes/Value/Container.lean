import DocTypes.Value.Equality

set_option autoImplicit false

/-!
# Sets and dicts

A set keeps the first of equal members, and a dict keeps one entry for equal keys: the key as first
written, at its first place, with the value written last.
-/

namespace DocTypes.Value

/-- Keeps `members` and adds `item` at the end unless an equal member is there. -/
def addMember (members : List Value) (item : Value) : List Value :=
  if members.any (· == item) then members else members ++ [item]

def ofMembers (items : List Value) : Value := set (items.foldl addMember [])

/-- Writes into the first entry with an equal key, or into a new one at the end. -/
def putEntry (key value : Value) : List (Value × Value) → List (Value × Value)
  | [] => [(key, value)]
  | (k, v) :: more => if k == key then (k, value) :: more else (k, v) :: putEntry key value more

def ofEntries (entries : List (Value × Value)) : Value :=
  dict (entries.foldl (fun kept entry => putEntry entry.1 entry.2 kept) [])

def entryAt? (entries : List (Value × Value)) (key : Value) : Option Value :=
  (entries.find? fun entry => entry.1 == key).map Prod.snd

def isStr (name : Text) : Value → Bool
  | str s => s == name
  | _ => false

def fieldAt? (entries : List (Value × Value)) (name : Text) : Option Value :=
  (entries.find? fun entry => entry.1.isStr name).map Prod.snd

def get? : Value → Value → Option Value
  | dict entries, key => entryAt? entries key
  | _, _ => none

def field? : Value → Text → Option Value
  | dict entries, name => fieldAt? entries name
  | _, _ => none

theorem isStr_eq (name : Text) (value : Value) : value.isStr name = (value == str name) := by
  cases value <;> rfl

theorem fieldAt?_eq_entryAt? (entries : List (Value × Value)) (name : Text) :
    fieldAt? entries name = entryAt? entries (str name) := by
  simp only [fieldAt?, entryAt?, isStr_eq]

end DocTypes.Value
