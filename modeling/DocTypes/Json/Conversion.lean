import DocTypes.Json
import DocTypes.Value.Container

set_option autoImplicit false

/-!
# Values of JSON documents

A whole number that fits sixty-four signed bits is an int and any other number a float; an object is
a dict with its keys as strings.
-/

namespace DocTypes.Value

def fitsInt (n : Int) : Bool := Int64.minValue.toInt ≤ n && n ≤ Int64.maxValue.toInt

def ofWhole (n : Int) : Value :=
  if fitsInt n then int (Int64.ofInt n)
  else float (if n < 0 then (Binary64.ofNat n.natAbs).negate else Binary64.ofNat n.natAbs)

mutual

def ofJson : Json → Value
  | .null => null
  | .bool b => bool b
  | .whole n => ofWhole n
  | .real x => float x
  | .string s => str s
  | .array items => list (ofItems items)
  | .object members => ofEntries (ofJsonMembers members)
termination_by structural json => json

def ofItems : List Json → List Value
  | [] => []
  | item :: more => ofJson item :: ofItems more
termination_by structural items => items

def ofJsonMembers : List (Text × Json) → List (Value × Value)
  | [] => []
  | (key, json) :: more => (str key, ofJson json) :: ofJsonMembers more
termination_by structural members => members

end

theorem ofItems_eq_map (items : List Json) : ofItems items = items.map ofJson := by
  induction items with
  | nil => rfl
  | cons item more ih => simp [ofItems, ih]

theorem ofJsonMembers_eq_map (members : List (Text × Json)) :
    ofJsonMembers members = members.map fun m => (str m.1, ofJson m.2) := by
  induction members with
  | nil => rfl
  | cons m more ih => simp [ofJsonMembers, ih]

end DocTypes.Value
