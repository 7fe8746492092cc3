import DocTypes.Binary64
import DocTypes.Text.Utf8

set_option autoImplicit false

/-!
# JSON documents

A number that is written without point and exponent is whole if it lies between `-2 ^ 63` and
`2 ^ 64` and is not a negative zero; any other one is real. The members of an object are sorted by
key, and a key has one member.
-/

namespace DocTypes

inductive Json where
  | null
  | bool (b : Bool)
  | whole (n : Int)
  | real (x : Binary64)
  | string (s : Text)
  | array (items : List Json)
  | object (members : List (Text × Json))

namespace Json

/-- Puts a member in its place, over an earlier one of the same key. -/
def putMember (key : Text) (value : Json) : List (Text × Json) → List (Text × Json)
  | [] => [(key, value)]
  | (other, old) :: more =>
    if key = other then (key, value) :: more
    else if Text.atMost key other then (key, value) :: (other, old) :: more
    else (other, old) :: putMember key value more

end Json

end DocTypes
