import DocTypes.Pattern.Acceptance
import DocTypes.Pattern.Text
import DocTypes.Value.Text

set_option autoImplicit false

/-!
# Verdicts

Checking a value against a pattern ends well or with a mismatch, which says as much about the value
as the policy asks for.
-/

namespace DocTypes

/-- Whether null is always accepted, how much a mismatch tells, and whether missing documentation is
complained of. -/
structure Policy where
  nulls : Bool := false
  detail : Nat := 2
  complains : Bool := false

structure Mismatch where
  entity : Text
  slot : Text
  expected? : Option Text
  value? : Option Text
  typeName? : Option Text

namespace Mismatch

/-- The slot of a returned value. -/
def returnSlot : Text := "__return__".toList

def isReturn (mismatch : Mismatch) : Bool := mismatch.slot == returnSlot

def ofValue (detail : Nat) (entity slot expected : Text) (value : Value) : Mismatch where
  entity := entity
  slot := slot
  expected? := if 1 ≤ detail then some expected else none
  value? := if 2 ≤ detail then some value.text else none
  typeName? := if 2 ≤ detail then some value.typeName else none

def headline (mismatch : Mismatch) : Text :=
  if mismatch.isReturn then
    Text.inTicks mismatch.entity ++ " returned value with wrong type.".toList
  else
    Text.inTicks mismatch.entity ++ " received value with wrong type for argument ".toList ++
      Text.inTicks mismatch.slot ++ ['.']

def valueLine (mismatch : Mismatch) : Text :=
  match mismatch.value? with
  | none => []
  | some value =>
    "\nValue passed: ".toList ++ Text.inTicks value ++
      (match mismatch.typeName? with
        | none => []
        | some name => ", of type ".toList ++ Text.inTicks name) ++ ['.']

def expectedLine (mismatch : Mismatch) : Text :=
  match mismatch.expected? with
  | none => []
  | some expected => "\nExpected type: ".toList ++ Text.inTicks expected ++ ['.']

def text (mismatch : Mismatch) : Text :=
  mismatch.headline ++ mismatch.valueLine ++ mismatch.expectedLine

end Mismatch

/-- No mismatch, or one. -/
abbrev Verdict := Option Mismatch

namespace Policy

def accepts (policy : Policy) (pattern : Pattern) (value : Value) : Bool :=
  pattern.accepts policy.nulls value

/-- Judges a value, quoting `declared` as the type that was expected. -/
def judge (policy : Policy) (declared : Text) (pattern : Pattern) (value : Value)
    (slot entity : Text) : Verdict :=
  if policy.accepts pattern value then none
  else some (.ofValue policy.detail entity slot declared value)

theorem judge_eq_none_iff {policy : Policy} {declared : Text} {pattern : Pattern} {value : Value}
    {slot entity : Text} :
    policy.judge declared pattern value slot entity = none ↔
      policy.accepts pattern value = true := by
  unfold judge
  split <;> simp_all

end Policy

end DocTypes
