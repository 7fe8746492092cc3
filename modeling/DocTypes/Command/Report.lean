import DocTypes.Checker
import DocTypes.Command.Options
import DocTypes.Json.Conversion
import DocTypes.Json.Reader

set_option autoImplicit false

/-!
# What the commands answer

One command shows how an expression compiles, the other judges a JSON document by an expression.
-/

namespace DocTypes.Command

inductive Failure where
  | fault (f : Fault)
  | badJson
  | badOption (argument : Text)

def Failure.message : Failure → Text
  | fault f => f.message
  | badJson => "invalid JSON value: not one JSON document".toList
  | badOption argument => "invalid option ".toList ++ Text.inTicks argument

/-- A checker that has done nothing yet, over the catalog of builtin names. -/
def freshDesk (policy : Policy) : Desk where
  catalog := .withBuiltins
  checker := { policy := policy }

/-- The canonical text and the tree of an expression. -/
def describe (policy : Policy) (text : Text) : Except Failure Text :=
  match ((freshDesk policy).compile text).2 with
  | .error f => .error (.fault f)
  | .ok compiled =>
    .ok ("canonical: ".toList ++ compiled.pattern.text ++ '\n' :: compiled.pattern.tree 0)

def slot : Text := "value".toList
def entity : Text := "annoc".toList

/-- A document that is none counts before a fault of the expression. -/
def judge (policy : Policy) (text document : Text) : Except Failure Verdict :=
  match Json.ofText? document with
  | none => .error .badJson
  | some json =>
    match ((freshDesk policy).check text (.ofJson json) slot entity).2 with
    | .error f => .error (.fault f)
    | .ok verdict => .ok verdict

def writeMismatch (mismatch : Mismatch) : Text :=
  let member (key : String) (text? : Option Text) : List (Text × Text) :=
    (text?.map fun text => (key.toList, Json.writeString text)).toList
  Json.writeObject
    (member "entity" mismatch.entity ++ member "expected" mismatch.expected? ++
      member "slot" mismatch.slot ++ member "type_name" mismatch.typeName? ++
      member "value" mismatch.value?)

def render (options : Options) (verdict : Verdict) : Text :=
  match verdict, options.json with
  | none, false => "ok".toList
  | none, true => Json.writeObject [("valid".toList, "true".toList)]
  | some mismatch, false => mismatch.text
  | some mismatch, true =>
    Json.writeObject
      [("diagnostic".toList, writeMismatch mismatch), ("valid".toList, "false".toList)]

end DocTypes.Command
