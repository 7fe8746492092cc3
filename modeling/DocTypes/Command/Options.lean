import DocTypes.Text.Numeral
import DocTypes.Text.Start
import DocTypes.Verdict

set_option autoImplicit false

/-!
# Options of a command

An argument that starts with two dashes is an option, wherever it stands; the others are the
positional ones. A later level of detail replaces an earlier one.
-/

namespace DocTypes.Command

structure Options where
  policy : Policy := {}
  json : Bool := false

inductive Argument where
  | nulls
  | json
  | detail (n : Nat)
  | invalid
  | positional

namespace Argument

def greatestDetail : Nat := 255

/-- A number up to `greatestDetail` in digits, with or without a plus sign. -/
def detail? (text : Text) : Option Nat :=
  (Text.nat? ((Text.after? ['+'] text).getD text)).filter (· ≤ greatestDetail)

def ofText (text : Text) : Argument :=
  if text = "--none-valid".toList then nulls
  else if text = "--json".toList then json
  else
    match Text.after? "--verbosity=".toList text with
    | some level =>
      match detail? level with
      | some n => detail n
      | none => invalid
    | none =>
      match Text.after? "--".toList text with
      | some _ => invalid
      | none => positional

end Argument

namespace Options

def setNulls (options : Options) : Options :=
  { options with policy := { options.policy with nulls := true } }

def setDetail (options : Options) (detail : Nat) : Options :=
  { options with policy := { options.policy with detail := detail } }

/-- Reads the arguments behind those read into `options` and `before`; fails with the first option
that is none. -/
def readFrom (options : Options) (before : List Text) :
    List Text → Except Text (Options × List Text)
  | [] => .ok (options, before)
  | text :: more =>
    match Argument.ofText text with
    | .nulls => options.setNulls.readFrom before more
    | .json => { options with json := true }.readFrom before more
    | .detail n => (options.setDetail n).readFrom before more
    | .invalid => .error text
    | .positional => options.readFrom (before ++ [text]) more

/-- The options and the positional arguments. -/
def read (arguments : List Text) : Except Text (Options × List Text) :=
  readFrom {} [] arguments

end Options

end DocTypes.Command
