import DocTypes.Text.Quoted

set_option autoImplicit false

/-!
# Faults

What can be wrong with an expression or with a question about its brackets. Every fault quotes the
text that shows it.
-/

namespace DocTypes

inductive Fault where
  | noOpener (text : Text) (index : Nat)
  | unmatched (text : Text)
  | trailing (text : Text)
  | badSeparator (separator : Text)
  | unexpected (text : Text) (found : Char)
  | malformed (text entry : Text)
  deriving DecidableEq

namespace Fault

def message : Fault → Text
  | noOpener text index =>
    "invalid index ".toList ++ Text.ofNat index ++ ": no opening bracket there in ".toList ++
      Text.inTicks text
  | unmatched text => "brackets not matched in ".toList ++ Text.inTicks text
  | trailing text => "syntax error in type ".toList ++ Text.inTicks text
  | badSeparator separator =>
    "separator must be exactly one character, got ".toList ++ Text.inTicks separator
  | unexpected text found =>
    "unexpected ".toList ++ Text.inTicks [found] ++ " in type name ".toList ++ Text.inTicks text
  | malformed text entry =>
    "malformed dict entry ".toList ++ Text.inTicks entry ++ " in ".toList ++ Text.inTicks text

end Fault

end DocTypes
