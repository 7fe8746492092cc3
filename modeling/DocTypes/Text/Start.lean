import DocTypes.Text.Blank

set_option autoImplicit false

/-!
# What a text starts with
-/

namespace DocTypes.Text

/-- What follows `start` in a text that starts with it. -/
def after? : Text → Text → Option Text
  | [], text => some text
  | c :: start, d :: text => if c = d then after? start text else none
  | _ :: _, [] => none

theorem after?_eq_some_iff {start text rest : Text} :
    after? start text = some rest ↔ text = start ++ rest := by
  induction start generalizing text with
  | nil => simp [after?]
  | cons c start ih =>
    cases text with
    | nil => simp [after?]
    | cons d text =>
      rw [after?]
      split
      case isTrue h => simp [h, ih]
      case isFalse h => simp [Ne.symm h]

end DocTypes.Text
