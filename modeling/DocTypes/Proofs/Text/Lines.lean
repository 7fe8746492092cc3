import DocTypes.Proofs.Text.Trim
import DocTypes.Text.Lines

set_option autoImplicit false

/-!
# Lines written and read

Lines that are written with a line feed after each are read back as they are, but for a carriage
return at the end of a line, which is taken for a part of the ending.
-/

namespace DocTypes.Text

/-- What is read of a line that has a line feed after it. -/
def withoutReturn : Text → Text
  | [] => []
  | [c] => if c = '\r' then [] else [c]
  | c :: d :: rest => c :: withoutReturn (d :: rest)

/-- The lines with a line feed after each. -/
def ofLines (written : List Text) : Text := written.flatMap (· ++ ['\n'])

theorem exists_withoutReturn (line : Text) :
    ∃ tail, Blank tail ∧ withoutReturn line ++ tail = line := by
  induction line using withoutReturn.induct with
  | case1 => exact ⟨[], blank_nil, rfl⟩
  | case2 => exact ⟨['\r'], fun c hc => by obtain rfl := List.mem_singleton.1 hc; rfl, rfl⟩
  | case3 c hc => exact ⟨[], blank_nil, by simp [withoutReturn, hc]⟩
  | case4 c d rest ih =>
    obtain ⟨tail, ht, he⟩ := ih
    exact ⟨tail, ht, congrArg (c :: ·) he⟩

theorem withoutReturn_append (a : Text) {b : Text} (hb : b ≠ []) :
    withoutReturn (a ++ b) = a ++ withoutReturn b := by
  induction a with
  | nil => rfl
  | cons c a ih =>
    obtain ⟨d, rest, hd⟩ := List.exists_cons_of_ne_nil (List.append_ne_nil_of_right_ne_nil a hb)
    rw [List.cons_append, List.cons_append, ← ih, hd, withoutReturn]

theorem withoutReturn_cons {c : Char} (hc : c ≠ '\r') (line : Text) :
    withoutReturn (c :: line) = c :: withoutReturn line := by
  cases line with
  | nil => simp [withoutReturn, hc]
  | cons d rest => rfl

theorem not_mem_withoutReturn {c : Char} {line : Text} (h : c ∉ line) : c ∉ withoutReturn line := by
  obtain ⟨tail, -, he⟩ := exists_withoutReturn line
  rw [← he, List.mem_append, not_or] at h
  exact h.1

end DocTypes.Text
