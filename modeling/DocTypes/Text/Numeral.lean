import DocTypes.Text.Blank

set_option autoImplicit false

/-!
# Numerals

Natural numbers and integers in decimal digits, and bytes and code points in lower-case
hexadecimal ones. Only the ten ASCII digits are read.
-/

namespace DocTypes.Text

def ofNat (n : Nat) : Text := Nat.toDigits 10 n

def ofInt : Int → Text
  | .ofNat n => ofNat n
  | .negSucc n => '-' :: ofNat (n + 1)

/-- At least `width` characters, with zeros in front. -/
def padded (width : Nat) (digits : Text) : Text :=
  List.replicate (width - digits.length) '0' ++ digits

/-- The last `width` hexadecimal digits at least. -/
def ofNatHex (width n : Nat) : Text := padded width (Nat.toDigits 16 n)

def digitValue (c : Char) : Nat := c.toNat - '0'.toNat

def isDigit (c : Char) : Bool := '0' ≤ c && c ≤ '9'

def digits? (text : Text) : Option (List Nat) :=
  if text ≠ [] ∧ text.all isDigit then some (text.map digitValue) else none

def ofDigits (digits : List Nat) : Nat := digits.foldl (fun n d => 10 * n + d) 0

/-- The number written by a text that is all digits and not empty. -/
def nat? (text : Text) : Option Nat := (digits? text).map ofDigits

def hexValue? (c : Char) : Option Nat :=
  if isDigit c then some (digitValue c)
  else if 'a' ≤ c ∧ c ≤ 'f' then some (c.toNat - 'a'.toNat + 10)
  else if 'A' ≤ c ∧ c ≤ 'F' then some (c.toNat - 'A'.toNat + 10)
  else none

theorem ofNat_injective {m n : Nat} (h : ofNat m = ofNat n) : m = n := by
  have hm := Nat.ofDigitChars_toDigits (b := 10) (n := m) (by decide) (by decide)
  have hn := Nat.ofDigitChars_toDigits (b := 10) (n := n) (by decide) (by decide)
  rw [← hm, ← hn]
  exact congrArg (fun t => Nat.ofDigitChars 10 t 0) h

end DocTypes.Text
