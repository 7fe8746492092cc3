import DocTypes.Json
import DocTypes.Text.Numeral

set_option autoImplicit false

/-!
# JSON numerals

A numeral has a sign, digits before the point and perhaps after it, and perhaps a power of ten. Its
significand takes in digits as long as it stays below `2 ^ 64`: later digits before the point count
as further powers of ten, later ones after it not at all. The significand, as a double, is then
multiplied or divided by a power of ten, which rounds once more.
-/

namespace DocTypes.Json

structure Numeral where
  isNegative : Bool
  whole : List Nat
  fraction : List Nat
  /-- The sign and the digits of the power of ten. -/
  exponent? : Option (Bool × List Nat)

namespace Numeral

/-- Digits at the start of a text, and what follows them. -/
def spanDigits (text : Text) : List Nat × Text :=
  ((text.takeWhile Text.isDigit).map Text.digitValue, text.dropWhile Text.isDigit)

def readFraction? : Text → Option (List Nat × Text)
  | [] => some ([], [])
  | c :: rest =>
    if c = '.' then
      match spanDigits rest with
      | ([], _) => none
      | found => some found
    else some ([], c :: rest)

def readSign : Text → Bool × Text
  | [] => (false, [])
  | c :: rest =>
    if c = '-' then (true, rest) else if c = '+' then (false, rest) else (false, c :: rest)

def readExponent? : Text → Option (Option (Bool × List Nat) × Text)
  | [] => some (none, [])
  | c :: rest =>
    if c = 'e' ∨ c = 'E' then
      match spanDigits (readSign rest).2 with
      | ([], _) => none
      | (digits, after) => some (some ((readSign rest).1, digits), after)
    else some (none, c :: rest)

/-- No digits, or a zero with digits behind it. -/
def isBadWhole : List Nat → Bool
  | [] => true
  | [_] => false
  | d :: _ => d == 0

/-- The numeral at the start of a text, and what follows it. -/
def read? (text : Text) : Option (Numeral × Text) := do
  let isNegative := text.head? == some '-'
  let (whole, rest) := spanDigits (if isNegative then text.tail else text)
  if isBadWhole whole then none
  else
    let (fraction, rest) ← readFraction? rest
    let (exponent?, rest) ← readExponent? rest
    some (⟨isNegative, whole, fraction, exponent?⟩, rest)

/-- Takes in digits behind `start` as long as the number stays below `2 ^ 64`, and counts them. -/
def takeIn (start : Nat) : List Nat → Nat × Nat
  | [] => (start, 0)
  | digit :: more =>
    if 10 * start + digit < Binary64.twoTo 64 then
      let (number, count) := takeIn (10 * start + digit) more
      (number, count + 1)
    else (start, 0)

def greatestPower : Nat := 308

def powerOfTen (n : Nat) : Binary64 := Binary64.ofNat (Binary64.tenTo n)

/-- A finite double times a power of ten, unless that is too great for a double. -/
def scale? (x : Binary64) (power : Int) : Option Binary64 :=
  if power < -greatestPower then
    if x.isZero then some x
    else scale? (x.dividedBy (powerOfTen greatestPower)) (power + greatestPower)
  else if power < 0 then some (x.dividedBy (powerOfTen (-power).toNat))
  else if power ≤ greatestPower then
    let y := x.times (powerOfTen power.toNat)
    if y.isInfinite then none else some y
  else if x.isZero then some x else none
termination_by (-power).toNat
decreasing_by
  have h : greatestPower = 308 := rfl
  omega

def greatestExponent : Nat := 2147483647

def withSign (isNegative : Bool) (x : Binary64) : Binary64 := if isNegative then x.negate else x

/-- The power of ten in a numeral, unless its digits make more than `greatestExponent`. -/
def exponent (numeral : Numeral) : Option Int :=
  match numeral.exponent? with
  | none => some 0
  | some (isNegative, digits) =>
    let n := Text.ofDigits digits
    if greatestExponent < n then none else some (if isNegative then -n else n)

def real? (numeral : Numeral) : Option Binary64 :=
  let (number, wholeCount) := takeIn 0 numeral.whole
  let (significand, fractionCount) := takeIn number numeral.fraction
  let x := Binary64.ofNat significand
  match numeral.exponent with
  | some exponent =>
    (scale? x (exponent + (numeral.whole.length - wholeCount : Nat) - fractionCount)).map
      (withSign numeral.isNegative)
  | none =>
    if significand = 0 ∨ numeral.exponent?.any Prod.fst then
      some (withSign numeral.isNegative (Binary64.ofNat 0))
    else none

/-- The number written by a numeral, unless it is too great for a double. -/
def value? (numeral : Numeral) : Option Json :=
  let n := Text.ofDigits numeral.whole
  if numeral.fraction ≠ [] ∨ numeral.exponent?.isSome ∨ Binary64.twoTo 64 ≤ n then
    numeral.real?.map .real
  else if !numeral.isNegative then some (.whole n)
  else if n = 0 ∨ Binary64.twoTo 63 < n then some (.real (Binary64.ofNat n).negate)
  else some (.whole (-n))

theorem spanDigits_length_le (text : Text) : (spanDigits text).2.length ≤ text.length :=
  (List.dropWhile_sublist Text.isDigit).length_le

theorem spanDigits_length_lt {text : Text} (h : (spanDigits text).1 ≠ []) :
    (spanDigits text).2.length < text.length := by
  cases text with
  | nil => simp [spanDigits] at h
  | cons c rest =>
    have hl := spanDigits_length_le rest
    by_cases hc : Text.isDigit c = true
    · simpa [spanDigits, hc, Nat.lt_succ_iff] using hl
    · simp [spanDigits, hc] at h

theorem readSign_length_le (text : Text) : (readSign text).2.length ≤ text.length := by
  cases text with
  | nil => simp [readSign]
  | cons c rest =>
    rw [readSign]
    split
    · simp
    · split <;> simp

theorem readFraction?_length_le {text rest : Text} {digits : List Nat}
    (h : readFraction? text = some (digits, rest)) : rest.length ≤ text.length := by
  cases text with
  | nil => obtain ⟨rfl, rfl⟩ := Prod.mk.inj (Option.some.inj h); exact Nat.le_refl _
  | cons c after =>
    rw [readFraction?] at h
    split at h
    · have hl := spanDigits_length_le after
      split at h
      · cases h
      · rw [Option.some.inj h] at hl
        exact Nat.le_succ_of_le hl
    · obtain ⟨rfl, rfl⟩ := Prod.mk.inj (Option.some.inj h)
      exact Nat.le_refl _

theorem readExponent?_length_le {text rest : Text} {found : Option (Bool × List Nat)}
    (h : readExponent? text = some (found, rest)) : rest.length ≤ text.length := by
  cases text with
  | nil => obtain ⟨rfl, rfl⟩ := Prod.mk.inj (Option.some.inj h); exact Nat.le_refl _
  | cons c after =>
    rw [readExponent?] at h
    split at h
    · have hl := spanDigits_length_le (readSign after).2
      have hs := readSign_length_le after
      split at h
      · cases h
      · rename_i heq
        obtain ⟨-, rfl⟩ := Prod.mk.inj (Option.some.inj h)
        rw [heq] at hl
        simp only [List.length_cons] at hl ⊢
        omega
    · obtain ⟨-, rfl⟩ := Prod.mk.inj (Option.some.inj h)
      exact Nat.le_refl _

theorem read?_length {text rest : Text} {numeral : Numeral}
    (h : read? text = some (numeral, rest)) : rest.length < text.length := by
  unfold read? at h
  simp only [Option.bind_eq_bind, Option.ite_none_left_eq_some, Option.bind_eq_some_iff,
    Option.some.injEq, Prod.mk.injEq, Prod.exists] at h
  obtain ⟨hw, fraction, afterFraction, hf, exponent?, afterExponent, he, -, rfl⟩ := h
  have hn : (spanDigits (if text.head? == some '-' then text.tail else text)).1 ≠ [] := by
    intro hnil
    rw [hnil] at hw
    exact hw rfl
  have h1 := spanDigits_length_lt hn
  have h2 := readFraction?_length_le hf
  have h3 := readExponent?_length_le he
  have h4 : (if text.head? == some '-' then text.tail else text).length ≤ text.length := by
    split
    · simp
    · exact Nat.le_refl _
  omega

end Numeral

end DocTypes.Json
