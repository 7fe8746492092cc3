set_option autoImplicit false

/-!
# Double-precision numbers

A double is its sixty-four bits: a sign, eleven bits of exponent and fifty-two of fraction. All
arithmetic on it is exact arithmetic on natural numbers followed by one rounding to nearest, ties
to even.
-/

namespace DocTypes

structure Binary64 where
  bits : UInt64
  deriving DecidableEq

namespace Binary64

def twoTo (n : Nat) : Nat := Nat.pow 2 n
def tenTo (n : Nat) : Nat := Nat.pow 10 n

def isNegative (x : Binary64) : Bool := twoTo 63 ≤ x.bits.toNat
def exponentField (x : Binary64) : Nat := x.bits.toNat / twoTo 52 % twoTo 11
def fractionField (x : Binary64) : Nat := x.bits.toNat % twoTo 52

def isNaN (x : Binary64) : Bool := x.exponentField = 2047 && x.fractionField != 0
def isInfinite (x : Binary64) : Bool := x.exponentField = 2047 && x.fractionField = 0
def isZero (x : Binary64) : Bool := x.bits.toNat % twoTo 63 = 0

/-- Zeros of either sign are equal, and a NaN equals nothing. -/
def equals (x y : Binary64) : Bool :=
  !x.isNaN && !y.isNaN && (x == y || x.isZero && y.isZero)

/-- The whole number that counts the magnitude of a finite double in units of `2 ^ power`. -/
def significand (x : Binary64) : Nat :=
  if x.exponentField = 0 then x.fractionField else twoTo 52 + x.fractionField

def power (x : Binary64) : Int :=
  if x.exponentField = 0 then -1074 else (x.exponentField : Int) - 1075

/-- The magnitude of a finite double as a quotient. -/
def magnitude (x : Binary64) : Nat × Nat :=
  (x.significand * twoTo x.power.toNat, twoTo (-x.power).toNat)

def infinity : Binary64 := ⟨0x7FF0000000000000⟩

def ofSign (negative : Bool) (magnitude : Nat) : Binary64 :=
  ⟨UInt64.ofNat (if negative then twoTo 63 + magnitude else magnitude)⟩

/-- The whole number nearest to a quotient, the even one of two that are equally near. -/
def roundQuotient (num den : Nat) : Nat :=
  let floor := num / den
  let rest := num % den
  if 2 * rest < den then floor
  else if den < 2 * rest then floor + 1
  else floor + floor % 2

/-- The power of two in whose units a quotient is counted by a significand. -/
def unitPower (num den : Nat) : Int :=
  let estimate : Int := (num.log2 : Int) - den.log2
  let reached := den * twoTo estimate.toNat ≤ num * twoTo (-estimate).toNat
  max (-1074) (if reached then estimate - 52 else estimate - 53)

/-- The double nearest to a quotient. A significand that rounds up to the next power of two carries
into the exponent, and what is past the last finite double is infinite. -/
def ofQuotient (negative : Bool) (num den : Nat) : Binary64 :=
  if num = 0 then ofSign negative 0
  else
    let power := unitPower num den
    let count := roundQuotient (num * twoTo (-power).toNat) (den * twoTo power.toNat)
    ofSign negative (min infinity.bits.toNat ((power + 1074).toNat * twoTo 52 + count))

def ofNat (n : Nat) : Binary64 := ofQuotient false n 1

def negate (x : Binary64) : Binary64 := ofSign (!x.isNegative) (x.bits.toNat % twoTo 63)

/-- Product of finite doubles. -/
def times (x y : Binary64) : Binary64 :=
  ofQuotient (x.isNegative != y.isNegative) (x.magnitude.1 * y.magnitude.1)
    (x.magnitude.2 * y.magnitude.2)

/-- Quotient of finite doubles, the second not zero. -/
def dividedBy (x y : Binary64) : Binary64 :=
  ofQuotient (x.isNegative != y.isNegative) (x.magnitude.1 * y.magnitude.2)
    (x.magnitude.2 * y.magnitude.1)

theorem equals_symm (x y : Binary64) : x.equals y = y.equals x := by
  have h : (x == y) = (y == x) := by
    rw [Bool.eq_iff_iff, beq_iff_eq, beq_iff_eq]; exact ⟨Eq.symm, Eq.symm⟩
  simp only [equals, h, Bool.and_comm x.isZero, Bool.and_comm (!x.isNaN)]

theorem equals_self (x : Binary64) : x.equals x = !x.isNaN := by
  simp [equals]

end Binary64

end DocTypes
