import DocTypes.Binary64
import DocTypes.Text.Numeral

set_option autoImplicit false

/-!
# Decimal text of a double

A whole double is written with all its digits and one zero after the point. Any other finite one is
written with the fewest digits after the point that no other double is nearer to, and of these the
nearest to the double itself, the upper one of two that are equally near. No exponent is written.
-/

namespace DocTypes.Binary64

/-- Numerators, over four times the denominator of the magnitude, of the two ends of the interval of
reals that round to a finite double. The lower half is half as wide above a power of two. -/
def roundingEnds (x : Binary64) : Nat × Nat :=
  let unit := twoTo x.power.toNat
  let below := if x.fractionField = 0 ∧ 1 < x.exponentField then unit else 2 * unit
  (4 * x.magnitude.1 - below, 4 * x.magnitude.1 + 2 * unit)

/-- Whether a quotient rounds to `x`; the ends of the interval do when the significand is even. -/
def roundsTo (x : Binary64) (num den : Nat) : Bool :=
  let low := x.roundingEnds.1 * den
  let high := x.roundingEnds.2 * den
  let point := num * (4 * x.magnitude.2)
  if x.significand % 2 = 0 then low ≤ point && point ≤ high else low < point && point < high

/-- The neighbour of `x` among the multiples of `10 ^ -places` that rounds to `x`, the nearer of
two. -/
def onGrid? (x : Binary64) (places : Nat) : Option Nat :=
  let scale := tenTo places
  let floor := x.magnitude.1 * scale / x.magnitude.2
  let rest := x.magnitude.1 * scale % x.magnitude.2
  let upper := x.roundsTo (floor + 1) scale
  if x.roundsTo floor scale then
    if upper && x.magnitude.2 ≤ 2 * rest then some (floor + 1) else some floor
  else if upper then some (floor + 1) else none

/-- The coarsest decimal grid with a point that rounds to `x`, and the point. -/
def shortest? (x : Binary64) : Option (Nat × Nat) :=
  (List.range 1075).findSome? fun places => (x.onGrid? places).map fun count => (places, count)

def isWhole (x : Binary64) : Bool := x.magnitude.1 % x.magnitude.2 = 0

/-- The digits of a count of `10 ^ -places`. -/
def positional (places count : Nat) : Text :=
  Text.ofNat (count / tenTo places) ++
    '.' :: Text.padded places (Text.ofNat (count % tenTo places))

def magnitudeText (x : Binary64) : Text :=
  if x.isWhole then positional 1 (x.magnitude.1 / x.magnitude.2 * 10)
  else match x.shortest? with
    | some (places, count) => positional places count
    | none => []

def text (x : Binary64) : Text :=
  if x.isNaN then "nan".toList
  else (if x.isNegative then ['-'] else []) ++
    if x.isInfinite then "inf".toList else x.magnitudeText

end DocTypes.Binary64
