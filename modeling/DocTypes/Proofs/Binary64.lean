import DocTypes.Binary64

set_option autoImplicit false

/-!
# No rounding is a NaN

Without their sign, the bits of a NaN are greater than those of an infinity, and a rounding goes up
to infinity at most.
-/

namespace DocTypes.Binary64

/-- The bits but for the sign. -/
def unsigned (x : Binary64) : Nat := x.bits.toNat % twoTo 63

theorem isNaN_eq_decide (x : Binary64) : x.isNaN = decide (infinity.bits.toNat < x.unsigned) := by
  have h52 : twoTo 52 = 4503599627370496 := rfl
  have h11 : twoTo 11 = 2048 := rfl
  have h63 : twoTo 63 = 9223372036854775808 := rfl
  have hi : infinity.bits.toNat = 9218868437227405312 := rfl
  rw [Bool.eq_iff_iff, decide_eq_true_iff, isNaN, Bool.and_eq_true, decide_eq_true_iff, bne_iff_ne,
    exponentField, fractionField, unsigned, h52, h11, h63, hi]
  omega

theorem unsigned_ofSign (negative : Bool) {magnitude : Nat} (h : magnitude < twoTo 63) :
    (ofSign negative magnitude).unsigned = magnitude := by
  have h63 : twoTo 63 = 9223372036854775808 := rfl
  rw [h63] at h
  rw [unsigned, ofSign, UInt64.toNat_ofNat', h63]
  split <;> omega

theorem isNaN_ofSign (negative : Bool) {magnitude : Nat} (h : magnitude ≤ infinity.bits.toNat) :
    (ofSign negative magnitude).isNaN = false := by
  have hm : magnitude < twoTo 63 := Nat.lt_of_le_of_lt h (by decide)
  rw [isNaN_eq_decide, unsigned_ofSign negative hm]
  exact decide_eq_false (Nat.not_lt.2 h)

theorem isNaN_ofQuotient (negative : Bool) (num den : Nat) :
    (ofQuotient negative num den).isNaN = false := by
  rw [ofQuotient]
  split
  · exact isNaN_ofSign negative (Nat.zero_le _)
  · exact isNaN_ofSign negative (Nat.min_le_left _ _)

theorem isNaN_negate (x : Binary64) : x.negate.isNaN = x.isNaN := by
  have hu : x.unsigned < twoTo 63 := Nat.mod_lt _ (by decide)
  rw [isNaN_eq_decide, isNaN_eq_decide, negate, ← unsigned, unsigned_ofSign _ hu]

end DocTypes.Binary64
