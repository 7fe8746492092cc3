import DocTypes.Text.Numeral

set_option autoImplicit false

/-!
# Numerals read back

A numeral goes on as long as there are digits, so where no digit follows it tells its number and
where it ends.
-/

namespace DocTypes.Text

theorem nat?_eq_some_iff {text : Text} {n : Nat} : nat? text = some n ↔
    text ≠ [] ∧ (∀ c ∈ text, isDigit c = true) ∧ ofDigits (text.map digitValue) = n := by
  rw [nat?, digits?, ← List.all_eq_true, ← and_assoc]
  split
  case isTrue h => simp [h]
  case isFalse h => simp only [h, Option.map_none, reduceCtorEq, false_and]

/-- A text that does not go on with a digit. -/
def Halts (rest : Text) : Prop := ∀ c ∈ rest.head?, isDigit c = false

theorem isDigit_of_mem_ofNat {c : Char} {n : Nat} (h : c ∈ ofNat n) : isDigit c = true :=
  Nat.isDigit_of_mem_toDigits (by decide) (by decide) h

theorem takeWhile_isDigit_ofNat {rest : Text} (h : Halts rest) (n : Nat) :
    (ofNat n ++ rest).takeWhile isDigit = ofNat n := by
  have hr : rest.takeWhile isDigit = [] := by
    cases rest with
    | nil => rfl
    | cons c rest => exact List.takeWhile_cons_of_neg (by simp [h c rfl])
  rw [List.takeWhile_append_of_pos fun c hc => isDigit_of_mem_ofNat hc, hr, List.append_nil]

theorem ofNat_append_inj {m n : Nat} {r s : Text} (hr : Halts r) (hs : Halts s)
    (h : ofNat m ++ r = ofNat n ++ s) : m = n ∧ r = s := by
  have ht := congrArg (List.takeWhile isDigit) h
  rw [takeWhile_isDigit_ofNat hr, takeWhile_isDigit_ofNat hs] at ht
  rw [ht] at h
  exact ⟨ofNat_injective ht, List.append_cancel_left h⟩

theorem exists_ofNat_eq_cons (n : Nat) : ∃ c rest, ofNat n = c :: rest ∧ isDigit c = true := by
  obtain ⟨c, rest, h⟩ := List.exists_cons_of_ne_nil (Nat.toDigits_ne_nil (n := n) (b := 10))
  refine ⟨c, rest, h, isDigit_of_mem_ofNat (n := n) ?_⟩
  rw [ofNat, h]
  exact List.mem_cons_self ..

theorem ofInt_append_inj {m n : Int} {r s : Text} (hr : Halts r) (hs : Halts s)
    (h : ofInt m ++ r = ofInt n ++ s) : m = n ∧ r = s := by
  have hsign : ∀ (k l : Nat) (p q : Text), ofNat k ++ p ≠ '-' :: (ofNat l ++ q) := by
    intro k l p q he
    obtain ⟨c, rest, hk, hc⟩ := exists_ofNat_eq_cons k
    rw [hk] at he
    rw [(List.cons.inj he).1] at hc
    exact absurd hc (by decide)
  cases m with
  | ofNat m =>
    cases n with
    | ofNat n =>
      obtain ⟨rfl, hrs⟩ := ofNat_append_inj hr hs h
      exact ⟨rfl, hrs⟩
    | negSucc n => exact absurd h (hsign m (n + 1) r s)
  | negSucc m =>
    cases n with
    | ofNat n => exact absurd h.symm (hsign n (m + 1) s r)
    | negSucc n =>
      obtain ⟨hmn, hrs⟩ := ofNat_append_inj hr hs (List.cons.inj h).2
      rw [Nat.succ.inj hmn]
      exact ⟨rfl, hrs⟩

end DocTypes.Text
