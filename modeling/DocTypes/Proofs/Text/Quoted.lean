import DocTypes.Text.Quoted
import Mathlib.Tactic.SplitIfs

set_option autoImplicit false

/-!
# Quoted texts read back

Escaped characters and bytes can be read back one at a time, and none of them starts with the quote
that closes. So a text that starts with a quoted one tells what is quoted and where it ends.
-/

namespace DocTypes.Text

section PrefixFree

variable {α : Type} {write : α → Text}

/-- At the start of a text, what is written tells what it was written for and where it ends. -/
def PrefixFree (write : α → Text) : Prop :=
  ∀ a b r s, write a ++ r = write b ++ s → a = b ∧ r = s

/-- Items that can be read one at a time are told up to a character that starts none of them. -/
theorem prefixFree_flatMap {read? : Text → Option (α × Text)} {close : Char}
    (hr : ∀ a rest, read? (write a ++ rest) = some (a, rest))
    (hc : ∀ rest, read? (close :: rest) = none) :
    PrefixFree fun items : List α => items.flatMap write ++ [close] := by
  have hn : ∀ a r s, write a ++ r ≠ close :: s := by
    intro a r s h
    have hs := hc s
    rw [← h, hr] at hs
    cases hs
  intro items
  induction items with
  | nil =>
    intro others r s h
    cases others with
    | nil => exact ⟨rfl, (List.cons.inj h).2⟩
    | cons b others =>
      simp only [List.flatMap_cons, List.append_assoc] at h
      exact absurd h.symm (hn b _ r)
  | cons a items ih =>
    intro others r s h
    cases others with
    | nil =>
      simp only [List.flatMap_cons, List.append_assoc] at h
      exact absurd h (hn a _ s)
    | cons b others =>
      have hread := congrArg read? h
      simp only [List.flatMap_cons, List.append_assoc, hr, Option.some.injEq, Prod.mk.injEq]
        at hread
      obtain ⟨rfl, hrest⟩ := hread
      obtain ⟨rfl, rfl⟩ := ih others r s (by simpa using hrest)
      exact ⟨rfl, rfl⟩

theorem PrefixFree.cons (h : PrefixFree write) (c : Char) : PrefixFree fun a => c :: write a :=
  fun a b r s he => h a b r s (List.cons.inj he).2

end PrefixFree

/-- The character for which an escape stands. -/
def unescaped (c : Char) : Char := if c = 'n' then '\n' else if c = 't' then '\t' else c

/-- The first character of what is quoted, and the rest. -/
def readChar? : Text → Option (Char × Text)
  | [] => none
  | c :: rest =>
    if c = '\'' then none
    else if c = '\\' then
      match rest with
      | [] => none
      | d :: rest => some (unescaped d, rest)
    else some (c, rest)

theorem readChar?_escapeChar (c : Char) (rest : Text) :
    readChar? (escapeChar c ++ rest) = some (c, rest) := by
  unfold escapeChar
  split_ifs with hq hb hn ht
  · rw [hq]; rfl
  · rw [hb]; rfl
  · rw [hn]; rfl
  · rw [ht]; rfl
  · simp [readChar?, hq, hb]

theorem prefixFree_quoted : PrefixFree quoted := by
  have hc : ∀ rest, readChar? ('\'' :: rest) = none := fun _ => rfl
  exact (prefixFree_flatMap readChar?_escapeChar hc).cons '\''

/-- The byte for which a letter stands after a backslash. -/
def escapedByte (c : Char) : UInt8 :=
  if c = 't' then 9 else if c = 'n' then 10 else if c = 'r' then 13 else UInt8.ofNat c.toNat

/-- The first byte of what is quoted, and the rest. -/
def readByte? : Text → Option (UInt8 × Text)
  | [] => none
  | c :: rest =>
    if c = '\'' then none
    else if c = '\\' then
      match rest with
      | 'x' :: high :: low :: rest =>
        (hexValue? high).bind fun h => (hexValue? low).map fun l => (UInt8.ofNat (16 * h + l), rest)
      | d :: rest => some (escapedByte d, rest)
      | [] => none
    else some (UInt8.ofNat c.toNat, rest)

theorem ofNatHex_two {n : Nat} (h : n < 256) :
    ofNatHex 2 n = [Nat.digitChar (n / 16), Nat.digitChar (n % 16)] := by
  have hd : ∀ n : Fin 256, ofNatHex 2 n = [Nat.digitChar (n / 16), Nat.digitChar (n % 16)] := by
    decide +kernel
  exact hd ⟨n, h⟩

theorem hexValue?_digitChar {n : Nat} (h : n < 16) : hexValue? (Nat.digitChar n) = some n := by
  have hd : ∀ n : Fin 16, hexValue? (Nat.digitChar n) = some n.val := by decide +kernel
  exact hd ⟨n, h⟩

theorem readByte?_hex (byte : UInt8) (rest : Text) :
    readByte? ('\\' :: 'x' :: (ofNatHex 2 byte.toNat ++ rest)) = some (byte, rest) := by
  have hlt : byte.toNat < 256 := byte.toNat_lt
  have hb : 16 * (byte.toNat / 16) + byte.toNat % 16 = byte.toNat := Nat.div_add_mod ..
  rw [ofNatHex_two hlt]
  change ((hexValue? _).bind fun h => (hexValue? _).map fun l => _) = _
  rw [hexValue?_digitChar (by omega), Option.bind_some, hexValue?_digitChar (by omega),
    Option.map_some, hb, UInt8.ofNat_toNat]
  rfl

theorem readByte?_printable {byte : UInt8} (hq : byte ≠ 39) (hb : byte ≠ 92) (h : byte < 127)
    (rest : Text) : readByte? (Char.ofNat byte.toNat :: rest) = some (byte, rest) := by
  have hlt : byte.toNat < 127 := h
  have hv : byte.toNat.isValidChar := .inl (by omega)
  have hn : (Char.ofNat byte.toNat).toNat = byte.toNat := by
    rw [Char.ofNat, dif_pos hv]
    rfl
  have hq' : Char.ofNat byte.toNat ≠ '\'' := fun he =>
    hq (UInt8.toNat_inj.1 (hn.symm.trans (congrArg Char.toNat he)))
  have hb' : Char.ofNat byte.toNat ≠ '\\' := fun he =>
    hb (UInt8.toNat_inj.1 (hn.symm.trans (congrArg Char.toNat he)))
  simp [readByte?, hq', hb', hn]

theorem readByte?_escapeByte (byte : UInt8) (rest : Text) :
    readByte? (escapeByte byte ++ rest) = some (byte, rest) := by
  unfold escapeByte
  split_ifs with ht hn hr hd hq hb hp
  · rw [ht]; rfl
  · rw [hn]; rfl
  · rw [hr]; rfl
  · rw [hd]; rfl
  · rw [hq]; rfl
  · rw [hb]; rfl
  · exact readByte?_printable hq hb hp.2 rest
  · exact readByte?_hex byte rest

theorem prefixFree_quotedBytes : PrefixFree quotedBytes := by
  have hc : ∀ rest, readByte? ('\'' :: rest) = none := fun _ => rfl
  exact ((prefixFree_flatMap readByte?_escapeByte hc).cons '\'').cons 'b'

end DocTypes.Text
