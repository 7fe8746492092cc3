import DocTypes.Text.Numeral
import DocTypes.Text.Start

set_option autoImplicit false

/-!
# JSON strings

A string stands in double quotes. Reading takes every escape of the format, with two halves of a
surrogate pair for a character beyond the first plane and no half alone, and refuses characters
below the space as they are. Writing escapes these, the quote and the backslash.
-/

namespace DocTypes.Json

/-- A number in four hexadecimal digits, and what follows them. -/
def codeUnit? : Text → Option (Nat × Text)
  | a :: b :: c :: d :: rest =>
    match Text.hexValue? a, Text.hexValue? b, Text.hexValue? c, Text.hexValue? d with
    | some a, some b, some c, some d => some (((a * 16 + b) * 16 + c) * 16 + d, rest)
    | _, _, _, _ => none
  | _ => none

def isLeading (unit : Nat) : Bool := 0xD800 ≤ unit && unit < 0xDC00
def isTrailing (unit : Nat) : Bool := 0xDC00 ≤ unit && unit < 0xE000

def ofPair (leading trailing : Nat) : Char :=
  Char.ofNat (0x10000 + (leading - 0xD800) * 0x400 + (trailing - 0xDC00))

/-- The character escaped by code units, after the first `\u`. -/
def unitEscape? (text : Text) : Option (Char × Text) :=
  match codeUnit? text with
  | none => none
  | some (unit, rest) =>
    if isLeading unit then
      match (Text.after? ['\\', 'u'] rest).bind codeUnit? with
      | none => none
      | some (second, after) => if isTrailing second then some (ofPair unit second, after) else none
    else if isTrailing unit then none
    else some (Char.ofNat unit, rest)

def shortEscape? (c : Char) : Option Char :=
  if c = '"' ∨ c = '\\' ∨ c = '/' then some c
  else if c = 'b' then some '\x08'
  else if c = 'f' then some '\x0c'
  else if c = 'n' then some '\n'
  else if c = 'r' then some '\r'
  else if c = 't' then some '\t'
  else none

/-- The character escaped after a backslash. -/
def escape? : Text → Option (Char × Text)
  | [] => none
  | c :: rest => if c = 'u' then unitEscape? rest else (shortEscape? c).map fun d => (d, rest)

theorem codeUnit?_length {text rest : Text} {unit : Nat} (h : codeUnit? text = some (unit, rest)) :
    rest.length < text.length := by
  unfold codeUnit? at h
  split at h
  · split at h
    · obtain ⟨-, rfl⟩ := Prod.mk.inj (Option.some.inj h)
      simp only [List.length_cons]
      omega
    · cases h
  · cases h

theorem unitEscape?_length {text rest : Text} {c : Char} (h : unitEscape? text = some (c, rest)) :
    rest.length < text.length := by
  unfold unitEscape? at h
  split at h
  · cases h
  · rename_i unit after hu
    have hl := codeUnit?_length hu
    split at h
    · split at h
      · cases h
      · rename_i second last hs
        split at h
        · obtain ⟨-, rfl⟩ := Prod.mk.inj (Option.some.inj h)
          obtain ⟨middle, hm, hc⟩ := Option.bind_eq_some_iff.1 hs
          have h1 := codeUnit?_length hc
          have h2 := congrArg List.length (Text.after?_eq_some_iff.1 hm)
          simp only [List.length_append] at h2
          omega
        · cases h
    · split at h
      · cases h
      · obtain ⟨-, rfl⟩ := Prod.mk.inj (Option.some.inj h)
        exact hl

theorem escape?_length {text rest : Text} {c : Char} (h : escape? text = some (c, rest)) :
    rest.length < text.length := by
  cases text with
  | nil => cases h
  | cons d after =>
    rw [escape?] at h
    split at h
    · exact Nat.lt_succ_of_lt (unitEscape?_length h)
    · obtain ⟨_, _, he⟩ := Option.map_eq_some_iff.1 h
      rw [← (Prod.mk.inj he).2]
      exact Nat.lt_succ_self _

/-- The characters of a string after its opening quote, and what follows the closing one. -/
def stringBody? : Text → Option (Text × Text)
  | [] => none
  | c :: rest =>
    if c = '"' then some ([], rest)
    else if c = '\\' then
      match _he : escape? rest with
      | none => none
      | some (d, after) => (stringBody? after).map (Prod.map (d :: ·) id)
    else if c < ' ' then none
    else (stringBody? rest).map (Prod.map (c :: ·) id)
termination_by text => text.length
decreasing_by
  · exact Nat.lt_succ_of_lt (escape?_length _he)
  · exact Nat.lt_succ_self _

theorem stringBody?_length {text body rest : Text} (h : stringBody? text = some (body, rest)) :
    rest.length < text.length := by
  fun_induction stringBody? text generalizing body with
  | case1 => cases h
  | case2 after =>
    obtain ⟨-, rfl⟩ := Prod.mk.inj (Option.some.inj h)
    exact Nat.lt_succ_self _
  | case3 => cases h
  | case4 after d last he _ ih =>
    obtain ⟨⟨inner, tail⟩, hb, hp⟩ := Option.map_eq_some_iff.1 h
    obtain ⟨-, rfl⟩ := Prod.mk.inj hp
    exact Nat.lt_succ_of_lt (Nat.lt_trans (ih hb) (escape?_length he))
  | case5 => cases h
  | case6 c after _ _ _ ih =>
    obtain ⟨⟨inner, tail⟩, hb, hp⟩ := Option.map_eq_some_iff.1 h
    obtain ⟨-, rfl⟩ := Prod.mk.inj hp
    exact Nat.lt_succ_of_lt (ih hb)

def writeChar (c : Char) : Text :=
  if c = '"' ∨ c = '\\' then ['\\', c]
  else if c = '\x08' then ['\\', 'b']
  else if c = '\x0c' then ['\\', 'f']
  else if c = '\n' then ['\\', 'n']
  else if c = '\r' then ['\\', 'r']
  else if c = '\t' then ['\\', 't']
  else if c < ' ' then '\\' :: 'u' :: Text.ofNatHex 4 c.toNat
  else [c]

def writeString (text : Text) : Text := '"' :: (text.flatMap writeChar ++ ['"'])

/-- An object whose members are written already, without blanks. -/
def writeObject (members : List (Text × Text)) : Text :=
  '{' :: ([','].intercalate (members.map fun m => writeString m.1 ++ ':' :: m.2) ++ ['}'])

end DocTypes.Json
