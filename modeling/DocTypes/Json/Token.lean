import DocTypes.Json.Numeral
import DocTypes.Json.Quoted

set_option autoImplicit false

/-!
# JSON tokens

A document is a row of marks and scalars, with blanks between them that are spaces, tabs, line feeds
and carriage returns.
-/

namespace DocTypes.Json

inductive Token where
  | mark (c : Char)
  | scalar (value : Json)

namespace Token

def isBlank (c : Char) : Bool := " \t\n\r".toList.contains c
def isMark (c : Char) : Bool := "[]{},:".toList.contains c

def words : List (Text × Json) :=
  [("null".toList, null), ("true".toList, bool true), ("false".toList, bool false)]

def readWord? (text : Text) : Option (Token × Text) :=
  words.findSome? fun word => (Text.after? word.1 text).map fun rest => (scalar word.2, rest)

def readNumber? (text : Text) : Option (Token × Text) :=
  match Numeral.read? text with
  | some (numeral, rest) => numeral.value?.map fun value => (scalar value, rest)
  | none => none

/-- The token at the start of a text, and what follows it. -/
def read? : Text → Option (Token × Text)
  | [] => none
  | c :: rest =>
    if isMark c then some (mark c, rest)
    else if c = '"' then
      (stringBody? rest).map fun found => (scalar (string found.1), found.2)
    else if c = '-' ∨ Text.isDigit c then readNumber? (c :: rest)
    else readWord? (c :: rest)

theorem readWord?_length {text rest : Text} {token : Token}
    (h : readWord? text = some (token, rest)) : rest.length < text.length := by
  obtain ⟨word, hw, hf⟩ := List.exists_of_findSome?_eq_some h
  obtain ⟨after, ha, he⟩ := Option.map_eq_some_iff.1 hf
  obtain ⟨-, rfl⟩ := Prod.mk.inj he
  have hl := congrArg List.length (Text.after?_eq_some_iff.1 ha)
  rw [List.length_append] at hl
  have hpos : 0 < word.1.length := by
    simp only [words, List.mem_cons, List.not_mem_nil, or_false] at hw
    rcases hw with rfl | rfl | rfl <;> decide
  omega

theorem readNumber?_length {text rest : Text} {token : Token}
    (h : readNumber? text = some (token, rest)) : rest.length < text.length := by
  unfold readNumber? at h
  split at h
  · rename_i hn
    obtain ⟨_, _, he⟩ := Option.map_eq_some_iff.1 h
    obtain ⟨-, rfl⟩ := Prod.mk.inj he
    exact Numeral.read?_length hn
  · cases h

theorem read?_length {text rest : Text} {token : Token} (h : read? text = some (token, rest)) :
    rest.length < text.length := by
  cases text with
  | nil => cases h
  | cons c after =>
    rw [read?] at h
    split at h
    · obtain ⟨-, rfl⟩ := Prod.mk.inj (Option.some.inj h)
      exact Nat.lt_succ_self _
    · split at h
      · obtain ⟨⟨body, last⟩, hb, he⟩ := Option.map_eq_some_iff.1 h
        obtain ⟨-, rfl⟩ := Prod.mk.inj he
        exact Nat.lt_succ_of_lt (stringBody?_length hb)
      · split at h
        · exact readNumber?_length h
        · exact readWord?_length h

/-- All tokens of a text. -/
def readAll? : Text → Option (List Token)
  | [] => some []
  | c :: rest =>
    if isBlank c then readAll? rest
    else
      match _h : read? (c :: rest) with
      | none => none
      | some (token, after) => (readAll? after).map (token :: ·)
termination_by text => text.length
decreasing_by
  · exact Nat.lt_succ_self _
  · exact read?_length _h

end Token

end DocTypes.Json
