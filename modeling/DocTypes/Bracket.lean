import DocTypes.Fault
import DocTypes.Text.Utf8

set_option autoImplicit false

/-!
# Brackets

The four pairs of brackets. Reading a text keeps the brackets that are open, the innermost first: an
opener adds one and a closer takes the innermost away, which has to be of its kind. The closer that
belongs to an opener is the one that takes that opener away.
-/

namespace DocTypes

inductive Bracket where
  | square | round | curly | angle
  deriving DecidableEq

namespace Bracket

def all : List Bracket := [square, round, curly, angle]

def opener : Bracket → Char
  | square => '['
  | round => '('
  | curly => '{'
  | angle => '<'

def closer : Bracket → Char
  | square => ']'
  | round => ')'
  | curly => '}'
  | angle => '>'

def ofOpener? (c : Char) : Option Bracket := all.find? fun b => b.opener = c
def ofCloser? (c : Char) : Option Bracket := all.find? fun b => b.closer = c

/-- The brackets open after a character, if it does not close the wrong one. -/
def step (opened : List Bracket) (c : Char) : Option (List Bracket) :=
  match ofOpener? c, ofCloser? c, opened with
  | some b, _, _ => some (b :: opened)
  | none, none, _ => some opened
  | none, some b, top :: below => if top = b then some below else none
  | none, some _, [] => none

/-- What stands before and what follows the character at which no bracket is open any more. -/
def cut? (opened : List Bracket) : Text → Option (Text × Text)
  | [] => none
  | c :: rest =>
    match step opened c with
    | none => none
    | some [] => some ([], rest)
    | some (top :: below) => (cut? (top :: below) rest).map (Prod.map (c :: ·) id)

/-- The byte at which the bracket that opens at byte `index` is closed. -/
def findClose (text : Text) (index : Nat) : Except Fault Nat :=
  match Text.dropBytes? text index with
  | some (c :: rest) =>
    match ofOpener? c with
    | some kind =>
      match cut? [kind] rest with
      | some (inside, _) => .ok (index + 1 + Text.byteLength inside)
      | none => .error (.unmatched text)
    | none => .error (.noOpener text index)
  | _ => .error (.noOpener text index)

theorem ofOpener?_eq_some {c : Char} {b : Bracket} : ofOpener? c = some b ↔ c = b.opener := by
  constructor
  · intro h
    simpa using (List.find?_some h : _ = true) |> of_decide_eq_true |> Eq.symm
  · rintro rfl
    cases b <;> rfl

theorem ofCloser?_eq_some {c : Char} {b : Bracket} : ofCloser? c = some b ↔ c = b.closer := by
  constructor
  · intro h
    simpa using (List.find?_some h : _ = true) |> of_decide_eq_true |> Eq.symm
  · rintro rfl
    cases b <;> rfl

theorem step_opener (opened : List Bracket) (b : Bracket) :
    step opened b.opener = some (b :: opened) := by
  cases b <;> rfl

theorem step_closer (b : Bracket) (below : List Bracket) :
    step (b :: below) b.closer = some below := by
  cases b <;> simp [step, ofOpener?, ofCloser?, all, opener, closer]

theorem cut?_eq_append {opened : List Bracket} {text inside after : Text}
    (h : cut? opened text = some (inside, after)) : ∃ c, text = inside ++ c :: after := by
  induction text generalizing opened inside with
  | nil => simp [cut?] at h
  | cons c rest ih =>
    rw [cut?] at h
    split at h
    · simp at h
    · obtain ⟨rfl, rfl⟩ := Prod.mk.inj (Option.some.inj h)
      exact ⟨c, rfl⟩
    · obtain ⟨⟨i, a⟩, hr, he⟩ := Option.map_eq_some_iff.1 h
      obtain ⟨rfl, rfl⟩ := Prod.mk.inj he
      obtain ⟨d, rfl⟩ := ih hr
      exact ⟨d, rfl⟩

theorem cut?_length {opened : List Bracket} {text inside after : Text}
    (h : cut? opened text = some (inside, after)) : inside.length < text.length := by
  obtain ⟨c, rfl⟩ := cut?_eq_append h
  simp

end Bracket

end DocTypes
